import CronoVM.Interp.Run

/-!
# Bounds of the handlers

The checks of the handlers are 32-bit; here is what each of them says about the size of memory, and from these that no handler makes
a raw access out of bounds or writes outside the heap.
-/

namespace CronoVM

open Checked Vm

namespace BoundsAux

/-! ## The checks -/

/-- `addr > mem_size || mem_size - addr < n` rejects every range that leaves memory; neither side wraps. -/
theorem range_le {addr memSize n : Word} (h : ¬(addr > memSize ∨ memSize - addr < n)) :
    addr.toNat + n.toNat ≤ memSize.toNat := by
  simp only [not_or, gt_iff_lt, BitVec.lt_def, BitVec.toNat_sub] at h
  omega

/-- `sp < 4 || sp > mem_size` leaves room for the word below `sp`. -/
theorem push_le {sp memSize : Word} (h : ¬(sp < 4 ∨ sp > memSize)) : (sp - 4).toNat + 4 ≤ memSize.toNat := by
  simp only [not_or, gt_iff_lt, BitVec.lt_def] at h
  have hsub : (sp - 4).toNat = sp.toNat - 4 := BitVec.toNat_sub_of_le (by simpa [BitVec.le_def] using h.1)
  have h4 : (4 : Word).toNat = 4 := rfl
  omega

theorem toNat_lt_of_not_ge {i n : Word} (h : ¬i ≥ n) : i.toNat < n.toNat := by
  simpa [BitVec.le_def] using h

/-! ## The invariant of a run -/

variable {κ W : Type}

/-- What every instruction keeps: the heap differs from the one at the start inside the array only, and the import table has its
length. -/
structure Within (img : Image κ) (m₀ heap : Mem) (importFns : List (Option (SyscallFn κ))) : Prop where
  heap : m₀.SameOutside heap
  imports : importFns.length = img.importCount.toNat

variable {img : Image κ} {m₀ m : Mem} {imps : List (Option (SyscallFn κ))}

theorem Within.size (h : Within img m₀ m imps) (h₀ : m₀.size = img.memSize.toNat) : m.size = img.memSize.toNat :=
  h.heap.1.trans h₀

/-- A write inside the array keeps the invariant. -/
theorem Within.write (h : Within img m₀ m imps) {m' : Mem} (hm : m.SameOutside m') : Within img m₀ m' imps :=
  ⟨⟨hm.1.trans h.heap.1, fun i hi => (hm.2 i (by rw [h.heap.1]; exact hi)).trans (h.heap.2 i hi)⟩, h.imports⟩

theorem Within.blit (h : Within img m₀ m imps) (h₀ : m₀.size = img.memSize.toNat) {p n : Nat} (f : Nat → Byte)
    (hp : p + n ≤ img.memSize.toNat) : Within img m₀ (m.blit p n f) imps :=
  h.write (m.sameOutside_blit f (by rw [h.size h₀]; exact hp))

theorem Within.setWord (h : Within img m₀ m imps) (h₀ : m₀.size = img.memSize.toNat) {p : Nat} (w : Word)
    (hp : p + 4 ≤ img.memSize.toNat) : Within img m₀ (m.setWord p w) imps :=
  h.blit h₀ _ hp

/-! ## The handlers -/

/-- Each case of the switch makes its raw accesses in bounds and keeps the invariant. -/
theorem cases_within {host : Host κ W} (hhost : host.WritesInside) (himg : img.Wf) (h₀ : m₀.size = img.memSize.toNat) (inst : Word) (a b c : Byte)
    (f : Frame κ W) (hf : Within img m₀ f.heap f.importFns) (op : Opcode) :
    Exec.wp (Switch.cases img host inst a b c op) (fun _ g => Within img m₀ g.heap g.importFns)
      (fun _ g => Within img m₀ g.heap g.importFns) f := by
  have hs := hf.size h₀
  have h2 : (2 : Word).toNat = 2 := rfl
  have h4 : (4 : Word).toNat = 4 := rfl
  have h12 : (12 : Word).toNat = 12 := rfl
  have h16 : (16 : Word).toNat = 16 := rfl
  cases op
  all_goals simp only [Switch.cases]
  -- The handlers that touch registers and the pc only.
  all_goals try (simp [hf]; done)
  all_goals simp only [Exec.wp_bind, Exec.wp_pure, Exec.wp_ite, wp_failIf, wp_done, wp_reg, wp_setReg, wp_setRegAt, wp_getPc,
    wp_setPc, wp_load8, wp_load16, wp_load32, wp_funcOffset, wp_importFn, wp_memmove, wp_memcpy, store8, store16, store32,
    memset, wp_writeAt, Mem.setWord_size, himg.funcs_length, hf.imports, hs, hf, implies_true, true_and, and_true]
  case ldw =>
    intro h
    exact range_le h
  case stw =>
    intro h
    exact ⟨range_le h, hf.setWord h₀ _ (range_le h)⟩
  case syscall =>
    intro h
    refine ⟨toNat_lt_of_not_ge h, ?_⟩
    cases f.importFns.getD _ none with
    | none => exact hf
    | some fn =>
      have hcall : Within img m₀ (host.call fn f.toHostView).1.heap (host.call fn f.toHostView).1.importFns :=
        ⟨(hf.write (hhost.heap fn f.toHostView)).heap, (hhost.imports fn f.toHostView).trans hf.imports⟩
      simp [hcall]
  case call =>
    intro _ hfid hsp
    exact ⟨push_le hsp, toNat_lt_of_not_ge hfid, hf.setWord h₀ _ (push_le hsp)⟩
  case ret =>
    intro h
    exact range_le h
  case callr =>
    intro _ hfid hsp
    exact ⟨push_le hsp, toNat_lt_of_not_ge hfid, hf.setWord h₀ _ (push_le hsp)⟩
  case ldb =>
    intro h
    exact toNat_lt_of_not_ge h
  case stb =>
    intro h
    have := toNat_lt_of_not_ge h
    exact ⟨by omega, hf.blit h₀ _ (by omega)⟩
  case ldh =>
    intro h
    exact range_le h
  case sth =>
    intro h
    exact ⟨range_le h, hf.blit h₀ _ (range_le h)⟩
  case memcpy =>
    intro _ hd hsrc
    refine ⟨range_le hsrc, range_le hd, hf.write ⟨host.memcpy.size_eq _ _ _ _, fun i hi => ?_⟩⟩
    have := range_le hd
    exact host.memcpy.frame _ _ _ _ i (Or.inr (by omega))
  case memset =>
    intro _ hd
    exact ⟨range_le hd, hf.blit h₀ _ (range_le hd)⟩
  case memmove =>
    intro _ hd hsrc
    exact ⟨range_le hsrc, range_le hd, hf.blit h₀ _ (range_le hd)⟩
  case setjmp =>
    intro henv
    have henv := range_le henv
    exact ⟨by omega, by omega, by omega,
      ((hf.setWord h₀ _ (by omega)).setWord h₀ _ (by omega)).setWord h₀ _ (by omega)⟩
  case longjmp =>
    intro henv
    have henv := range_le henv
    exact ⟨by omega, by omega, by omega, fun _ hdst => by omega⟩
  case coroSwap =>
    intro hsrc hdst _
    have hsrc := range_le hsrc
    have hdst := range_le hdst
    -- The five words the swap writes, whatever the two records' positions.
    have hwritten : ∀ w₀ w₁ w₂ w₃ w₄ : Word, Within img m₀ (((((f.heap.setWord (f.regs a).toNat w₀).setWord
        ((f.regs a).toNat + 4) w₁).setWord ((f.regs a).toNat + 8) w₂).setWord ((f.regs a).toNat + 12) w₃).setWord
        ((f.regs b).toNat + 12) w₄) f.importFns := fun _ _ _ _ _ =>
      ((((hf.setWord h₀ _ (by omega)).setWord h₀ _ (by omega)).setWord h₀ _ (by omega)).setWord h₀ _ (by omega)).setWord h₀
        _ (by omega)
    simp only [hwritten, implies_true, and_true]
    refine ⟨by omega, fun _ => ⟨by omega, by omega, by omega, ?_, ?_⟩⟩
    · intro _ _ hfid
      refine ⟨toNat_lt_of_not_ge hfid, fun hreg _ => ⟨by omega, by omega, by omega, by omega, by omega, fun _ => by omega⟩⟩
    · intro hstat _
      exact ⟨by omega, by omega, by omega, by omega, by omega, fun h => absurd h hstat⟩

end BoundsAux

end CronoVM
