import CronoVM.Lemmas.Registers

/-!
# Registers of live values

In a function of any shape, values that are live at one point have different registers, and no instruction writes the register of a value that
is live after it. The pool has each register once, and none of a live value.
-/

namespace CronoVM

open Checked Ir

/-- The register of a value that has one. -/
def Cg.regOf (cg : Cg) (v : Local) : Option Byte := (cg.home? v).bind fun h => if h.reg = cgRegSpilled then none else some h.reg

/-- The registers of the values serve the function. -/
structure RegistersSound (fn : Func) (cg : Cg) : Prop where
  apart : ∀ p v w r, fn.graph.Reach p → fn.graph.Live v p → fn.graph.Live w p → cg.regOf v = some r → cg.regOf w = some r → v = w
  noClobber : fn.graph.NoClobber cg.regOf
  phis : ∀ b ∈ fn.blocks, ∀ phi ∈ b.phis, ∀ w r, cg.regOf phi.result = some r → cg.regOf w = some r → w = phi.result
  range : ∀ v r, cg.regOf v = some r → 8 ≤ r.toNat ∧ r.toNat < cg.nextReg ∧ cg.nextReg ≤ 253

/-- The pool in front of an instruction has each register once, and none of a value that is live there. -/
def PoolSound (fn : Func) (cg : Cg) : Prop :=
  ∀ before b i later after cg₁, fn.allocSteps = before ++ .inst b i later :: after → cgAllocSteps fn before cg = .val () cg₁ →
    cg₁.freeList.Nodup ∧ ∀ r ∈ cg₁.freeList, ∀ v, cg₁.regOf v = some r →
      i.op ≠ .phi ∧ ∀ k, b.body[k]? = some i → fn.graph.Reach ⟨b.id, k⟩ → ¬fn.graph.Live v ⟨b.id, k⟩

namespace RegistersAux

variable {fn : Func} {b : Ir.Block} {t : Nat} {cg cg' : Cg} {v w : Local} {r : Byte}

/-- A value in a register has an entry in the map. -/
theorem mem_map_of_regOf (h : cg.regOf v = some r) : ∃ e ∈ cg.map, e.1 = v ∧ e.2.reg = r ∧ r ≠ cgRegSpilled := by
  obtain ⟨home, hhome, hreg⟩ := Option.bind_eq_some_iff.mp h
  obtain ⟨e, hfind, rfl⟩ := Option.map_eq_some_iff.mp hhome
  obtain ⟨hne, heq⟩ := Option.ite_none_left_eq_some.mp hreg
  obtain rfl := Option.some.inj heq
  exact ⟨e, List.mem_of_find?_eq_some hfind, of_decide_eq_true (List.find?_some (p := fun e : Local × Home => e.1 = v) hfind), rfl, hne⟩

/-- Two values with one register: one is released where the other is defined. -/
theorem reused_of_regOf (hfn : fn.Ssa) (h : RegsAt fn b t cg) (hv : cg.regOf v = some r) (hw : cg.regOf w = some r) (hne : v ≠ w) :
    fn.Reused v w ∨ fn.Reused w v := by
  obtain ⟨e, he, rfl, hr, hspilled⟩ := mem_map_of_regOf hv
  obtain ⟨e', he', rfl, hr', -⟩ := mem_map_of_regOf hw
  have hdiff : e ≠ e' := fun heq => hne (congrArg Prod.fst heq)
  rcases Func.rel_or_rel h.apart he he' hdiff with hrel | hrel
  · exact Or.inl ((hrel (hr ▸ hspilled) (hr.trans hr'.symm)).reused hfn)
  · exact Or.inr ((hrel (hr' ▸ hspilled) (hr'.trans hr.symm)).reused hfn)

/-- What holds at the end of the pass makes the registers sound. -/
theorem sound_of_regsAt (hfn : fn.Ssa) (h : RegsAt fn b t cg) : RegistersSound fn cg := by
  refine ⟨?_, ?_, ?_, ?_⟩
  · intro p v w r hreach hv hw hrv hrw
    by_contra hne
    rcases reused_of_regOf hfn h hrv hrw hne with hreused | hreused
    · exact hfn.reused_apart hreused hreach hv hw
    · exact hfn.reused_apart hreused hreach hw hv
  · intro p p' m v w r hreach hmove hdefs hlive hrv hrw
    by_contra hne
    rcases reused_of_regOf hfn h hrv hrw hne with hreused | hreused
    · exact (hfn.reused_no_clobber hreused hreach hmove).1 hdefs hlive
    · exact (hfn.reused_no_clobber hreused hreach hmove).2 hdefs hlive
  · intro c hc phi hphi w r hrphi hrw
    by_contra hne
    rcases reused_of_regOf hfn h hrphi hrw (Ne.symm hne) with hreused | hreused
    · obtain ⟨b', hb', k, -, d, -, hd, -, heq, -⟩ := hreused
      exact hfn.phi_ne hc hb' hphi (List.mem_of_getElem? hd) heq.symm
    · obtain ⟨b', hb', -, k, -, i, -, hi, -, heq, -⟩ := hreused
      exact hfn.phi_ne hc hb' hphi (List.mem_of_getElem? hi) heq.symm
  · intro v r hr
    obtain ⟨e, he, -, rfl, hne⟩ := mem_map_of_regOf hr
    obtain ⟨hlow, hhigh⟩ := h.given e he hne
    exact ⟨hlow, hhigh, h.high⟩

end RegistersAux

open RegistersAux

/-- The registers that the pass gives serve the function. -/
theorem registers_sound (fn : Func) (hfn : fn.Ssa) (cg cg' : Cg) (hmap : cg.map = []) (h : cgPreAllocFunction fn cg = .val () cg') :
    RegistersSound fn cg' := by
  obtain ⟨cg₁, hrun, rfl⟩ := FrameSlotsAux.preAlloc_run h
  have hcursor : Cursor fn (fn.allocSteps ++ []) cg.preAllocStart := (List.append_nil fn.allocSteps).symm ▸ cursor_start fn hmap
  obtain ⟨b, t, hregs⟩ := (hcursor.run hfn hrun).regs
  obtain ⟨hapart, hclobber, hphis, hrange⟩ := sound_of_regsAt hfn hregs
  exact ⟨hapart, hclobber, hphis, hrange⟩

/-! ## A loop with a call -/

/-- A value that is doubled, and then replaced by its sum with what a call gives for it until that reaches the parameter. -/
def loopFn : Func where
  name := "loop"
  params := [.int 32]
  vararg := false
  blocks := [
    ⟨0, [{ id := 0, op := .add, ty := .int 32, operands := [.loc (.arg 0), .loc (.arg 0)] },
      { id := 1, op := .br, ty := .void, operands := [.block 1], successors := [1] }]⟩,
    ⟨1, [{ id := 2, op := .phi, ty := .int 32, operands := [.loc (.inst 0), .loc (.inst 4)], incoming := [0, 1] },
      { id := 3, op := .call, ty := .int 32, operands := [.loc (.inst 2), .const (.func 0)], callee := "f" },
      { id := 4, op := .add, ty := .int 32, operands := [.loc (.inst 2), .loc (.inst 3)] },
      { id := 5, op := .icmp, ty := .int 1, operands := [.loc (.inst 4), .loc (.arg 0)], predicate := some .ult },
      { id := 6, op := .br, ty := .void, operands := [.loc (.inst 5), .block 1, .block 2], successors := [1, 2] }]⟩,
    ⟨2, [{ id := 7, op := .ret, ty := .void, operands := [.loc (.inst 4)] }]⟩]

/-- The values that are set at its points. -/
def loopSet : Point → List Local
  | ⟨0, 0⟩ => [.arg 0]
  | ⟨0, _⟩ => [.arg 0, .inst 0]
  | ⟨1, 0⟩ => [.arg 0, .inst 2]
  | ⟨1, 1⟩ => [.arg 0, .inst 2, .inst 3]
  | ⟨1, 2⟩ => [.arg 0, .inst 4]
  | ⟨1, _⟩ => [.arg 0, .inst 4, .inst 5]
  | _ => [.inst 4]

/-- The function of the loop is in SSA form. -/
theorem loopFn_ssa : loopFn.Ssa := by
  have hcheck : loopFn.ssaCheck loopSet = true := by decide
  exact Func.ssa_of_check hcheck

/-- The pass gets through it. -/
theorem loopFn_preAlloc : ∃ cg, cgPreAllocFunction loopFn freshCg = .val () cg := ⟨_, rfl⟩

theorem registers_sound_loop : ∃ cg, cgPreAllocFunction loopFn freshCg = .val () cg ∧ RegistersSound loopFn cg := by
  obtain ⟨cg, h⟩ := loopFn_preAlloc
  exact ⟨cg, h, registers_sound loopFn loopFn_ssa freshCg cg rfl h⟩

/-- At each instruction the pass comes to, its pool is sound. -/
theorem pool_sound (fn : Func) (hfn : fn.Ssa) (cg : Cg) (hmap : cg.map = []) : PoolSound fn cg.preAllocStart := by
  intro before b i later after cg₁ hsteps hrun
  have hcursor : Cursor fn (before ++ .inst b i later :: after) cg.preAllocStart := hsteps ▸ cursor_start fn hmap
  obtain ⟨hb, hib, t, hi, hregs⟩ := (hcursor.run hfn hrun).inst
  refine ⟨hregs.nodup, fun r hr v hv => ?_⟩
  obtain ⟨e, he, rfl, hreg, -⟩ := mem_map_of_regOf hv
  have hreleased : Released fn e.1 i.result := ⟨b, hb, t, i, hi, hib, rfl, hregs.pool r hr e he hreg⟩
  obtain ⟨c, hc, k₁, k₂, d, i', hd, hi', hed, hires, -, hphis, huses⟩ := hreleased.reused hfn
  have hbody := Func.mem_body.mp (List.mem_of_getElem? hi')
  obtain rfl := hfn.eq_of_result (Func.mem_insts hb hib) (Func.mem_insts hc hbody.1) hires
  refine ⟨hbody.2, fun k hk hreach hlive => ?_⟩
  obtain ⟨rfl, rfl⟩ := hfn.point_eq hb hc hk hi' rfl
  rw [hed] at hphis huses hlive
  obtain ⟨-, -, hlt⟩ := hfn.live_of_reused hb hd hphis huses hreach hlive
  exact Nat.lt_irrefl _ hlt

theorem pool_sound_loop : PoolSound loopFn freshCg.preAllocStart := pool_sound loopFn loopFn_ssa freshCg rfl

end CronoVM
