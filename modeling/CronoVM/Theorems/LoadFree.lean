import CronoVM.Lemmas.LoadLedger

/-!
# Failed loads leave nothing behind

Whatever the file and whatever the allocator answers: a load that fails has freed every block it obtained and leaves `*out` cleared, and
after a load that succeeds `cvm_image_free` frees every block.
-/

namespace CronoVM

open Checked LedgerAux

namespace LoadFreeAux

variable {A κ : Type} (al : Allocator A)

/-- A piece of the loader, inside a call of the host, changes its part of the state only. -/
theorem wp_liftLoad {α : Type} (m : Load A α) {Q : α → Lifecycle A κ → Prop} {E : CvmResult → Lifecycle A κ → Prop} (s : Lifecycle A κ) :
    Exec.wp (liftLoad m) Q E s ↔ Exec.wp m (fun a t => Q a { s with load := t }) (fun e t => E e { s with load := t }) s.load := by
  unfold Exec.wp liftLoad
  cases m s.load <;> rfl

/-- What is left to be freed. -/
structure Owes (blocks : Multiset Nat) (s : Lifecycle A κ) : Prop where
  owed : freed s.load.events + blocks = obtained s.load.events
  routed : ∀ e ∈ s.load.events, e.Routed al

/-- A block is freed, and the rest is still owed. -/
theorem wp_pay {p : Option Block} {rest : Multiset Nat} {s : Lifecycle A κ} (h : Owes al (named p + rest) s)
    {k : Unit → Exec (Lifecycle A κ) CvmResult Unit} {Q : Unit → Lifecycle A κ → Prop} {E : CvmResult → Lifecycle A κ → Prop}
    (hk : ∀ t, Owes al rest t → Exec.wp (k ()) Q E t) : Exec.wp (liftLoad (cvmIntFree al p) >>= k) Q E s := by
  rw [Exec.wp_bind, wp_liftLoad]
  refine Exec.wp_mono (fun _ t ⟨_, hfreed, hobtained, hrouted⟩ => ?_) (fun _ _ h => h.elim) (wp_cvmIntFree al p s.load)
  refine hk _ ⟨?_, hrouted h.routed⟩
  change freed t.events + rest = obtained t.events
  rw [hfreed, hobtained, ← h.owed, Multiset.add_assoc]

/-- An image with the blocks and the hooks of a load is freed whole. -/
theorem wp_cvmImageFree {bs : Blocks} {s : Lifecycle A κ} (h : Held al bs s.load) (hblocks : s.out.blocks = bs)
    (halloc : s.out.allocFn = al.hasAlloc) (hfree : s.out.freeFn = al.hasFree) :
    Exec.wp (cvmImageFree al) (fun _ t => FreedOnce al t.load.events ∧ t.out = OwnedImage.zero) (fun _ _ => False) s := by
  have hallocator : { al with hasAlloc := s.out.allocFn, hasFree := s.out.freeFn } = al := by rw [halloc, hfree]
  have howed : Owes al (namedAll bs) s := {
    owed := by rw [h.freed, h.obtained, Multiset.zero_add]
    routed := h.routed }
  have hsum : namedAll bs = named bs.code + (named bs.heap + (named bs.importNames + (named bs.importFns + (named bs.importUd +
      (named bs.importBlob + (named bs.funcOffsets + (named bs.regions + 0))))))) := by
    unfold namedAll
    abel
  rw [hsum] at howed
  rw [cvmImageFree, Exec.wp_bind, Exec.wp_get]
  dsimp only
  rw [hallocator, hblocks]
  refine wp_pay al howed fun s1 h1 => wp_pay al h1 fun s2 h2 => wp_pay al h2 fun s3 h3 => wp_pay al h3 fun s4 h4 => wp_pay al h4
    fun s5 h5 => wp_pay al h5 fun s6 h6 => wp_pay al h6 fun s7 h7 => wp_pay al h7 fun s8 h8 => ?_
  exact ⟨freedOnce_of al ((Multiset.add_zero _).symm.trans h8.owed) h8.routed, rfl⟩

/-- Nothing is done to a cleared image. -/
theorem cvmImageFree_zero {s : Lifecycle A κ} (h : s.out = OwnedImage.zero) : cvmImageFree al s = .val () s := by
  cases s with
  | mk out load =>
    cases h
    rfl

end LoadFreeAux

open LoadFreeAux

/-- Every way out of `cvm_load_ex`, for every file and every allocator. If it returns an error, every block it obtained was freed once,
through the hook for deallocations, and `*out` is cleared, so that `cvm_image_free` asks nothing of the allocator. If it succeeds,
`cvm_image_free` has afterwards freed every block once. -/
theorem load_frees_once {A κ : Type} (al : Allocator A) (base : List Byte) (world : A) (out : OwnedImage κ) :
    Exec.wp (cvmLoadInto al base)
      (fun _ t => Exec.wp (cvmImageFree al) (fun _ u => FreedOnce al u.load.events ∧ u.out = OwnedImage.zero) (fun _ _ => False) t)
      (fun _ t => FreedOnce al t.load.events ∧ t.out = OwnedImage.zero ∧ cvmImageFree al t = .val () t)
      { out, load := LoadState.start world } := by
  have hstart : Settled al (LoadState.start world) := freedOnce_of al rfl fun _ h => by cases h
  have hbad : ∀ t u, (∃ bs, Held al bs t) → freeEach al LoadAux.badFuncsFrees t = .val () u → Settled al u := by
    rintro t u ⟨bs, hbs⟩ hrun
    have hall : namedBy LoadAux.badFuncsFrees bs = namedAll bs := by
      simp only [LoadAux.badFuncsFrees, namedBy_cons, namedBy_nil, namedAll]
      abel
    have hwp := wp_settle al hbs hall
    have hsettled := Exec.of_wp hwp hrun
    exact hsettled
  have hload : Exec.wp (cvmLoadEx al base : Load A (Image κ)) (fun _ t => _ ∧ ∃ bs, Held al bs t) (fun _ t => _ ∧ Settled al t)
      (LoadState.start world) := LoadAux.wp_cvmLoadEx_with al hstart (fun p _ _ _ => wp_loadAlloc al p world) hbad
  rw [cvmLoadInto, Exec.wp_bind, Exec.wp_modify, Exec.wp_bind, wp_liftLoad]
  refine Exec.wp_mono (fun img t h => ?_) (fun e t h => ?_) hload
  · obtain ⟨-, bs, hbs⟩ := h
    rw [Exec.wp_modify]
    exact wp_cvmImageFree al hbs hbs.blocks rfl rfl
  · exact ⟨h.2, rfl, cvmImageFree_zero al rfl⟩

end CronoVM
