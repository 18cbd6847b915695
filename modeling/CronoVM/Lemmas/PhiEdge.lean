import CronoVM.Lemmas.PhiOrder

/-!
# The phi moves of an edge

What the collection returns: for each phi of the edge one move to its home, or two where it is a 64-bit value, without the moves of a
location to itself.
-/

namespace CronoVM

open Checked Ir

variable {κ W : Type}

/-! ## The moves -/

/-- Where the two words of a 64-bit value come from; `undef` is what the zero register holds. -/
def wideSrcs (cg : Cg) (sval : Val) : MoveSrc × MoveSrc :=
  match (cg.lookup sval).bind Home.i64Slot with
  | some s => (.loc (.slot s), .loc (.slot (s + 1)))
  | none =>
    match sval.cgWideConstWords with
    | some (lo, hi) => (.word lo, .word hi)
    | none => (.loc (.reg cg.zeroReg), .loc (.reg cg.zeroReg))

/-- Where a scalar value comes from. -/
def scalarSrc (cg : Cg) (sval : Val) : MoveSrc :=
  match cg.lookup sval with
  | some home => .loc (cgPhiDstLoc home)
  | none => if sval.isUndef = true then .loc (.reg cg.zeroReg) else .const sval

/-- The moves that bring a value to the home of a phi. -/
def homeMoves (cg : Cg) (home : Home) (sval : Val) : List PhiMove :=
  match home.i64Slot with
  | some d => [{ dst := .slot d, src := (wideSrcs cg sval).1 }, { dst := .slot (d + 1), src := (wideSrcs cg sval).2 }]
  | none => [{ dst := cgPhiDstLoc home, src := scalarSrc cg sval }]

/-- The moves of one phi on the edge from `pred`. -/
def phiMovesOf (cg : Cg) (pred : Nat) (phi : Inst) : List PhiMove :=
  if phi.isEh = true then []
  else
    match incomingFrom phi pred, cg.home? phi.result with
    | some sval, some home => homeMoves cg home sval
    | _, _ => []

/-- The parallel copy of an edge, with the moves of a location to itself. -/
def edgeMoves (cg : Cg) (pred : Nat) (phis : List Inst) : List PhiMove := phis.flatMap (phiMovesOf cg pred)

/-- The move writes another location than it reads. -/
def PhiMove.moves (m : PhiMove) : Bool := m.src ≠ .loc m.dst

/-! ## Their collection -/

/-- What the collection stops with at a phi, with `n` moves collected before it. -/
inductive Cg.PhiStops (cg : Cg) (pred : Nat) (phi : Inst) (n : Nat) : CgError → Prop where
  | notAllocated {sval : Val} (heh : ¬phi.isEh = true) (hsval : incomingFrom phi pred = some sval) (hhome : cg.home? phi.result = none) :
      cg.PhiStops pred phi n .phiNotAllocated
  | tooMany {sval : Val} (heh : ¬phi.isEh = true) (hsval : incomingFrom phi pred = some sval) (hfull : n + 2 > phiMaxMoves) :
      cg.PhiStops pred phi n .tooManyPhiMoves
  | wideSource {sval : Val} {home : Home} {d : Nat} (heh : ¬phi.isEh = true) (hsval : incomingFrom phi pred = some sval)
      (hhome : cg.home? phi.result = some home) (hwide : home.i64Slot = some d) (hslot : (cg.lookup sval).bind Home.i64Slot = none)
      (hwords : sval.cgWideConstWords = none) (hundef : ¬sval.isUndef = true) : cg.PhiStops pred phi n .widePhiSource

/-- It stops at one of the phis, after the moves of those before it. -/
def Cg.CollectStops (cg : Cg) (pred : Nat) (phis : List Inst) (n : Nat) (e : CgError) (_ : Cg) : Prop :=
  ∃ before phi after, phis = before ++ phi :: after ∧
    cg.PhiStops pred phi (n + ((edgeMoves cg pred before).filter PhiMove.moves).length) e

section collect

variable {cg : Cg} {moves : List PhiMove} {sval : Val} {home : Home} {pred : Nat} {phi : Inst} {E : CgError → Cg → Prop}

theorem wp_pushMove {Q : List PhiMove → Cg → Prop} {m : PhiMove} (hroom : moves.length < phiMaxMoves) (h : Q (moves ++ [m]) cg) :
    Exec.wp (pushMove moves m) Q E cg := by
  rw [pushMove, Exec.wp_bind, Exec.wp_demand, Exec.wp_pure]
  exact ⟨hroom, h⟩

/-- A move between locations is collected unless it is one to itself. -/
theorem wp_pushLocMove {Q : List PhiMove → Cg → Prop} {dst src : Loc} (hroom : moves.length < phiMaxMoves)
    (h : Q (moves ++ [{ dst := dst, src := .loc src : PhiMove }].filter PhiMove.moves) cg) :
    Exec.wp (pushLocMove moves dst src) Q E cg := by
  unfold pushLocMove
  rw [Exec.wp_ite]
  constructor
  · intro hne
    have hmoves : PhiMove.moves { dst := dst, src := .loc src } = true := by simpa [PhiMove.moves] using hne
    rw [List.filter_singleton, hmoves] at h
    exact wp_pushMove hroom h
  · intro heq
    have hmoves : PhiMove.moves { dst := dst, src := .loc src } = false := by simpa [PhiMove.moves] using heq
    rw [List.filter_singleton, hmoves] at h
    simpa using h

theorem length_filter_singleton (m : PhiMove) : ([m].filter PhiMove.moves).length ≤ 1 :=
  (List.length_filter_le _ _).trans (Nat.le_refl 1)

/-- The moves of a 64-bit phi. -/
theorem wp_collectWide {Q : List PhiMove → Cg → Prop} {d : Nat} (hroom : moves.length + 2 ≤ phiMaxMoves)
    (h : Q (moves ++ [{ dst := .slot d, src := (wideSrcs cg sval).1 : PhiMove },
      { dst := .slot (d + 1), src := (wideSrcs cg sval).2 }].filter PhiMove.moves) cg)
    (hE : (cg.lookup sval).bind Home.i64Slot = none → sval.cgWideConstWords = none → ¬sval.isUndef = true → E .widePhiSource cg) :
    Exec.wp (collectWide moves d sval) Q E cg := by
  unfold collectWide
  rw [Exec.wp_bind, Exec.wp_get]
  unfold wideSrcs at h
  cases hslot : (cg.lookup sval).bind Home.i64Slot with
  | some s =>
    simp only [hslot] at h
    rw [Exec.wp_bind]
    refine wp_pushLocMove (by omega) ?_
    refine wp_pushLocMove ?_ ?_
    · have hone := length_filter_singleton { dst := .slot d, src := .loc (.slot s) }
      rw [List.length_append]
      omega
    · rw [List.append_assoc, ← List.filter_append]
      exact h
  | none =>
    simp only [hslot] at h
    cases hwords : sval.cgWideConstWords with
    | some ws =>
      simp only [hwords] at h
      rw [Exec.wp_bind]
      refine wp_pushMove (by omega) (wp_pushMove (by rw [List.length_append, List.length_singleton]; omega) ?_)
      rw [List.append_assoc]
      exact h
    | none =>
      simp only [hwords] at h
      simp only [Exec.wp_ite, Exec.wp_bind, Exec.wp_stop]
      refine ⟨fun _ => ?_, hE hslot hwords⟩
      refine wp_pushMove (by omega) (wp_pushMove (by rw [List.length_append, List.length_singleton]; omega) ?_)
      rw [List.append_assoc]
      exact h

/-- The location a value with a home is read from. -/
theorem wp_cgPhiSrcLoc {Q : Loc → Cg → Prop} (hhome : cg.lookup sval = some home) (h : Q (cgPhiDstLoc home) cg) :
    Exec.wp (cgPhiSrcLoc sval) Q E cg := by
  unfold cgPhiSrcLoc
  rw [Exec.wp_bind, Exec.wp_get]
  unfold cgPhiDstLoc at h
  cases hslot : home.valSlot with
  | some k =>
    simp only [hslot] at h
    simp only [hhome, Option.bind_some, hslot]
    exact h
  | none =>
    simp only [hslot] at h
    simp only [hhome, Option.bind_some, hslot, cgRegFor, Exec.wp_bind, Exec.wp_get]
    exact h

/-- The move of a scalar phi. -/
theorem wp_collectScalar {Q : List PhiMove → Cg → Prop} {dst : Loc} (hroom : moves.length < phiMaxMoves)
    (h : Q (moves ++ [{ dst := dst, src := scalarSrc cg sval : PhiMove }].filter PhiMove.moves) cg) :
    Exec.wp (collectScalar moves dst sval) Q E cg := by
  unfold collectScalar
  rw [Exec.wp_bind, Exec.wp_get]
  unfold scalarSrc at h
  cases hhome : cg.lookup sval with
  | some home =>
    simp only [hhome] at h
    rw [if_pos (by simp)]
    rw [Exec.wp_bind]
    exact wp_cgPhiSrcLoc hhome (wp_pushLocMove hroom h)
  | none =>
    simp only [hhome] at h
    rw [if_neg (by simp), Exec.wp_ite]
    constructor
    · intro hundef
      rw [if_pos hundef] at h
      exact wp_pushLocMove hroom h
    · intro hundef
      rw [if_neg hundef] at h
      exact wp_pushMove hroom h

/-- A phi adds its moves. -/
theorem wp_collectPhi (hlen : moves.length ≤ phiMaxMoves) :
    Exec.wp (collectPhi pred moves phi) (fun moves' cg' =>
      cg' = cg ∧ moves' = moves ++ (phiMovesOf cg pred phi).filter PhiMove.moves ∧ moves'.length ≤ phiMaxMoves)
      (fun e _ => cg.PhiStops pred phi moves.length e) cg := by
  have hlen_filter : ∀ {ms : List PhiMove}, moves.length + 2 ≤ phiMaxMoves → ms.length ≤ 2 →
      (moves ++ ms.filter PhiMove.moves).length ≤ phiMaxMoves := by
    intro ms hroom hms
    have hle := List.length_filter_le PhiMove.moves ms
    rw [List.length_append]
    omega
  unfold collectPhi phiMovesOf
  by_cases heh : phi.isEh = true
  · rw [if_pos heh, if_pos heh, Exec.wp_pure]
    exact ⟨rfl, by simp, hlen⟩
  · rw [if_neg heh, if_neg heh]
    cases hval : incomingFrom phi pred with
    | none => exact ⟨rfl, by simp, hlen⟩
    | some sval =>
      rw [Exec.wp_bind, Exec.wp_get]
      cases hhome : cg.home? phi.result with
      | none => exact .notAllocated heh hval hhome
      | some home =>
        rw [Exec.wp_bind, Exec.wp_stopIf]
        refine ⟨fun hfull => .tooMany heh hval hfull, fun hroom => ?_⟩
        simp only [homeMoves]
        cases hslot : home.i64Slot with
        | some d =>
          refine wp_collectWide (by omega) ⟨rfl, rfl, hlen_filter (by omega) (Nat.le_refl 2)⟩ fun hnone hwords hundef => ?_
          exact .wideSource heh hval hhome hslot hnone hwords hundef
        | none => exact wp_collectScalar (by omega) ⟨rfl, rfl, hlen_filter (by omega) (Nat.le_succ 1)⟩

/-- All phis add their moves. -/
theorem wp_collectPhis (phis : List Inst) (hlen : moves.length ≤ phiMaxMoves) :
    Exec.wp (collectPhis pred phis moves) (fun moves' cg' =>
      cg' = cg ∧ moves' = moves ++ (edgeMoves cg pred phis).filter PhiMove.moves ∧ moves'.length ≤ phiMaxMoves)
      (cg.CollectStops pred phis moves.length) cg := by
  induction phis generalizing moves with
  | nil => exact ⟨rfl, by simp [edgeMoves], hlen⟩
  | cons phi phis ih =>
    rw [collectPhis, Exec.wp_bind]
    refine Exec.wp_mono ?_ (fun e _ he => ⟨[], phi, phis, rfl, he⟩) (wp_collectPhi hlen)
    rintro moves₁ cg₁ ⟨rfl, rfl, hlen₁⟩
    have hlater : ∀ e t, cg₁.CollectStops pred phis (moves ++ (phiMovesOf cg₁ pred phi).filter PhiMove.moves).length e t →
        cg₁.CollectStops pred (phi :: phis) moves.length e t := by
      rintro e t ⟨before, phi', after, rfl, he⟩
      refine ⟨phi :: before, phi', after, rfl, ?_⟩
      simpa only [edgeMoves, List.flatMap_cons, List.filter_append, List.length_append, Nat.add_assoc] using he
    refine Exec.wp_mono ?_ hlater (ih hlen₁)
    rintro moves₂ cg₂ ⟨rfl, rfl, hlen₂⟩
    refine ⟨rfl, ?_, hlen₂⟩
    simp only [edgeMoves, List.flatMap_cons, List.filter_append, List.append_assoc]

end collect

/-! ## They are in order -/

section ok

variable {cg : Cg}

theorem lookup_home {sval : Val} {home : Home} (h : cg.lookup sval = some home) : ∃ l, cg.home? l = some home := by
  cases sval with
  | loc l => exact ⟨l, h⟩
  | block id => exact absurd h.symm (Option.some_ne_none home)
  | const c => exact absurd h.symm (Option.some_ne_none home)

/-- The sources of a 64-bit value. -/
theorem wideSrcs_ok (hok : cg.Ok) (sval : Val) (s : MoveSrc) (hs : s = (wideSrcs cg sval).1 ∨ s = (wideSrcs cg sval).2) :
    (∀ l, s = .loc l → Loc.Ok cg cg.nextReg l) ∧ ∀ cv, s ≠ .const cv := by
  unfold wideSrcs at hs
  cases hslot : (cg.lookup sval).bind Home.i64Slot with
  | some k =>
    obtain ⟨home, hhome, hk⟩ := Option.bind_eq_some_iff.mp hslot
    obtain ⟨l, hl⟩ := lookup_home hhome
    have hlt := hok.wide_lt l home k hl hk
    simp only [hslot] at hs
    rcases hs with rfl | rfl
    · refine ⟨?_, by simp⟩
      rintro _ ⟨⟩
      exact Nat.lt_of_succ_lt hlt
    · refine ⟨?_, by simp⟩
      rintro _ ⟨⟩
      exact hlt
  | none =>
    simp only [hslot] at hs
    cases hwords : sval.cgWideConstWords with
    | some ws =>
      simp only [hwords] at hs
      rcases hs with rfl | rfl <;> simp
    | none =>
      simp only [hwords] at hs
      have hzero : ∀ l, MoveSrc.loc (.reg cg.zeroReg) = .loc l → Loc.Ok cg cg.nextReg l := by
        rintro _ ⟨⟩
        exact hok.zero_ok
      rcases hs with rfl | rfl <;> exact ⟨hzero, by simp⟩

theorem scalarSrc_ok (hok : cg.Ok) (sval : Val) :
    (∀ l, scalarSrc cg sval = .loc l → Loc.Ok cg cg.nextReg l) ∧ ∀ cv, scalarSrc cg sval = .const cv → cg.lookup cv = none := by
  unfold scalarSrc
  cases hhome : cg.lookup sval with
  | some home =>
    obtain ⟨l, hl⟩ := lookup_home hhome
    refine ⟨?_, by simp⟩
    rintro _ ⟨⟩
    exact (hok.home_ok hl).1
  | none =>
    simp only
    split
    · refine ⟨?_, by simp⟩
      rintro _ ⟨⟩
      exact hok.zero_ok
    · refine ⟨by simp, ?_⟩
      rintro _ ⟨⟩
      exact hhome

/-- The moves of an edge are between locations of the function. -/
theorem edgeMove_ok (hok : cg.Ok) {pred : Nat} {phis : List Inst} {m : PhiMove} (hm : m ∈ edgeMoves cg pred phis) :
    (Loc.Ok cg cg.nextReg m.dst ∧ m.dst ≠ .reg cgRegZero) ∧ (∀ l, m.src = .loc l → Loc.Ok cg cg.nextReg l) ∧
      ∀ cv, m.src = .const cv → cg.lookup cv = none := by
  obtain ⟨phi, _, hm⟩ := List.mem_flatMap.mp hm
  unfold phiMovesOf at hm
  split at hm
  · exact absurd hm List.not_mem_nil
  split at hm
  case h_2 => exact absurd hm List.not_mem_nil
  case h_1 sval home _ hhome =>
    unfold homeMoves at hm
    cases hslot : home.i64Slot with
    | some d =>
      have hlt := hok.wide_lt _ home d hhome hslot
      simp only [hslot, List.mem_cons, List.not_mem_nil, or_false] at hm
      rcases hm with rfl | rfl
      · have hsrc := wideSrcs_ok hok sval _ (Or.inl rfl)
        exact ⟨⟨Nat.lt_of_succ_lt hlt, by simp⟩, hsrc.1, fun cv hcv => absurd hcv (hsrc.2 cv)⟩
      · have hsrc := wideSrcs_ok hok sval _ (Or.inr rfl)
        exact ⟨⟨hlt, by simp⟩, hsrc.1, fun cv hcv => absurd hcv (hsrc.2 cv)⟩
    | none =>
      simp only [hslot, List.mem_singleton] at hm
      subst hm
      exact ⟨hok.home_ok hhome, scalarSrc_ok hok sval⟩

theorem edgeMoves_ok (hok : cg.Ok) {pred : Nat} {phis : List Inst} (hdistinct : DistinctDsts (edgeMoves cg pred phis))
    (hlen : ((edgeMoves cg pred phis).filter PhiMove.moves).length ≤ phiMaxMoves) :
    MovesOk cg cg.nextReg ((edgeMoves cg pred phis).filter PhiMove.moves) := by
  refine ⟨?_, hlen, fun m hm => ?_⟩
  · exact List.Nodup.sublist (List.filter_sublist.map PhiMove.dst) hdistinct
  · obtain ⟨hmem, hmoves⟩ := List.mem_filter.mp hm
    obtain ⟨hdst, hsrc, hconst⟩ := edgeMove_ok hok hmem
    exact ⟨hdst.1, hdst.2, hsrc, by simpa [PhiMove.moves] using hmoves, hconst⟩

/-- The emission for an edge stops at a phi of it, or has too few registers for its moves. -/
def Cg.EdgeStops (cg : Cg) (pred : Nat) (phis : List Inst) (e : CgError) (t : Cg) : Prop :=
  cg.CollectStops pred phis 0 e t ∨ cg.MovesStop ((edgeMoves cg pred phis).filter PhiMove.moves) e t

/-- `cg_emit_phi_moves` brings each destination of the edge its word, and changes nothing else but scratch registers. -/
theorem wp_cgEmitPhiMoves {img : Image κ} (host : Host κ W) (hcode : img.code.length = img.codeCount.toNat) (hok : cg.Ok) {f : Frame κ W}
    (hin : InFrame cg img f) {pred : Nat} {target : Ir.Block} (hdistinct : DistinctDsts (edgeMoves cg pred target.phis)) :
    Exec.wp (cgEmitPhiMoves pred target) (fun r cg' => r.1 = (edgeMoves cg pred target.phis).filter PhiMove.moves ∧
      r.2.Perm (List.range r.1.length) ∧ cg.nextReg ≤ cg'.nextReg ∧ cg'.nextReg ≤ cgMaxEmitReg + 1 ∧
        MovesOk cg cg.nextReg r.1 ∧ ∃ f', MovesDone img host cg f cg.nextReg r.1 cg' f')
      (cg.EdgeStops pred target.phis) cg := by
  unfold cgEmitPhiMoves
  rw [Exec.wp_bind]
  refine Exec.wp_mono ?_ (fun _ _ he => Or.inl he) (wp_collectPhis target.phis (Nat.zero_le phiMaxMoves))
  rintro moves _ ⟨rfl, rfl, hlen⟩
  rw [List.nil_append] at hlen ⊢
  have hmoves := edgeMoves_ok hok hdistinct hlen
  rw [Exec.wp_ite]
  constructor
  · intro hnil
    rw [hnil] at hmoves
    exact ⟨hnil.symm, List.Perm.refl _, Nat.le_refl _, hok.next_le, hmoves, f, .refl, fun m hm => absurd hm List.not_mem_nil, .refl⟩
  · intro _
    rw [Exec.wp_bind]
    refine Exec.wp_mono ?_ (fun _ _ he => Or.inr he) (wp_sequenceMoves host hcode hok hin hmoves)
    rintro emitted cg' ⟨hperm, hnext, hle, f', hdone⟩
    exact ⟨rfl, hperm, by omega, by omega, hmoves, f', hdone⟩

end ok

end CronoVM
