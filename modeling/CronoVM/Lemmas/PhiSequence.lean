import CronoVM.Lemmas.PhiCopy
import CronoVM.Lemmas.PhiSetup

/-!
# The sequence of phi moves

The loops of the sequence keep the invariant of a parallel copy put in sequence, where the value of an index is what its location holds
in the frame that the code emitted so far has made.
-/

namespace CronoVM

open Checked Ir ParallelCopy

variable {κ W : Type}

/-! ## Frames that differ in some locations -/

/-- Only the locations in `dsts` and scratch registers from `lo` have changed. -/
structure Frame.ChangesOnly (cg : Cg) (lo : Nat) (dsts : Loc → Prop) (f g : Frame κ W) : Prop where
  imports : g.importFns = f.importFns
  world : g.world = f.world
  regs : ∀ r, ¬Scratch lo r → ¬dsts (.reg r) → g.regs r = f.regs r
  size : g.heap.size = f.heap.size
  bytes : ∀ p, (∀ k, dsts (.slot k) → p < slotAddr cg f k ∨ slotAddr cg f k + 4 ≤ p) → g.heap.byte p = f.heap.byte p

namespace Frame.ChangesOnly

variable {cg : Cg} {lo : Nat} {dsts : Loc → Prop} {f g h : Frame κ W}

theorem refl : f.ChangesOnly cg lo dsts f := ⟨rfl, rfl, fun _ _ _ => rfl, rfl, fun _ _ => rfl⟩

/-- SP is as it was. -/
theorem sp (hsp : ¬dsts (.reg regSp)) (hfg : f.ChangesOnly cg lo dsts g) : g.regs regSp = f.regs regSp :=
  hfg.regs regSp (not_scratch_of_gt (Or.inr rfl)) hsp

theorem mono {lo' : Nat} {dsts' : Loc → Prop} (hlo : lo' ≤ lo) (hd : ∀ l, dsts l → dsts' l) (hfg : f.ChangesOnly cg lo dsts g) :
    f.ChangesOnly cg lo' dsts' g :=
  ⟨hfg.imports, hfg.world, fun r hs hr => hfg.regs r (fun h => hs (h.mono hlo)) fun h => hr (hd _ h), hfg.size,
    fun p hp => hfg.bytes p fun k hk => hp k (hd _ hk)⟩

theorem trans (hsp : ¬dsts (.reg regSp)) (hfg : f.ChangesOnly cg lo dsts g) (hgh : g.ChangesOnly cg lo dsts h) :
    f.ChangesOnly cg lo dsts h := by
  refine ⟨hgh.imports.trans hfg.imports, hgh.world.trans hfg.world, fun r hs hr => ?_, hgh.size.trans hfg.size, fun p hp => ?_⟩
  · rw [hgh.regs r hs hr, hfg.regs r hs hr]
  · rw [hgh.bytes p fun k hk => slotAddr_of_sp (hfg.sp hsp) k ▸ hp k hk, hfg.bytes p hp]

/-- One more location is written. -/
theorem step (hsp : ¬dsts (.reg regSp)) (hfg : f.ChangesOnly cg lo dsts g) {l : Loc} {v : Word}
    (hl : dsts l ∨ ∃ r, l = .reg r ∧ Scratch lo r) (hgh : (g.setLoc cg l v).AgreesOff (Scratch lo) h) : f.ChangesOnly cg lo dsts h := by
  have haddr : ∀ k, slotAddr cg g k = slotAddr cg f k := slotAddr_of_sp (hfg.sp hsp)
  cases l with
  | reg r =>
    refine ⟨hgh.imports.trans hfg.imports, hgh.world.trans hfg.world, ?_, ?_, ?_⟩
    · intro r' hs hd
      have hne : r' ≠ r := by
        rintro rfl
        rcases hl with hl | ⟨r'', he, hr⟩
        · exact hd hl
        · exact hs (Loc.reg.inj he ▸ hr)
      rw [hgh.regs r' hs]
      exact (Frame.setReg_of_ne g v hne).trans (hfg.regs r' hs hd)
    · rw [hgh.heap]
      exact hfg.size
    · intro p hp
      rw [hgh.heap]
      exact hfg.bytes p hp
  | slot k =>
    have hk : dsts (.slot k) := by
      rcases hl with hl | ⟨r, he, _⟩
      · exact hl
      · exact absurd he (by simp)
    refine ⟨hgh.imports.trans hfg.imports, hgh.world.trans hfg.world, ?_, ?_, ?_⟩
    · intro r hs hd
      rw [hgh.regs r hs]
      exact hfg.regs r hs hd
    · rw [hgh.heap]
      exact hfg.size
    · intro p hp
      rw [hgh.heap]
      have hout := hp k hk
      rw [← haddr k] at hout
      rcases hout with hlt | hge
      · exact (g.heap.blit_byte_of_lt _ hlt).trans (hfg.bytes p hp)
      · exact (g.heap.blit_byte_of_ge _ hge).trans (hfg.bytes p hp)

/-- A location that is none of them has its word. -/
theorem locWord_eq (hlo : lo ≤ cgMaxEmitReg + 1) (hsp : ¬dsts (.reg regSp)) (hfg : f.ChangesOnly cg lo dsts g) {l : Loc}
    (hl : Loc.Ok cg lo l) (hnot : ¬dsts l) : locWord cg g l = locWord cg f l := by
  cases l with
  | reg r => exact hfg.regs r (hl.not_scratch hlo) hnot
  | slot k =>
    simp only [locWord, slotAddr_of_sp (hfg.sp hsp)]
    refine leWord_congr fun i hi => hfg.bytes _ ?_
    intro k' hk'
    have hne : k' ≠ k := by
      rintro rfl
      exact hnot hk'
    simp only [slotAddr]
    omega

theorem inFrame {img : Image κ} (hsp : ¬dsts (.reg regSp)) (hfg : f.ChangesOnly cg lo dsts g) (hin : InFrame cg img f) :
    InFrame cg img g := by
  refine ⟨hfg.size.trans hin.size, ?_⟩
  rw [hfg.sp hsp]
  exact hin.fits

end Frame.ChangesOnly

/-! ## Moves -/

/-- The word a move writes. -/
def PhiMove.value (cg : Cg) (f : Frame κ W) (m : PhiMove) : Word :=
  match m.src with
  | .loc l => locWord cg f l
  | .const cv => operandWord cg f cv
  | .word w => w

/-- The value of a move does not depend on what has been emitted. -/
theorem Emitted.value_eq {img : Image κ} {host : Host κ W} {cg cg' : Cg} {f f' : Frame κ W} (h : Emitted img host cg cg' f f')
    (g : Frame κ W) (m : PhiMove) : m.value cg' g = m.value cg g := by
  have hop := h.operandWord_eq g
  obtain ⟨ws, n, rfl, _⟩ := h
  unfold PhiMove.value
  cases m.src with
  | loc l => rfl
  | const cv => exact hop cv
  | word w => rfl

/-- A move of a function whose registers are below `n`. -/
structure PhiMove.Ok (cg : Cg) (n : Nat) (m : PhiMove) : Prop where
  dst_ok : Loc.Ok cg n m.dst
  dst_ne_zero : m.dst ≠ .reg cgRegZero
  src_ok : ∀ l, m.src = .loc l → Loc.Ok cg n l
  no_self : m.src ≠ .loc m.dst
  no_home : ∀ cv, m.src = .const cv → cg.lookup cv = none

/-- Moves that are put in sequence. -/
structure MovesOk (cg : Cg) (n : Nat) (moves : List PhiMove) : Prop where
  distinct : DistinctDsts moves
  length_le : moves.length ≤ phiMaxMoves
  each : ∀ m ∈ moves, m.Ok cg n

/-- The destinations of moves. -/
def DstOf (moves : List PhiMove) (l : Loc) : Prop := ∃ m ∈ moves, l = m.dst

/-- Each move is in order. -/
theorem MovesOk.move {cg : Cg} {n : Nat} {moves : List PhiMove} (hok : MovesOk cg n moves) {m : Nat} (hm : m < moves.length) :
    (moveAt moves m).Ok cg n :=
  hok.each _ (moveAt_mem hm)

/-- Scratch registers and the zero register are no destination. -/
theorem MovesOk.not_dst {cg : Cg} {n : Nat} {moves : List PhiMove} (hok : MovesOk cg n moves) {r : Byte}
    (hr : r = cgRegZero ∨ n ≤ r.toNat) : ¬DstOf moves (.reg r) := by
  rintro ⟨m, hm, hdst⟩
  have hm := hok.each m hm
  have hloc := hm.dst_ok
  have hne := hm.dst_ne_zero
  rw [← hdst] at hloc hne
  rcases hr with rfl | hge
  · exact hne rfl
  · rcases hloc with hlt | hz
    · omega
    · exact hne (congrArg Loc.reg hz)

/-- The moves as a parallel copy of indices. -/
def phiCopy (moves : List PhiMove) (s₀ : PhiSeq) (cg : Cg) (f : Frame κ W) : Copy Nat Word where
  src d := (s₀.predmove d).map fun m =>
    match (moveAt moves m).src with
    | .loc l => s₀.lv.idxOf? l
    | _ => none
  const d := ((s₀.predmove d).map fun m => (moveAt moves m).value cg f).getD 0

/-- What the locations hold, by their indices. -/
def phiVals (cg : Cg) (lv : List Loc) (f : Frame κ W) (k : Nat) : Word := (lv[k]?.map (locWord cg f)).getD 0

/-- The state of the sequence as one of a parallel copy. -/
def PhiSeq.state (cg : Cg) (lv : List Loc) (f : Frame κ W) (s : PhiSeq) : State Nat Word :=
  { val := phiVals cg lv f, cur := s.locCur, done := s.done, ready := s.ready }

section copy

variable {moves : List PhiMove} {spare : Loc} {s₀ : PhiSeq} {cg : Cg} {f g : Frame κ W} {d a m : Nat} {l : Loc} {v : Word}

/-- The value of a location of the table. -/
theorem phiVals_of (h : s₀.lv[a]? = some l) : phiVals cg s₀.lv f a = locWord cg f l := by
  rw [phiVals, h, Option.map_some, Option.getD_some]

/-- Writing a location changes the value of its index. -/
theorem phiVals_setLoc {lv : List Loc} {hi : Nat} (hhi : hi ≤ cgMaxEmitReg + 1) (hnodup : lv.Nodup) (hok : ∀ l ∈ lv, Loc.Ok cg hi l)
    (hl : lv[d]? = some l) (h : (f.setLoc cg l v).AgreesOff (Scratch hi) g) :
    phiVals cg lv g = Function.update (phiVals cg lv f) d v := by
  have hdst := hok l (List.mem_of_getElem? hl)
  funext k
  unfold phiVals
  cases hk : lv[k]? with
  | none =>
    have hkd : k ≠ d := by
      rintro rfl
      exact absurd (hk.symm.trans hl) (Option.some_ne_none l).symm
    rw [Function.update_of_ne hkd, hk]
    rfl
  | some l' =>
    have hl' := hok l' (List.mem_of_getElem? hk)
    simp only [Option.map_some, Option.getD_some]
    rw [locWord_agrees hhi h hl']
    by_cases hkd : k = d
    · subst hkd
      obtain rfl := Option.some.inj (hk.symm.trans hl)
      rw [Function.update_self, locWord_setLoc_same]
    · have hne : l' ≠ l := by
        rintro rfl
        exact hkd (getElem?_nodup hnodup hk hl)
      rw [Function.update_of_ne hkd, locWord_setLoc_of_ne hhi hdst hne, hk, Option.map_some, Option.getD_some]

/-- A destination is a location that a move writes. -/
theorem phiCopy_isDst : (phiCopy moves s₀ cg f).IsDst d ↔ ∃ m, s₀.predmove d = some m := by
  cases h : s₀.predmove d <;> simp [Copy.IsDst, phiCopy, h]

variable (hin : Interned moves spare moves.length moves.length s₀)
include hin

/-- A destination is copied from where its move says. -/
theorem phiCopy_reads : (phiCopy moves s₀ cg f).Reads d a ↔
    ∃ m, s₀.predmove d = some m ∧ ∃ l, (moveAt moves m).src = .loc l ∧ s₀.lv[a]? = some l := by
  have hsrc_eq : (phiCopy moves s₀ cg f).src d = (s₀.predmove d).map fun m =>
      match (moveAt moves m).src with
      | .loc l => s₀.lv.idxOf? l
      | _ => none := rfl
  rw [Copy.Reads, hsrc_eq]
  cases hm : s₀.predmove d with
  | none => simp
  | some m =>
    have hlt := ((hin.pred_iff d m).mp hm).1
    cases hsrc : (moveAt moves m).src with
    | loc l =>
      have hmem := hin.src_mem m hlt l hsrc
      have hat := List.getElem?_idxOf hmem
      simp only [Option.map_some, hsrc, idxOf?_of_mem hmem, Option.some.injEq, exists_eq_left', MoveSrc.loc.injEq]
      constructor
      · rintro rfl
        exact hat
      · exact fun ha => getElem?_nodup hin.nodup hat ha
    | const cv => simp [hsrc]
    | word w => simp [hsrc]

/-- A destination has to get the word of its move. -/
theorem phiCopy_want (hm : s₀.predmove d = some m) :
    (phiCopy moves s₀ cg f).want (phiVals cg s₀.lv f) d = (moveAt moves m).value cg f := by
  have hlt := ((hin.pred_iff d m).mp hm).1
  unfold Copy.want phiCopy
  simp only [hm, Option.map_some, Option.getD_some]
  cases hsrc : (moveAt moves m).src with
  | loc l =>
    have hmem := hin.src_mem m hlt l hsrc
    simp only [idxOf?_of_mem hmem, phiVals_of (List.getElem?_idxOf hmem), PhiMove.value, hsrc]
  | const cv => rfl
  | word w => rfl

end copy

/-! ## The state of the sequence -/

/-- The code emitted so far has brought the sequence to `s` and the frame to `f`; `n` is the spare register. -/
structure PhiRun (img : Image κ) (host : Host κ W) (moves : List PhiMove) (n : Nat) (cg₀ : Cg) (f₀ : Frame κ W) (s₀ : PhiSeq)
    (todo : List Nat) (s : PhiSeq) (cg : Cg) (f : Frame κ W) : Prop where
  lv_eq : s.lv = s₀.lv
  pred_eq : s.predmove = s₀.predmove
  inready_iff : ∀ d, s.inready d = true ↔ d ∈ s.ready
  done_dst : ∀ d, s.done d = true → ∃ m, s₀.predmove d = some m
  emitted_nodup : s.emitted.Nodup
  emitted_iff : ∀ m, m ∈ s.emitted ↔ ∃ d, s₀.predmove d = some m ∧ s.done d = true
  next : cg.nextReg = cg₀.nextReg
  emitted : Emitted img host cg₀ cg f₀ f
  changes : f₀.ChangesOnly cg₀ n (DstOf moves) f
  inv : Inv (phiCopy moves s₀ cg₀ f₀) 0 (phiVals cg₀ s₀.lv f₀) todo (s.state cg₀ s₀.lv f)

/-- What the sequence starts from: the moves, their locations, and two registers `n` and `n + 1` for it. -/
structure PhiStart (moves : List PhiMove) (n : Nat) (cg₀ : Cg) (s₀ : PhiSeq) : Prop where
  ok : cg₀.Ok
  next : cg₀.nextReg = n + 2
  moves_ok : MovesOk cg₀ n moves
  prepared : Prepared moves (.reg (BitVec.ofNat 8 n)) moves.length s₀

namespace PhiStart

variable {moves : List PhiMove} {n : Nat} {cg₀ : Cg} {s₀ : PhiSeq} (hst : PhiStart moves n cg₀ s₀)
include hst

theorem spare_le : n + 1 ≤ cgMaxEmitReg := by
  have := hst.ok.next_le
  have := hst.next
  omega

theorem toNat_spare : (BitVec.ofNat 8 n).toNat = n := toNat_nextReg (by have := hst.spare_le; omega)

theorem toNat_stage : (BitVec.ofNat 8 (n + 1)).toNat = n + 1 := toNat_nextReg (by have := hst.spare_le; omega)

/-- The stage is a scratch register. -/
theorem scratch_stage : Scratch (n + 1) (BitVec.ofNat 8 (n + 1)) :=
  scratch_nextReg (Nat.le_refl _) (by have := hst.spare_le; omega)

/-- So is the spare one. -/
theorem scratch_spare : Scratch n (BitVec.ofNat 8 n) := scratch_nextReg (Nat.le_refl _) (by have := hst.spare_le; omega)

theorem stage_ne : BitVec.ofNat 8 (n + 1) ≠ cgRegScratch := by
  intro he
  have hn := congrArg BitVec.toNat he
  rw [hst.toNat_stage] at hn
  have h254 : cgRegScratch.toNat = 254 := rfl
  have h252 : cgMaxEmitReg = 252 := rfl
  have := hst.spare_le
  omega

/-- The spare is no location of a move. -/
theorem ne_spare {l : Loc} (hl : Loc.Ok cg₀ n l) : l ≠ .reg (BitVec.ofNat 8 n) := by
  rintro rfl
  rcases hl with hlt | hz
  · rw [hst.toNat_spare] at hlt
    omega
  · have hn := congrArg BitVec.toNat hz
    rw [hst.toNat_spare] at hn
    have h253 : cgRegZero.toNat = 253 := rfl
    have h252 : cgMaxEmitReg = 252 := rfl
    have := hst.spare_le
    omega

/-- The spare register is the first location of the table. -/
theorem spare_at : s₀.lv[0]? = some (.reg (BitVec.ofNat 8 n)) := hst.prepared.interned.spare_at

theorem interned : Interned moves (.reg (BitVec.ofNat 8 n)) moves.length moves.length s₀ :=
  hst.prepared.interned

/-- All locations are locations of the function, or the spare. -/
theorem loc_ok {l : Loc} (hl : l ∈ s₀.lv) : Loc.Ok cg₀ (n + 1) l := by
  have hmono : ∀ {l}, Loc.Ok cg₀ n l → Loc.Ok cg₀ (n + 1) l := by
    intro l hok
    cases l with
    | reg r => exact hok.imp_left fun hlt => Nat.lt_succ_of_lt hlt
    | slot k => exact hok
  rcases hst.interned.mem l hl with rfl | ⟨m, hm, rfl⟩ | ⟨m, hm, hsrc⟩
  · refine Or.inl ?_
    rw [hst.toNat_spare]
    exact Nat.lt_succ_self n
  · exact hmono (hst.moves_ok.move hm).dst_ok
  · exact hmono ((hst.moves_ok.move hm).src_ok l hsrc)

/-- SP is no destination. -/
theorem not_dst_sp : ¬DstOf moves (.reg regSp) := by
  refine hst.moves_ok.not_dst (Or.inr ?_)
  have hsp : regSp.toNat = 255 := rfl
  have h252 : cgMaxEmitReg = 252 := rfl
  have := hst.spare_le
  omega

/-- The moves are a parallel copy that does not touch the spare. -/
theorem copy_ok (f₀ : Frame κ W) : (phiCopy moves s₀ cg₀ f₀).Ok 0 := by
  constructor
  case no_self =>
    intro d hr
    obtain ⟨m, hm, l, hsrc, hat⟩ := (phiCopy_reads hst.interned).mp hr
    obtain ⟨hlt, hdst⟩ := (hst.interned.pred_iff d m).mp hm
    obtain rfl : (moveAt moves m).dst = l := Option.some.inj (hdst.symm.trans hat)
    exact (hst.moves_ok.move hlt).no_self hsrc
  case spare_dst =>
    intro hd
    obtain ⟨m, hm⟩ := phiCopy_isDst.mp hd
    obtain ⟨hlt, hdst⟩ := (hst.interned.pred_iff 0 m).mp hm
    exact hst.ne_spare (hst.moves_ok.move hlt).dst_ok (Option.some.inj (hdst.symm.trans hst.spare_at))
  case spare_src =>
    intro d hr
    obtain ⟨m, hm, l, hsrc, hat⟩ := (phiCopy_reads hst.interned).mp hr
    obtain ⟨hlt, _⟩ := (hst.interned.pred_iff d m).mp hm
    exact hst.ne_spare ((hst.moves_ok.move hlt).src_ok l hsrc) (Option.some.inj (hat.symm.trans hst.spare_at))

variable {img : Image κ} {host : Host κ W} {f₀ : Frame κ W}

/-- The sequence starts. -/
theorem start : PhiRun img host moves n cg₀ f₀ s₀ s₀.todo s₀ cg₀ f₀ := by
  have hin := hst.interned
  have hdone : s₀.done = fun _ => false := hin.done_eq
  have hemitted : s₀.emitted = [] := hin.emitted_eq
  have hinv : Inv (phiCopy moves s₀ cg₀ f₀) 0 (phiVals cg₀ s₀.lv f₀) s₀.todo (s₀.state cg₀ s₀.lv f₀) := by
    rw [PhiSeq.state, hdone]
    refine Inv.start ?_ ?_ hst.prepared.ready_nodup ?_
    · intro a k
      rw [hin.cur_iff]
      refine and_congr_right fun _ => ?_
      constructor
      · rintro ⟨m, hm, l, hsrc, hat⟩
        have hdst := List.getElem?_idxOf (hin.dst_mem m hm)
        exact ⟨_, (phiCopy_reads hin).mpr ⟨m, (hin.pred_iff _ m).mpr ⟨hm, hdst⟩, l, hsrc, hat⟩⟩
      · rintro ⟨d, hr⟩
        obtain ⟨m, hm, l, hsrc, hat⟩ := (phiCopy_reads hin).mp hr
        exact ⟨m, ((hin.pred_iff d m).mp hm).1, l, hsrc, hat⟩
    · intro d
      rw [hst.prepared.ready_iff, phiCopy_isDst]
      constructor
      · rintro ⟨m, hm, hat, hnone⟩
        exact ⟨⟨m, (hin.pred_iff d m).mpr ⟨hm, hat⟩⟩, hnone⟩
      · rintro ⟨⟨m, hm⟩, hnone⟩
        exact ⟨m, ((hin.pred_iff d m).mp hm).1, ((hin.pred_iff d m).mp hm).2, hnone⟩
    · intro d
      rw [phiCopy_isDst]
      exact hin.todo_iff d
  refine ⟨rfl, rfl, hst.prepared.inready_iff, ?_, ?_, ?_, rfl, .refl, .refl, hinv⟩
  · simp [hdone]
  · simp [hemitted]
  · simp [hemitted, hdone]

end PhiStart

/-! ## Its steps -/

/-- A sequence stops only for the constant of a move: it is rejected, or there are too few registers for it. -/
def Cg.SeqStops (cg : Cg) (moves : List PhiMove) (e : CgError) (t : Cg) : Prop :=
  ∃ m ∈ moves, ∃ cv, m.src = .const cv ∧ cg.Stops (cg.Rejects cv) (cg.regsTaken cv) e t

/-- `CG_PHI_PUSH` with room on the stack. -/
theorem wp_cgPhiPush {Q : PhiSeq → Cg → Prop} {E : CgError → Cg → Prop} {s : PhiSeq} {cg : Cg} {x : Nat}
    (hroom : s.ready.length < phiMaxLoc) (hpush : s.done x = false → s.inready x = false → Q (s.pushReady x) cg)
    (hkeep : ¬(s.done x = false ∧ s.inready x = false) → Q s cg) : Exec.wp (cgPhiPush s x) Q E cg := by
  unfold cgPhiPush
  simp only [Exec.wp_ite, Exec.wp_bind, Exec.wp_stopIf, Exec.wp_pure]
  exact ⟨fun h => ⟨fun hge => absurd hroom (by omega), fun _ => hpush h.1 h.2⟩, hkeep⟩

section steps

variable {img : Image κ} {host : Host κ W} {moves : List PhiMove} {n : Nat} {cg₀ cg cg' : Cg} {f₀ f : Frame κ W} {s₀ s s' : PhiSeq}
  {todo ready : List Nat} {b m : Nat}

namespace PhiRun

/-- The list of ready moves does not overflow. -/
theorem ready_length (hst : PhiStart moves n cg₀ s₀) (h : PhiRun img host moves n cg₀ f₀ s₀ todo s cg f) :
    s.ready.length ≤ moves.length := by
  have hsub : s.ready ⊆ s₀.todo := by
    intro d hd
    exact (hst.interned.todo_iff d).mpr (phiCopy_isDst.mp (h.inv.ready_dst d hd).1)
  have hle := (h.inv.ready_nodup.subperm hsub).length_le
  have htodo : s₀.todo.length = moves.length := hst.interned.todo_length
  rw [htodo] at hle
  exact hle

/-- No more moves are emitted than there are. -/
theorem emitted_length (hst : PhiStart moves n cg₀ s₀) (h : PhiRun img host moves n cg₀ f₀ s₀ todo s cg f) :
    s.emitted.length ≤ moves.length := by
  have hsub : s.emitted ⊆ List.range moves.length := by
    intro m hm
    obtain ⟨d, hpred, _⟩ := (h.emitted_iff m).mp hm
    exact List.mem_range.mpr ((hst.interned.pred_iff d m).mp hpred).1
  have hle := (h.emitted_nodup.subperm hsub).length_le
  rwa [List.length_range] at hle

theorem ok (hst : PhiStart moves n cg₀ s₀) (h : PhiRun img host moves n cg₀ f₀ s₀ todo s cg f) : cg.Ok := by
  refine h.emitted.ok hst.ok ?_ ?_
  · rw [h.next]
    exact hst.ok.high_le
  · rw [h.next]
    exact hst.ok.next_le

theorem inFrame (hst : PhiStart moves n cg₀ s₀) (hin₀ : InFrame cg₀ img f₀) (h : PhiRun img host moves n cg₀ f₀ s₀ todo s cg f) :
    InFrame cg img f :=
  (h.changes.inFrame hst.not_dst_sp hin₀).of_emitted h.emitted

/-- A location stays in order. -/
theorem loc_ok (h : PhiRun img host moves n cg₀ f₀ s₀ todo s cg f) {l : Loc} {hi : Nat} (hl : Loc.Ok cg₀ hi l) : Loc.Ok cg hi l := by
  obtain ⟨_, _, rfl, _⟩ := h.emitted
  exact hl

theorem locWord_eq (h : PhiRun img host moves n cg₀ f₀ s₀ todo s cg f) (l : Loc) : locWord cg f l = locWord cg₀ f l := by
  obtain ⟨_, _, rfl, _⟩ := h.emitted
  rfl

/-- The location with an index that is in use. -/
theorem loc_eq (h : PhiRun img host moves n cg₀ f₀ s₀ todo s cg f) {d : Nat} {l : Loc} (hl : s₀.lv[d]? = some l) : s.loc d = l := by
  rw [PhiSeq.loc, h.lv_eq, List.getD_eq_getElem?_getD, hl, Option.getD_some]

/-- A destination, or the spare, is written. -/
theorem write (hcode : img.code.length = img.codeCount.toNat) (hst : PhiStart moves n cg₀ s₀)
    (h : PhiRun img host moves n cg₀ f₀ s₀ todo s cg f) {d : Nat} {l : Loc} {v : Word} (hl : s₀.lv[d]? = some l)
    (hd : DstOf moves l ∨ l = .reg (BitVec.ofNat 8 n)) (hw : Writes img host (Scratch (n + 1)) cg f l v cg') :
    ∃ f', cg'.nextReg = cg₀.nextReg ∧ Emitted img host cg₀ cg' f₀ f' ∧ f₀.ChangesOnly cg₀ n (DstOf moves) f' ∧
      phiVals cg₀ s₀.lv f' = Function.update (phiVals cg₀ s₀.lv f) d v := by
  obtain ⟨hnext, f', hem, hag⟩ := hw
  have hset : f.setLoc cg l v = f.setLoc cg₀ l v := by
    obtain ⟨_, _, rfl, _⟩ := h.emitted
    rfl
  rw [hset] at hag
  have hspare := hst.spare_le
  refine ⟨f', hnext.trans h.next, h.emitted.trans hcode hem, ?_, ?_⟩
  · refine h.changes.step hst.not_dst_sp ?_ (hag.mono fun r hr => hr.mono (Nat.le_succ n))
    rcases hd with hd | rfl
    · exact Or.inl hd
    · exact Or.inr ⟨_, rfl, hst.scratch_spare⟩
  · exact phiVals_setLoc (by omega) hst.interned.nodup (fun l hl => hst.loc_ok hl) hl hag

/-- A ready destination has been written, and the arrays say so. -/
theorem put (hcode : img.code.length = img.codeCount.toNat) (hst : PhiStart moves n cg₀ s₀)
    (h : PhiRun img host moves n cg₀ f₀ s₀ todo s cg f) (hready : s.ready = b :: ready) (hm : s₀.predmove b = some m)
    (hw : Writes img host (Scratch (n + 1)) cg f (moveAt moves m).dst ((moveAt moves m).value cg₀ f₀) cg')
    (hlv : s'.lv = s.lv) (hpred : s'.predmove = s.predmove) (hdone : s'.done = Function.update s.done b true)
    (hemitted : s'.emitted = s.emitted ++ [m]) (hinready : ∀ d, s'.inready d = true ↔ d ∈ s'.ready)
    (hread : ∀ a, (phiCopy moves s₀ cg₀ f₀).Reads b a → s'.locCur a = some b)
    (hkeep : ∀ a, ¬(phiCopy moves s₀ cg₀ f₀).Reads b a → s'.locCur a = s.locCur a) (hsub : ∀ x ∈ ready, x ∈ s'.ready)
    (hnodup : s'.ready.Nodup)
    (hnew : ∀ x ∈ s'.ready, x ∈ ready ∨ (phiCopy moves s₀ cg₀ f₀).Reads b x ∧ (phiCopy moves s₀ cg₀ f₀).IsDst x ∧ s.done x = false)
    (hpush : ∀ a, (phiCopy moves s₀ cg₀ f₀).Reads b a → s.locCur a = some a → (phiCopy moves s₀ cg₀ f₀).IsDst a → s.done a = false →
      a ∈ s'.ready) : ∃ f', PhiRun img host moves n cg₀ f₀ s₀ todo s' cg' f' := by
  obtain ⟨hlt, hdst⟩ := (hst.interned.pred_iff b m).mp hm
  obtain ⟨f', hnext, hem, hchanges, hvals⟩ := h.write hcode hst hdst (Or.inl ⟨_, moveAt_mem hlt, rfl⟩) hw
  have hput := h.inv.put (hst.copy_ok f₀) hready hread hkeep hsub hnodup hnew hpush
  have hwant : (phiCopy moves s₀ cg₀ f₀).want (phiVals cg₀ s₀.lv f₀) b = (moveAt moves m).value cg₀ f₀ := phiCopy_want hst.interned hm
  rw [hwant] at hput
  have hstate : s'.state cg₀ s₀.lv f' =
      Inv.State.put (s.state cg₀ s₀.lv f) b ((moveAt moves m).value cg₀ f₀) s'.locCur s'.ready := by
    simp only [PhiSeq.state, Inv.State.put, hdone, hvals]
  have hpend : s.done b = false := (h.inv.ready_dst b (by rw [PhiSeq.state, hready]; exact List.mem_cons_self)).2
  have hnot : m ∉ s.emitted := by
    intro hin
    obtain ⟨d, hd, hdd⟩ := (h.emitted_iff m).mp hin
    have hat := ((hst.interned.pred_iff d m).mp hd).2
    obtain rfl := getElem?_nodup hst.interned.nodup hat hdst
    rw [hpend] at hdd
    exact Bool.noConfusion hdd
  refine ⟨f', hlv.trans h.lv_eq, hpred.trans h.pred_eq, hinready, ?_, ?_, ?_, hnext, hem, hchanges, hstate ▸ hput⟩
  · intro d hd
    rw [hdone] at hd
    by_cases hdb : d = b
    · exact ⟨m, hdb ▸ hm⟩
    · exact h.done_dst d (by rwa [Function.update_of_ne hdb] at hd)
  · rw [hemitted, List.nodup_append]
    refine ⟨h.emitted_nodup, List.nodup_singleton m, ?_⟩
    rintro x hx y hy rfl
    exact hnot (List.mem_singleton.mp hy ▸ hx)
  · intro j
    rw [hemitted, hdone, List.mem_append, List.mem_singleton, h.emitted_iff]
    constructor
    · rintro (⟨d, hd, hdd⟩ | rfl)
      · refine ⟨d, hd, ?_⟩
        by_cases hdb : d = b
        · rw [hdb, Function.update_self]
        · rw [Function.update_of_ne hdb, hdd]
      · exact ⟨b, hm, Function.update_self ..⟩
    · rintro ⟨d, hd, hdd⟩
      by_cases hdb : d = b
      · exact Or.inr (Option.some.inj ((hdb ▸ hd).symm.trans hm))
      · exact Or.inl ⟨d, hd, by rwa [Function.update_of_ne hdb] at hdd⟩

/-- A stack without its top, and the marks without that of the top. -/
theorem inready_pop (h : PhiRun img host moves n cg₀ f₀ s₀ todo s cg f) (hready : s.ready = b :: ready) (d : Nat) :
    Function.update s.inready b false d = true ↔ d ∈ ready := by
  have hnodup : s.ready.Nodup := h.inv.ready_nodup
  rw [hready, List.nodup_cons] at hnodup
  by_cases hdb : d = b
  · subst hdb
    simp [hnodup.1]
  · rw [Function.update_of_ne hdb, h.inready_iff, hready, List.mem_cons]
    exact ⟨fun hor => hor.resolve_left hdb, Or.inr⟩

/-- A constant or a word was written to a ready destination. -/
theorem put_const (hcode : img.code.length = img.codeCount.toNat) (hst : PhiStart moves n cg₀ s₀)
    (h : PhiRun img host moves n cg₀ f₀ s₀ todo s cg f) (hready : s.ready = b :: ready) (hm : s₀.predmove b = some m)
    (hsrc : ∀ l, (moveAt moves m).src ≠ .loc l)
    (hw : Writes img host (Scratch (n + 1)) cg f (moveAt moves m).dst ((moveAt moves m).value cg₀ f₀) cg') :
    ∃ f', PhiRun img host moves n cg₀ f₀ s₀ todo
      { s with
        ready := ready, inready := Function.update s.inready b false, emitted := s.emitted ++ [m], done := Function.update s.done b true }
      cg' f' := by
  have hno : ∀ a, ¬(phiCopy moves s₀ cg₀ f₀).Reads b a := by
    intro a hr
    obtain ⟨m', hm', l, hl, _⟩ := (phiCopy_reads hst.interned).mp hr
    obtain rfl := Option.some.inj (hm.symm.trans hm')
    exact hsrc l hl
  have hnodup : s.ready.Nodup := h.inv.ready_nodup
  rw [hready, List.nodup_cons] at hnodup
  exact h.put hcode hst hready hm hw rfl rfl rfl rfl (h.inready_pop hready) (fun a hr => absurd hr (hno a)) (fun _ _ => rfl)
    (fun _ hx => hx) hnodup.2 (fun _ hx => Or.inl hx) (fun a hr => absurd hr (hno a))

/-- What the constants of moves are does not change. -/
theorem operandWord_eq (hst : PhiStart moves n cg₀ s₀) (h : PhiRun img host moves n cg₀ f₀ s₀ todo s cg f) {cv : Val}
    (hcv : cg₀.lookup cv = none) : operandWord cg f cv = operandWord cg₀ f₀ cv := by
  have hzero : f.regs cg₀.zeroReg = f₀.regs cg₀.zeroReg := by
    rw [hst.ok.zero]
    exact h.changes.regs _ (not_scratch_of_gt (Or.inl rfl)) (hst.moves_ok.not_dst (Or.inl rfl))
  rw [h.emitted.operandWord_eq]
  cases cv with
  | loc l =>
    have hl : cg₀.home? l = none := hcv
    simp only [operandWord, hl, Option.map_none]
  | block id => rfl
  | const c => simp only [operandWord, hzero]

end PhiRun

/-- A move whose destination is ready is emitted. -/
theorem wp_emitMove (hcode : img.code.length = img.codeCount.toNat) (hst : PhiStart moves n cg₀ s₀) (hin₀ : InFrame cg₀ img f₀)
    (h : PhiRun img host moves n cg₀ f₀ s₀ todo s cg f) (hready : s.ready = b :: ready) (hm : s₀.predmove b = some m) :
    Exec.wp (emitMove moves (BitVec.ofNat 8 (n + 1)) { s with ready := ready, inready := Function.update s.inready b false } b m)
      (fun s' cg' => s'.emitted = s.emitted ++ [m] ∧ ∃ f', PhiRun img host moves n cg₀ f₀ s₀ todo s' cg' f') (cg₀.SeqStops moves) cg := by
  obtain ⟨hlt, hdst⟩ := (hst.interned.pred_iff b m).mp hm
  have hmove := hst.moves_ok.move hlt
  have hspare := hst.spare_le
  have hdst_ok := h.loc_ok (hst.loc_ok (List.mem_of_getElem? hdst))
  have hokc := h.ok hst
  have hinc := h.inFrame hst hin₀
  have hb : PhiSeq.loc { s with ready := ready, inready := Function.update s.inready b false, emitted := s.emitted ++ [m] } b =
      (moveAt moves m).dst := h.loc_eq hdst
  unfold emitMove
  cases hsrc : (moveAt moves m).src with
  | const cv =>
    simp only [hsrc, Exec.wp_bind, Exec.wp_pure]
    rw [hb]
    have hval : operandWord cg f cv = (moveAt moves m).value cg₀ f₀ := by
      rw [h.operandWord_eq hst (hmove.no_home cv hsrc), PhiMove.value, hsrc]
    have hcopy := wp_cgPhiEmitConst host hcode hokc hinc (by rw [h.next, hst.next]; omega : n + 1 ≤ cg.nextReg) hdst_ok cv
    have htables := Cg.SameTables.of_emitted h.emitted
    have hstops : ∀ e t, cg.Stops (cg.Rejects cv) (cg.regsTaken cv) e t → cg₀.SeqStops moves e t := by
      intro e t he
      refine ⟨_, moveAt_mem hlt, cv, hsrc, he.before (k := 0) (Nat.le_of_eq h.next) htables.rejects ?_⟩
      rw [htables.regsTaken, Nat.zero_add]
    refine Exec.wp_mono ?_ hstops hcopy
    intro _ cg' hw
    rw [hval] at hw
    exact ⟨trivial, h.put_const hcode hst hready hm (fun l => by simp [hsrc]) hw⟩
  | word w =>
    simp only [hsrc, Exec.wp_bind, Exec.wp_pure]
    rw [hb]
    have hval : w = (moveAt moves m).value cg₀ f₀ := by rw [PhiMove.value, hsrc]
    have hcopy := wp_cgPhiEmitWord host hcode hokc hinc hdst_ok hst.scratch_stage hst.stage_ne w
    refine Exec.wp_mono ?_ (fun _ _ he => he.elim) hcopy
    intro _ cg' hw
    rw [hval] at hw
    exact ⟨trivial, h.put_const hcode hst hready hm (fun l => by simp [hsrc]) hw⟩
  | loc src =>
    have hmem : src ∈ s₀.lv := hst.interned.src_mem m hlt src hsrc
    have hmem' : src ∈ s.lv := by
      rw [h.lv_eq]
      exact hmem
    have hata : s₀.lv[s.lv.idxOf src]? = some src := by
      rw [h.lv_eq]
      exact List.getElem?_idxOf hmem
    simp only [hsrc]
    rw [Exec.wp_bind]
    refine wp_cgLocIntern_of_mem hmem' ?_
    generalize s.lv.idxOf src = a at hata
    have hreads : (phiCopy moves s₀ cg₀ f₀).Reads b a := (phiCopy_reads hst.interned).mpr ⟨m, hm, src, hsrc, hata⟩
    have honly : ∀ a', (phiCopy moves s₀ cg₀ f₀).Reads b a' → a' = a := by
      intro a' hr
      exact Option.some.inj (Option.some.inj (hr.symm.trans hreads))
    have hbready : b ∈ s.ready := by
      rw [hready]
      exact List.mem_cons_self
    have hpend : s.done b = false := (h.inv.ready_dst b hbready).2
    obtain ⟨c, hc, hcval⟩ := h.inv.held b a hreads hpend
    have hcb : c ≠ b := by
      rintro rfl
      exact h.inv.free c hbready c a hreads hpend hc
    -- The value is at a location of the moves or at the spare.
    have hatc : ∃ lc, s₀.lv[c]? = some lc := by
      rcases h.inv.moved a c hc with rfl | hdone | rfl
      · exact ⟨src, hata⟩
      · obtain ⟨j, hj⟩ := h.done_dst c hdone
        exact ⟨_, ((hst.interned.pred_iff c j).mp hj).2⟩
      · exact ⟨_, hst.spare_at⟩
    obtain ⟨lc, hlc⟩ := hatc
    have hne : lc ≠ (moveAt moves m).dst := by
      rintro rfl
      exact hcb (getElem?_nodup hst.interned.nodup hlc hdst)
    have hval : locWord cg f lc = (moveAt moves m).value cg₀ f₀ := by
      have hv : phiVals cg₀ s₀.lv f c = phiVals cg₀ s₀.lv f₀ a := hcval
      rw [phiVals_of hlc, phiVals_of hata] at hv
      rw [h.locWord_eq, hv, PhiMove.value, hsrc]
    have hcur : s.locCur a = some c := hc
    simp only [hcur, Exec.wp_bind]
    rw [hb]
    have hlocc : PhiSeq.loc { s with ready := ready, inready := Function.update s.inready b false, emitted := s.emitted ++ [m] } c = lc :=
      h.loc_eq hlc
    rw [hlocc]
    have hcopy := wp_cgPhiCopyLoc host hcode hokc hinc (by omega : n + 1 ≤ cgMaxEmitReg + 1)
      (h.loc_ok (hst.loc_ok (List.mem_of_getElem? hlc))) hdst_ok hne hst.scratch_stage hst.stage_ne
    refine Exec.wp_mono ?_ (fun _ _ he => he.elim) hcopy
    intro _ cg' hw
    rw [hval] at hw
    have hab : a ≠ b := by
      rintro rfl
      exact (hst.copy_ok f₀).no_self a hreads
    have hnodup : s.ready.Nodup := h.inv.ready_nodup
    rw [hready, List.nodup_cons] at hnodup
    have hread : ∀ a', (phiCopy moves s₀ cg₀ f₀).Reads b a' → Function.update s.locCur a (some b) a' = some b := by
      intro a' hr
      rw [honly a' hr, Function.update_self]
    have hkeep : ∀ a', ¬(phiCopy moves s₀ cg₀ f₀).Reads b a' → Function.update s.locCur a (some b) a' = s.locCur a' := by
      intro a' hr
      exact Function.update_of_ne (by rintro rfl; exact hr hreads) _ _
    have hroom : ready.length < phiMaxLoc := by
      have hlen := h.ready_length hst
      have hmax := hst.moves_ok.length_le
      have h1024 : phiMaxMoves = 1024 := rfl
      have h2049 : phiMaxLoc = 2049 := rfl
      rw [hready, List.length_cons] at hlen
      omega
    -- Without a push, the source was no destination, or not where it was, or on the stack already.
    have hstay : (¬(a = c ∧ s₀.predmove a ≠ none) ∨ ¬(s.done a = false ∧ Function.update s.inready b false a = false)) →
        ∃ f', PhiRun img host moves n cg₀ f₀ s₀ todo
          { s with
            ready := ready, inready := Function.update s.inready b false, emitted := s.emitted ++ [m],
            done := Function.update s.done b true, locCur := Function.update s.locCur a (some b) } cg' f' := by
      intro hcond
      refine h.put hcode hst hready hm hw rfl rfl rfl rfl (h.inready_pop hready) hread hkeep (fun _ hx => hx) hnodup.2
        (fun _ hx => Or.inl hx) ?_
      intro a' hr hself hd hp
      obtain rfl := honly a' hr
      obtain rfl := Option.some.inj (hself.symm.trans hcur)
      obtain ⟨j, hj⟩ := phiCopy_isDst.mp hd
      rcases hcond with hcond | hcond
      · exact absurd ⟨rfl, by simp [hj]⟩ hcond
      · by_contra hnot
        have hoff : Function.update s.inready b false a' = false := by
          rw [← Bool.not_eq_true, h.inready_pop hready]
          exact hnot
        exact hcond ⟨hp, hoff⟩
    have hpa : s.predmove a = s₀.predmove a := by rw [h.pred_eq]
    simp only [Exec.wp_ite, Exec.wp_pure, hpa]
    refine ⟨fun hcond => ?_, fun hcond => ⟨trivial, hstay (Or.inl hcond)⟩⟩
    have hdone_a : Function.update s.done b true a = s.done a := Function.update_of_ne hab _ _
    refine wp_cgPhiPush hroom ?_ ?_
    · intro hp hoff
      simp only [hdone_a] at hp
      obtain ⟨j, hj⟩ := Option.ne_none_iff_exists'.mp hcond.2
      have hnot : a ∉ ready := by
        rw [← h.inready_pop hready]
        simp only at hoff
        simp [hoff]
      refine ⟨rfl, h.put hcode hst hready hm hw rfl rfl rfl rfl (inready_pushReady (h.inready_pop hready)) hread hkeep
        (fun _ hx => List.mem_cons_of_mem a hx) (List.nodup_cons.mpr ⟨hnot, hnodup.2⟩) ?_ ?_⟩
      · intro x hx
        rcases List.mem_cons.mp hx with rfl | hx
        · exact Or.inr ⟨hreads, phiCopy_isDst.mpr ⟨j, hj⟩, hp⟩
        · exact Or.inl hx
      · intro a' hr _ _ _
        rw [honly a' hr]
        exact List.mem_cons_self
    · intro hnot
      refine ⟨rfl, hstay (Or.inr ?_)⟩
      simpa only [hdone_a] using hnot

end steps

end CronoVM
