import CronoVM.Lemmas.PhiSequence

/-!
# The order of phi moves

The two loops over `ready` and `todo` end, and with them every move has been emitted once and every destination has its word.
-/

namespace CronoVM

open Checked Ir ParallelCopy

variable {κ W : Type} {img : Image κ} {host : Host κ W} {moves : List PhiMove} {n : Nat} {cg₀ cg : Cg} {f₀ f : Frame κ W}
  {s₀ s : PhiSeq} {todo : List Nat}

/-! ## The loop over `ready` -/

/-- A turn ends the loop, or emits one move. -/
theorem wp_drainTurn (hcode : img.code.length = img.codeCount.toNat) (hst : PhiStart moves n cg₀ s₀) (hin₀ : InFrame cg₀ img f₀)
    (h : PhiRun img host moves n cg₀ f₀ s₀ todo s cg f) :
    Exec.wp (drainTurn moves (BitVec.ofNat 8 (n + 1)) s) (fun r cg' =>
      match r with
      | none => s.ready = [] ∧ cg' = cg
      | some s' => s'.emitted.length = s.emitted.length + 1 ∧ ∃ f', PhiRun img host moves n cg₀ f₀ s₀ todo s' cg' f') (cg₀.SeqStops moves) cg := by
  unfold drainTurn
  cases hready : s.ready with
  | nil => exact ⟨rfl, rfl⟩
  | cons b ready =>
    have hb := h.inv.ready_dst b (by rw [PhiSeq.state, hready]; exact List.mem_cons_self)
    have hdone : s.done b = false := hb.2
    obtain ⟨m, hm⟩ := phiCopy_isDst.mp hb.1
    have hpred : s.predmove b = some m := by
      rw [h.pred_eq]
      exact hm
    simp only [hdone, hpred, Bool.false_eq_true, if_false, Exec.wp_bind, Exec.wp_pure]
    refine Exec.wp_mono ?_ (fun _ _ he => he) (wp_emitMove hcode hst hin₀ h hready hm)
    rintro s' cg' ⟨hemitted, hrun⟩
    exact ⟨by rw [hemitted, List.length_append, List.length_singleton], hrun⟩

/-- The loop ends with nothing ready. -/
theorem wp_drain (hcode : img.code.length = img.codeCount.toNat) (hst : PhiStart moves n cg₀ s₀) (hin₀ : InFrame cg₀ img f₀) (fuel : Nat)
    (hfuel : moves.length < fuel + s.emitted.length) (h : PhiRun img host moves n cg₀ f₀ s₀ todo s cg f) :
    Exec.wp (drain moves (BitVec.ofNat 8 (n + 1)) fuel s)
      (fun s' cg' => s'.ready = [] ∧ ∃ f', PhiRun img host moves n cg₀ f₀ s₀ todo s' cg' f') (cg₀.SeqStops moves) cg := by
  induction fuel generalizing s cg f with
  | zero =>
    have hle := h.emitted_length hst
    omega
  | succ fuel ih =>
    rw [drain, Exec.wp_bind]
    refine Exec.wp_mono ?_ (fun _ _ he => he) (wp_drainTurn hcode hst hin₀ h)
    intro r cg' hr
    cases r with
    | none =>
      obtain ⟨hready, rfl⟩ := hr
      exact ⟨hready, f, h⟩
    | some s' =>
      obtain ⟨hlen, f', h'⟩ := hr
      exact ih (by omega) h'

/-! ## The loop over `todo` -/

/-- A destination that is still pending is saved to the spare. -/
theorem wp_saveCycle (hcode : img.code.length = img.codeCount.toNat) (hst : PhiStart moves n cg₀ s₀) (hin₀ : InFrame cg₀ img f₀) {b : Nat}
    (h : PhiRun img host moves n cg₀ f₀ s₀ (b :: todo) s cg f) (hready : s.ready = []) (hp : s.done b = false) :
    Exec.wp (do
        cgPhiCopyLoc (s.loc 0) (s.loc b) (BitVec.ofNat 8 (n + 1))
        cgPhiPush { s with locCur := Function.update s.locCur b (some 0) } b)
      (fun s' cg' => ∃ f', PhiRun img host moves n cg₀ f₀ s₀ todo s' cg' f') (cg₀.SeqStops moves) cg := by
  have hspare := hst.spare_le
  obtain ⟨m, hm⟩ := phiCopy_isDst.mp (h.inv.listed_dst b List.mem_cons_self)
  obtain ⟨hlt, hdst⟩ := (hst.interned.pred_iff b m).mp hm
  have hloc0 := h.loc_eq hst.spare_at
  have hlocb := h.loc_eq hdst
  have hne : (moveAt moves m).dst ≠ .reg (BitVec.ofNat 8 n) := hst.ne_spare (hst.moves_ok.move hlt).dst_ok
  rw [hloc0, hlocb, Exec.wp_bind]
  have hcopy := wp_cgPhiCopyLoc host hcode (h.ok hst) (h.inFrame hst hin₀) (by omega : n + 1 ≤ cgMaxEmitReg + 1)
    (h.loc_ok (hst.loc_ok (List.mem_of_getElem? hdst))) (h.loc_ok (hst.loc_ok (List.mem_of_getElem? hst.spare_at))) hne
    hst.scratch_stage hst.stage_ne
  refine Exec.wp_mono ?_ (fun _ _ he => he.elim) hcopy
  intro _ cg' hw
  obtain ⟨f', hnext, hem, hchanges, hvals⟩ := h.write hcode hst hst.spare_at (Or.inr rfl) hw
  have hoff : ∀ d, s.inready d = false := by
    intro d
    rw [← Bool.not_eq_true, h.inready_iff, hready]
    exact List.not_mem_nil
  refine wp_cgPhiPush (by rw [hready]; decide) (fun _ _ => ?_) fun hnot => absurd ⟨hp, hoff b⟩ hnot
  have hsave := h.inv.save (hst.copy_ok f₀) hready hp
  have hval : locWord cg f (moveAt moves m).dst = phiVals cg₀ s₀.lv f b := by rw [h.locWord_eq, phiVals_of hdst]
  have hstate : (PhiSeq.pushReady { s with locCur := Function.update s.locCur b (some 0) } b).state cg₀ s₀.lv f' =
      Inv.State.save (s.state cg₀ s₀.lv f) 0 b := by
    simp only [PhiSeq.state, PhiSeq.pushReady, Inv.State.save, hvals, hval, hready]
  refine ⟨f', h.lv_eq, h.pred_eq, ?_, h.done_dst, h.emitted_nodup, h.emitted_iff, hnext, hem, hchanges, hstate ▸ hsave⟩
  exact inready_pushReady h.inready_iff

/-- The loop ends with nothing to do. -/
theorem wp_sequenceLoop (hcode : img.code.length = img.codeCount.toNat) (hst : PhiStart moves n cg₀ s₀) (hin₀ : InFrame cg₀ img f₀)
    (hnone : todo = [] → s.ready = []) (h : PhiRun img host moves n cg₀ f₀ s₀ todo s cg f) :
    Exec.wp (sequenceLoop moves 0 (BitVec.ofNat 8 (n + 1)) todo s)
      (fun s' cg' => s'.ready = [] ∧ ∃ f', PhiRun img host moves n cg₀ f₀ s₀ [] s' cg' f') (cg₀.SeqStops moves) cg := by
  induction todo generalizing s cg f with
  | nil => exact ⟨hnone rfl, f, h⟩
  | cons b todo ih =>
    rw [sequenceLoop, Exec.wp_bind]
    refine Exec.wp_mono ?_ (fun _ _ he => he) (wp_drain hcode hst hin₀ (moves.length + 2) (by omega) h)
    rintro s₁ cg₁ ⟨hready, f₁, h₁⟩
    rw [Exec.wp_ite]
    constructor
    · intro hdone
      exact ih (fun _ => hready) { h₁ with inv := h₁.inv.drop hdone }
    · intro hdone
      have hp : s₁.done b = false := by simpa using hdone
      -- The last destination of the list is never in a cycle.
      have hmore : todo ≠ [] := by
        rintro rfl
        exact hdone (h₁.inv.last_done (hst.copy_ok f₀) hready)
      have hsave := wp_saveCycle hcode hst hin₀ h₁ hready hp
      rw [Exec.wp_bind] at hsave ⊢
      refine Exec.wp_mono ?_ (fun _ _ he => he) hsave
      intro _ cg₂ hpush
      rw [Exec.wp_bind]
      refine Exec.wp_mono ?_ (fun _ _ he => he) hpush
      rintro s₃ cg₃ ⟨f₃, h₃⟩
      exact ih (fun he => absurd he hmore) h₃

/-! ## The whole sequence -/

/-- Everything is done: each destination has its word, and each move was emitted. -/
theorem PhiRun.finished (hst : PhiStart moves n cg₀ s₀) (h : PhiRun img host moves n cg₀ f₀ s₀ [] s cg f) (hready : s.ready = []) :
    (∀ m ∈ moves, locWord cg₀ f m.dst = m.value cg₀ f₀) ∧
      s.emitted.Perm (List.range moves.length) := by
  have hdone : ∀ m < moves.length, ∃ d, s₀.predmove d = some m ∧ s.done d = true := by
    intro m hm
    have hat := List.getElem?_idxOf (hst.interned.dst_mem m hm)
    have hpred := (hst.interned.pred_iff _ m).mpr ⟨hm, hat⟩
    refine ⟨_, hpred, ?_⟩
    rcases h.inv.listed _ (phiCopy_isDst.mpr ⟨m, hpred⟩) List.not_mem_nil with hd | hin
    · exact hd
    · rw [PhiSeq.state, hready] at hin
      exact absurd hin List.not_mem_nil
  constructor
  · intro move hmove
    obtain ⟨m, hm, rfl⟩ := exists_moveAt hmove
    obtain ⟨d, hpred, hd⟩ := hdone m hm
    have hat := ((hst.interned.pred_iff d m).mp hpred).2
    have hval : phiVals cg₀ s₀.lv f d = _ := h.inv.done_val d (phiCopy_isDst.mpr ⟨m, hpred⟩) hd
    rw [phiVals_of hat, phiCopy_want hst.interned hpred] at hval
    exact hval
  · refine (List.perm_ext_iff_of_nodup h.emitted_nodup List.nodup_range).mpr fun m => ?_
    rw [h.emitted_iff, List.mem_range]
    refine ⟨fun h => ?_, hdone m⟩
    obtain ⟨d, hpred, -⟩ := h
    exact ((hst.interned.pred_iff d m).mp hpred).1

/-- What a sequence of moves does: each destination gets the word of its move, nothing else changes but scratch registers from `lo`. -/
structure MovesDone (img : Image κ) (host : Host κ W) (cg : Cg) (f : Frame κ W) (lo : Nat) (moves : List PhiMove) (cg' : Cg)
    (f' : Frame κ W) : Prop where
  emitted : Emitted img host cg cg' f f'
  values : ∀ m ∈ moves, locWord cg f' m.dst = m.value cg f
  changes : f.ChangesOnly cg lo (DstOf moves) f'

/-- The whole sequence stops where fewer than two registers are left, or for the constant of a move beside these two. -/
def Cg.MovesStop (cg : Cg) (moves : List PhiMove) (e : CgError) (t : Cg) : Prop :=
  e = .scratchExhausted ∧ cg.Lacks 2 ∨
    ∃ m ∈ moves, ∃ cv, m.src = .const cv ∧ cg.Stops (cg.Rejects cv) (2 + cg.regsTaken cv) e t

/-- The moves are put in sequence, each emitted once. -/
theorem wp_sequenceMoves (host : Host κ W) (hcode : img.code.length = img.codeCount.toNat) (hok : cg.Ok) (hin : InFrame cg img f)
    (hmoves : MovesOk cg cg.nextReg moves) :
    Exec.wp (sequenceMoves moves)
      (fun emitted cg' => emitted.Perm (List.range moves.length) ∧ cg'.nextReg = cg.nextReg + 2 ∧ cg.nextReg + 2 ≤ cgMaxEmitReg + 1 ∧
        ∃ f', MovesDone img host cg f cg.nextReg moves cg' f') (cg.MovesStop moves) cg := by
  have hpool : ({ cg with nextReg := cg.nextReg + 1 } : Cg).freeList = [] := hok.pool
  simp only [sequenceMoves, Exec.wp_bind, wp_cgAllocReg hok.pool, wp_cgAllocReg hpool, Exec.wp_pure]
  refine ⟨fun hfull => Or.inl ⟨rfl, ?_⟩, fun hn => ⟨fun hfull => Or.inl ⟨rfl, Nat.add_lt_add_right hfull 1⟩, fun hn' => ?_⟩⟩
  · exact Nat.lt_succ_of_lt (Nat.add_lt_add_right hfull 1)
  refine wp_cgLocIntern (by simp [PhiSeq.empty, phiMaxLoc]) ?_
  have hlv : internLv [] (.reg (BitVec.ofNat 8 cg.nextReg)) = [.reg (BitVec.ofNat 8 cg.nextReg)] := rfl
  have hidx : ([.reg (BitVec.ofNat 8 cg.nextReg)] : List Loc).idxOf (.reg (BitVec.ofNat 8 cg.nextReg)) = 0 := by simp
  simp only [PhiSeq.empty, hlv, hidx]
  set cg₀ : Cg := { cg with nextReg := cg.nextReg + 1 + 1 } with hcg₀
  have hok₀ : cg₀.Ok :=
    { hok with
      high_le := Nat.le_trans hok.high_le (by simp only [hcg₀]; omega)
      next_le := by simp only [hcg₀]; omega }
  have hin₀ : InFrame cg₀ img f := ⟨hin.size, hin.fits⟩
  have hmoves₀ : MovesOk cg₀ cg.nextReg moves :=
    ⟨hmoves.distinct, hmoves.length_le, fun m hm => { hmoves.each m hm with }⟩
  refine Exec.wp_forRange (fun m s cg' => cg' = cg₀ ∧ Interned moves (.reg (BitVec.ofNat 8 cg.nextReg)) m m s ∧ s.ready = [] ∧
    s.inready = fun _ => false) ⟨rfl, Interned.empty, rfl, rfl⟩ ?_ ?_
  · rintro m hm s _ ⟨rfl, hint, hready, hinready⟩
    refine Exec.wp_mono ?_ (fun _ _ he => he) (wp_internMove hmoves.distinct hmoves.length_le hm hint)
    rintro s' cg' ⟨hint', hready', hinready', rfl⟩
    exact ⟨rfl, hint', hready'.trans hready, hinready'.trans hinready⟩
  rintro s _ ⟨rfl, hint, hready, hinready⟩
  refine Exec.wp_forRange (fun m s cg' => cg' = cg₀ ∧ Prepared moves (.reg (BitVec.ofNat 8 cg.nextReg)) m s)
    ⟨rfl, hint.prepared hready hinready⟩ ?_ ?_
  · rintro m hm s _ ⟨rfl, hprep⟩
    refine Exec.wp_mono ?_ (fun _ _ he => he) (wp_initReady hmoves.length_le hm hprep)
    rintro s' cg' ⟨hprep', rfl⟩
    exact ⟨rfl, hprep'⟩
  rintro s₀ _ ⟨rfl, hprep⟩
  have hst : PhiStart moves cg.nextReg cg₀ s₀ := ⟨hok₀, rfl, hmoves₀, hprep⟩
  have hnone : s₀.todo = [] → s₀.ready = [] := by
    intro htodo
    have hlen := hprep.ready_length
    rw [← hprep.interned.todo_length, htodo] at hlen
    exact List.length_eq_zero_iff.mp (Nat.le_zero.mp hlen)
  have hstart : PhiRun img host moves cg.nextReg cg₀ f s₀ s₀.todo s₀ cg₀ f := hst.start
  have hstops : ∀ e t, cg₀.SeqStops moves e t → cg.MovesStop moves e t := by
    rintro e t ⟨m, hm, cv, hsrc, he⟩
    have htables : cg.SameTables cg₀ := ⟨rfl, rfl, rfl⟩
    refine Or.inr ⟨m, hm, cv, hsrc, he.before (k := 2) (Nat.le_refl _) htables.rejects ?_⟩
    rw [htables.regsTaken]
  refine Exec.wp_mono ?_ hstops (wp_sequenceLoop hcode hst hin₀ hnone hstart)
  rintro s' cg' ⟨hready', f', hrun⟩
  obtain ⟨hvalues, hperm⟩ := hrun.finished hst hready'
  have halloc : Emitted img host cg cg₀ f f := .alloc (cg.nextReg + 1 + 1)
  refine ⟨hperm, hrun.next, by omega, f', halloc.trans hcode hrun.emitted, ?_, ?_⟩
  · intro m hm
    rw [← halloc.value_eq]
    exact hvalues m hm
  · exact { hrun.changes with }

end CronoVM
