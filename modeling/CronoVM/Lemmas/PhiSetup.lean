import Mathlib.Data.List.Nodup
import CronoVM.Lib.ParallelCopy
import CronoVM.Translator.PhiMoves

/-!
# The start of a sequence of phi moves

What the two loops before the sequence leave: each location of the moves has one index, each destination knows its move, a location
that is read holds its own value, and the destinations that nobody reads are ready. So the sequence starts as a parallel copy.
-/

namespace CronoVM

open Checked Ir

/-! ## Locations and their indices -/

/-- The locations with `v` among them. -/
def internLv (lv : List Loc) (v : Loc) : List Loc := if v ∈ lv then lv else lv ++ [v]

section internLv

variable {lv : List Loc} {v l : Loc} {i j : Nat}

theorem mem_internLv : l ∈ internLv lv v ↔ l ∈ lv ∨ l = v := by
  unfold internLv
  split
  case isTrue h => exact ⟨Or.inl, fun hor => hor.elim id fun he => he ▸ h⟩
  case isFalse => rw [List.mem_append, List.mem_singleton]

theorem nodup_internLv (h : lv.Nodup) : (internLv lv v).Nodup := by
  unfold internLv
  split
  case isTrue => exact h
  case isFalse hv =>
    rw [List.nodup_append]
    exact ⟨h, List.nodup_singleton v, fun a ha b hb hab => hv (List.mem_singleton.mp hb ▸ hab ▸ ha)⟩

theorem length_internLv_le : (internLv lv v).length ≤ lv.length + 1 := by
  unfold internLv
  split
  case isTrue => exact Nat.le_succ _
  case isFalse => rw [List.length_append, List.length_singleton]

theorem getElem?_internLv (h : lv[i]? = some l) : (internLv lv v)[i]? = some l := by
  unfold internLv
  split
  case isTrue => exact h
  case isFalse =>
    obtain ⟨hi, _⟩ := List.getElem?_eq_some_iff.mp h
    rw [List.getElem?_append_left hi, h]

theorem getElem?_idxOf_internLv : (internLv lv v)[(internLv lv v).idxOf v]? = some v :=
  List.getElem?_idxOf (mem_internLv.mpr (Or.inr rfl))

theorem getElem?_nodup (h : lv.Nodup) (hi : lv[i]? = some l) (hj : lv[j]? = some l) : i = j := by
  obtain ⟨hlt, _⟩ := List.getElem?_eq_some_iff.mp hi
  exact (List.getElem?_inj hlt h).mp (hi.trans hj.symm)

/-- A location that was there has the index it had. -/
theorem getElem?_of_internLv (h : lv.Nodup) (hl : l ∈ lv) (hi : (internLv lv v)[i]? = some l) : lv[i]? = some l := by
  have hat := List.getElem?_idxOf hl
  obtain rfl := getElem?_nodup (nodup_internLv h) hi (getElem?_internLv hat)
  exact hat

end internLv

/-- The index of a location that is there. -/
theorem idxOf?_of_mem {lv : List Loc} {v : Loc} (hv : v ∈ lv) : lv.idxOf? v = some (lv.idxOf v) := by
  cases hidx : lv.idxOf? v with
  | none => exact absurd hv (List.idxOf?_eq_none_iff.mp hidx)
  | some k => rw [List.idxOf_eq_getD_idxOf?, hidx, Option.getD_some]

section interning

variable {E : CgError → Cg → Prop} {cg : Cg} {s : PhiSeq} {v : Loc}

theorem wp_cgLocIntern {Q : PhiSeq × Nat → Cg → Prop} (hroom : s.lv.length < phiMaxLoc)
    (h : Q ({ s with lv := internLv s.lv v }, (internLv s.lv v).idxOf v) cg) : Exec.wp (cgLocIntern s v) Q E cg := by
  unfold cgLocIntern
  by_cases hv : v ∈ s.lv
  · rw [idxOf?_of_mem hv]
    rw [internLv, if_pos hv] at h
    exact h
  · have hlast : (s.lv ++ [v]).idxOf v = s.lv.length := by
      rw [List.idxOf_append_of_notMem hv]
      simp
    rw [List.idxOf?_eq_none_iff.mpr hv]
    rw [internLv, if_neg hv, hlast] at h
    simp only [Exec.wp_bind, Exec.wp_demand, Exec.wp_pure]
    exact ⟨hroom, h⟩

theorem wp_cgLocIntern_of_mem {Q : PhiSeq × Nat → Cg → Prop} (hv : v ∈ s.lv) (h : Q (s, s.lv.idxOf v) cg) :
    Exec.wp (cgLocIntern s v) Q E cg := by
  unfold cgLocIntern
  rw [idxOf?_of_mem hv]
  exact h

end interning

/-! ## The first loop -/

/-- The destinations of the first `n` moves and the sources of the first `k` moves are interned. -/
structure Interned (moves : List PhiMove) (spare : Loc) (n k : Nat) (s : PhiSeq) : Prop where
  nodup : s.lv.Nodup
  spare_at : s.lv[0]? = some spare
  length_le : s.lv.length ≤ n + k + 1
  mem : ∀ l ∈ s.lv, l = spare ∨ (∃ m < n, l = (moveAt moves m).dst) ∨ ∃ m < k, (moveAt moves m).src = .loc l
  dst_mem : ∀ m < n, (moveAt moves m).dst ∈ s.lv
  src_mem : ∀ m < k, ∀ l, (moveAt moves m).src = .loc l → l ∈ s.lv
  pred_iff : ∀ d m, s.predmove d = some m ↔ m < n ∧ s.lv[d]? = some (moveAt moves m).dst
  cur_iff : ∀ a c, s.locCur a = some c ↔ c = a ∧ ∃ m < k, ∃ l, (moveAt moves m).src = .loc l ∧ s.lv[a]? = some l
  todo_length : s.todo.length = n
  todo_iff : ∀ d, d ∈ s.todo ↔ ∃ m, s.predmove d = some m
  done_eq : s.done = fun _ => false
  emitted_eq : s.emitted = []

/-- Moves have one destination each. -/
def DistinctDsts (moves : List PhiMove) : Prop := (moves.map PhiMove.dst).Nodup

instance (moves : List PhiMove) : Decidable (DistinctDsts moves) := inferInstanceAs (Decidable (moves.map PhiMove.dst).Nodup)

theorem moveAt_mem {moves : List PhiMove} {m : Nat} (hm : m < moves.length) : moveAt moves m ∈ moves := by
  rw [moveAt, List.getD_eq_getElem?_getD, List.getElem?_eq_getElem hm, Option.getD_some]
  exact List.getElem_mem hm

theorem exists_moveAt {moves : List PhiMove} {move : PhiMove} (h : move ∈ moves) : ∃ m < moves.length, moveAt moves m = move := by
  obtain ⟨m, hm, rfl⟩ := List.getElem_of_mem h
  exact ⟨m, hm, by rw [moveAt, List.getD_eq_getElem?_getD, List.getElem?_eq_getElem hm, Option.getD_some]⟩

namespace Interned

variable {moves : List PhiMove} {spare : Loc} {n k : Nat} {s : PhiSeq}

theorem dst_injective (hd : DistinctDsts moves) {i j : Nat} (hi : i < moves.length) (hj : j < moves.length)
    (h : (moveAt moves i).dst = (moveAt moves j).dst) : i = j := by
  have hi' : i < (moves.map PhiMove.dst).length := by rwa [List.length_map]
  refine (List.getElem?_inj hi' hd).mp ?_
  rw [List.getElem?_map, List.getElem?_map, List.getElem?_eq_getElem hi, List.getElem?_eq_getElem hj]
  simpa only [moveAt, List.getD_eq_getElem?_getD, List.getElem?_eq_getElem hi, List.getElem?_eq_getElem hj, Option.getD_some,
    Option.map_some, Option.some.injEq] using h

theorem empty : Interned moves spare 0 0 { PhiSeq.empty with lv := [spare] } := by
  constructor <;> simp [PhiSeq.empty]

/-- A location more changes nothing for the others. -/
theorem getElem?_iff (h : Interned moves spare n k s) {v l : Loc} {i : Nat} (hl : l ∈ s.lv) :
    (internLv s.lv v)[i]? = some l ↔ s.lv[i]? = some l :=
  ⟨getElem?_of_internLv h.nodup hl, getElem?_internLv⟩

/-- The destination of the next move is interned. -/
theorem dst_step (hd : DistinctDsts moves) (hn : n < moves.length) (h : Interned moves spare n k s) {lv : List Loc} {di : Nat}
    (hlv : lv = internLv s.lv (moveAt moves n).dst) (hdi : lv[di]? = some (moveAt moves n).dst) :
    Interned moves spare (n + 1) k { s with lv := lv, predmove := Function.update s.predmove di (some n), todo := di :: s.todo } := by
  have hnodup : lv.Nodup := hlv ▸ nodup_internLv h.nodup
  have hkeep : ∀ {i : Nat} {l}, l ∈ s.lv → (lv[i]? = some l ↔ s.lv[i]? = some l) := by
    intro i l hl
    rw [hlv]
    exact h.getElem?_iff hl
  have hpred : ∀ d m, Function.update s.predmove di (some n) d = some m ↔ m < n + 1 ∧ lv[d]? = some (moveAt moves m).dst := by
    intro d m
    by_cases hdd : d = di
    · subst hdd
      rw [Function.update_self, Option.some.injEq]
      constructor
      · rintro rfl
        exact ⟨Nat.lt_succ_self _, hdi⟩
      · rintro ⟨hm, hat⟩
        exact dst_injective hd hn (by omega) (Option.some.inj (hdi.symm.trans hat))
    · rw [Function.update_of_ne hdd, h.pred_iff]
      constructor
      · rintro ⟨hm, hat⟩
        exact ⟨by omega, (hkeep (h.dst_mem m hm)).mpr hat⟩
      · rintro ⟨hm, hat⟩
        have hne : m ≠ n := by
          rintro rfl
          exact hdd (getElem?_nodup hnodup hat hdi)
        have hlt : m < n := by omega
        exact ⟨hlt, (hkeep (h.dst_mem m hlt)).mp hat⟩
  refine { h with
    nodup := hnodup, spare_at := ?_, length_le := ?_, mem := ?_, dst_mem := ?_, src_mem := ?_, pred_iff := hpred, cur_iff := ?_,
    todo_length := by rw [List.length_cons, h.todo_length], todo_iff := ?_ }
  · rw [hlv]
    exact getElem?_internLv h.spare_at
  · have := @length_internLv_le s.lv (moveAt moves n).dst
    have := h.length_le
    simp only [hlv]
    omega
  · intro l hl
    simp only [hlv] at hl
    rcases mem_internLv.mp hl with hl | rfl
    · refine (h.mem l hl).imp_right (Or.imp_left ?_)
      rintro ⟨m, hm, he⟩
      exact ⟨m, by omega, he⟩
    · exact Or.inr (Or.inl ⟨n, Nat.lt_succ_self n, rfl⟩)
  · intro m hm
    simp only [hlv]
    by_cases hmn : m = n
    · exact mem_internLv.mpr (Or.inr (hmn ▸ rfl))
    · exact mem_internLv.mpr (Or.inl (h.dst_mem m (by omega)))
  · intro m hm l hl
    simp only [hlv]
    exact mem_internLv.mpr (Or.inl (h.src_mem m hm l hl))
  · intro a c
    rw [h.cur_iff]
    refine and_congr_right fun _ => exists_congr fun m => and_congr_right fun hm => exists_congr fun l => and_congr_right fun hl => ?_
    exact (hkeep (h.src_mem m hm l hl)).symm
  · intro d
    rw [List.mem_cons, h.todo_iff]
    by_cases hdd : d = di
    · subst hdd
      exact ⟨fun _ => ⟨n, Function.update_self ..⟩, fun _ => Or.inl rfl⟩
    · simp only [hdd, false_or, Function.update_of_ne hdd]

/-- The source of the next move is interned. -/
theorem src_step (h : Interned moves spare n k s) {v : Loc} (hv : (moveAt moves k).src = .loc v) {lv : List Loc} {si : Nat}
    (hlv : lv = internLv s.lv v) (hsi : lv[si]? = some v) :
    Interned moves spare n (k + 1) { s with lv := lv, locCur := Function.update s.locCur si (some si) } := by
  have hnodup : lv.Nodup := hlv ▸ nodup_internLv h.nodup
  have hkeep : ∀ {i : Nat} {l}, l ∈ s.lv → (lv[i]? = some l ↔ s.lv[i]? = some l) := by
    intro i l hl
    rw [hlv]
    exact h.getElem?_iff hl
  have hcur : ∀ a c, Function.update s.locCur si (some si) a = some c ↔
      c = a ∧ ∃ m < k + 1, ∃ l, (moveAt moves m).src = .loc l ∧ lv[a]? = some l := by
    intro a c
    by_cases haa : a = si
    · subst haa
      rw [Function.update_self, Option.some.injEq]
      exact ⟨fun he => ⟨he.symm, k, Nat.lt_succ_self k, v, hv, hsi⟩, fun he => he.1.symm⟩
    · rw [Function.update_of_ne haa, h.cur_iff]
      refine and_congr_right fun _ => ?_
      constructor
      · rintro ⟨m, hm, l, hl, hat⟩
        exact ⟨m, by omega, l, hl, (hkeep (h.src_mem m hm l hl)).mpr hat⟩
      · rintro ⟨m, hm, l, hl, hat⟩
        have hne : m ≠ k := by
          rintro rfl
          obtain rfl := MoveSrc.loc.inj (hl.symm.trans hv)
          exact haa (getElem?_nodup hnodup hat hsi)
        have hlt : m < k := by omega
        exact ⟨m, hlt, l, hl, (hkeep (h.src_mem m hlt l hl)).mp hat⟩
  refine { h with
    nodup := hnodup, spare_at := ?_, length_le := ?_, mem := ?_, dst_mem := ?_, src_mem := ?_, pred_iff := ?_, cur_iff := hcur }
  · rw [hlv]
    exact getElem?_internLv h.spare_at
  · have := @length_internLv_le s.lv v
    have := h.length_le
    simp only [hlv]
    omega
  · intro l hl
    simp only [hlv] at hl
    rcases mem_internLv.mp hl with hl | rfl
    · refine (h.mem l hl).imp_right (Or.imp_right ?_)
      rintro ⟨m, hm, he⟩
      exact ⟨m, by omega, he⟩
    · exact Or.inr (Or.inr ⟨k, Nat.lt_succ_self k, hv⟩)
  · intro m hm
    simp only [hlv]
    exact mem_internLv.mpr (Or.inl (h.dst_mem m hm))
  · intro m hm l hl
    simp only [hlv]
    by_cases hmk : m = k
    · rw [hmk, hv] at hl
      exact mem_internLv.mpr (Or.inr (MoveSrc.loc.inj hl).symm)
    · exact mem_internLv.mpr (Or.inl (h.src_mem m (by omega) l hl))
  · intro d m
    rw [h.pred_iff]
    exact and_congr_right fun hm => (hkeep (h.dst_mem m hm)).symm

/-- A move without a source location is passed over. -/
theorem skip_step (h : Interned moves spare n k s) (hv : ∀ v, (moveAt moves k).src ≠ .loc v) : Interned moves spare n (k + 1) s := by
  have hlt : ∀ {m l}, m < k + 1 → (moveAt moves m).src = .loc l → m < k := by
    intro m l hm hl
    have hne : m ≠ k := by
      rintro rfl
      exact hv l hl
    omega
  refine { h with length_le := ?_, mem := ?_, src_mem := ?_, cur_iff := ?_ }
  · have := h.length_le
    omega
  · intro l hl
    refine (h.mem l hl).imp_right (Or.imp_right ?_)
    rintro ⟨m, hm, he⟩
    exact ⟨m, by omega, he⟩
  · exact fun m hm l hl => h.src_mem m (hlt hm hl) l hl
  · intro a c
    rw [h.cur_iff]
    refine and_congr_right fun _ => ?_
    constructor
    · rintro ⟨m, hm, l, hl, hat⟩
      exact ⟨m, by omega, l, hl, hat⟩
    · rintro ⟨m, hm, l, hl, hat⟩
      exact ⟨m, hlt hm hl, l, hl, hat⟩

end Interned

section firstLoop

variable {moves : List PhiMove} {spare : Loc} {n : Nat} {s : PhiSeq} {E : CgError → Cg → Prop} {cg : Cg}

/-- A turn of the first loop. -/
theorem wp_internMove (hd : DistinctDsts moves) (hmax : moves.length ≤ phiMaxMoves) (hn : n < moves.length)
    (h : Interned moves spare n n s) :
    Exec.wp (internMove moves s n)
      (fun s' cg' => Interned moves spare (n + 1) (n + 1) s' ∧ s'.ready = s.ready ∧ s'.inready = s.inready ∧ cg' = cg) E cg := by
  have h1024 : phiMaxMoves = 1024 := rfl
  have h2049 : phiMaxLoc = 2049 := rfl
  have hlen := h.length_le
  unfold internMove
  rw [Exec.wp_bind]
  refine wp_cgLocIntern (by omega) ?_
  have hdst := h.dst_step hd hn rfl getElem?_idxOf_internLv
  simp only [Exec.wp_bind, Exec.wp_demand, h.todo_length]
  refine ⟨by omega, ?_⟩
  cases hsrc : (moveAt moves n).src with
  | loc v =>
    simp only [Exec.wp_bind]
    refine wp_cgLocIntern ?_ ?_
    · have := hdst.length_le
      simp only at this ⊢
      omega
    · exact ⟨hdst.src_step hsrc rfl getElem?_idxOf_internLv, rfl, rfl, rfl⟩
  | const cv => exact ⟨hdst.skip_step fun v hv => by simp [hsrc] at hv, rfl, rfl, rfl⟩
  | word w => exact ⟨hdst.skip_step fun v hv => by simp [hsrc] at hv, rfl, rfl, rfl⟩

end firstLoop

/-! ## The second loop -/

/-- The second loop has passed the first `n` moves. -/
structure Prepared (moves : List PhiMove) (spare : Loc) (n : Nat) (s : PhiSeq) : Prop where
  interned : Interned moves spare moves.length moves.length s
  ready_iff : ∀ d, d ∈ s.ready ↔ ∃ m < n, s.lv[d]? = some (moveAt moves m).dst ∧ s.locCur d = none
  ready_nodup : s.ready.Nodup
  inready_iff : ∀ d, s.inready d = true ↔ d ∈ s.ready
  ready_length : s.ready.length ≤ n

section secondLoop

variable {moves : List PhiMove} {spare : Loc} {n : Nat} {s : PhiSeq} {E : CgError → Cg → Prop} {cg : Cg}

theorem Interned.prepared (h : Interned moves spare moves.length moves.length s) (hready : s.ready = [])
    (hinready : s.inready = fun _ => false) : Prepared moves spare 0 s := by
  refine ⟨h, ?_, ?_, ?_, ?_⟩
  all_goals simp [hready, hinready]

/-- `ready[rn++] = x; inready[x] = 1;` keeps the stack and its marks in step. -/
theorem inready_pushReady {x : Nat} (h : ∀ d, s.inready d = true ↔ d ∈ s.ready) (d : Nat) :
    (s.pushReady x).inready d = true ↔ d ∈ (s.pushReady x).ready := by
  simp only [PhiSeq.pushReady, List.mem_cons]
  by_cases hd : d = x
  · simp [hd]
  · simp [hd, h]

/-- A turn of the second loop. -/
theorem wp_initReady (hmax : moves.length ≤ phiMaxMoves) (hn : n < moves.length) (h : Prepared moves spare n s) :
    Exec.wp (initReady moves s n) (fun s' cg' => Prepared moves spare (n + 1) s' ∧ cg' = cg) E cg := by
  have h1024 : phiMaxMoves = 1024 := rfl
  have h2049 : phiMaxLoc = 2049 := rfl
  have hmem : (moveAt moves n).dst ∈ s.lv := h.interned.dst_mem n hn
  have hnodup : s.lv.Nodup := h.interned.nodup
  have hat := List.getElem?_idxOf hmem
  have hlen := h.ready_length
  unfold initReady
  rw [Exec.wp_bind]
  refine wp_cgLocIntern_of_mem hmem ?_
  simp only [Exec.wp_ite, Exec.wp_bind, Exec.wp_demand, Exec.wp_pure]
  -- The destinations of the first moves, and the one of this move.
  have hnext : ∀ d, (∃ m < n + 1, s.lv[d]? = some (moveAt moves m).dst ∧ s.locCur d = none) ↔
      d ∈ s.ready ∨ d = s.lv.idxOf (moveAt moves n).dst ∧ s.locCur d = none := by
    intro d
    rw [h.ready_iff]
    constructor
    · rintro ⟨m, hm, hd, hnone⟩
      by_cases hmn : m = n
      · subst hmn
        exact Or.inr ⟨getElem?_nodup hnodup hd hat, hnone⟩
      · exact Or.inl ⟨m, by omega, hd, hnone⟩
    · rintro (⟨m, hm, hd, hnone⟩ | ⟨rfl, hnone⟩)
      · exact ⟨m, by omega, hd, hnone⟩
      · exact ⟨n, Nat.lt_succ_self n, hat, hnone⟩
  constructor
  · rintro ⟨hnone, hnot⟩
    refine ⟨by omega, ⟨{ h.interned with }, ?_, ?_, inready_pushReady h.inready_iff, ?_⟩, trivial⟩
    · intro d
      refine Iff.trans ?_ (hnext d).symm
      simp only [PhiSeq.pushReady, List.mem_cons]
      constructor
      · rintro (rfl | hd)
        · exact Or.inr ⟨rfl, hnone⟩
        · exact Or.inl hd
      · rintro (hd | ⟨rfl, _⟩)
        · exact Or.inr hd
        · exact Or.inl rfl
    · refine List.nodup_cons.mpr ⟨fun hin => ?_, h.ready_nodup⟩
      rw [(h.inready_iff _).mpr hin] at hnot
      exact Bool.noConfusion hnot
    · simp only [PhiSeq.pushReady, List.length_cons]
      omega
  · intro hcond
    refine ⟨⟨h.interned, ?_, h.ready_nodup, h.inready_iff, by omega⟩, trivial⟩
    intro d
    rw [hnext]
    refine ⟨Or.inl, fun hor => hor.elim id ?_⟩
    rintro ⟨rfl, hnone⟩
    by_contra hnot
    have hoff : s.inready (s.lv.idxOf (moveAt moves n).dst) = false := by
      rw [← Bool.not_eq_true, h.inready_iff]
      exact hnot
    exact hcond ⟨hnone, hoff⟩

end secondLoop

end CronoVM
