import Mathlib.Data.Finset.Card
import Mathlib.Logic.Function.Basic

/-!
# Open addressing with linear probing

A table of slots, each empty or with a key, and for each key a path through the slots. A search follows the path of its key up to the
first slot that is empty or has the key. It finds every key of the table if no key has an empty slot before it on its path: writing a key
where its own search stops keeps this, and emptying a slot keeps it as long as no other key has the slot on its way.
-/

namespace CronoVM.LinearProbing

/-- The first of `n` slots of a path, from the `i`-th on, at which a search stops. -/
def firstStop (path : Nat → Nat) (stop : Nat → Bool) : Nat → Nat → Option Nat
  | 0, _ => none
  | n + 1, i => if stop (path i) then some (path i) else firstStop path stop n (i + 1)

section Stops

variable {path : Nat → Nat} {stop : Nat → Bool} {n i j : Nat}

theorem firstStop_eq_none_iff : firstStop path stop n i = none ↔ ∀ m < n, stop (path (i + m)) = false := by
  induction n generalizing i with
  | zero => simp [firstStop]
  | succ n ih =>
    rw [firstStop]
    by_cases hstop : stop (path i) = true
    · rw [if_pos hstop]
      refine ⟨fun h => (nomatch h), fun h => ?_⟩
      have := h 0 (Nat.succ_pos n)
      rw [Nat.add_zero, hstop] at this
      nomatch this
    · rw [if_neg hstop, ih]
      constructor
      · intro h m hm
        cases m with
        | zero => exact Bool.eq_false_of_not_eq_true hstop
        | succ m =>
          rw [Nat.add_comm m 1, ← Nat.add_assoc]
          exact h m (Nat.lt_of_succ_lt_succ hm)
      · intro h m hm
        rw [Nat.add_assoc, Nat.add_comm 1 m]
        exact h (m + 1) (Nat.succ_lt_succ hm)

theorem firstStop_eq_some_iff :
    firstStop path stop n i = some j ↔
      ∃ m < n, path (i + m) = j ∧ stop j = true ∧ ∀ m' < m, stop (path (i + m')) = false := by
  induction n generalizing i with
  | zero => simp [firstStop]
  | succ n ih =>
    rw [firstStop]
    by_cases hstop : stop (path i) = true
    · rw [if_pos hstop, Option.some.injEq]
      constructor
      · rintro rfl
        exact ⟨0, Nat.succ_pos n, rfl, hstop, fun m' hm' => absurd hm' (Nat.not_lt_zero m')⟩
      · rintro ⟨m, -, hpath, -, hbefore⟩
        cases m with
        | zero => exact hpath
        | succ m =>
          have := hbefore 0 (Nat.succ_pos m)
          rw [Nat.add_zero, hstop] at this
          nomatch this
    · rw [if_neg hstop, ih]
      constructor
      · rintro ⟨m, hm, hpath, hj, hbefore⟩
        refine ⟨m + 1, Nat.succ_lt_succ hm, by rw [← hpath]; congr 1; omega, hj, ?_⟩
        intro m' hm'
        cases m' with
        | zero => exact Bool.eq_false_of_not_eq_true hstop
        | succ m' =>
          rw [Nat.add_comm m' 1, ← Nat.add_assoc]
          exact hbefore m' (Nat.lt_of_succ_lt_succ hm')
      · rintro ⟨m, hm, hpath, hj, hbefore⟩
        cases m with
        | zero => exact absurd (hpath ▸ hj) hstop
        | succ m =>
          refine ⟨m, Nat.lt_of_succ_lt_succ hm, by rw [← hpath]; congr 1; omega, hj, ?_⟩
          intro m' hm'
          rw [Nat.add_assoc, Nat.add_comm 1 m']
          exact hbefore (m' + 1) (Nat.succ_lt_succ hm')

/-- A path that is back at its start after `n` slots and does not stop at one of these never stops. -/
theorem never_stops (hn : 0 < n) (hcycle : ∀ i, path (i + n) = path i) (h : firstStop path stop n 0 = none) (i : Nat) :
    stop (path i) = false := by
  rw [firstStop_eq_none_iff] at h
  induction i using Nat.strongRecOn with
  | ind i ih =>
    by_cases hi : i < n
    · have hturn := h i hi
      rwa [Nat.zero_add] at hturn
    · have hback : path i = path (i - n) := by rw [← hcycle (i - n), Nat.sub_add_cancel (Nat.le_of_not_lt hi)]
      rw [hback]
      exact ih (i - n) (by omega)

/-- Around `n` slots, from any of them on, one comes through each. -/
theorem exists_offset (start : Nat) (hj : j < n) : ∃ i < n, (start + i) % n = j := by
  have hn : 0 < n := Nat.lt_of_le_of_lt (Nat.zero_le j) hj
  have hsplit : start = start % n + n * (start / n) := (Nat.mod_add_div start n).symm
  have hrest := Nat.mod_lt start hn
  refine ⟨(j + (n - start % n)) % n, Nat.mod_lt _ hn, ?_⟩
  calc (start + (j + (n - start % n)) % n) % n
      = (start + (j + (n - start % n))) % n := Nat.add_mod_mod ..
    _ = (j + n + n * (start / n)) % n := by congr 1; omega
    _ = j := by rw [Nat.add_mul_mod_self_left, Nat.add_mod_right, Nat.mod_eq_of_lt hj]

end Stops

variable {κ : Type*} [DecidableEq κ] {n : Nat} {path : κ → Nat → Nat} {t : Nat → Option κ} {k k' : κ} {j j' : Nat}

/-- Where the search for a key ends: at an empty slot, or at the slot with the key. -/
def find (n : Nat) (path : κ → Nat → Nat) (t : Nat → Option κ) (k : κ) : Option Nat :=
  firstStop (path k) (fun j => t j = none ∨ t j = some k) n 0

theorem find_eq_some_iff :
    find n path t k = some j ↔
      ∃ m < n, path k m = j ∧ (t j = none ∨ t j = some k) ∧ ∀ m' < m, t (path k m') ≠ none ∧ t (path k m') ≠ some k := by
  unfold find
  simp only [firstStop_eq_some_iff, Nat.zero_add, decide_eq_true_eq, decide_eq_false_iff_not, not_or, ne_eq]

theorem stops_of_find (h : find n path t k = some j) : t j = none ∨ t j = some k := by
  obtain ⟨m, -, -, hstop, -⟩ := find_eq_some_iff.mp h
  exact hstop

/-- A search ends if its path goes through every slot and one is empty. -/
theorem exists_find (hpath : ∀ j < n, ∃ m < n, path k m = j) (hempty : ∃ j < n, t j = none) : ∃ j, find n path t k = some j := by
  cases hfind : find n path t k with
  | some j => exact ⟨j, rfl⟩
  | none =>
    obtain ⟨j, hj, hnone⟩ := hempty
    obtain ⟨m, hm, hslot⟩ := hpath j hj
    have := firstStop_eq_none_iff.mp hfind m hm
    rw [Nat.zero_add, hslot] at this
    simp [hnone] at this

/-! ## Tables in which every key is found -/

/-- The search for each key of the table ends at its slot. -/
def WellPlaced (n : Nat) (path : κ → Nat → Nat) (t : Nat → Option κ) : Prop := ∀ j k, t j = some k → find n path t k = some j

theorem wellPlaced_empty : WellPlaced n path fun _ => none := fun _ _ h => (nomatch h)

theorem WellPlaced.slot_unique (ht : WellPlaced n path t) (h : t j = some k) (h' : t j' = some k) : j = j' :=
  Option.some.inj ((ht j k h).symm.trans (ht j' k h'))

/-- The search for a key that is not in the table finds an empty slot, if any. -/
theorem WellPlaced.find_of_not_mem (hk : ∀ j, t j ≠ some k) (h : find n path t k = some j) : t j = none := by
  rcases stops_of_find h with hnone | hsome
  · exact hnone
  · exact absurd hsome (hk j)

/-- A table with fewer keys than slots has an empty slot. -/
theorem WellPlaced.exists_empty (ht : WellPlaced n path t) {s : Finset κ} (hs : ∀ j k, t j = some k → k ∈ s) (hcard : s.card < n) :
    ∃ j < n, t j = none := by
  by_contra hfull
  have hmaps : ∀ j ∈ Finset.range n, t j ∈ s.map Function.Embedding.some := by
    intro j hj
    cases hslot : t j with
    | none => exact absurd ⟨j, Finset.mem_range.mp hj, hslot⟩ hfull
    | some k => exact Finset.mem_map_of_mem _ (hs j k hslot)
  have hfew : (s.map Function.Embedding.some).card < (Finset.range n).card := by
    rw [Finset.card_map, Finset.card_range]
    exact hcard
  obtain ⟨j, hj, j', -, hne, hsame⟩ := Finset.exists_ne_map_eq_of_card_lt_of_maps_to hfew hmaps
  obtain ⟨k, -, hk⟩ := Finset.mem_map.mp (hmaps j hj)
  exact hne (ht.slot_unique hk.symm (hsame.symm.trans hk.symm))

/-! ## Writing and emptying slots -/

/-- The search for key `k`, which is in the table, goes over slot `j` on its way. -/
def Passes (path : κ → Nat → Nat) (t : Nat → Option κ) (k : κ) (j : Nat) : Prop :=
  ∃ m, t (path k m) = some k ∧ (∀ m' < m, t (path k m') ≠ some k) ∧ ∃ m' < m, path k m' = j

/-- A key is written where its search ends. -/
theorem WellPlaced.write (ht : WellPlaced n path t) (h : find n path t k = some j) : WellPlaced n path (Function.update t j (some k)) := by
  intro j' k' hj'
  obtain ⟨m, hm, hpath, hstop, hbefore⟩ := find_eq_some_iff.mp h
  by_cases hjj : j' = j
  · subst hjj
    rw [Function.update_self, Option.some.injEq] at hj'
    subst hj'
    refine find_eq_some_iff.mpr ⟨m, hm, hpath, Or.inr (Function.update_self ..), ?_⟩
    intro m' hm'
    have hne : path k m' ≠ j' := by
      intro heq
      have := hbefore m' hm'
      rw [heq] at this
      exact hstop.elim this.1 this.2
    rw [Function.update_of_ne hne]
    exact hbefore m' hm'
  · rw [Function.update_of_ne hjj] at hj'
    obtain ⟨m₂, hm₂, hpath₂, -, hbefore₂⟩ := find_eq_some_iff.mp (ht j' k' hj')
    refine find_eq_some_iff.mpr ⟨m₂, hm₂, hpath₂, Or.inr (by rw [Function.update_of_ne hjj]; exact hj'), ?_⟩
    intro m' hm'
    by_cases hslot : path k' m' = j
    · -- an occupied slot on the way of `k'` can only have had `k` already
      have hkeep := hbefore₂ m' hm'
      rw [hslot] at hkeep
      rw [hslot, Function.update_self]
      refine ⟨fun hnone => (nomatch hnone), fun hsame => ?_⟩
      rw [← hsame] at hkeep
      exact hstop.elim hkeep.1 hkeep.2
    · rw [Function.update_of_ne hslot]
      exact hbefore₂ m' hm'

/-- The other keys stay in their slots. -/
theorem write_eq_some_iff (h : find n path t k = some j) (hk : k' ≠ k) : Function.update t j (some k) j' = some k' ↔ t j' = some k' := by
  by_cases hjj : j' = j
  · rw [hjj, Function.update_self, Option.some.injEq]
    refine ⟨fun hsame => absurd hsame.symm hk, fun hmem => ?_⟩
    rcases stops_of_find h with hnone | hsome
    · rw [hnone] at hmem
      nomatch hmem
    · exact Option.some.inj (hsome.symm.trans hmem)
  · rw [Function.update_of_ne hjj]

omit [DecidableEq κ] in
theorem clear_eq_some_iff (h : t j = some k) (hk : k' ≠ k) : Function.update t j none j' = some k' ↔ t j' = some k' := by
  by_cases hjj : j' = j
  · rw [hjj, Function.update_self]
    refine ⟨fun hnone => (nomatch hnone), fun hmem => absurd (Option.some.inj (hmem.symm.trans h)) hk⟩
  · rw [Function.update_of_ne hjj]

/-- A slot is emptied that no other key has on its way. -/
theorem WellPlaced.clear (ht : WellPlaced n path t) (h : t j = some k) (hclear : ∀ k', k' ≠ k → ¬ Passes path t k' j) :
    WellPlaced n path (Function.update t j none) := by
  intro j' k' hj'
  by_cases hjj : j' = j
  · rw [hjj, Function.update_self] at hj'
    nomatch hj'
  · rw [Function.update_of_ne hjj] at hj'
    obtain ⟨m, hm, hpath, -, hbefore⟩ := find_eq_some_iff.mp (ht j' k' hj')
    refine find_eq_some_iff.mpr ⟨m, hm, hpath, Or.inr (by rw [Function.update_of_ne hjj]; exact hj'), ?_⟩
    intro m' hm'
    have hne : path k' m' ≠ j := by
      intro hslot
      have hkk : k' ≠ k := by
        rintro rfl
        exact hjj (ht.slot_unique hj' h)
      exact hclear k' hkk ⟨m, by rw [hpath]; exact hj', fun m' hm' => (hbefore m' hm').2, m', hm', hslot⟩
    rw [Function.update_of_ne hne]
    exact hbefore m' hm'

end CronoVM.LinearProbing
