import CronoVM.Translator.ValueIndex

/-!
# Value index lemmas

The hash mirrors a list of values when it finds each value of the list, with the index of its first place in it. Putting the next value
keeps this, growing makes it anew, and every operation of the translator keeps it for the values assigned so far.
-/

namespace CronoVM

open LinearProbing

/-! ## First places -/

/-- What a scan of the list from its start returns. -/
def firstIndex (vs : List LLVMValueRef) (v : LLVMValueRef) : Int :=
  match vs.findIdx? (· = v) with
  | some i => i
  | none => -1

section first

variable {vs ws : List LLVMValueRef} {v : LLVMValueRef}

theorem findIdx?_eq_none (h : v ∉ vs) : vs.findIdx? (· = v) = none := by
  rw [List.findIdx?_eq_none_iff]
  intro w hw
  exact decide_eq_false fun he => h (he ▸ hw)

theorem firstIndex_of_not_mem (h : v ∉ vs) : firstIndex vs v = -1 := by
  rw [firstIndex, findIdx?_eq_none h]

/-- What is added at the end does not change the first place of a value that is there. -/
theorem firstIndex_append (h : v ∈ vs) : firstIndex (vs ++ ws) v = firstIndex vs v := by
  cases hidx : vs.findIdx? (· = v) with
  | none => exact absurd (List.findIdx?_eq_none_iff.mp hidx v h) (by simp)
  | some i => rw [firstIndex, firstIndex, List.findIdx?_append, hidx, Option.some_or]

/-- A new value has its first place where it is added. -/
theorem firstIndex_append_self (h : v ∉ vs) : firstIndex (vs ++ [v]) v = vs.length := by
  rw [firstIndex, List.findIdx?_append, findIdx?_eq_none h]
  simp

end first

/-! ## Paths -/

theorem htabSlot_eq (k : Nat) (v : LLVMValueRef) (i : Nat) : htabSlot (2 ^ k) v i = (v.addr.toNat / 16 + i) % 2 ^ k := by
  induction i with
  | zero => rw [htabSlot, Nat.and_two_pow_sub_one_eq_mod, Nat.shiftRight_eq_div_pow, Nat.add_zero]
  | succ i ih => rw [htabSlot, Nat.and_two_pow_sub_one_eq_mod, ih, Nat.mod_add_mod, Nat.add_assoc]

/-- A path goes through every slot. -/
theorem exists_htabSlot (k : Nat) (v : LLVMValueRef) : ∀ j < 2 ^ k, ∃ i < 2 ^ k, htabSlot (2 ^ k) v i = j := by
  intro j hj
  simp only [htabSlot_eq]
  exact exists_offset _ hj

variable {key : Nat → Option LLVMValueRef} {s s' : ValueIndex} {vs : List LLVMValueRef} {v : LLVMValueRef}

/-- The loop that is given up after `htab_cap` slots is one that would never end. -/
theorem not_stop_of_htabProbe {k : Nat} (h : htabProbe (2 ^ k) key v = none) (i : Nat) :
    key (htabSlot (2 ^ k) v i) ≠ none ∧ key (htabSlot (2 ^ k) v i) ≠ some v := by
  have hcycle : ∀ i, htabSlot (2 ^ k) v (i + 2 ^ k) = htabSlot (2 ^ k) v i := by
    intro i
    rw [htabSlot_eq, htabSlot_eq, ← Nat.add_assoc, Nat.add_mod_right]
  have hstop := never_stops (Nat.two_pow_pos k) hcycle h i
  rwa [decide_eq_false_iff_not, not_or] at hstop

/-! ## The hash of a list -/

/-- The hash finds the values of the list, each with its first place. -/
structure Mirrors (s : ValueIndex) (vs : List LLVMValueRef) : Prop where
  pow : ∃ k, s.htabCap = 2 ^ k
  room : vs.length < s.htabCap
  placed : WellPlaced s.htabCap (htabSlot s.htabCap) s.htabKey
  index : ∀ j v, s.htabKey j = some v → v ∈ vs ∧ s.htabIdx j = firstIndex vs v
  mem : ∀ v ∈ vs, ∃ j, s.htabKey j = some v

/-- The table is never full. -/
theorem Mirrors.exists_empty (h : Mirrors s vs) : ∃ j < s.htabCap, s.htabKey j = none := by
  refine h.placed.exists_empty (s := vs.toFinset) (fun j v hj => ?_) ?_
  · exact List.mem_toFinset.mpr (h.index j v hj).1
  · exact Nat.lt_of_le_of_lt (List.toFinset_card_le vs) h.room

/-- So every probe loop ends. -/
theorem Mirrors.exists_probe (h : Mirrors s vs) (v : LLVMValueRef) : ∃ j, htabProbe s.htabCap s.htabKey v = some j := by
  obtain ⟨k, hk⟩ := h.pow
  refine exists_find ?_ h.exists_empty
  rw [hk]
  exact exists_htabSlot k v

/-- A probe loop ends at an empty slot for a value that is not in the list, and at its slot for one that is. -/
theorem Mirrors.key_of_probe (h : Mirrors s vs) {j : Nat} (hj : htabProbe s.htabCap s.htabKey v = some j) :
    s.htabKey j = if v ∈ vs then some v else none := by
  by_cases hv : v ∈ vs
  · obtain ⟨j', hj'⟩ := h.mem v hv
    have hsame : j' = j := Option.some.inj ((h.placed j' v hj').symm.trans hj)
    rw [if_pos hv, ← hsame, hj']
  · rw [if_neg hv]
    exact WellPlaced.find_of_not_mem (fun j' hj' => hv (h.index j' v hj').1) hj

theorem Mirrors.lookup (h : Mirrors s vs) (v : LLVMValueRef) : cgLookup s v = some (firstIndex vs v) := by
  obtain ⟨j, hj⟩ := h.exists_probe v
  have hkey := h.key_of_probe hj
  have hcap : s.htabCap ≠ 0 := Nat.ne_zero_of_lt h.room
  simp only [cgLookup, if_neg hcap, hj, Option.bind_eq_bind, Option.bind_some]
  by_cases hv : v ∈ vs
  · rw [if_pos hv] at hkey
    rw [if_neg (by rw [hkey]; simp), (h.index j v hkey).2]
  · rw [if_neg hv] at hkey
    rw [if_pos hkey, firstIndex_of_not_mem hv]

/-- Nothing but the slots of the hash differs. -/
structure SameArrays (s s' : ValueIndex) : Prop where
  vals : s'.vals = s.vals
  mapCap : s'.mapCap = s.mapCap
  htabCap : s'.htabCap = s.htabCap

theorem SameArrays.refl (s : ValueIndex) : SameArrays s s := ⟨rfl, rfl, rfl⟩

theorem SameArrays.trans {s'' : ValueIndex} (h : SameArrays s s') (h' : SameArrays s' s'') : SameArrays s s'' :=
  ⟨h'.vals.trans h.vals, h'.mapCap.trans h.mapCap, h'.htabCap.trans h.htabCap⟩

/-- Putting the next value, the first of equal ones counting. -/
theorem Mirrors.put (h : Mirrors s vs) (hroom : vs.length + 1 < s.htabCap) (v : LLVMValueRef) :
    ∃ s', cgHtabPut s v vs.length = some s' ∧ Mirrors s' (vs ++ [v]) ∧ SameArrays s s' := by
  obtain ⟨j, hj⟩ := h.exists_probe v
  have hkey := h.key_of_probe hj
  have hlength : (vs ++ [v]).length < s.htabCap := by
    rw [List.length_append]
    exact hroom
  by_cases hv : v ∈ vs
  · rw [if_pos hv] at hkey
    refine ⟨s, ?_, ⟨h.pow, hlength, h.placed, fun j' w hw => ?_, fun w hw => ?_⟩, .refl s⟩
    · simp only [cgHtabPut, hj, Option.bind_eq_bind, Option.bind_some, if_pos hkey]
    · obtain ⟨hmem, hidx⟩ := h.index j' w hw
      exact ⟨List.mem_append_left _ hmem, hidx.trans (firstIndex_append hmem).symm⟩
    · rcases List.mem_append.mp hw with hw | hw
      · exact h.mem w hw
      · exact h.mem w (List.mem_singleton.mp hw ▸ hv)
  · rw [if_neg hv] at hkey
    refine ⟨{ s with htabKey := Function.update s.htabKey j (some v), htabIdx := Function.update s.htabIdx j vs.length }, ?_,
      ⟨h.pow, hlength, h.placed.write hj, fun j' w hw => ?_, fun w hw => ?_⟩, ⟨rfl, rfl, rfl⟩⟩
    · have hne : ¬s.htabKey j = some v := by simp [hkey]
      simp only [cgHtabPut, hj, Option.bind_eq_bind, Option.bind_some, if_neg hne]
    · dsimp only at hw ⊢
      by_cases hjj : j' = j
      · subst hjj
        rw [Function.update_self, Option.some.injEq] at hw
        subst hw
        refine ⟨List.mem_append_right _ (List.mem_singleton_self v), ?_⟩
        rw [Function.update_self, firstIndex_append_self hv]
      · rw [Function.update_of_ne hjj] at hw
        obtain ⟨hmem, hidx⟩ := h.index j' w hw
        refine ⟨List.mem_append_left _ hmem, ?_⟩
        rw [Function.update_of_ne hjj, firstIndex_append hmem]
        exact hidx
    · rcases List.mem_append.mp hw with hold | hnew
      · obtain ⟨j', hj'⟩ := h.mem w hold
        exact ⟨j', (write_eq_some_iff hj fun he => hv (he ▸ hold)).mpr hj'⟩
      · rw [List.mem_singleton.mp hnew]
        exact ⟨j, Function.update_self ..⟩

/-! ## Growing -/

section growCap

variable {minCap fuel cap : Nat}

/-- The doubling ends with enough slots: `min_cap` turns are enough. -/
theorem le_growCap (hcap : 0 < cap) (hfuel : minCap ≤ cap + fuel) : minCap ≤ growCap minCap fuel cap := by
  induction fuel generalizing cap with
  | zero => exact hfuel
  | succ fuel ih =>
    rw [growCap]
    split
    · exact ih (by omega) (by omega)
    · omega

/-- It ends as soon as there are enough. -/
theorem growCap_le : growCap minCap fuel cap ≤ max cap (2 * minCap) := by
  induction fuel generalizing cap with
  | zero => exact Nat.le_max_left ..
  | succ fuel ih =>
    rw [growCap]
    split
    · have hdouble : growCap minCap fuel (cap <<< 1) ≤ max (cap <<< 1) (2 * minCap) := ih
      rw [Nat.shiftLeft_eq, Nat.pow_one] at hdouble ⊢
      omega
    · exact Nat.le_max_left ..

/-- The number of slots stays a power of two. -/
theorem growCap_pow (hcap : ∃ k, cap = 2 ^ k) : ∃ k, growCap minCap fuel cap = 2 ^ k := by
  induction fuel generalizing cap with
  | zero => exact hcap
  | succ fuel ih =>
    rw [growCap]
    split
    · obtain ⟨k, rfl⟩ := hcap
      exact ih ⟨k + 1, by rw [Nat.shiftLeft_eq, Nat.pow_one, Nat.pow_succ]⟩
    · exact hcap

end growCap

/-- A hash without keys mirrors the empty list. -/
theorem mirrors_nil (hkey : s.htabKey = fun _ => none) (hpow : ∃ k, s.htabCap = 2 ^ k) : Mirrors s [] := by
  have hpos : 0 < s.htabCap := by
    obtain ⟨k, hk⟩ := hpow
    rw [hk]
    exact Nat.two_pow_pos k
  refine ⟨hpow, hpos, ?_, fun j v hj => ?_, fun v hv => absurd hv List.not_mem_nil⟩
  · rw [hkey]
    exact wellPlaced_empty
  · rw [hkey] at hj
    nomatch hj

/-- Putting further values in their order, by induction on these. -/
theorem Mirrors.putAll (h : Mirrors s vs) (es : List (LLVMValueRef × Home)) (hroom : vs.length + es.length < s.htabCap) :
    ∃ s', (es.zipIdx vs.length).foldlM (fun s e => cgHtabPut s e.1.1 e.2) s = some s' ∧ Mirrors s' (vs ++ es.map Prod.fst) ∧
      SameArrays s s' := by
  induction es generalizing s vs with
  | nil => exact ⟨s, rfl, by rwa [List.map_nil, List.append_nil], .refl s⟩
  | cons e es ih =>
    rw [List.length_cons] at hroom
    obtain ⟨s₁, hput, h₁, hsame⟩ := h.put (by omega) e.1
    have hlength : (vs ++ [e.1]).length = vs.length + 1 := by rw [List.length_append, List.length_singleton]
    have hroom₁ : (vs ++ [e.1]).length + es.length < s₁.htabCap := by
      rw [hlength, hsame.htabCap]
      omega
    obtain ⟨s₂, hrest, h₂, hsame₂⟩ := ih h₁ hroom₁
    refine ⟨s₂, ?_, ?_, hsame.trans hsame₂⟩
    · rw [hlength] at hrest
      rw [List.zipIdx_cons, List.foldlM_cons, hput]
      exact hrest
    · rwa [List.append_assoc] at h₂

/-- Growing makes the hash of the values so far anew, in at least `min_cap` slots and not in many more. -/
theorem grow_spec {minCap : Nat} (hcap : s.htabCap ≠ 0 → ∃ k, s.htabCap = 2 ^ k) (hroom : s.vals.length < minCap) (junk : Nat → Int) :
    ∃ s', cgHtabGrow s minCap junk = some s' ∧ Mirrors s' (s.vals.map Prod.fst) ∧ minCap ≤ s'.htabCap ∧
      s'.htabCap ≤ max (max s.htabCap 64) (2 * minCap) ∧ s'.vals = s.vals ∧ s'.mapCap = s.mapCap := by
  obtain ⟨start, hstart⟩ : ∃ start, (if s.htabCap ≠ 0 then s.htabCap else 64) = start := ⟨_, rfl⟩
  have hstarts : (∃ k, start = 2 ^ k) ∧ start ≤ max s.htabCap 64 := by
    rw [← hstart]
    split
    · exact ⟨hcap ‹_›, Nat.le_max_left ..⟩
    · exact ⟨⟨6, rfl⟩, Nat.le_max_right ..⟩
  obtain ⟨hpow, hle⟩ := hstarts
  have hpos : 0 < start := by
    obtain ⟨k, hk⟩ := hpow
    rw [hk]
    exact Nat.two_pow_pos k
  have henough : minCap ≤ growCap minCap minCap start := le_growCap hpos (Nat.le_add_left ..)
  have hnot_more : growCap minCap minCap start ≤ max start (2 * minCap) := growCap_le
  have hempty : Mirrors { s with htabKey := fun _ => none, htabIdx := junk, htabCap := growCap minCap minCap start } [] :=
    mirrors_nil rfl (growCap_pow hpow)
  obtain ⟨s', hfold, hmirrors, hsame⟩ := hempty.putAll s.vals (by
    rw [List.length_nil, Nat.zero_add]
    exact Nat.lt_of_lt_of_le hroom henough)
  refine ⟨s', ?_, hmirrors, hsame.htabCap ▸ henough, ?_, hsame.vals, hsame.mapCap⟩
  · rw [cgHtabGrow, hstart]
    exact hfold
  · rw [hsame.htabCap]
    exact Nat.le_trans hnot_more (by omega)

/-! ## The operations -/

/-- An assignment in its three parts: room in the arrays, room in the hash, and the value itself. -/
theorem cgAssign_of_parts {s₀ s₁ s₂ : ValueIndex} {r : Byte} {junk : Nat → Int}
    (harrays : (if s.mapCount = s.mapCap then { s with mapCap := if s.mapCap ≠ 0 then s.mapCap * 2 else 16 } else s) = s₀)
    (hgrow : (if s₀.htabCap < 2 * (s₀.mapCount + 1) then cgHtabGrow s₀ (2 * (s₀.mapCount + 1)) junk else some s₀) = some s₁)
    (hput : cgHtabPut s₁ v s₁.mapCount = some s₂) :
    cgAssign s v r junk = some (r, { s₂ with vals := s₂.vals ++ [(v, { reg := r })] }) := by
  rw [cgAssign, harrays]
  by_cases hfew : s₀.htabCap < 2 * (s₀.mapCount + 1)
  · rw [if_pos hfew] at hgrow ⊢
    rw [hgrow, Option.bind_eq_bind, Option.bind_some]
    dsimp only
    rw [hput, Option.bind_some]
  · rw [if_neg hfew] at hgrow ⊢
    rw [hgrow, Option.bind_eq_bind, Option.bind_some]
    dsimp only
    rw [hput, Option.bind_some]

/-- What holds between two calls after `n` assignments: at most half of the hash is in use, it mirrors the values so far, the arrays
have room for these, and neither is larger than the assignments need. -/
structure ValueIndex.Inv (n : Nat) (s : ValueIndex) : Prop where
  load : 2 * s.mapCount ≤ s.htabCap
  mirrors : s.htabCap ≠ 0 → Mirrors s (s.vals.map Prod.fst)
  arrays : s.mapCount ≤ s.mapCap
  count : s.mapCount ≤ n
  htabCap_le : s.htabCap ≤ max 64 (4 * n)
  mapCap_le : s.mapCap ≤ max 16 (2 * n)

namespace ValueIndex.Inv

variable {n : Nat}

theorem initial : ValueIndex.initial.Inv 0 :=
  ⟨Nat.le_refl 0, fun h => absurd rfl h, Nat.le_refl 0, Nat.le_refl 0, Nat.zero_le _, Nat.zero_le _⟩

/-- A reset forgets the values and clears the keys. -/
theorem reset (h : s.Inv n) : (cgResetFunctionState s).Inv n ∧ (cgResetFunctionState s).vals = [] := by
  unfold cgResetFunctionState
  dsimp only
  split
  case isTrue hcap =>
    refine ⟨⟨Nat.zero_le _, fun _ => ?_, Nat.zero_le _, Nat.zero_le _, h.htabCap_le, h.mapCap_le⟩, rfl⟩
    exact mirrors_nil rfl (h.mirrors hcap).pow
  case isFalse hcap =>
    exact ⟨⟨Nat.zero_le _, fun hne => absurd hne hcap, Nat.zero_le _, Nat.zero_le _, h.htabCap_le, h.mapCap_le⟩, rfl⟩

theorem lookup (h : s.Inv n) (v : LLVMValueRef) : cgLookup s v = some (firstIndex (s.vals.map Prod.fst) v) := by
  by_cases hcap : s.htabCap = 0
  · have hload := h.load
    rw [hcap, ValueIndex.mapCount] at hload
    have hnil : s.vals = [] := List.eq_nil_of_length_eq_zero (by omega)
    rw [cgLookup, if_pos hcap, hnil]
    rfl
  · exact (h.mirrors hcap).lookup v

/-- The growth of the arrays before an assignment. -/
theorem growArrays (h : s.Inv n) : ∃ cap, cap ≤ max 16 (2 * (n + 1)) ∧ s.mapCount < cap ∧
    (if s.mapCount = s.mapCap then { s with mapCap := if s.mapCap ≠ 0 then s.mapCap * 2 else 16 } else s) = { s with mapCap := cap } := by
  have harrays := h.arrays
  have hcount := h.count
  have hle := h.mapCap_le
  by_cases hfull : s.mapCount = s.mapCap
  · rw [if_pos hfull]
    refine ⟨if s.mapCap ≠ 0 then s.mapCap * 2 else 16, ?_, ?_, rfl⟩
    · split <;> omega
    · split <;> omega
  · rw [if_neg hfull]
    exact ⟨s.mapCap, by omega, by omega, rfl⟩

/-- The growth of the hash before an assignment leaves room for the value. -/
theorem growHash (h : s.Inv n) (cap : Nat) (junk : Nat → Int) :
    ∃ s', (if s.htabCap < 2 * (s.mapCount + 1) then cgHtabGrow { s with mapCap := cap } (2 * (s.mapCount + 1)) junk
        else some { s with mapCap := cap }) = some s' ∧
      Mirrors s' (s.vals.map Prod.fst) ∧ 2 * (s.mapCount + 1) ≤ s'.htabCap ∧ s'.htabCap ≤ max 64 (4 * (n + 1)) ∧ s'.vals = s.vals ∧
      s'.mapCap = cap := by
  have hcount := h.count
  have hle := h.htabCap_le
  by_cases hgrow : s.htabCap < 2 * (s.mapCount + 1)
  · rw [if_pos hgrow]
    have hroom : s.vals.length < 2 * (s.mapCount + 1) := by
      rw [ValueIndex.mapCount]
      omega
    obtain ⟨s', hrun, hmirrors, henough, hmore, hvals, hcap⟩ :=
      grow_spec (s := { s with mapCap := cap }) (fun hne => (h.mirrors hne).pow) hroom junk
    refine ⟨s', hrun, hmirrors, henough, Nat.le_trans hmore ?_, hvals, hcap⟩
    dsimp only
    omega
  · rw [if_neg hgrow]
    have hm := h.mirrors (by omega)
    exact ⟨_, rfl, ⟨hm.pow, hm.room, hm.placed, hm.index, hm.mem⟩, Nat.le_of_not_lt hgrow, by dsimp only; omega, rfl, rfl⟩

/-- An assignment appends its value. -/
theorem assign (h : s.Inv n) (v : LLVMValueRef) (r : Byte) (junk : Nat → Int) :
    ∃ s', cgAssign s v r junk = some (r, s') ∧ s'.Inv (n + 1) ∧ s'.vals = s.vals ++ [(v, { reg := r })] := by
  obtain ⟨cap, hcap, hroom, harrays⟩ := h.growArrays
  obtain ⟨s₁, hgrow, h₁, hfree, hsmall, hvals₁, hcap₁⟩ := h.growHash cap junk
  have hlength : (s.vals.map Prod.fst).length = s.mapCount := List.length_map ..
  obtain ⟨s₂, hput, h₂, hsame⟩ := h₁.put (by rw [hlength]; omega) v
  rw [hlength] at hput
  have hcount₁ : s₁.mapCount = s.mapCount := by rw [ValueIndex.mapCount, hvals₁, ValueIndex.mapCount]
  have hvals₂ : s₂.vals = s.vals := hsame.vals.trans hvals₁
  have hnew : (s.vals ++ [(v, ({ reg := r } : Home))]).length = s.mapCount + 1 := List.length_append
  have hcount := h.count
  refine ⟨{ s₂ with vals := s.vals ++ [(v, { reg := r })] }, ?_, ⟨?_, fun _ => ?_, ?_, ?_, ?_, ?_⟩, rfl⟩
  · rw [← hcount₁] at hput
    rw [cgAssign_of_parts harrays hgrow hput, hvals₂]
  · rw [ValueIndex.mapCount, hnew]
    exact hsame.htabCap ▸ hfree
  · rw [List.map_append]
    exact ⟨h₂.pow, h₂.room, h₂.placed, h₂.index, h₂.mem⟩
  · rw [ValueIndex.mapCount, hnew]
    exact hsame.mapCap ▸ hcap₁ ▸ hroom
  · rw [ValueIndex.mapCount, hnew]
    exact Nat.succ_le_succ hcount
  · exact hsame.htabCap ▸ hsmall
  · exact hsame.mapCap ▸ hcap₁ ▸ hcap

end ValueIndex.Inv

end CronoVM
