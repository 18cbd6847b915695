import CronoVM.Lemmas.ValueIndex

/-!
# The index of a value

The hash of the code generator against the scan of `vals` that it replaced, over every order of assignments, lookups and resets.
-/

namespace CronoVM

/-- The values assigned since the function state was reset, after one more operation. -/
def assignedAfter (vs : List LLVMValueRef) : IndexOp → List LLVMValueRef
  | .assign v _ _ => vs ++ [v]
  | .lookup _ => vs
  | .reset => []

/-- The values assigned since the function state was reset, in their order. -/
def assignedSinceReset (ops : List IndexOp) : List LLVMValueRef := ops.foldl assignedAfter []

/-- The operation is an assignment. -/
def IndexOp.isAssign : IndexOp → Bool
  | .assign _ _ _ => true
  | .lookup _ | .reset => false

namespace ValueIndexAux

variable {n : Nat} {s : ValueIndex}

/-- One operation. -/
theorem inv_run (h : s.Inv n) (op : IndexOp) :
    ∃ s', op.run s = some s' ∧ s'.Inv (n + if op.isAssign then 1 else 0) ∧
      s'.vals.map Prod.fst = assignedAfter (s.vals.map Prod.fst) op := by
  cases op with
  | assign v r junk =>
    obtain ⟨s', hrun, hinv, hvals⟩ := h.assign v r junk
    refine ⟨s', by rw [IndexOp.run, hrun]; rfl, hinv, ?_⟩
    rw [hvals, List.map_append]
    rfl
  | lookup v => exact ⟨s, by rw [IndexOp.run, h.lookup v]; rfl, h, rfl⟩
  | reset =>
    obtain ⟨hinv, hvals⟩ := h.reset
    exact ⟨_, rfl, hinv, by rw [hvals]; rfl⟩

/-- Operations one after another, by induction on them. -/
theorem inv_runs (h : s.Inv n) (ops : List IndexOp) :
    ∃ s', ops.foldlM IndexOp.run s = some s' ∧ s'.Inv (n + ops.countP IndexOp.isAssign) ∧
      s'.vals.map Prod.fst = ops.foldl assignedAfter (s.vals.map Prod.fst) := by
  induction ops generalizing s n with
  | nil => exact ⟨s, rfl, h, rfl⟩
  | cons op ops ih =>
    obtain ⟨s₁, hop, h₁, hvals₁⟩ := inv_run h op
    obtain ⟨s₂, hops, h₂, hvals₂⟩ := ih h₁
    refine ⟨s₂, ?_, ?_, ?_⟩
    · rw [List.foldlM_cons, hop]
      exact hops
    · rw [List.countP_cons, Nat.add_comm (ops.countP _), ← Nat.add_assoc]
      exact h₂
    · rw [hvals₂, hvals₁, List.foldl_cons]

/-- Every sequence of operations comes through and keeps the table in order. -/
theorem inv_runIndexOps (ops : List IndexOp) :
    ∃ s, runIndexOps ops = some s ∧ s.Inv (ops.countP IndexOp.isAssign) ∧ s.vals.map Prod.fst = assignedSinceReset ops := by
  obtain ⟨s, hrun, hinv, hvals⟩ := inv_runs ValueIndex.Inv.initial ops
  rw [Nat.zero_add] at hinv
  exact ⟨s, hrun, hinv, hvals⟩

end ValueIndexAux

open ValueIndexAux

/-- Whatever is assigned, looked up and reset in whatever order, no probe loop goes on for ever: the hash, once there is one, has an
empty slot. And the index found for a value is that of its first assignment since the reset, or -1 if there is none. -/
theorem cg_lookup_eq_firstIndex (ops : List IndexOp) :
    ∃ s, runIndexOps ops = some s ∧ (s.htabCap ≠ 0 → ∃ h < s.htabCap, s.htabKey h = none) ∧
      ∀ v, cgLookup s v = some (firstIndex (assignedSinceReset ops) v) := by
  obtain ⟨s, hrun, hinv, hvals⟩ := inv_runIndexOps ops
  refine ⟨s, hrun, fun hcap => (hinv.mirrors hcap).exists_empty, fun v => ?_⟩
  rw [← hvals]
  exact hinv.lookup v

/-- The capacities stay in the range of an `int` as long as fewer than 2²⁹ values are assigned, over all functions. -/
theorem capacities_lt_of_run {ops : List IndexOp} {s : ValueIndex} (hrun : runIndexOps ops = some s)
    (hfew : ops.countP IndexOp.isAssign < 2 ^ 29) : s.htabCap < 2 ^ 31 ∧ s.mapCap < 2 ^ 31 := by
  obtain ⟨s', hrun', hinv, -⟩ := inv_runIndexOps ops
  obtain rfl : s' = s := Option.some.inj (hrun'.symm.trans hrun)
  have hhtab := hinv.htabCap_le
  have hmap := hinv.mapCap_le
  omega

/-- The home the code generator takes for a local, the first one of its scan, is the entry at the index that the hash has for it. -/
theorem home?_eq_of_lookup {n : Nat} {s : ValueIndex} {cg : Cg} (h : s.Inv n) {ref : Ir.Local → LLVMValueRef}
    (href : Function.Injective ref) (hvals : s.vals = cg.map.map fun e => (ref e.1, e.2)) (l : Ir.Local) :
    ∃ i, cgLookup s (ref l) = some i ∧ cg.home? l = if i < 0 then none else s.vals[i.toNat]?.map Prod.snd := by
  refine ⟨_, h.lookup (ref l), ?_⟩
  have hscan : (s.vals.map Prod.fst).findIdx? (· = ref l) = cg.map.findIdx? fun e => e.1 = l := by
    rw [hvals, List.map_map, List.findIdx?_map]
    congr 1
    funext e
    simp [href.eq_iff]
  rw [Cg.home?, List.find?_eq_bind_findIdx?_getElem?, firstIndex, hscan]
  cases cg.map.findIdx? fun e => e.1 = l with
  | none => rfl
  | some i =>
    have hge : ¬(i : Int) < 0 := by omega
    simp only [Option.bind_some, if_neg hge, Int.toNat_natCast, hvals, List.getElem?_map, Option.map_map]
    rfl

end CronoVM
