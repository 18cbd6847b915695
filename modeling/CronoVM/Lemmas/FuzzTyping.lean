import CronoVM.Fuzz.Language

/-!
# Expressions without undefined behaviour

What the expressions of the generated programs keep to, as a typing: with it they have a value, the same under both widths of `long`.
-/

namespace CronoVM.Fuzz

open CIntegers

/-! ## Contexts -/

/-- What is known of a state. -/
structure Ctx where
  vars : Name → Option StdType
  /-- The lengths of the arrays of which every element has a value. -/
  arrs : ArrName → Option Nat
  /-- The number of turns of the loop that the place is in. -/
  bound : Option Nat

namespace Ctx

def declare (Γ : Ctx) (t : StdType) (x : Name) : Ctx := { Γ with vars := Function.update Γ.vars x (some t) }

/-- A name that is declared has the type. -/
@[simp] theorem declare_self {Γ : Ctx} {t : StdType} {x : Name} : (Γ.declare t x).vars x = some t := Function.update_self ..

/-- The other names keep theirs. -/
theorem declare_of_ne {Γ : Ctx} {t : StdType} {x y : Name} (h : y ≠ x) : (Γ.declare t x).vars y = Γ.vars y :=
  Function.update_of_ne h ..

def fill (Γ : Ctx) (A : ArrName) (n : Nat) : Ctx := { Γ with arrs := Function.update Γ.arrs A (some n) }

/-- In a loop of `n` turns. -/
def counted (Γ : Ctx) (n : Nat) : Ctx := { Γ.declare .uint32 .index with bound := some n }

/-- A loop declares its index only. -/
theorem counted_of_ne {Γ : Ctx} {n : Nat} {x : Name} (h : x ≠ .index) : (Γ.counted n).vars x = Γ.vars x :=
  Function.update_of_ne h _ Γ.vars

/-- A loop's index is a `uint32_t`. -/
theorem counted_index {Γ : Ctx} {n : Nat} : (Γ.counted n).vars .index = some .uint32 := Function.update_self Name.index _ Γ.vars

end Ctx

/-- The state is as the context says. -/
structure Models (Γ : Ctx) (st : State) : Prop where
  vars : (fun x => (st.vars x).map Prod.fst) = Γ.vars
  arrs : ∀ A n, Γ.arrs A = some n → ∃ vs : List Int, vs.length = n ∧ st.arrs A = some (vs.map some)
  bound : ∀ n, Γ.bound = some n → ∃ k, st.vars .index = some (.uint32, k) ∧ 0 ≤ k ∧ k < n

/-- The context knows nothing that is not in the scope. -/
structure Covers (S : Scope) (Γ : Ctx) : Prop where
  vars : ∀ x, (Γ.vars x).isSome = true → S.vars x = true
  arrs : ∀ A, (Γ.arrs A).isSome = true → S.arrs A = true
  bound : Γ.bound.isSome = true → S.vars .index = true

variable {Γ : Ctx} {st : State} {S : Scope} {e : Expr} {s t : StdType} {x : Name}

/-- A variable that is declared has a value. -/
theorem Models.var_eq (hst : Models Γ st) (h : Γ.vars x = some t) : ∃ v, st.vars x = some (t, v) := by
  have hmap : (st.vars x).map Prod.fst = some t := (congrFun hst.vars x).trans h
  obtain ⟨⟨u, v⟩, hx, rfl⟩ := Option.map_eq_some_iff.mp hmap
  exact ⟨v, hx⟩

/-- A name that is not declared has none. -/
theorem Models.var_none (hst : Models Γ st) (h : Γ.vars x = none) : st.vars x = none :=
  Option.map_eq_none_iff.mp ((congrFun hst.vars x).trans h)

/-! ## Typing -/

/-- The arithmetic of the type wraps around, after the promotions too. -/
def Wraps (t : StdType) : Prop := t = .uint32 ∨ t = .uint64

/-- The typing of expressions. -/
inductive Typed (Γ : Ctx) : Expr → StdType → Prop where
  | var {x : Name} {t : StdType} : Γ.vars x = some t → Typed Γ (.var x) t
  | lit (t : StdType) (n : Nat) : Typed Γ (.lit t n) t
  | cast (t : StdType) {e : Expr} {s : StdType} : Typed Γ e s → Typed Γ (.cast t e) t
  | bin {op : BinOp} {a b : Expr} {s t : StdType} : op.isShift = false → op.isDiv = false →
      (op.isArith = true → Wraps (StdType.common s t)) → Typed Γ a s → Typed Γ b t → Typed Γ (.bin op a b) (StdType.common s t)
  | shift {op : BinOp} {a : Expr} {s : StdType} {n : Nat} : op.isShift = true → Wraps s → n < s.width → Typed Γ a s →
      Typed Γ (.bin op a (.lit .int32 n)) s
  | div {op : BinOp} {a b : Expr} {s : StdType} : op.isDiv = true → Wraps s → Typed Γ a s → Typed Γ b s →
      Typed Γ (.bin op a (.bin .or b (.lit .uint32 1))) s
  | cmp (op : CmpOp) {a b : Expr} {s t : StdType} : Typed Γ a s → Typed Γ b t → Typed Γ (.cmp op a b) .int32
  | cond {c a b : Expr} {r s t : StdType} : Typed Γ c r → Typed Γ a s → Typed Γ b t → Typed Γ (.cond c a b) (StdType.common s t)
  | masked {A : ArrName} {e : Expr} {k n : Nat} : Γ.arrs A = some n → k < n → k < 2 ^ 32 → Typed Γ e .uint32 →
      Typed Γ (.index A (.bin .and e (.lit .int32 k))) .uint32
  | counted {A : ArrName} {k n : Nat} : Γ.arrs A = some n → Γ.bound = some k → k ≤ n → Typed Γ (.index A (.var .index)) .uint32

/-- A typed expression names only what is declared. -/
theorem Typed.inScope (h : Typed Γ e t) (hS : Covers S Γ) : e.inScope S = true := by
  induction h with
  | var h => exact hS.vars _ (Option.isSome_iff_exists.mpr ⟨_, h⟩)
  | lit => rfl
  | cast _ _ ih => exact ih
  | bin _ _ _ _ _ iha ihb => simp only [Expr.inScope, iha, ihb, Bool.and_self]
  | shift _ _ _ _ ih => simp only [Expr.inScope, ih, Bool.and_self]
  | div _ _ _ _ iha ihb => simp only [Expr.inScope, iha, ihb, Bool.and_self]
  | cmp _ _ _ iha ihb => simp only [Expr.inScope, iha, ihb, Bool.and_self]
  | cond _ _ _ ihc iha ihb => simp only [Expr.inScope, ihc, iha, ihb, Bool.and_self]
  | masked hA _ _ _ ih =>
    simp only [Expr.inScope, ih, hS.arrs _ (Option.isSome_iff_exists.mpr ⟨_, hA⟩), Bool.and_self]
  | counted hA hb _ =>
    simp only [Expr.inScope, hS.arrs _ (Option.isSome_iff_exists.mpr ⟨_, hA⟩), hS.bound (Option.isSome_iff_exists.mpr ⟨_, hb⟩),
      Bool.and_self]

/-! ## Values -/

variable {m : DataModel} {op : BinOp}

/-- The type of an operator's result in each width of `long`. -/
theorem opType_type : opType m op (s.type m) (t.type m) = (if op.isShift = true then s.promote else s.common t).type m := by
  unfold opType
  split
  · exact StdType.promote_type ..
  · exact StdType.common_type ..

/-- An operator that the standard defines here gives its value. -/
theorem binary_ok {T : StdType} {u v : Int} (hT : (if op.isShift = true then s.promote else s.common t) = T)
    (harith : op.isArith = true → Wraps T) (hshift : op.isShift = true → 0 ≤ v ∧ v < T.width)
    (hdiv : op.isDiv = true → convert T.isSigned T.width v ≠ 0) :
    binary m op (s.type m, u) (t.type m, v) = .ok (T.type m, op.compute T.isSigned T.width u v) := by
  unfold binary
  simp only [opType_type, hT, StdType.isSigned_type, StdType.width_type]
  rw [if_neg, if_neg fun h => h.2 (hshift h.1), if_neg fun h => hdiv h.1 h.2]
  intro h
  rcases harith h.1 with rfl | rfl
  · exact h.2.1 rfl
  · exact h.2.2 rfl

/-- An operator on two operands that have values has one, the same in both widths. -/
theorem bin_ok {T : StdType} {a b : Expr} {u v : Int} (ha : ∀ m, a.eval m st = .ok (s.type m, u))
    (hb : ∀ m, b.eval m st = .ok (t.type m, v)) (hT : (if op.isShift = true then s.promote else s.common t) = T)
    (harith : op.isArith = true → Wraps T) (hshift : op.isShift = true → 0 ≤ v ∧ v < T.width)
    (hdiv : op.isDiv = true → convert T.isSigned T.width v ≠ 0) (m : DataModel) :
    (Expr.bin op a b).eval m st = .ok (T.type m, op.compute T.isSigned T.width u v) := by
  have hbin : (Expr.bin op a b).eval m st = binary m op (s.type m, u) (t.type m, v) := by
    simp only [Expr.eval, ha, hb]
    rfl
  rw [hbin, binary_ok hT harith hshift hdiv]

namespace Wraps

/-- A type that wraps around is not promoted. -/
theorem promote (h : Wraps s) : s.promote = s := by
  rcases h with rfl | rfl <;> rfl

/-- It is its own common type. -/
theorem common_self (h : Wraps s) : s.common s = s := by
  rcases h with rfl | rfl <;> rfl

/-- It is its common type with `uint32_t`. -/
theorem common_uint32 (h : Wraps s) : s.common .uint32 = s := by
  rcases h with rfl | rfl <;> rfl

/-- It is unsigned. -/
theorem isSigned (h : Wraps s) : s.isSigned = false := by
  rcases h with rfl | rfl <;> rfl

/-- It has bits. -/
theorem width_pos (h : Wraps s) : 0 < s.width := by
  rcases h with rfl | rfl <;> decide

end Wraps

/-- A shift is no division. -/
theorem isDiv_of_isShift (h : op.isShift = true) : op.isDiv = false := by
  cases op <;> first | rfl | cases h

/-- A division is no shift. -/
theorem isShift_of_isDiv (h : op.isDiv = true) : op.isShift = false := by
  cases op <;> first | rfl | cases h

/-- A masked index is at most the mask. -/
theorem masked_ok {k : Nat} {v : Int} (hk : k < 2 ^ 32) (he : ∀ m, e.eval m st = .ok (StdType.uint32.type m, v)) :
    ∃ j, 0 ≤ j ∧ j ≤ (k : Int) ∧ ∀ m, (Expr.bin .and e (.lit .int32 k)).eval m st = .ok (StdType.uint32.type m, j) := by
  obtain ⟨hpos, hle⟩ := compute_and_le v hk
  refine ⟨_, hpos, hle, fun m => ?_⟩
  have hlit : ∀ m, (Expr.lit .int32 k).eval m st = .ok (StdType.int32.type m, (k : Int)) := fun m => rfl
  exact bin_ok he hlit rfl (fun h => absurd h (by decide)) (fun h => absurd h (by decide)) (fun h => absurd h (by decide)) m

/-- An element at an index below the length. -/
theorem index_ok {A : ArrName} {j : Int} {n : Nat} (hst : Models Γ st) (hA : Γ.arrs A = some n)
    (he : ∀ m, e.eval m st = .ok (t.type m, j)) (hpos : 0 ≤ j) (hlt : j < n) :
    ∃ v, ∀ m, (Expr.index A e).eval m st = .ok (StdType.uint32.type m, v) := by
  obtain ⟨vs, rfl, hcells⟩ := hst.arrs A n hA
  have hj : j.toNat < vs.length := by omega
  have hrange : 0 ≤ j ∧ j < ((vs.map some).length : Nat) := by
    rw [List.length_map]
    exact ⟨hpos, hlt⟩
  have hget : (vs.map some).getD j.toNat none = some (vs.get ⟨j.toNat, hj⟩) := by
    simp [List.getD, hj]
  have hload : st.load A j = .ok (vs.get ⟨j.toNat, hj⟩) := by
    simp only [State.load, hcells, hrange, and_self, if_true, hget]
  refine ⟨vs.get ⟨j.toNat, hj⟩, fun m => ?_⟩
  rw [Expr.eval, he]
  change (st.load A j >>= fun n => .ok (StdType.uint32.type m, n)) = _
  rw [hload]
  rfl

/-- The type found from the names alone is the one of the typing. -/
theorem Typed.type_eq (h : Typed Γ e t) : e.type m Γ.vars = some (t.type m) := by
  induction h with
  | var h => simp only [Expr.type, h, Option.map_some]
  | lit => rfl
  | cast => rfl
  | bin hs _ _ _ _ iha ihb => simp [Expr.type, iha, ihb, opType, hs]
  | shift hs hw _ _ ih => simp [Expr.type, ih, opType, hs, hw.promote]
  | div hd hw _ _ iha ihb =>
    have hor : BinOp.isShift .or = false := rfl
    simp [Expr.type, iha, ihb, opType, isShift_of_isDiv hd, hor, hw.common_uint32, hw.common_self]
  | cmp => cases m <;> rfl
  | cond _ _ _ _ iha ihb => simp [Expr.type, iha, ihb]
  | masked => rfl
  | counted => rfl

/-- A typed expression has a value, the same under both widths of `long`. -/
theorem Typed.eval_eq (hst : Models Γ st) (h : Typed Γ e t) : ∃ v, ∀ m, e.eval m st = .ok (t.type m, v) := by
  induction h with
  | var h =>
    obtain ⟨v, hv⟩ := hst.var_eq h
    exact ⟨v, fun m => by simp only [Expr.eval, hv]⟩
  | lit t n => exact ⟨n, fun m => rfl⟩
  | cast t _ ih =>
    obtain ⟨v, hv⟩ := ih
    refine ⟨convert t.isSigned t.width v, fun m => ?_⟩
    simp only [Expr.eval, hv]
    rfl
  | bin hs hd harith _ _ iha ihb =>
    obtain ⟨u, hu⟩ := iha
    obtain ⟨v, hv⟩ := ihb
    refine ⟨_, bin_ok hu hv (by rw [hs]; rfl) harith (fun h => ?_) (fun h => ?_)⟩
    · rw [hs] at h
      cases h
    · rw [hd] at h
      cases h
  | @shift _ _ s n hs hw hn _ ih =>
    obtain ⟨u, hu⟩ := ih
    have hlit : ∀ m, (Expr.lit .int32 n).eval m st = .ok (StdType.int32.type m, (n : Int)) := fun m => rfl
    have hrange : 0 ≤ (n : Int) ∧ (n : Int) < s.width := ⟨Int.natCast_nonneg n, Int.ofNat_lt.mpr hn⟩
    refine ⟨_, bin_ok hu hlit (by rw [if_pos hs, hw.promote]) (fun _ => hw) (fun _ => hrange) (fun h => ?_)⟩
    rw [isDiv_of_isShift hs] at h
    cases h
  | @div _ _ b s hd hw _ _ iha ihb =>
    obtain ⟨u, hu⟩ := iha
    obtain ⟨v, hv⟩ := ihb
    have hone : ∀ m, (Expr.lit .uint32 1).eval m st = .ok (StdType.uint32.type m, 1) := fun m => rfl
    have hor : ∀ m, (Expr.bin .or b (.lit .uint32 1)).eval m st = .ok (s.type m, BinOp.compute .or s.isSigned s.width v 1) :=
      bin_ok hv hone hw.common_uint32 (fun h => absurd h (by decide)) (fun h => absurd h (by decide)) (fun h => absurd h (by decide))
    refine ⟨_, bin_ok hu hor (by rw [isShift_of_isDiv hd]; exact hw.common_self) (fun _ => hw) (fun h => ?_) (fun _ => ?_)⟩
    · rw [isShift_of_isDiv hd] at h
      cases h
    · rw [hw.isSigned]
      exact convert_or_one v hw.width_pos
  | @cmp op a b s t _ _ iha ihb =>
    obtain ⟨u, hu⟩ := iha
    obtain ⟨v, hv⟩ := ihb
    let T := s.common t
    refine ⟨if op.holds (convert T.isSigned T.width u) (convert T.isSigned T.width v) = true then 1 else 0, fun m => ?_⟩
    have hcmp : (Expr.cmp op a b).eval m st = .ok (.int, if op.holds
        (convert (IntType.common m (s.type m) (t.type m)).isSigned ((IntType.common m (s.type m) (t.type m)).width m) u)
        (convert (IntType.common m (s.type m) (t.type m)).isSigned ((IntType.common m (s.type m) (t.type m)).width m) v) = true then 1
        else 0) := by
      simp only [Expr.eval, hu, hv]
      rfl
    rw [hcmp, StdType.common_type, StdType.isSigned_type, StdType.width_type]
    rfl
  | @cond c a b r s t hc ha hb ihc iha ihb =>
    obtain ⟨w, hw⟩ := ihc
    obtain ⟨u, hu⟩ := iha
    obtain ⟨v, hv⟩ := ihb
    let T := s.common t
    refine ⟨convert T.isSigned T.width (if w ≠ 0 then u else v), fun m => ?_⟩
    have htype : Expr.type m (fun x => (st.vars x).map Prod.fst) (.cond c a b) = some (T.type m) := by
      rw [hst.vars]
      exact (Typed.cond hc ha hb).type_eq
    -- The value of the branch that is taken, converted.
    have hconv : ∀ n, converted m n (Expr.type m (fun x => (st.vars x).map Prod.fst) (.cond c a b)) =
        .ok (T.type m, convert T.isSigned T.width n) := by
      intro n
      rw [htype, converted, StdType.isSigned_type, StdType.width_type]
    by_cases hz : w ≠ 0
    · rw [if_pos hz, Expr.eval, hw]
      refine (if_pos hz).trans ?_
      rw [hu]
      exact hconv u
    · rw [if_neg hz, Expr.eval, hw]
      refine (if_neg hz).trans ?_
      rw [hv]
      exact hconv v
  | masked hA hk hlt _ ih =>
    obtain ⟨v, hv⟩ := ih
    obtain ⟨j, hpos, hle, hj⟩ := masked_ok hlt hv
    exact index_ok hst hA hj hpos (by omega)
  | counted hA hb hle =>
    obtain ⟨k, hk, hpos, hlt⟩ := hst.bound _ hb
    have hvar : ∀ m, (Expr.var .index).eval m st = .ok (StdType.uint32.type m, k) := fun m => by simp only [Expr.eval, hk]
    exact index_ok hst hA hvar hpos (by omega)

end CronoVM.Fuzz
