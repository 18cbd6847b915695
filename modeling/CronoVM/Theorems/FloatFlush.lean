import CronoVM.Lemmas.Float64Range

/-!
# Subnormal operands

The header says that subnormals are zero on input. An operation that tests an operand with `cvm_d_iszero` tests its mantissa too, and what
it then computes of a subnormal is a number with a leading one. Here, for each operation, which operands this shows for.
-/

namespace CronoVM

open CvmF64

/-- The operations on two doubles. -/
inductive FloatBinary where
  | add | sub | mul | div | eq | ne | lt | le | gt | ge
  deriving DecidableEq, Repr

/-- The operations on one double. -/
inductive FloatUnary where
  | sqrt | toF32 | toI32 | toU32
  deriving DecidableEq, Repr

/-- An operation and its operands. -/
inductive FloatCall where
  | binary (op : FloatBinary) (a b : CvmF64)
  | unary (op : FloatUnary) (x : CvmF64)
  deriving DecidableEq, Repr

/-- A double, the truth of a comparison, or the bits of a `float` or of an integer. -/
inductive FloatResult where
  | double (x : CvmF64)
  | truth (b : Bool)
  | bits (w : Word)
  deriving DecidableEq, Repr

def FloatBinary.eval : FloatBinary → CvmF64 → CvmF64 → FloatResult
  | .add, a, b => .double (cvmDAdd a b)
  | .sub, a, b => .double (cvmDSub a b)
  | .mul, a, b => .double (cvmDMul a b)
  | .div, a, b => .double (cvmDDiv a b)
  | .eq, a, b => .truth (cvmDEq a b)
  | .ne, a, b => .truth (cvmDNe a b)
  | .lt, a, b => .truth (cvmDLt a b)
  | .le, a, b => .truth (cvmDLe a b)
  | .gt, a, b => .truth (cvmDGt a b)
  | .ge, a, b => .truth (cvmDGe a b)

def FloatUnary.eval : FloatUnary → CvmF64 → FloatResult
  | .sqrt, x => .double (cvmFsqrt x)
  | .toF32, x => .bits (cvmDToF32 x)
  | .toI32, x => .bits (cvmDToI32 x)
  | .toU32, x => .bits (cvmDToU32 x)

def FloatCall.eval : FloatCall → FloatResult
  | .binary op a b => op.eval a b
  | .unary op x => op.eval x

/-- The same operand, or the zero of its sign in place of a subnormal. -/
def CvmF64.Flushes (x x' : CvmF64) : Prop := x' = x ∨ (x.IsSubnormal ∧ x' = ⟨0#32, x.hi &&& 0x80000000#32⟩)

/-- The same operation, with zeros in place of some subnormal operands. -/
inductive FloatCall.Flushes : FloatCall → FloatCall → Prop
  | binary {op : FloatBinary} {a a' b b' : CvmF64} : a.Flushes a' → b.Flushes b' → Flushes (.binary op a b) (.binary op a' b')
  | unary {op : FloatUnary} {x x' : CvmF64} : x.Flushes x' → Flushes (.unary op x) (.unary op x')

/-- The operands of which a subnormal is as good as a zero: in a sum and a difference, if it is shifted out of the other operand whole; in a
product and in a quotient, if the range of the exponent is left even with a leading one; in a comparison, if the other operand or the signs
tell. -/
def FloatCall.AsZero : FloatCall → Prop
  | .binary .add a b | .binary .sub a b => a.IsSubnormal ∨ b.IsSubnormal → 53 ≤ a.exp ∨ 53 ≤ b.exp
  | .binary .mul a b => a.IsSubnormal ∨ b.IsSubnormal →
      cvmDIsnan a = true ∨ cvmDIsnan b = true ∨ a.exp + b.exp < 1023 ∨ (a.exp + b.exp = 1023 ∧ a.sig * b.sig < 2 ^ 105)
  | .binary .div a b => (a.IsSubnormal → 1023 ≤ b.exp ∨ (b.exp = 1022 ∧ a.sig < b.sig)) ∧
      (b.IsSubnormal → 1025 ≤ a.exp ∨ (a.exp = 1024 ∧ b.sig ≤ a.sig))
  | .binary .eq a b | .binary .ne a b => a.IsSubnormal ∨ b.IsSubnormal → 0 < a.exp ∨ 0 < b.exp
  | .binary .lt a b | .binary .ge a b => a.exp = 0 → b.exp = 0 →
      ¬(a.IsSubnormal ∧ a.sign = true) ∧ ¬(b.IsSubnormal ∧ b.sign = false)
  | .binary .le a b | .binary .gt a b => a.exp = 0 → b.exp = 0 →
      ¬(a.IsSubnormal ∧ a.sign = false) ∧ ¬(b.IsSubnormal ∧ b.sign = true)
  | .unary .sqrt x => ¬x.IsSubnormal
  | .unary .toF32 _ | .unary .toI32 _ | .unary .toU32 _ => True

/-- An operand stays as it is or becomes a zero of its sign. -/
theorem CvmF64.flushes_iff (x x' : CvmF64) : x.Flushes x' ↔ x' = x ∨ x' = x.flush := by
  by_cases h : x.IsSubnormal
  · rw [Flushes, flush, if_pos h]
    simp only [h, true_and]
  · rw [Flushes, flush_of_not h]
    simp only [h, false_and, or_false, or_self]

/-- For a binary operation it does not matter which operands are flushed. -/
theorem stable_binary {op : FloatBinary} {a b : CvmF64} :
    (∀ c' : FloatCall, FloatCall.Flushes (.binary op a b) c' → c'.eval = op.eval a b) ↔ FlushStable op.eval a b := by
  constructor
  · intro h
    have hself : ∀ x : CvmF64, x.Flushes x := fun x => Or.inl rfl
    have hflush : ∀ x : CvmF64, x.Flushes x.flush := fun x => (x.flushes_iff _).mpr (Or.inr rfl)
    exact ⟨h _ (.binary (hflush a) (hself b)), h _ (.binary (hself a) (hflush b)), h _ (.binary (hflush a) (hflush b))⟩
  · rintro ⟨hleft, hright, hboth⟩ _ hc
    cases hc with
    | binary ha hb =>
      rw [flushes_iff] at ha hb
      obtain rfl | rfl := ha <;> obtain rfl | rfl := hb
      · rfl
      · exact hright
      · exact hleft
      · exact hboth

/-- For a unary operation it does not matter whether its operand is flushed. -/
theorem stable_unary {op : FloatUnary} {x : CvmF64} :
    (∀ c' : FloatCall, FloatCall.Flushes (.unary op x) c' → c'.eval = op.eval x) ↔ op.eval x.flush = op.eval x := by
  constructor
  · intro h
    exact h _ (.unary ((x.flushes_iff _).mpr (Or.inr rfl)))
  · rintro h _ hc
    cases hc with
    | unary hx =>
      rw [flushes_iff] at hx
      obtain rfl | rfl := hx
      · rfl
      · exact h

/-- A result is stable if what it is made of is. -/
theorem flushStable_result {α : Type} {f : CvmF64 → CvmF64 → α} {g : α → FloatResult} (hg : ∀ x y, g x = g y ↔ x = y) {a b : CvmF64} :
    FlushStable (fun x y => g (f x y)) a b ↔ FlushStable f a b := by
  rw [FlushStable, FlushStable, hg, hg, hg]

/-- Every operation gives the same result with zeros in place of subnormal operands exactly when those operands are as good as zeros. -/
theorem flush_iff_asZero (c : FloatCall) : (∀ c' : FloatCall, c.Flushes c' → c'.eval = c.eval) ↔ c.AsZero := by
  have hdouble : ∀ x y, FloatResult.double x = .double y ↔ x = y := fun x y => FloatResult.double.injEq x y ▸ Iff.rfl
  have htruth : ∀ x y, FloatResult.truth x = .truth y ↔ x = y := fun x y => FloatResult.truth.injEq x y ▸ Iff.rfl
  cases c with
  | binary op a b =>
    refine stable_binary.trans ?_
    cases op with
    | add => exact (flushStable_result hdouble).trans (cvmDAdd_flush_iff a b)
    | sub => exact (flushStable_result hdouble).trans (cvmDSub_flush_iff a b)
    | mul => exact (flushStable_result hdouble).trans (cvmDMul_flush_iff a b)
    | div => exact (flushStable_result hdouble).trans (cvmDDiv_flush_iff a b)
    | eq => exact (flushStable_result htruth).trans (cvmDEq_flush_iff a b)
    | ne => exact (flushStable_result htruth).trans (cvmDNe_flush_iff a b)
    | lt => exact (flushStable_result htruth).trans (cvmDLt_flush_iff a b)
    | le => exact (flushStable_result htruth).trans (cvmDLe_flush_iff a b)
    | gt => exact (flushStable_result htruth).trans (cvmDGt_flush_iff a b)
    | ge => exact (flushStable_result htruth).trans (cvmDGe_flush_iff a b)
  | unary op x =>
    refine stable_unary.trans ?_
    cases op with
    | sqrt => exact (hdouble _ _).trans (cvmFsqrt_flush_iff x)
    | toF32 => exact iff_of_true (congrArg FloatResult.bits (cvmDToF32_flush x)) trivial
    | toI32 => exact iff_of_true (congrArg FloatResult.bits (cvmDToI32_flush x)) trivial
    | toU32 => exact iff_of_true (congrArg FloatResult.bits (cvmDToU32_flush x)) trivial

/-- The least subnormal is not equal to zero. -/
theorem subnormal_ne_zero : ¬∀ c c' : FloatCall, c.Flushes c' → c'.eval = c.eval := by
  intro h
  have heq := h (.binary .eq ⟨1#32, 0#32⟩ ⟨0#32, 0#32⟩) (.binary .eq ⟨0#32, 0#32⟩ ⟨0#32, 0#32⟩)
    (.binary (Or.inr ⟨by decide, rfl⟩) (Or.inl rfl))
  exact absurd heq (by decide)

end CronoVM
