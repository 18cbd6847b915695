import Mathlib.Data.Int.Basic
import Mathlib.Data.BitVec
import Mathlib.Tactic.Common

/-!
# The integers of C

The integer types of C on machines with 32-bit `int`, under both widths of `long`; what an operation makes of the types of its operands,
and of their values. Signed numbers are in two's complement, and a conversion to a signed type wraps.
-/

namespace CronoVM.CIntegers

/-! ## Types -/

/-- The width of `long`: 32 or 64 bits. -/
inductive DataModel where
  | ilp32 | lp64
  deriving DecidableEq, Repr

/-- The integer types. -/
inductive IntType where
  | schar | uchar | short | ushort | int | uint | long | ulong | llong | ullong
  deriving DecidableEq, Repr

/-- The types of `stdint.h`. -/
inductive StdType where
  | int8 | uint8 | int16 | uint16 | int32 | uint32 | int64 | uint64
  deriving DecidableEq, Repr

namespace IntType

def width (m : DataModel) : IntType → Nat
  | .schar | .uchar => 8
  | .short | .ushort => 16
  | .int | .uint => 32
  | .long | .ulong => if m = .lp64 then 64 else 32
  | .llong | .ullong => 64

def isSigned : IntType → Bool
  | .schar | .short | .int | .long | .llong => true
  | _ => false

def rank : IntType → Nat
  | .schar | .uchar => 1
  | .short | .ushort => 2
  | .int | .uint => 3
  | .long | .ulong => 4
  | .llong | .ullong => 5

/-- The unsigned type of the same rank. -/
def toUnsigned : IntType → IntType
  | .schar => .uchar
  | .short => .ushort
  | .int => .uint
  | .long => .ulong
  | .llong => .ullong
  | t => t

/-- The integer promotions. -/
def promote (t : IntType) : IntType := if t.rank < IntType.rank .int then .int else t

/-- The usual arithmetic conversions of a signed and an unsigned type. -/
def mixed (m : DataModel) (s u : IntType) : IntType :=
  if s.rank ≤ u.rank then u else if u.width m < s.width m then s else s.toUnsigned

/-- The usual arithmetic conversions. -/
def common (m : DataModel) (s t : IntType) : IntType :=
  let s := s.promote
  let t := t.promote
  if s.isSigned = t.isSigned then
    if s.rank < t.rank then t else s
  else if s.isSigned = true then mixed m s t
  else mixed m t s

end IntType

namespace StdType

/-- The type behind the name. -/
def type (m : DataModel) : StdType → IntType
  | .int8 => .schar
  | .uint8 => .uchar
  | .int16 => .short
  | .uint16 => .ushort
  | .int32 => .int
  | .uint32 => .uint
  | .int64 => if m = .lp64 then .long else .llong
  | .uint64 => if m = .lp64 then .ulong else .ullong

def width : StdType → Nat
  | .int8 | .uint8 => 8
  | .int16 | .uint16 => 16
  | .int32 | .uint32 => 32
  | .int64 | .uint64 => 64

def isSigned : StdType → Bool
  | .int8 | .int16 | .int32 | .int64 => true
  | _ => false

/-- The integer promotions. -/
def promote : StdType → StdType
  | .int8 | .uint8 | .int16 | .uint16 => .int32
  | t => t

/-- The usual arithmetic conversions: the wider type, of two types of one width the unsigned one. -/
def common (s t : StdType) : StdType :=
  let s := s.promote
  let t := t.promote
  if s.width < t.width then t
  else if t.width < s.width then s
  else if s.isSigned = true then t
  else s

variable (m : DataModel) (s t : StdType)

@[simp] theorem width_type : (t.type m).width m = t.width := by
  cases m <;> cases t <;> rfl

@[simp] theorem isSigned_type : (t.type m).isSigned = t.isSigned := by
  cases m <;> cases t <;> rfl

@[simp] theorem promote_type : (t.type m).promote = t.promote.type m := by
  cases m <;> cases t <;> rfl

/-- The conversions do not depend on the width of `long`. -/
@[simp] theorem common_type : IntType.common m (s.type m) (t.type m) = (common s t).type m := by
  cases m <;> cases s <;> cases t <;> rfl

end StdType

/-! ## Operations -/

/-- The binary operators. -/
inductive BinOp where
  | add | sub | mul | div | mod | shl | shr | and | or | xor
  deriving DecidableEq, Repr

/-- The comparisons. -/
inductive CmpOp where
  | lt | gt | le | ge | eq | ne
  deriving DecidableEq, Repr

/-- The number that the bits are in a type. -/
def ofBits {w : Nat} (signed : Bool) (b : BitVec w) : Int := if signed = true then b.toInt else b.toNat

/-- The conversion to a type. -/
def convert (signed : Bool) (w : Nat) (x : Int) : Int := ofBits signed (BitVec.ofInt w x)

namespace BinOp

/-- The operator shifts. -/
def isShift : BinOp → Bool
  | .shl | .shr => true
  | _ => false

/-- The operator divides. -/
def isDiv : BinOp → Bool
  | .div | .mod => true
  | _ => false

/-- The operator is not a bitwise one: on signed numbers it may overflow, or means something else. -/
def isArith : BinOp → Bool
  | .and | .or | .xor => false
  | _ => true

/-- The operator on unsigned numbers of `w` bits; the bitwise ones on any. -/
def apply {w : Nat} (op : BinOp) (x y : BitVec w) : BitVec w :=
  match op with
  | .add => x + y
  | .sub => x - y
  | .mul => x * y
  | .div => x / y
  | .mod => x % y
  | .shl => x <<< y.toNat
  | .shr => x >>> y.toNat
  | .and => x &&& y
  | .or => x ||| y
  | .xor => x ^^^ y

/-- The operator in a type, on numbers that are converted to it. -/
def compute (op : BinOp) (signed : Bool) (w : Nat) (x y : Int) : Int := ofBits signed (op.apply (BitVec.ofInt w x) (BitVec.ofInt w y))

end BinOp

def CmpOp.holds (op : CmpOp) (x y : Int) : Bool :=
  match op with
  | .lt => x < y
  | .gt => y < x
  | .le => x ≤ y
  | .ge => y ≤ x
  | .eq => x = y
  | .ne => x ≠ y

/-! ## Values -/

variable {w : Nat}

/-- The number that a mask leaves is at most the mask. -/
theorem compute_and_le (x : Int) {k : Nat} (hk : k < 2 ^ w) :
    0 ≤ BinOp.compute .and false w x k ∧ BinOp.compute .and false w x k ≤ k := by
  have hmask : BitVec.ofInt w (k : Int) = BitVec.ofNat w k := BitVec.ofInt_natCast ..
  simp only [BinOp.compute, ofBits, Bool.false_eq_true, if_false, BinOp.apply, hmask, BitVec.toNat_and, BitVec.toNat_ofNat,
    Nat.mod_eq_of_lt hk]
  exact ⟨Int.natCast_nonneg _, Int.ofNat_le.mpr Nat.and_le_right⟩

/-- A number with its lowest bit set is not zero. -/
theorem convert_or_one (x : Int) (hw : 0 < w) : convert false w (BinOp.compute .or false w x 1) ≠ 0 := by
  have hbit : (BitVec.ofInt w x ||| BitVec.ofInt w 1).getLsbD 0 = true := by
    rw [BitVec.getLsbD_or]
    have hone : (BitVec.ofInt w ((1 : Nat) : Int)).getLsbD 0 = true := by
      rw [BitVec.ofInt_natCast, BitVec.getLsbD_ofNat, decide_eq_true hw]
      rfl
    exact (congrArg _ hone).trans (Bool.or_true _)
  simp only [convert, BinOp.compute, ofBits, Bool.false_eq_true, if_false, BinOp.apply, BitVec.ofInt_natCast, BitVec.ofNat_toNat,
    BitVec.setWidth_eq]
  intro hzero
  have hnat : (BitVec.ofInt w x ||| BitVec.ofInt w 1) = 0#w := BitVec.eq_of_toNat_eq (Int.ofNat_eq_zero.mp hzero)
  rw [hnat, BitVec.getLsbD_zero] at hbit
  cases hbit

end CronoVM.CIntegers
