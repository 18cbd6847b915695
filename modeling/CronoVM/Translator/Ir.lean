import Mathlib.Data.List.Basic
import Mathlib.Tactic.Common
import CronoVM.Isa
import CronoVM.Lib.NarrowInt

/-!
# The input of the translator

What the translator reads of a function of LLVM IR: types, values, instructions, blocks. A value is compared by what it is; an
instruction and a block are named by a number.
-/

namespace CronoVM.Ir

open NarrowInt

/-! ## Types -/

/-- The type kinds the translator tells apart. -/
inductive TypeKind where
  | void | integer | pointer | float | double | vector | struct | other
  deriving DecidableEq, Repr

/-- A type, with what the translator reads of it: the width of an integer, the lanes of a vector and whether they fit a word, the kinds
of the fields of a struct. -/
inductive Ty where
  | void
  | int (width : Nat)
  | pointer
  | float
  | double
  | vector (lanes : Nat) (wordLanes : Bool)
  | struct (fields : List TypeKind)
  | other
  deriving DecidableEq, Repr

namespace Ty

def kind : Ty → TypeKind
  | .void => .void
  | .int _ => .integer
  | .pointer => .pointer
  | .float => .float
  | .double => .double
  | .vector _ _ => .vector
  | .struct _ => .struct
  | .other => .other

/-- `cg_type_is_i64`. -/
def isI64 (t : Ty) : Bool := t = .int 64

/-- `cg_type_is_wide_int`. -/
def isWideInt : Ty → Bool
  | .int w => 33 ≤ w ∧ w ≤ 64
  | _ => false

/-- `cg_type_is_i65`. -/
def isI65 (t : Ty) : Bool := t = .int 65

/-- `cg_type_is_f64`. -/
def isF64 (t : Ty) : Bool := t = .double

/-- `cg_type_is_wide`. -/
def isWide (t : Ty) : Bool := t.isWideInt || t.isF64

/-- `cg_type_is_vector`. -/
def isVector : Ty → Bool
  | .vector _ wordLanes => wordLanes
  | _ => false

/-- `cg_vec_lanes`. -/
def vecLanes : Ty → Nat
  | .vector lanes _ => lanes
  | _ => 0

/-- `cg_type_is_eh_pad`. -/
def isEhPad (t : Ty) : Bool := t = .struct [.pointer, .integer]

/-- The width an operand is normalised to: that of an integer, else a whole register. -/
def regWidth : Ty → Nat
  | .int w => w
  | _ => 32

end Ty

/-! ## Values -/

/-- A constant, with what the translator reads of it. -/
inductive Const where
  | int (width : Nat) (bits : Nat)
  /-- A `float`, by its bits. -/
  | float (bits : Word)
  /-- A `double`, by its two words. -/
  | double (lo hi : Word)
  | null
  | undef (ty : Ty)
  | global (id : Nat)
  | func (id : Nat)
  | aliasOf (aliasee : Const)
  /-- A cast that keeps the bits. -/
  | cast (c : Const) (ty : Ty)
  /-- A GEP, with its static offset as the layout of the target gives it. -/
  | gep (base : Const) (off : Option Int)
  /-- Any other constant expression. -/
  | expr (ty : Ty)
  | other (ty : Ty)
  deriving DecidableEq

/-- What a function computes itself: results of instructions and parameters. Only these have homes. -/
inductive Local where
  | inst (id : Nat)
  | arg (i : Nat)
  deriving DecidableEq

/-- A value. -/
inductive Val where
  | loc (l : Local)
  | block (id : Nat)
  | const (c : Const)
  deriving DecidableEq

namespace Const

def typeOf : Const → Ty
  | .int width _ => .int width
  | .float _ => .float
  | .double _ _ => .double
  | .undef ty | .cast _ ty | .expr ty | .other ty => ty
  | .null | .global _ | .func _ | .aliasOf _ | .gep _ _ => .pointer

end Const

namespace Val

/-- `LLVMIsUndef`. -/
def isUndef : Val → Bool
  | .const (.undef _) => true
  | _ => false

/-- `LLVMIsAConstantInt`. -/
def isConstInt : Val → Bool
  | .const (.int _ _) => true
  | _ => false

/-- `cg_wide_const_words`: the words of a 64-bit constant. -/
def cgWideConstWords : Val → Option (Word × Word)
  | .const (.int width bits) =>
    let k := bits % 2 ^ width
    some (BitVec.ofNat 32 k, BitVec.ofNat 32 (k / 2 ^ 32))
  | .const (.double lo hi) => some (lo, hi)
  | _ => none

end Val

/-! ## Instructions -/

/-- `LLVMOpcode`. -/
inductive Op where
  | ret | br | switch | unreachable | invoke | resume | landingPad
  | add | sub | mul | udiv | sdiv | urem | srem | shl | lshr | ashr | and | or | xor
  | fadd | fsub | fmul | fdiv | fneg
  | alloca | load | store | getElementPtr | fence | atomicCmpXchg | atomicRmw
  | trunc | zext | sext | fpToUi | fpToSi | uiToFp | siToFp | fpTrunc | fpExt | ptrToInt | intToPtr | bitCast
  | icmp | fcmp | phi | call | select | extractElement | insertElement | shuffleVector | extractValue | insertValue | freeze
  deriving DecidableEq, Repr

/-- The binary operations on integers. -/
def Op.intBinOp? : Op → Option IntBinOp
  | .add => some .add
  | .sub => some .sub
  | .mul => some .mul
  | .udiv => some .udiv
  | .sdiv => some .sdiv
  | .urem => some .urem
  | .srem => some .srem
  | .shl => some .shl
  | .lshr => some .lshr
  | .ashr => some .ashr
  | .and => some .and
  | .or => some .or
  | .xor => some .xor
  | _ => none

/-- `LLVMAtomicRMWBinOp`, the operations the translator knows. -/
inductive RmwOp where
  | xchg | add | sub | and | or | xor | nand
  deriving DecidableEq, Repr

/-- An instruction. The last operand of a call is its callee; the operands of a phi are its incoming values. -/
structure Inst where
  id : Nat
  op : Op
  ty : Ty
  operands : List Val
  /-- The incoming blocks of a phi, one for each operand. -/
  incoming : List Nat := []
  /-- The name of the callee of a call. -/
  callee : String := ""
  /-- The indices of an `extractvalue`. -/
  indices : List Nat := []
  /-- Size and alignment of the type an `alloca` allocates. -/
  allocated : Nat × Nat := (0, 0)
  /-- The successors of a terminator. -/
  successors : List Nat := []
  /-- The predicate of an `icmp`; none for one that `icmp_to_op` does not know. -/
  predicate : Option IntPred := none
  /-- The operation of an `atomicrmw`; none for one the translator does not know. -/
  rmwOp : Option RmwOp := none
  deriving DecidableEq

namespace Inst

/-- The instruction as a value. -/
def result (i : Inst) : Local := .inst i.id

/-- The instruction's case of `cg_is_eh_value`: a landing pad, or a phi or select of what landing pads give. -/
def isEh (i : Inst) : Bool := i.op = .landingPad ∨ ((i.op = .phi ∨ i.op = .select) ∧ i.ty.isEhPad = true)

/-- `LLVMGetOperand`; a block when there is no such operand. -/
def operand (i : Inst) (k : Nat) : Val := i.operands.getD k (.block 0)

end Inst

/-- A basic block. -/
structure Block where
  id : Nat
  insts : List Inst
  deriving DecidableEq

/-- The phis of a block: the instructions before the first that is none. -/
def Block.phis (b : Block) : List Inst := b.insts.takeWhile fun i => i.op = .phi

/-- The instructions of a block after its phis. -/
def Block.body (b : Block) : List Inst := b.insts.filter fun i => i.op ≠ .phi

/-- A function with a body; the first block is its entry. -/
structure Func where
  name : String
  params : List Ty
  vararg : Bool
  blocks : List Block

namespace Func

variable (fn : Func)

/-- All instructions, block after block. -/
def insts : List Inst := fn.blocks.flatMap Block.insts

/-- The instruction a value is the result of. -/
def inst? (v : Val) : Option Inst :=
  match v with
  | .loc (.inst id) => fn.insts.find? fun i => i.id == id
  | _ => none

/-- `LLVMTypeOf`. -/
def typeOf (v : Val) : Ty :=
  match v with
  | .loc (.inst _) => ((fn.inst? v).map Inst.ty).getD .void
  | .loc (.arg i) => fn.params.getD i .void
  | .block _ => .other
  | .const c => c.typeOf

/-- `cg_is_eh_value`. -/
def isEhValue (v : Val) : Bool := (fn.inst? v).any Inst.isEh

end Func

end CronoVM.Ir
