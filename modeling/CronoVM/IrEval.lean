import CronoVM.Translator.Ir

/-!
# What integer instructions compute

The meaning of the integer instructions of the IR on values of their widths. A value may be poison, which is no value here; a division
whose divisor is zero or poison has no meaning at all.
-/

namespace CronoVM.Ir

open NarrowInt

/-- The values of results and parameters; none for poison. -/
abbrev Env : Type := Local → Option Nat

/-- The bits of an operand of width `w`. -/
def operandBits (env : Env) (w : Nat) : Val → Option (BitVec w)
  | .loc l => (env l).map (BitVec.ofNat w)
  | .const (.int _ bits) => some (BitVec.ofNat w bits)
  | _ => none

/-- The value an `atomicrmw` stores, from the old one and its operand. -/
def RmwOp.eval {w : Nat} (op : RmwOp) (old val : BitVec w) : BitVec w :=
  match op with
  | .xchg => val
  | .add => old + val
  | .sub => old - val
  | .and => old &&& val
  | .or => old ||| val
  | .xor => old ^^^ val
  | .nand => ~~~(old &&& val)

namespace Inst

variable (fn : Func) (env : Env) (i : Inst)

/-- The result of an integer instruction. -/
def value : Option Nat :=
  let s := (fn.typeOf (i.operand 0)).regWidth
  let d := i.ty.regWidth
  match i.op with
  | .icmp => do
    let p ← i.predicate
    let x ← operandBits env s (i.operand 0)
    let y ← operandBits env s (i.operand 1)
    some (p.eval x y).toNat
  | .zext => (operandBits env s (i.operand 0)).map fun x => (x.setWidth d).toNat
  | .sext => (operandBits env s (i.operand 0)).map fun x => (x.signExtend d).toNat
  | .trunc => (operandBits env s (i.operand 0)).map fun x => (x.setWidth d).toNat
  | op => do
    let b ← op.intBinOp?
    let x ← operandBits env d (i.operand 0)
    let y ← operandBits env d (i.operand 1)
    (b.eval x y).map BitVec.toNat

/-- The instruction divides by zero, or by poison. -/
def faults : Bool :=
  i.op.intBinOp?.any IntBinOp.isDiv && (operandBits env i.ty.regWidth (i.operand 1)).all (· = 0)

/-- An integer instruction on scalars. Shifts are at widths at which a valid amount lies in the five bits the machine looks at. -/
inductive IsNarrow : Prop where
  | binary (op : IntBinOp) (w : Nat) (hop : i.op.intBinOp? = some op) (hpos : 0 < w) (hw : w ≤ 32)
      (hshift : op.isShift = true → 5 ≤ w) (hty : i.ty = .int w) (hx : fn.typeOf (i.operand 0) = .int w)
      (hy : fn.typeOf (i.operand 1) = .int w)
  | icmp (p : IntPred) (w : Nat) (hop : i.op = .icmp) (hp : i.predicate = some p) (hpos : 0 < w) (hw : w ≤ 32)
      (hty : i.ty = .int 1) (hx : fn.typeOf (i.operand 0) = .int w) (hy : fn.typeOf (i.operand 1) = .int w)
  | zext (s d : Nat) (hop : i.op = .zext) (hpos : 0 < s) (hsd : s ≤ d) (hd : d ≤ 32) (hty : i.ty = .int d)
      (hx : fn.typeOf (i.operand 0) = .int s)
  | sext (s d : Nat) (hop : i.op = .sext) (hpos : 0 < s) (hsd : s ≤ d) (hd : d ≤ 32) (hty : i.ty = .int d)
      (hx : fn.typeOf (i.operand 0) = .int s)
  | trunc (s d : Nat) (hop : i.op = .trunc) (hpos : 0 < d) (hds : d ≤ s) (hs : s ≤ 32) (hty : i.ty = .int d)
      (hx : fn.typeOf (i.operand 0) = .int s)

end Inst

/-- The values after instructions that follow each other; none where one of them has no meaning. -/
def evalInsts (fn : Func) : List Inst → Env → Option Env
  | [], env => some env
  | i :: is, env => if i.faults env = true then none else evalInsts fn is (Function.update env i.result (i.value fn env))

end CronoVM.Ir
