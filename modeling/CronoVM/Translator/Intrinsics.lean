import CronoVM.Translator.Emit
import CronoVM.Translator.Scalar

/-!
# Intrinsics on integers

Minimum and maximum, saturating sums and differences, and the three-way comparison, in `case LLVMCall`. The upper bits of a narrow operand
are anything.
-/

namespace CronoVM

open Checked Ir NarrowInt

/-- The intrinsics on integers of a width up to 32, `llvm.smax.iN` and so on. -/
inductive NarrowIntrinsic where
  | smax | smin | umax | umin | uaddSat | usubSat | saddSat | ssubSat | scmp | ucmp
  deriving DecidableEq, Repr

/-- Both operands extended to whole registers, where they are narrow. -/
def cgExtendBoth (signed : Bool) (bits : Nat) (a b : Byte) : Emit (Byte × Byte) :=
  if 0 < bits ∧ bits < 32 then do
    let ca ← cgAllocReg
    let cb ← cgAllocReg
    let k ← cgAllocReg
    if signed = true then do
      cgEmitLoadConst32 k (BitVec.ofNat 32 (32 - bits))
      cgEmit (encR .shl ca a k)
      cgEmit (encR .sar ca ca k)
      cgEmit (encR .shl cb b k)
      cgEmit (encR .sar cb cb k)
    else do
      cgEmitLoadConst32 k (lowMask 32 bits)
      cgEmit (encR .and ca a k)
      cgEmit (encR .and cb b k)
    pure (ca, cb)
  else pure (a, b)

/-- A branch and two moves: `ifTrue` where `cond` is not zero, else `ifFalse`. -/
def cgSelectMove (dst cond ifTrue ifFalse : Byte) : Emit Unit := do
  let cg ← Exec.get
  cgEmit (encBr .beq cond cg.zeroReg 2)
  cgEmit (encR .mov dst ifTrue 0)
  cgEmit (encI24 .jmp 1)
  cgEmit (encR .mov dst ifFalse 0)

/-- `is_minmax` -/
def cgMinMax (isMin isSigned : Bool) (bits : Nat) (x y : Val) (dst : Byte) : Emit Unit := do
  let a ← cgRegFor x
  let b ← cgRegFor y
  let c ← cgExtendBoth isSigned bits a b
  let cond ← cgAllocReg
  cgEmit (encR (if isSigned = true then .cmpLt else .cmpLtu) cond c.1 c.2)
  cgSelectMove dst cond (if isMin = true then a else b) (if isMin = true then b else a)

/-- `is_sat`, unsigned. -/
def cgSaturate (isSub : Bool) (bits : Nat) (x y : Val) (dst : Byte) : Emit Unit := do
  let a ← cgRegFor x
  let b ← cgRegFor y
  let tmp ← cgAllocReg
  let cond ← cgAllocReg
  if isSub = true then do
    cgEmit (encR .sub tmp a b)
    cgEmit (encR .cmpLtu cond a b)
    cgSelectMove dst cond (← Exec.get).zeroReg tmp
  else do
    let maxR ← cgAllocReg
    cgEmit (encR .add tmp a b)
    if 0 < bits ∧ bits < 32 then do
      cgEmitLoadConst32 maxR (lowMask 32 bits)
      cgEmit (encR .cmpLtu cond maxR tmp)
    else do
      cgEmitLoadConst32 maxR (-1)
      cgEmit (encR .cmpLtu cond tmp a)
    cgSelectMove dst cond maxR tmp

/-- `is_cmp3` -/
def cgCompare3 (isSigned : Bool) (bits : Nat) (x y : Val) (dst : Byte) : Emit Unit := do
  let a ← cgRegFor x
  let b ← cgRegFor y
  let c ← cgExtendBoth isSigned bits a b
  let gt ← cgAllocReg
  let lt ← cgAllocReg
  let cmpOp : Opcode := if isSigned = true then .cmpLt else .cmpLtu
  cgEmit (encR cmpOp gt c.2 c.1)
  cgEmit (encR cmpOp lt c.1 c.2)
  cgEmit (encR .sub dst gt lt)

/-- The intrinsics at operand width `bits`. -/
def cgNarrowIntrinsic : NarrowIntrinsic → Nat → Val → Val → Byte → Emit Unit
  | .smax => cgMinMax false true
  | .smin => cgMinMax true true
  | .umax => cgMinMax false false
  | .umin => cgMinMax true false
  | .uaddSat => cgSaturate false
  | .usubSat => cgSaturate true
  | .saddSat | .ssubSat => fun _ _ _ _ => Exec.stop .signedSaturation
  | .scmp => cgCompare3 true
  | .ucmp => cgCompare3 false

/-! ## Non-local jumps

The lowering of calls of `setjmp` and `longjmp`: one instruction each. Nothing is stored before the one and nothing loaded after it. -/

/-- A call of `setjmp`, by its name. -/
def isSetjmp (i : Inst) : Bool := i.callee = "setjmp" ∨ i.callee = "_setjmp"

/-- A call of `longjmp`, by its name. -/
def isLongjmp (i : Inst) : Bool := i.callee = "longjmp" ∨ i.callee = "_longjmp"

/-- `setjmp` in `case LLVMCall`. -/
def cgSetjmp (i : Inst) (dst : Byte) : Emit Unit := do
  let env ← cgRegFor (i.operand 0)
  cgEmit (encR .setjmp dst env 0)

/-- `longjmp` in `case LLVMCall`. -/
def cgLongjmp (i : Inst) : Emit Unit := do
  let env ← cgRegFor (i.operand 0)
  let val ← cgRegFor (i.operand 1)
  cgEmit (encR .longjmp env val 0)

/-- The turn of the instruction loop for a `setjmp`. A result with a slot is computed into a fresh register and stored. -/
def cgSetjmpInst (i : Inst) : Emit Unit := do
  let cg ← Exec.get
  match cg.home? i.result with
  | none => Exec.demand False
  | some home =>
    match home.valSlot with
    | none => cgSetjmp i home.reg
    | some slot => do
      let defReg ← cgAllocReg
      cgSetjmp i defReg
      cgStwSpOff (cg.valSlotOff slot) defReg

/-- The turn of the instruction loop for one of these calls. -/
def cgJumpCall (i : Inst) : Emit Unit := do
  Exec.modify fun cg => { cg with nextReg := cg.ssaRegHigh }
  if isSetjmp i = true then cgSetjmpInst i
  else if isLongjmp i = true then cgLongjmp i
  else Exec.stop .notImplemented

end CronoVM
