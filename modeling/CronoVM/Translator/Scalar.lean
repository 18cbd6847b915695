import CronoVM.Translator.Wide

/-!
# Scalar instructions

The lowering of instructions whose result is one word: arithmetic, comparisons and conversions of integers. A narrow integer is kept in
a register whose upper bits are anything; the instructions that look at these bits extend their operands first.
-/

namespace CronoVM

open Checked Ir NarrowInt

/-! ## Normalisation -/

/-- The operand extended from `w` bits to a whole register, in a fresh one. -/
def cgNormalise (signed : Bool) (w : Nat) (src : Byte) : Emit Byte := do
  let dst ← cgAllocReg
  if signed = true then do
    cgEmit (encI16 .movi cgRegScratch (BitVec.ofNat 16 (32 - w)))
    cgEmit (encR .shl dst src cgRegScratch)
    cgEmit (encR .sar dst dst cgRegScratch)
  else do
    cgEmitLoadConst32 cgRegScratch (lowMask 32 w)
    cgEmit (encR .and dst src cgRegScratch)
  pure dst

/-- The operand, extended where `c` holds. -/
def cgNormaliseIf (c : Prop) [Decidable c] (signed : Bool) (w : Nat) (src : Byte) : Emit Byte :=
  if c then cgNormalise signed w src else pure src

/-- `cg_icmp_operand`. -/
def cgIcmpOperand (v : Val) (w : Nat) (signed : Bool) : Emit Byte := do
  let src ← cgRegFor v
  cgNormaliseIf (w < 32) signed w src

/-! ## Instructions -/

/-- The instruction of the machine for a binary operation. -/
def binOpcode : IntBinOp → Opcode
  | .add => .add
  | .sub => .sub
  | .mul => .mul
  | .sdiv => .div
  | .udiv => .divu
  | .srem => .mod
  | .urem => .modu
  | .shl => .shl
  | .lshr => .shr
  | .ashr => .sar
  | .and => .and
  | .or => .or
  | .xor => .xor

/-- `norm_lhs`: the result depends on the upper bits of the left operand. -/
def normLhs (op : IntBinOp) : Bool := op = .lshr ∨ op = .ashr ∨ op.isDiv = true

/-- `sext`: the operands are extended with their sign. -/
def normSext (op : IntBinOp) : Bool := op = .ashr ∨ op = .sdiv ∨ op = .srem

/-- The case of the binary operators. -/
def cgBinary (op : IntBinOp) (i : Inst) (dst : Byte) : Emit Unit := do
  let lhs ← cgRegFor (i.operand 0)
  let rhs ← cgRegFor (i.operand 1)
  let rw := i.ty.regWidth
  let lhs ← cgNormaliseIf (rw < 32 ∧ normLhs op = true) (normSext op) rw lhs
  let rhs ← cgNormaliseIf (rw < 32 ∧ op.isDiv = true) (normSext op) rw rhs
  cgEmit (encR (binOpcode op) dst lhs rhs)

/-- The compare of two words. -/
def cgIcmpWord (p : IntPred) (w : Nat) (x y : Val) (dst : Byte) : Emit Unit := do
  let lhs ← cgIcmpOperand x w p.isSigned
  let rhs ← cgIcmpOperand y w p.isSigned
  let c := icmpToOp p
  if c.2 = true then cgEmit (encR c.1 dst rhs lhs) else cgEmit (encR c.1 dst lhs rhs)

/-- `case LLVMICmp`. -/
def cgIcmp (fn : Func) (i : Inst) (dst : Byte) : Emit Unit :=
  let oty := fn.typeOf (i.operand 0)
  match i.predicate with
  | none => Exec.stop .icmpPredicate
  | some p =>
    if oty.isI65 = true then cgIcmpI65 p (i.operand 0) (i.operand 1) dst
    else if oty.isWideInt = true then cgIcmpWide p (i.operand 0) (i.operand 1) dst
    else cgIcmpWord p oty.regWidth (i.operand 0) (i.operand 1) dst

/-- The low `w` bits of a register, or all of it. -/
def cgMaskInto (w : Nat) (dst src : Byte) : Emit Unit :=
  if w ≥ 32 then Exec.when (src ≠ dst) (cgEmit (encR .mov dst src 0))
  else do
    cgEmitLoadConst32 cgRegScratch (lowMask 32 w)
    cgEmit (encR .and dst src cgRegScratch)

/-- `case LLVMZExt`. -/
def cgZExt (fn : Func) (i : Inst) (dst : Byte) : Emit Unit := do
  let src ← cgRegFor (i.operand 0)
  cgMaskInto (fn.typeOf (i.operand 0)).regWidth dst src

/-- `case LLVMTrunc`. -/
def cgTrunc (fn : Func) (i : Inst) (dst : Byte) : Emit Unit :=
  let srcV := i.operand 0
  let dw := i.ty.regWidth
  if (fn.typeOf srcV).isWideInt = true then do
    match srcV with
    | .const (.int width bits) => cgEmitLoadConst32 dst (BitVec.ofNat 32 (bits % 2 ^ width))
    | _ => do
      let cg ← Exec.get
      match (cg.lookup srcV).bind Home.i64Slot with
      | none => Exec.stop .truncSlot
      | some slot => cgLdwSpOff dst (cg.valSlotOff slot)
    Exec.when (dw < 32) (cgMaskInto dw dst dst)
  else do
    let src ← cgRegFor srcV
    cgMaskInto dw dst src

/-- `case LLVMSExt`. -/
def cgSExt (fn : Func) (i : Inst) (dst : Byte) : Emit Unit := do
  let src ← cgRegFor (i.operand 0)
  let srcW := (fn.typeOf (i.operand 0)).regWidth
  if srcW ≥ 32 then Exec.when (src ≠ dst) (cgEmit (encR .mov dst src 0))
  else do
    cgEmit (encI16 .movi cgRegScratch (BitVec.ofNat 16 (32 - srcW)))
    cgEmit (encR .shl dst src cgRegScratch)
    cgEmit (encR .sar dst dst cgRegScratch)

/-- The intrinsics in `case LLVMCall`. -/
def cgIntrinsic (i : Inst) : Emit Unit :=
  if i.callee = "llvm.abs.i64" then cgAbs64 i
  else if i.callee = "llvm.ctlz.i64" then cgCtlz64 i
  else Exec.stop .notImplemented

/-- The opcodes of these instructions in the `switch` of `cg_function`. -/
def cgScalarDef (fn : Func) (i : Inst) (dst : Byte) : Emit Unit :=
  match i.op with
  | .icmp => cgIcmp fn i dst
  | .zext => cgZExt fn i dst
  | .trunc => cgTrunc fn i dst
  | .sext => cgSExt fn i dst
  | .atomicCmpXchg => if (fn.typeOf (i.operand 1)).isI64 = true then cgCmpXchg64 i else Exec.stop .notImplemented
  | .call => cgIntrinsic i
  | op =>
    match op.intBinOp? with
    | some b => cgBinary b i dst
    | none => Exec.stop .notImplemented

/-! ## The instruction loop -/

/-- A turn of the instruction loop of `cg_function` for a result that is one word. A result with a slot is computed into a fresh
register and stored. -/
def cgScalarInst (fn : Func) (i : Inst) : Emit Unit := do
  Exec.modify fun cg => { cg with nextReg := cg.ssaRegHigh }
  let cg ← Exec.get
  match cg.home? i.result with
  | none => Exec.demand False
  | some home =>
    match home.valSlot with
    | none => cgScalarDef fn i home.reg
    | some slot => do
      let defReg ← cgAllocReg
      cgScalarDef fn i defReg
      cgStwSpOff (cg.valSlotOff slot) defReg

/-- The turns for instructions that follow each other. -/
def cgScalarInsts (fn : Func) : List Inst → Emit Unit
  | [] => pure ()
  | i :: is => do
    cgScalarInst fn i
    cgScalarInsts fn is

end CronoVM
