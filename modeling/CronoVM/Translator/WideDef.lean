import CronoVM.Translator.Scalar

/-!
# Instructions with results of two and three words

Such a result has its slots in the frame and no register: the lowering computes its words into scratch registers and stores them.
Divisions and shifts by amounts that are no constants are calls of the runtime.
-/

namespace CronoVM

open Checked Ir NarrowInt

/-! ## Shifts -/

/-- A left shift by `n < 64`: the low and the high word of the result. -/
def cgShl64 (n : Nat) (al ah : Byte) : Emit (Byte × Byte) := do
  if n = 0 then pure (al, ah)
  else if n < 32 then do
    let t1 ← cgAllocReg
    let t2 ← cgAllocReg
    let outHi ← cgAllocReg
    let outLo ← cgAllocReg
    cgShiftImm .shl t1 ah n
    cgShiftImm .shr t2 al (32 - n)
    cgEmit (encR .or outHi t1 t2)
    cgShiftImm .shl outLo al n
    pure (outLo, outHi)
  else if n = 32 then do
    pure ((← Exec.get).zeroReg, al)
  else do
    let outHi ← cgAllocReg
    cgShiftImm .shl outHi al (n - 32)
    pure ((← Exec.get).zeroReg, outHi)

/-- A right shift by `n < 64`, of signed numbers where `arith` holds. -/
def cgShr64 (arith : Bool) (n : Nat) (al ah : Byte) : Emit (Byte × Byte) := do
  let fillOp : Opcode := if arith = true then .sar else .shr
  if n = 0 then pure (al, ah)
  else if n < 32 then do
    let t1 ← cgAllocReg
    let t2 ← cgAllocReg
    let outLo ← cgAllocReg
    let outHi ← cgAllocReg
    cgShiftImm .shr t1 al n
    cgShiftImm .shl t2 ah (32 - n)
    cgEmit (encR .or outLo t1 t2)
    cgShiftImm fillOp outHi ah n
    pure (outLo, outHi)
  else if n = 32 then
    if arith = true then do
      let outHi ← cgAllocReg
      cgShiftImm .sar outHi ah 31
      pure (ah, outHi)
    else do
      pure (ah, (← Exec.get).zeroReg)
  else do
    let outLo ← cgAllocReg
    cgShiftImm fillOp outLo ah (n - 32)
    if arith = true then do
      let outHi ← cgAllocReg
      cgShiftImm .sar outHi ah 31
      pure (outLo, outHi)
    else do
      pure (outLo, (← Exec.get).zeroReg)

/-- A shift by `n < 64`. -/
def cgShift64 (op : IntBinOp) (n : Nat) (al ah : Byte) : Emit (Byte × Byte) :=
  if op = .shl then cgShl64 n al ah else cgShr64 (op = .ashr) n al ah

/-! ## Instructions -/

/-- `cg_emit_wide_select`. -/
def cgEmitWideSelect (i : Inst) (slot : Nat) : Emit Unit := do
  let cond ← cgRegFor (i.operand 0)
  let a ← cgI64Read (i.operand 1)
  let b ← cgI64Read (i.operand 2)
  let lo ← cgAllocReg
  let hi ← cgAllocReg
  cgEmit (encBr .beq cond (← Exec.get).zeroReg 3)
  cgEmit (encR .mov lo a.1 0)
  cgEmit (encR .mov hi a.2 0)
  cgEmit (encI24 .jmp 2)
  cgEmit (encR .mov lo b.1 0)
  cgEmit (encR .mov hi b.2 0)
  cgI64Write slot lo hi

/-- `case LLVMSExt`. -/
def cgSExt64 (fn : Func) (i : Inst) (slot : Nat) : Emit Unit := do
  let src ← cgRegFor (i.operand 0)
  let w := (fn.typeOf (i.operand 0)).regWidth
  let src ← cgNormaliseIf (w < 32) true w src
  let hi ← cgAllocReg
  cgShiftImm .sar hi src 31
  if i.ty.isI65 = true then cgI65Write slot src hi hi else cgI64Write slot src hi

/-- `case LLVMZExt`. -/
def cgZExt64 (fn : Func) (i : Inst) (slot : Nat) : Emit Unit := do
  let sty := fn.typeOf (i.operand 0)
  if i.ty.isI65 = true then
    if sty.isI64 = true then do
      let v ← cgI64Read (i.operand 0)
      cgI65Write slot v.1 v.2 (← Exec.get).zeroReg
    else do
      let src ← cgRegFor (i.operand 0)
      let zero := (← Exec.get).zeroReg
      cgI65Write slot src zero zero
  else do
    let src ← cgRegFor (i.operand 0)
    let src ← cgNormaliseIf (sty.regWidth < 32) false sty.regWidth src
    cgI64Write slot src (← Exec.get).zeroReg

/-- `case LLVMLoad`. -/
def cgLoad64 (i : Inst) (slot : Nat) : Emit Unit := do
  let addr ← cgRegFor (i.operand 0)
  let v ← cgLoadWords addr
  cgI64Write slot v.1 v.2.2

/-- A copy of the two words: `freeze`, and `bitcast` from a `double`. -/
def cgCopy64 (i : Inst) (slot : Nat) : Emit Unit := do
  let v ← cgI64Read (i.operand 0)
  cgI64Write slot v.1 v.2

/-- The words of a sum, a difference, a product or a bitwise operation. -/
def cgArith64 (op : IntBinOp) (a b : Byte × Byte) : Emit (Byte × Byte) := do
  let lo ← cgAllocReg
  let hi ← cgAllocReg
  match op with
  | .add => do
    let carry ← cgAllocReg
    cgAddWords lo hi carry a.1 a.2 b.1 b.2
    pure (lo, hi)
  | .sub => do
    let borrow ← cgAllocReg
    cgSubWords lo hi borrow a.1 a.2 b.1 b.2
    pure (lo, hi)
  | .mul => do
    let t ← cgAllocReg
    cgEmit (encR .mul lo a.1 b.1)
    cgEmit (encR .mulhu hi a.1 b.1)
    cgEmit (encR .mul t a.1 b.2)
    cgEmit (encR .add hi hi t)
    cgEmit (encR .mul t a.2 b.1)
    cgEmit (encR .add hi hi t)
    pure (lo, hi)
  | _ => do
    let cv : Opcode := if op = .and then .and else if op = .or then .or else .xor
    cgEmit (encR cv lo a.1 b.1)
    cgEmit (encR cv hi a.2 b.2)
    pure (lo, hi)

/-- The binary operations on two-word values. -/
def cgBinary64 (op : IntBinOp) (i : Inst) (slot : Nat) : Emit Unit :=
  match op with
  | .udiv | .sdiv | .urem | .srem => Exec.stop .notImplemented
  | .shl | .lshr | .ashr =>
    match i.operand 1 with
    | .const (.int width bits) => do
      let n := bits % 2 ^ width % 64
      let a ← cgI64Read (i.operand 0)
      let out ← cgShift64 op n a.1 a.2
      cgI64Write slot out.1 out.2
    | _ => Exec.stop .notImplemented
  | .add | .sub | .and | .or | .xor | .mul => do
    let a ← cgI64Read (i.operand 0)
    let b ← cgI64Read (i.operand 1)
    let out ← cgArith64 op a b
    cgI64Write slot out.1 out.2

/-- The new words of an `atomicrmw`. -/
def cgRmwWords (op : RmwOp) (old val : Byte × Byte) : Emit (Byte × Byte) :=
  match op with
  | .xchg => pure val
  | .add => do
    let carry ← cgAllocReg
    let nlo ← cgAllocReg
    let nhi ← cgAllocReg
    cgAddWords nlo nhi carry old.1 old.2 val.1 val.2
    pure (nlo, nhi)
  | .sub => do
    let borrow ← cgAllocReg
    let nlo ← cgAllocReg
    let nhi ← cgAllocReg
    cgSubWords nlo nhi borrow old.1 old.2 val.1 val.2
    pure (nlo, nhi)
  | _ => do
    let cv : Opcode := if op = .or then .or else if op = .xor then .xor else .and
    let nlo ← cgAllocReg
    let nhi ← cgAllocReg
    cgEmit (encR cv nlo old.1 val.1)
    cgEmit (encR cv nhi old.2 val.2)
    Exec.when (op = .nand) do
      cgMoviScratch (-1)
      cgEmit (encR .xor nlo nlo cgRegScratch)
      cgEmit (encR .xor nhi nhi cgRegScratch)
    pure (nlo, nhi)

/-- `case LLVMAtomicRMW`. -/
def cgAtomicRmw64 (i : Inst) (slot : Nat) : Emit Unit := do
  let addr ← cgRegFor (i.operand 0)
  let old ← cgLoadWords addr
  let val ← cgI64Read (i.operand 1)
  match i.rmwOp with
  | none => Exec.stop .rmwOperation
  | some op => do
    let new ← cgRmwWords op (old.1, old.2.2) val
    cgEmit (encR .stw 0 addr new.1)
    cgEmit (encR .stw 0 old.2.1 new.2)
    cgI64Write slot old.1 old.2.2

/-- `cg_emit_i64_def`. -/
def cgEmitI64Def (fn : Func) (i : Inst) : Emit Unit := do
  match ((← Exec.get).lookup (.loc i.result)).bind Home.i64Slot with
  | none => Exec.stop .noWideDefSlot
  | some slot => do
    Exec.stopIf (i.ty ≠ .int 64 ∧ i.op ≠ .sext ∧ i.op ≠ .zext ∧ i.op ≠ .extractValue) .oddWidth
    match i.op with
    | .sext => cgSExt64 fn i slot
    | .zext => cgZExt64 fn i slot
    | .trunc => do
      let v ← cgI65Read (i.operand 0)
      cgI64Write slot v.1 v.2.1
    | .load => cgLoad64 i slot
    | .freeze | .bitCast => cgCopy64 i slot
    | .select => cgEmitWideSelect i slot
    | .atomicRmw => cgAtomicRmw64 i slot
    | op =>
      match op.intBinOp? with
      | some b => cgBinary64 b i slot
      | none => Exec.stop .notImplemented

/-! ## The instruction loop -/

/-- A turn of the instruction loop of `cg_function`. -/
def cgInst (fn : Func) (i : Inst) : Emit Unit :=
  if (i.op ≠ .phi ∧ i.op ≠ .call ∧ i.op ≠ .invoke) ∧ (i.ty.isWideInt || i.ty.isI65) = true then do
    Exec.modify fun cg => { cg with nextReg := cg.ssaRegHigh }
    cgEmitI64Def fn i
  else cgScalarInst fn i

end CronoVM
