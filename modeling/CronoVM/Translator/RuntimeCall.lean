import CronoVM.Runtime.Float64Compare
import CronoVM.Translator.Scalar

/-!
# Calls of the runtime for doubles

An operation on doubles is a call of a helper of the runtime library. The registers that live across it are saved in the frame, the
operands go to the registers from R0 on, two words each, and the result is in R0 or in the slots R0 points to.
-/

namespace CronoVM

open Checked Ir

namespace Ir

/-- `LLVMRealPredicate`. -/
inductive RealPred where
  | predicateFalse | oeq | ogt | oge | olt | ole | one | ord | uno | ueq | ugt | uge | ult | ule | une | predicateTrue
  deriving DecidableEq, Repr

end Ir

/-! ## Saved registers -/

/-- What the passes before the emission have found out about the calls of a function. -/
structure CallInfo where
  /-- `cg_func_by_name`. -/
  funcByName : String → Option Nat
  /-- `ever_spilled`, by the bit of a register. -/
  everSpilled : Nat → Bool
  /-- `cg_call_spill_set`. -/
  callSpillSet : Inst → Nat → Bool

namespace CallInfo

variable (info : CallInfo)

/-- `slot_of`; none for 0xFF. -/
def slotOf (k : Nat) : Option Nat := if info.everSpilled k = true then some ((List.range k).countP info.everSpilled) else none

/-- `spill_slot_count` of a function with registers from R8 up to `ssa_reg_high`. -/
def spillSlotCount (ssaRegHigh : Nat) : Nat := (List.range (ssaRegHigh - 8)).countP info.everSpilled

/-- The registers that are saved around a call, with their offsets from SP. -/
def saved (cg : Cg) (i : Inst) : List (Byte × Word) :=
  (List.range (cg.ssaRegHigh - 8)).filterMap fun k =>
    if info.callSpillSet i k = true then
      (info.slotOf k).map fun slot => (BitVec.ofNat 8 (8 + k), BitVec.ofNat 32 (cg.allocaBytes + slot * 4))
    else none

end CallInfo

/-- `cg_emit_spill`. -/
def cgEmitSpill : List (Byte × Word) → Emit Unit
  | [] => pure ()
  | (r, off) :: set => do
    cgStwSpOff off r
    cgEmitSpill set

/-- `cg_emit_restore`. -/
def cgEmitRestore : List (Byte × Word) → Emit Unit
  | [] => pure ()
  | (r, off) :: set => do
    cgLdwSpOff r off
    cgEmitRestore set

/-! ## Arguments -/

/-- `cg_f64_operand_to_regs` -/
def cgF64OperandToRegs (v : Val) (base : Byte) : Emit Unit :=
  match v.cgWideConstWords with
  | some (clo, chi) => do
    cgEmitLoadConst32 base clo
    cgEmitLoadConst32 (base + 1) chi
  | none => do
    let cg ← Exec.get
    match (cg.lookup v).bind Home.i64Slot with
    | none => Exec.stop .noF64Slot
    | some slot => do
      cgLdwSpOff base (cg.valSlotOff slot)
      cgLdwSpOff (base + 1) (cg.valSlotOff slot + 4)

/-- The wide arguments, from a register on. -/
def cgWideArgs : List Val → Byte → Emit Byte
  | [], r => pure r
  | v :: vs, r => do
    cgF64OperandToRegs v r
    cgWideArgs vs (r + 2)

/-- The address of the slot of a wide result, in R0. -/
def cgResultPointer : Option Nat → Emit Byte
  | none => pure 0
  | some retSlot => do
    let cg ← Exec.get
    cgAddrSpPlus (cg.valSlotOff retSlot)
    cgEmit (encR .mov 0 cgRegScratch 0)
    pure 1

/-- A word in a register that is not the one it has to be in. -/
def cgMoveTo (r s : Byte) : Emit Unit := Exec.when (s ≠ r) (cgEmit (encR .mov r s 0))

/-- The scalar argument, extended with its sign where it has a narrow width. -/
def cgScalarArg (scalarArg : Option Val) (scalarSextW : Nat) (r : Byte) : Emit Unit :=
  match scalarArg with
  | none => pure ()
  | some v => do
    match v with
    | .const (.int width bits) => cgEmitLoadConst32 r (BitVec.ofNat 32 (bits % 2 ^ width))
    | v => do
      let s ← cgRegFor v
      cgMoveTo r s
    Exec.when (1 ≤ scalarSextW ∧ scalarSextW < 32) do
      cgEmit (encI16 .movi cgRegScratch (BitVec.ofNat 16 (32 - scalarSextW)))
      cgEmit (encR .shl r r cgRegScratch)
      cgEmit (encR .sar r r cgRegScratch)

/-- `cg_emit_runtime_call` -/
def cgEmitRuntimeCall (info : CallInfo) (i : Inst) (name : String) (wideArgs : List Val) (scalarArg : Option Val) (retSlot : Option Nat)
    (dstReg : Byte) (scalarSextW : Nat) : Emit Unit :=
  match info.funcByName name with
  | none => Exec.stop .helperNotFound
  | some calleeIdx => do
    let set := info.saved (← Exec.get) i
    cgEmitSpill set
    let r ← cgResultPointer retSlot
    let r ← cgWideArgs wideArgs r
    cgScalarArg scalarArg scalarSextW r
    cgEmit (encI24 .call (BitVec.ofNat 32 ((calleeIdx + 1) * 2)))
    cgEmitRestore set
    Exec.when (retSlot = none ∧ dstReg ≠ 0) (cgEmit (encR .mov dstReg 0 0))

/-! ## Comparisons -/

/-- The helper for a predicate, and whether its result is negated; none for the two predicates that are constant. -/
def fcmpHelper : RealPred → Option (FloatHelper × Bool)
  | .oeq => some (.feq, false)
  | .une => some (.fne, false)
  | .olt => some (.flt, false)
  | .ole => some (.fle, false)
  | .ogt => some (.fgt, false)
  | .oge => some (.fge, false)
  | .uge => some (.flt, true)
  | .ugt => some (.fle, true)
  | .ult => some (.fge, true)
  | .ule => some (.fgt, true)
  | .ord => some (.ford, false)
  | .uno => some (.ford, true)
  | .one => some (.fone, false)
  | .ueq => some (.fone, true)
  | .predicateTrue | .predicateFalse => none

/-- `case LLVMFCmp` of doubles. -/
def cgFCmp64 (info : CallInfo) (p : RealPred) (i : Inst) (dst : Byte) : Emit Unit :=
  match fcmpHelper p with
  | none => cgEmit (encI16 .movi dst (if p = .predicateTrue then 1 else 0))
  | some (fn, negate) => do
    cgEmitRuntimeCall info i fn.name [i.operand 0, i.operand 1] none none dst 0
    Exec.when (negate = true) do
      let oneR ← cgAllocReg
      cgEmit (encI16 .movi oneR 1)
      cgEmit (encR .sub dst oneR dst)

/-! ## Integers to floating point

`sitofp` and `uitofp`: to `float` by an instruction of the machine, to `double` by a call of the runtime. A narrow operand is extended with
its sign first; without a sign it is taken as it is. -/

/-- `case LLVMSIToFP` and `case LLVMUIToFP` with a `float` as their result. -/
def cgIntToF32 (signed : Bool) (fn : Func) (i : Inst) (dst : Byte) : Emit Unit := do
  let src ← cgRegFor (i.operand 0)
  let w := (fn.typeOf (i.operand 0)).regWidth
  if signed = true ∧ w < 32 then do
    cgEmit (encI16 .movi cgRegScratch (BitVec.ofNat 16 (32 - w)))
    cgEmit (encR .shl dst src cgRegScratch)
    cgEmit (encR .sar dst dst cgRegScratch)
    cgEmit (encR .i2fS dst dst 0)
  else cgEmit (encR (if signed = true then .i2fS else .i2fU) dst src 0)

/-- The helper of the runtime for a source of one word. -/
def fromWordHelper (signed : Bool) : String := if signed = true then "__cvm_f_from_i32" else "__cvm_f_from_u32"

/-- The helper of the runtime for a source of two words. -/
def fromWideHelper (signed : Bool) : String := if signed = true then "__cvm_f_from_i64" else "__cvm_f_from_u64"

/-- `scalar_sext_w` of a conversion. -/
def convertSextW (signed : Bool) (w : Nat) : Nat := if signed = true ∧ w < 32 then w else 0

/-- `LLVMSIToFP` and `LLVMUIToFP` in `cg_emit_f64_def`. -/
def cgIntToF64 (signed : Bool) (fn : Func) (info : CallInfo) (i : Inst) : Emit Unit := do
  let cg ← Exec.get
  match (cg.home? i.result).bind Home.i64Slot with
  | none => Exec.stop .noF64DefSlot
  | some slot =>
    let ty := fn.typeOf (i.operand 0)
    if ty.isI64 = true then cgEmitRuntimeCall info i (fromWideHelper signed) [i.operand 0] none (some slot) 0 0
    else if ty.isWideInt = true then Exec.stop .oddWideToDouble
    else cgEmitRuntimeCall info i (fromWordHelper signed) [] (some (i.operand 0)) (some slot) 0 (convertSextW signed ty.regWidth)

end CronoVM
