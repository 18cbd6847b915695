import CronoVM.Translator.Branches
import CronoVM.Translator.PhiMoves

/-!
# Switches

The lowering of `switch`: the phi moves of all successors, then a chain of compares or a jump table in the data. The operands of a
`switch` are its condition and the values of its cases, its successors are the default block and the blocks of the cases.
-/

namespace CronoVM

open Checked Ir

/-! ## Pieces that see the whole function -/

/-- A piece of the code generator that sees blocks, fixups and data as well. -/
abbrev EmitFn (α : Type) : Type := Exec CgFn CgError α

/-- A piece that sees only `struct cg` without these. -/
def Emit.lift {α : Type} (m : Emit α) : EmitFn α := fun cg =>
  match m cg.toCg with
  | .val a c => .val a { cg with toCg := c }
  | .stop e c => .stop e { cg with toCg := c }
  | .oob => .oob

/-- `cg_queue_fixup` for the next instruction. -/
def cgQueueFixup (target shift bits : Nat) : EmitFn Unit :=
  Exec.modify fun cg => { cg with fixups := cg.fixups ++ [{ instIndex := cg.code.length, target, shift, bits }] }

/-- `cg_queue_table_fixup`. -/
def cgQueueTableFixup (dataOff target : Nat) : EmitFn Unit :=
  Exec.modify fun cg => { cg with tableFixups := cg.tableFixups ++ [{ dataOff, target }] }

/-- A jump to a block. -/
def cgJump (target : Nat) : EmitFn Unit := do
  cgQueueFixup target 8 24
  Emit.lift (cgEmit (encI24 .jmp 0))

/-! ## Case values -/

/-- `cond_w`. -/
def condWidth : Ty → Nat
  | .int w => w
  | _ => 32

/-- `LLVMConstIntGetZExtValue(cv) & cond_mask`; none where the case is no constant integer. -/
def caseValue (condW : Nat) : Val → Option Nat
  | .const (.int width bits) => some (bits % 2 ^ width % 2 ^ min condW 64)
  | _ => none

/-- The case value as an `int32_t`; none where it is wider. -/
def caseInt (condW : Nat) (v : Val) : Option Int :=
  match caseValue condW v with
  | none => none
  | some zv => if zv > 0xFFFFFFFF then none else some (BitVec.ofNat 32 zv).toInt

/-- `lo` and `n_range`, where the switch gets a table. -/
def switchTable (condW : Nat) (values : List Val) : Option (Int × Nat) :=
  if values.length < 4 then none
  else if values.all (fun v => (caseInt condW v).isSome) = false then none
  else
    match values.filterMap (caseInt condW) with
    | [] => none
    | iv :: ivs =>
      let lo := ivs.foldl min iv
      let hi := ivs.foldl max iv
      let range := hi - lo + 1
      if range > 0 ∧ range ≤ 2 * (values.length : Int) then some (lo, range.toNat) else none

/-! ## The table -/

/-- `targets`: the blocks of the table, the default in the holes. -/
def tableTargets (condW dflt : Nat) (lo : Int) (nRange : Nat) (cases : List (Val × Nat)) : List Nat :=
  cases.foldl (fun targets c => targets.set (((caseInt condW c.1).getD 0) - lo).toNat c.2) (List.replicate nRange dflt)

/-- The loop that queues the fixups of the table. -/
def queueTargets (tableOff : Nat) : List Nat → EmitFn Unit
  | [] => pure ()
  | target :: targets => do
    cgQueueTableFixup tableOff target
    queueTargets (tableOff + 4) targets

/-- The range test: the registers of the index and of whether it is in range. -/
def cgTableRange (condReg : Byte) (lo : Int) (nRange : Nat) : Emit (Byte × Byte) := do
  let loReg ← cgConstReg (BitVec.ofInt 32 lo)
  let offReg ← cgAllocReg
  cgEmit (encR .sub offReg condReg loReg)
  let nReg ← cgConstReg (BitVec.ofNat 32 nRange)
  let inrange ← cgAllocReg
  cgEmit (encR .cmpLtu inrange offReg nReg)
  pure (offReg, inrange)

/-- The jump through the entry of the table. -/
def cgTableJump (offReg : Byte) (tableOff : Nat) : Emit Unit := do
  let twoReg ← cgAllocReg
  cgEmit (encI16 .movi twoReg 2)
  let idxReg ← cgAllocReg
  cgEmit (encR .shl idxReg offReg twoReg)
  let baseReg ← cgConstReg (BitVec.ofNat 32 tableOff)
  let addrReg ← cgAllocReg
  cgEmit (encR .add addrReg baseReg idxReg)
  let targetReg ← cgAllocReg
  cgEmit (encR .ldw targetReg addrReg 0)
  cgEmit (encR .jmpr targetReg 0 0)

/-- The dispatch over the table, without its last jump. -/
def cgTableDispatch (condReg : Byte) (lo : Int) (nRange tableOff : Nat) : Emit Unit := do
  let (offReg, inrange) ← cgTableRange condReg lo nRange
  let beqPos := (← Exec.get).code.length
  cgEmit 0
  cgTableJump offReg tableOff
  -- The branch of a value out of range, to behind the indirect jump.
  let cg ← Exec.get
  let skip : Int := (cg.code.length : Int) - (beqPos + 1)
  Exec.stopIf (skip < -128 ∨ skip > 127) .tableSkip
  Exec.modify fun cg => { cg with code := cg.code.set beqPos (encBr .beq inrange cg.zeroReg (BitVec.ofInt 8 skip)) }

/-- The table form. -/
def cgSwitchTable (condW : Nat) (condReg : Byte) (dflt : Nat) (lo : Int) (nRange : Nat) (cases : List (Val × Nat)) : EmitFn Unit := do
  let tableOff := (← Exec.get).dataBytes.length
  Exec.modify fun cg => { cg with dataBytes := cg.dataBytes ++ List.replicate (nRange * 4) 0 }
  queueTargets tableOff (tableTargets condW dflt lo nRange cases)
  Emit.lift (cgTableDispatch condReg lo nRange tableOff)
  cgJump dflt

/-! ## The chain -/

/-- The turn of the chain for one case. -/
def cgSwitchCase (condW : Nat) (condReg : Byte) (chainFloor : Nat) (c : Val × Nat) : EmitFn Unit := do
  Exec.modify fun cg => { cg with nextReg := chainFloor }
  match caseValue condW c.1 with
  | none => Exec.stop .caseNotConst
  | some zv => do
    let caseReg ← Emit.lift (cgConstReg (BitVec.ofNat 32 zv))
    let tmp ← Emit.lift cgAllocReg
    Emit.lift (cgEmit (encR .cmpEq tmp condReg caseReg))
    cgQueueFixup c.2 24 8
    let cg ← Exec.get
    Emit.lift (cgEmit (encBr .bne tmp cg.zeroReg 0))

/-- The turns of the chain. -/
def cgSwitchCases (condW : Nat) (condReg : Byte) (chainFloor : Nat) : List (Val × Nat) → EmitFn Unit
  | [] => pure ()
  | c :: cases => do
    cgSwitchCase condW condReg chainFloor c
    cgSwitchCases condW condReg chainFloor cases

/-- The chain form. -/
def cgSwitchChain (condW : Nat) (condReg : Byte) (dflt : Nat) (cases : List (Val × Nat)) : EmitFn Unit := do
  let chainFloor := (← Exec.get).nextReg
  cgSwitchCases condW condReg chainFloor cases
  Exec.modify fun cg => { cg with nextReg := chainFloor }
  cgJump dflt

/-- The dispatch. -/
def cgSwitchDispatch (condW : Nat) (condReg : Byte) (dflt : Nat) (cases : List (Val × Nat)) : EmitFn Unit :=
  match switchTable condW (cases.map Prod.fst) with
  | some (lo, nRange) => cgSwitchTable condW condReg dflt lo nRange cases
  | none => cgSwitchChain condW condReg dflt cases

/-! ## The switch -/

/-- The block with an id. -/
def Ir.Func.block (fn : Func) (id : Nat) : Ir.Block := (fn.blocks.find? fun b => b.id == id).getD { id, insts := [] }

/-- `cg_emit_phi_moves` for each successor in turn. -/
def cgEmitAllPhiMoves (fn : Func) (pred : Nat) : List Nat → Emit Unit
  | [] => pure ()
  | succ :: succs => do
    let _ ← cgEmitPhiMoves pred (fn.block succ)
    cgEmitAllPhiMoves fn pred succs

/-- `case LLVMSwitch`. -/
def cgSwitch (fn : Func) (i : Inst) : EmitFn Unit := do
  let condReg ← Emit.lift (cgRegFor (i.operand 0))
  let cg ← Exec.get
  Emit.lift (cgEmitAllPhiMoves fn cg.curBlock i.successors)
  cgSwitchDispatch (condWidth (fn.typeOf (i.operand 0))) condReg (i.successors.headD 0) (i.operands.tail.zip i.successors.tail)

end CronoVM
