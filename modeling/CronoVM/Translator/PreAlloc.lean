import CronoVM.Translator.Overflow

/-!
# Registers and slots before emission

`cg_pre_alloc_function`: each parameter and each result gets a register, or slots of the frame. A slot is a count cast to `uint16_t`.
-/

namespace CronoVM

open Checked Ir

/-! ## What the pass asks of an instruction -/

/-- `atoi` -/
def atoi (cs : List Char) : Int :=
  let digits (ds : List Char) : Int := (ds.takeWhile Char.isDigit).foldl (fun n c => 10 * n + (c.toNat - 48 : Nat)) 0
  match cs.dropWhile Char.isWhitespace with
  | '-' :: ds => -digits ds
  | '+' :: ds => digits ds
  | ds => digits ds

/-- `cg_overflow_call_kind`, of any instruction: the kind and the width. -/
def overflowCall? (i : Inst) : Option (OverflowKind × Nat) :=
  if i.op ≠ .call then none
  else
    let nm := i.callee.toList
    let kind : Option OverflowKind :=
      if "llvm.uadd.with.overflow.i".toList.isPrefixOf nm then some .uadd
      else if "llvm.umul.with.overflow.i".toList.isPrefixOf nm then some .umul
      else if "llvm.sadd.with.overflow.i".toList.isPrefixOf nm then some .sadd
      else none
    let bits := (atoi (nm.drop 25)).toNat
    match kind with
    | none => none
    | some k => if cgOverflowCallKind k bits = true then some (k, bits) else none

namespace Ir.Func

variable (fn : Func)

/-- `cg_is_cmpxchg`. -/
def isCmpxchg (i : Inst) : Bool :=
  match fn.typeOf (i.operand 1) with
  | .pointer => i.op = .atomicCmpXchg
  | .int w => i.op = .atomicCmpXchg ∧ (w = 8 ∨ w = 16 ∨ w = 32 ∨ w = 64)
  | _ => false

/-- `cg_cmpxchg_val_words`. -/
def cmpxchgValWords (i : Inst) : Nat := if (fn.typeOf (i.operand 1)).isI64 = true then 2 else 1

/-- `extractvalue` of the one index 0 of a value. -/
def extractsFirst (i : Inst) : Bool := i.op = .extractValue ∧ i.indices = [0]

/-- The test on `cg_is_cmpxchg_extract`: field 0 of the result of a cmpxchg of 64 bits. -/
def isCmpxchgAlias (i : Inst) : Bool :=
  extractsFirst i && (fn.inst? (i.operand 0)).any fn.isCmpxchg && i.ty.isI64

/-- The test on `cg_is_overflow_extract`: field 0 of the result of a call with overflow, of more than a word. -/
def isOverflowAlias (i : Inst) : Bool :=
  extractsFirst i && ((fn.inst? (i.operand 0)).any fun c => (overflowCall? c).isSome) && (i.ty.isWideInt || i.ty.isI65)

/-- The two aliases of the words of an aggregate. -/
def isAlias (i : Inst) : Bool := fn.isCmpxchgAlias i || fn.isOverflowAlias i

/-- `LLVMGetInstructionParent`. -/
def parent? (id : Nat) : Option Nat := (fn.blocks.find? fun b => b.insts.any fun i => i.id == id).map Ir.Block.id

/-- The instructions that use a value. -/
def users (v : Val) : List Inst := fn.insts.filter fun u => v ∈ u.operands

/-- `cg_value_is_block_local`. -/
def valueIsBlockLocal (v : Val) : Bool :=
  match fn.inst? v with
  | none => false
  | some d => d.op ≠ .phi && !(fn.users v).isEmpty && (fn.users v).all fun u => u.op ≠ .phi && fn.parent? u.id = fn.parent? d.id

end Ir.Func

/-- `cg_is_last_use_in_block`, from the instructions after the user. -/
def cgIsLastUseInBlock (later : List Inst) (v : Val) : Bool := later.all fun j => v ∉ j.operands

/-! ## Homes -/

/-- A count cast to `uint16_t`; the marker is no slot. -/
def slotOf (count : Nat) : Option Nat := if count % 2 ^ 16 = cgNoSlot then none else some (count % 2 ^ 16)

namespace Cg

variable (cg : Cg)

/-- `cg_assign`, with the fields that are set after it. -/
def assign (l : Local) (h : Home) : Cg := { cg with map := cg.map ++ [(l, h)] }

/-- `cg_assign` of a value that takes slots. -/
def takeSlots (l : Local) (h : Home) (words : Nat) : Cg := { cg.assign l h with valSpillCount := cg.valSpillCount + words }

/-- `val_spill_bytes` -/
def valSpillBytes : Nat := cg.valSpillCount * 4 % 2 ^ 32

/-- `cg_free_reg`. -/
def freeReg (r : Byte) : Cg := if r ∈ cg.freeList ∨ 256 ≤ cg.freeList.length then cg else { cg with freeList := r :: cg.freeList }

/-- `cg_pre_alloc_def`, with its home. -/
def preAllocDef (l : Local) : Home × Cg :=
  match cg.freeList with
  | r :: rest => (⟨r, none, none, none, none⟩, { cg.assign l { reg := r } with freeList := rest })
  | [] =>
    if cg.nextReg ≤ cgMaxSsaReg then
      let r := BitVec.ofNat 8 cg.nextReg
      (⟨r, none, none, none, none⟩, { cg.assign l { reg := r } with nextReg := cg.nextReg + 1 })
    else
      let h : Home := { reg := cgRegSpilled, valSlot := slotOf cg.valSpillCount }
      (h, cg.takeSlots l h 1)

/-- The home of the result of an instruction in the loop of `cg_pre_alloc_function`; what `cg_pre_alloc_def` gives is what the register it
shares with an operand is compared with. -/
def preAllocResult (fn : Func) (i : Inst) : Option Home × Cg :=
  let slot := slotOf cg.valSpillCount
  match overflowCall? i with
  | some (_, bits) => (none, cg.takeSlots i.result { reg := cgRegSpilled, aggSlot := slot } (cgOverflowValWords bits + 1))
  | none =>
    if fn.isCmpxchg i = true then
      (none, cg.takeSlots i.result { reg := cgRegSpilled, aggSlot := slot } (fn.cmpxchgValWords i + 1))
    else if fn.isAlias i = true then
      (none, cg.assign i.result { reg := cgRegSpilled, i64Slot := (cg.lookup (i.operand 0)).bind Home.aggSlot })
    else if i.ty.isI65 = true then (none, cg.takeSlots i.result { reg := cgRegSpilled, i64Slot := slot } 3)
    else if i.ty.isWide = true then (none, cg.takeSlots i.result { reg := cgRegSpilled, i64Slot := slot } 2)
    else if i.ty.isVector = true then (none, cg.takeSlots i.result { reg := cgRegSpilled, vecSlot := slot } i.ty.vecLanes)
    else if i.ty.kind ≠ .void ∧ fn.isEhValue (.loc i.result) = false then
      let d := cg.preAllocDef i.result
      (some d.1, d.2)
    else (none, cg)

/-- The result owns the register now. -/
def ownedBy (dst : Option Home) (r : Byte) : Bool :=
  match dst with
  | none => false
  | some h => !(h.reg = cgRegSpilled && h.valSlot.isSome) && r = h.reg

/-- The loop over the operands of an instruction: the register of a block-local value goes back to the pool after its last use. -/
def freeOperand (fn : Func) (b : Ir.Block) (later : List Inst) (dst : Option Home) (cg : Cg) (v : Val) : Cg :=
  if (fn.inst? v).isSome = true ∧ (fn.inst? v).bind (fun d => fn.parent? d.id) = some b.id ∧ fn.valueIsBlockLocal v = true ∧
      cgIsLastUseInBlock later v = true then
    match cg.lookup v with
    | none => cg
    | some h => if h.valSlot.isSome = true ∨ h.reg = cgRegSpilled ∨ ownedBy dst h.reg = true then cg else cg.freeReg h.reg
  else cg

end Cg

/-! ## The pass -/

/-- What the loops of `cg_pre_alloc_function` go through: parameters, blocks, and the instructions of a block with those after. -/
inductive AllocStep where
  | param (k : Nat) (ty : Ty)
  | block
  | inst (b : Ir.Block) (i : Inst) (later : List Inst)
  deriving DecidableEq

def instSteps (b : Ir.Block) : List Inst → List AllocStep
  | [] => []
  | i :: later => .inst b i later :: instSteps b later

def Ir.Func.allocSteps (fn : Func) : List AllocStep :=
  (fn.params.zipIdx.map fun p => .param p.2 p.1) ++ fn.blocks.flatMap fun b => .block :: instSteps b b.insts

/-- One turn of a loop. -/
def cgAllocStep (fn : Func) : AllocStep → Emit Unit
  | .param k ty =>
    if ty.isWide = true then
      Exec.modify fun cg => cg.takeSlots (.arg k) { reg := cgRegSpilled, i64Slot := slotOf cg.valSpillCount } 2
    else do
      let r ← cgAllocReg
      Exec.modify fun cg => cg.assign (.arg k) { reg := r }
  -- a fresh pool for each block
  | .block => Exec.modify fun cg => { cg with freeList := [] }
  | .inst b i later => Exec.modify fun cg =>
    let d := cg.preAllocResult fn i
    i.operands.foldl (Cg.freeOperand fn b later d.1) d.2

def cgAllocSteps (fn : Func) : List AllocStep → Emit Unit
  | [] => pure ()
  | s :: rest => do
    cgAllocStep fn s
    cgAllocSteps fn rest

/-- The state in front of the loops. -/
def Cg.preAllocStart (cg : Cg) : Cg := { cg with nextReg := 8, freeList := [], zeroReg := cgRegZero }

/-- `cg_pre_alloc_function`. -/
def cgPreAllocFunction (fn : Func) : Emit Unit := do
  Exec.modify Cg.preAllocStart
  cgAllocSteps fn fn.allocSteps
  Exec.modify fun cg => { cg with freeList := [] }

end CronoVM
