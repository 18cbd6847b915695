import CronoVM.Lib.Effects
import CronoVM.Translator.Ctors
import CronoVM.Translator.Gep
import CronoVM.Translator.Intrinsics
import CronoVM.Translator.Liveness
import CronoVM.Translator.Switch
import CronoVM.Translator.WideDef

/-!
# Functions

`cg_function` as a whole: the frame, the passes, the prologue, the instructions of all blocks, and the branches between them; and the loop
of `main` over the functions of a module. Instructions whose lowering is not modelled end the emission.
-/

namespace CronoVM

open Checked Ir
open Globals (TargetData)

/-! ## Errors -/

/-- The errors of the code that is modelled here, besides those of the code generator. -/
inductive FnError where
  | cg (e : CgError)
  | dynamicAlloca | negativeAlloca | allocaNotInEntry | allocaNotAllocated | allocaNotTracked
  | loadAddress | loadType | storeType | wideArgSlot | unsupportedIntrinsic | calleeNotDefined | unnamedCallee | tooManyFunctions | tooManyArgs
  | phiSkip
  deriving DecidableEq, Repr

/-- The text an error is reported with. -/
def FnError.message : FnError → String
  | .cg e => e.message
  | .dynamicAlloca => "dynamic alloca is not supported"
  | .negativeAlloca => "alloca count is negative"
  | .allocaNotInEntry => "alloca outside the entry block is not supported"
  | .allocaNotAllocated => "internal: alloca register not pre-allocated"
  | .allocaNotTracked => "internal: spilled alloca not tracked"
  | .loadAddress => "load: address operand must be a pointer"
  | .loadType => "load: unsupported result type (only i1/i8/i16/i32/f32/ptr supported)"
  | .storeType => "store: unsupported value type (only i1/i8/i16/i32/f32/ptr supported)"
  | .wideArgSlot => "internal: 64-bit arg without a frame slot"
  | .unsupportedIntrinsic => "unsupported intrinsic: no lowering for this target"
  | .calleeNotDefined => "callee has no definition in this module (extern is not supported)"
  | .unnamedCallee => "call with unnamed function"
  | .tooManyFunctions => "more than 16M user functions"
  | .tooManyArgs => "codegen cap is 256"
  | .phiSkip => "phi-isolation skip out of imm24 range"

/-- A piece of the code generator with these errors. -/
abbrev EmitInst (α : Type) : Type := Exec Cg FnError α

/-- The same with the state of the function. -/
abbrev EmitFunc (α : Type) : Type := Exec CgFn FnError α

def Emit.inst {α : Type} (m : Emit α) : EmitInst α := Exec.zoom id (fun _ cg => cg) FnError.cg m

def EmitInst.func {α : Type} (m : EmitInst α) : EmitFunc α := Exec.zoom CgFn.toCg (fun cg c => { cg with toCg := c }) id m

def EmitFn.func {α : Type} (m : EmitFn α) : EmitFunc α := Exec.zoom id (fun _ cg => cg) FnError.cg m

/-! ## Allocas -/

/-- The state of the loop of `cg_collect_allocas`: `cursor` and `allocas`. -/
structure Allocas where
  cursor : Word
  allocas : List (Local × Word)

/-- The turn of the loop for an instruction of the entry block. -/
def cgCollectAlloca (s : Allocas) (i : Inst) : Except FnError Allocas :=
  if i.op ≠ .alloca then .ok s
  else
    match i.operand 0 with
    | .const (.int width bits) =>
      let n := (BitVec.ofNat width bits).toInt
      if n < 0 then .error .negativeAlloca
      else
        let esz : Word := BitVec.ofNat 32 i.allocated.1
        let align : Word := BitVec.ofNat 32 i.allocated.2
        let align := if align < 4 then 4 else align
        let cursor := (s.cursor + align - 1) &&& ~~~(align - 1)
        .ok { cursor := cursor + BitVec.ofInt 32 n * esz, allocas := s.allocas ++ [(i.result, cursor)] }
    | _ => .error .dynamicAlloca

/-- `cg_collect_allocas`: the allocas of the entry block with their offsets, and `alloca_bytes`. -/
def cgCollectAllocas (fn : Func) : Except FnError (List (Local × Word) × Word) := do
  let s ← ((fn.blocks.head?.map Ir.Block.insts).getD []).foldlM cgCollectAlloca { cursor := 0, allocas := [] }
  if (fn.blocks.tail.any fun b => b.insts.any fun i => i.op = .alloca) = true then .error .allocaNotInEntry
  else .ok (s.allocas, (s.cursor + 3) &&& ~~~(3 : Word))

/-! ## Calls -/

/-- The callee of a call, under its aliases. -/
inductive Callee where
  | direct (id : Nat)
  | coroSwap
  | indirect (v : Val)

/-- `cg_strip_alias`. -/
def cgStripAlias : Const → Const
  | .aliasOf aliasee => cgStripAlias aliasee
  | c => c

/-- What a call calls: `callee`, `callee_fn` and `is_coro_swap`. -/
def calleeOf (i : Inst) : Callee :=
  match i.operands.getLast? with
  | some (.const c) =>
    match cgStripAlias c with
    | .func id => if i.callee = "__cvm_coro_swap_raw" then .coroSwap else .direct id
    | c => .indirect (.const c)
  | some v => .indirect v
  | none => .indirect (.block 0)

/-- The index of a callee with a definition. -/
def cgCalleeIdx (i : Inst) : Callee → EmitInst Nat
  | .direct id => do
    let cg ← Exec.get
    match cg.funcs.idxOf? id with
    | none => Exec.stop (if i.callee.startsWith "llvm." = true then .unsupportedIntrinsic else .calleeNotDefined)
    | some calleeIdx => do
      Exec.stopIf (calleeIdx ≥ 0xFFFFFF) .tooManyFunctions
      pure calleeIdx
  | _ => pure 0

/-- `cg_arg_words`. -/
def cgArgWords (t : Ty) : Nat := if t.isWide = true then 2 else 1

/-- Word `wp` of the arguments, put into a register by `load`: into its own, or through a fresh one into the memory above SP. -/
def cgPlaceLoaded (wp nRegWords : Nat) (load : Byte → Emit Unit) : Emit Unit :=
  if wp < nRegWords then load (BitVec.ofNat 8 wp)
  else do
    let s ← cgAllocReg
    load s
    cgStwSpOff (BitVec.ofNat 32 ((wp - nRegWords) * 4)) s

/-- Word `wp` of the arguments, which is in a register. -/
def cgPlaceReg (wp nRegWords : Nat) (s : Byte) : Emit Unit :=
  if wp < nRegWords then cgMoveTo (BitVec.ofNat 8 wp) s else cgStwSpOff (BitVec.ofNat 32 ((wp - nRegWords) * 4)) s

/-- `cg_place_arg_word` of a scalar. -/
def cgPlaceScalar (av : Val) (wp nRegWords : Nat) (spBias : Word) : Emit Unit := do
  let cg ← Exec.get
  match (cg.lookup av).bind Home.valSlot with
  | some slot => cgPlaceLoaded wp nRegWords fun r => cgLdwSpOff r (cg.valSlotOff slot + spBias)
  | none => do
    let s ← cgRegFor av
    cgPlaceReg wp nRegWords s

/-- `cg_place_arg_word` of a half of a wide value. -/
def cgPlaceHalf (av : Val) (half wp nRegWords : Nat) (spBias : Word) : EmitInst Unit :=
  match av.cgWideConstWords with
  | some (clo, chi) => (cgPlaceLoaded wp nRegWords fun r => cgEmitLoadConst32 r (if half = 0 then clo else chi)).inst
  | none => do
    let cg ← Exec.get
    match (cg.lookup av).bind Home.i64Slot with
    | none => Exec.stop .wideArgSlot
    | some slot =>
      (cgPlaceLoaded wp nRegWords fun r => cgLdwSpOff r (cg.valSlotOff slot + BitVec.ofNat 32 (half * 4) + spBias)).inst

/-- The emission of an argument word; the registers it used are free again. -/
def cgRecycled (m : EmitInst Unit) : EmitInst Unit := do
  let floor := (← Exec.get).nextReg
  m
  Exec.modify fun cg => { cg with nextReg := floor }

/-- The words of the arguments, from word `wp` on. -/
def cgPlaceArgs (fn : Func) (nRegWords : Nat) (spBias : Word) : List Val → Nat → EmitInst Unit
  | [], _ => pure ()
  | av :: args, wp =>
    if (fn.typeOf av).isWide = true then do
      cgRecycled (cgPlaceHalf av 0 wp nRegWords spBias)
      cgRecycled (cgPlaceHalf av 1 (wp + 1) nRegWords spBias)
      cgPlaceArgs fn nRegWords spBias args (wp + 2)
    else do
      cgRecycled (cgPlaceScalar av wp nRegWords spBias).inst
      cgPlaceArgs fn nRegWords spBias args (wp + 1)

/-- The register of an indirect callee, which is loaded where it has a slot. -/
def cgCalleeReg (v : Val) (spBias : Word) : Emit Byte := do
  let cg ← Exec.get
  match (cg.lookup v).bind Home.valSlot with
  | some slot => do
    let r ← cgAllocReg
    cgLdwSpOff r (cg.valSlotOff slot + spBias)
    pure r
  | none => cgRegFor v

/-- The call itself. -/
def cgEmitCallee (calleeIdx : Nat) (spBias : Word) : Callee → Emit Unit
  | .direct _ => cgEmit (encI24 .call (BitVec.ofNat 32 (cvmFnSlot calleeIdx)))
  | .coroSwap => cgEmit (encR .coroSwap 0 1 0)
  | .indirect v => do
    let r ← cgCalleeReg v spBias
    cgEmit (encR .callr r 0 0)

/-- The return value, from R0 and R1. -/
def cgTakeResult (i : Inst) (dst : Byte) : Emit Unit := do
  let cg ← Exec.get
  if i.ty.isWide = true then do
    let off := cg.valSlotOff (((cg.home? i.result).bind Home.i64Slot).getD cgNoSlot)
    cgStwSpOff off 0
    cgStwSpOff (off + 4) 1
  else Exec.when (i.ty.kind ≠ .void ∧ dst ≠ 0) (cgEmit (encR .mov dst 0 0))

/-- `cg_emit_user_call`; `isVararg` of the function type that is called. -/
def cgEmitUserCall (fn : Func) (info : CallInfo) (isVararg : Bool) (i : Inst) (dst : Byte) : EmitInst Unit := do
  let callee := calleeOf i
  let calleeIdx ← cgCalleeIdx i callee
  let args := i.operands.dropLast
  let totalWords := (args.map fun av => cgArgWords (fn.typeOf av)).sum
  let nRegWords := if isVararg = true then 0 else min totalWords 8
  let stacked : Word := BitVec.ofNat 32 ((totalWords - nRegWords) * 4)
  Exec.stopIf (args.length > 256) .tooManyArgs
  let set := info.saved (← Exec.get) i
  (cgEmitSpill set).inst
  (cgSpSub stacked).inst
  cgPlaceArgs fn nRegWords stacked args 0
  (cgEmitCallee calleeIdx stacked callee).inst
  (cgSpAdd stacked).inst
  (cgEmitRestore set).inst
  (cgTakeResult i dst).inst

/-! ## Instructions -/

/-- What the emission of a function reads besides its instructions: the layout of the target, the source types and indices of its GEPs by
the names of the instructions, the calls of function types that are variadic, and the offsets of its allocas. -/
structure FnInfo where
  td : TargetData
  gep : Nat → Option ((source : Globals.Ty) × Option (Val × GepIndices source))
  varargCall : Nat → Bool
  calls : CallInfo
  allocas : List (Local × Word)

/-- LDB and STB, LDH and STH, or LDW and STW. -/
def memOps : Ty → Option (Opcode × Opcode)
  | .pointer | .float => some (.ldw, .stw)
  | .int w =>
    if w = 1 ∨ w = 8 then some (.ldb, .stb)
    else if w = 16 then some (.ldh, .sth)
    else if w = 32 then some (.ldw, .stw)
    else none
  | _ => none

/-- `case LLVMLoad`. -/
def cgLoad (fn : Func) (i : Inst) (dst : Byte) : EmitInst Unit := do
  Exec.stopIf ((fn.typeOf (i.operand 0)).kind ≠ .pointer) .loadAddress
  match memOps i.ty with
  | none => Exec.stop .loadType
  | some ops => (do
    let addr ← cgRegFor (i.operand 0)
    cgEmit (encR ops.1 dst addr 0) : Emit Unit).inst

/-- The store of a 64-bit value. -/
def cgStoreWide (i : Inst) : Emit Unit := do
  let addr ← cgRegFor (i.operand 1)
  let v ← cgI64Read (i.operand 0)
  cgEmit (encR .stw 0 addr v.1)
  cgMoviScratch 4
  let a4 ← cgAllocReg
  cgEmit (encR .add a4 addr cgRegScratch)
  cgEmit (encR .stw 0 a4 v.2)

/-- `case LLVMStore`. -/
def cgStore (fn : Func) (i : Inst) : EmitInst Unit :=
  let vty := fn.typeOf (i.operand 0)
  if vty.isVector = true then Exec.stop (.cg .notImplemented)
  else if vty.isWide = true then (cgStoreWide i).inst
  else
    match memOps vty with
    | none => Exec.stop .storeType
    | some ops => (do
      let val ← cgRegFor (i.operand 0)
      let addr ← cgRegFor (i.operand 1)
      cgEmit (encR ops.2 0 addr val) : Emit Unit).inst

/-- `case LLVMPtrToInt`, `LLVMIntToPtr`, `LLVMBitCast` and `LLVMFreeze`. -/
def cgCopy (fn : Func) (i : Inst) (dst : Byte) : Emit Unit :=
  if (fn.typeOf (i.operand 0)).kind = .vector then Exec.stop .notImplemented
  else do
    let src ← cgRegFor (i.operand 0)
    cgMoveTo dst src

/-- `case LLVMSelect`. -/
def cgSelect (i : Inst) (dst : Byte) : Emit Unit := do
  let cond ← cgRegFor (i.operand 0)
  let a ← cgRegFor (i.operand 1)
  let b ← cgRegFor (i.operand 2)
  cgSelectMove dst cond a b

/-- `case LLVMGetElementPtr`. -/
def cgGepCase (fi : FnInfo) (i : Inst) (dst : Byte) : Emit Unit :=
  match fi.gep i.id with
  | none => Exec.stop .notImplemented
  | some g => cgGetElementPtr fi.td g.1 (i.operand 0) g.2 dst

/-- `case LLVMAlloca`: the address of an alloca whose result has a slot. -/
def cgAllocaCase (fi : FnInfo) (i : Inst) (dst : Byte) : EmitInst Unit := do
  let cg ← Exec.get
  if ((cg.home? i.result).bind Home.valSlot).isSome = true then
    match fi.allocas.find? fun e => e.1 = i.result with
    | none => Exec.stop .allocaNotTracked
    | some e => (do
      cgMoviScratch e.2
      cgEmit (encR .add dst regSp cgRegScratch) : Emit Unit).inst
  else pure ()

/-- The names that `case LLVMCall` handles itself. -/
def isHandledName (name : String) : Bool :=
  name.startsWith "llvm." || name.startsWith "cvm_sys_" || name ∈ ["fabsf", "sqrtf", "floorf", "ceilf", "truncf", "cvm_intrin_mulh",
    "cvm_intrin_mulhu", "cvm_intrin_qdiv_16_16", "cvm_intrin_f2i_sat_s", "cvm_intrin_f2i_sat_u", "cvm_intrin_fsqrt", "cvm_intrin_qdiv_64_32"]

/-- `case LLVMCall`. -/
def cgCall (fn : Func) (fi : FnInfo) (i : Inst) (dst : Byte) : EmitInst Unit :=
  match calleeOf i with
  | .indirect _ => cgEmitUserCall fn fi.calls (fi.varargCall i.id) i dst
  | _ =>
    if i.callee = "" then Exec.stop .unnamedCallee
    else if isSetjmp i = true then (cgSetjmp i dst).inst
    else if isLongjmp i = true then (cgLongjmp i).inst
    else if isHandledName i.callee = true then Exec.stop (.cg .notImplemented)
    else cgEmitUserCall fn fi.calls (fi.varargCall i.id) i dst

/-- The opcodes of the `switch` of `cg_function` that go on with the next instruction. -/
def cgCase (fn : Func) (fi : FnInfo) (i : Inst) (dst : Byte) : EmitInst Unit :=
  match i.op with
  | .load => cgLoad fn i dst
  | .store => cgStore fn i
  | .fence => pure ()
  | .ptrToInt | .intToPtr | .bitCast | .freeze => (cgCopy fn i dst).inst
  | .select => (cgSelect i dst).inst
  | .getElementPtr => (cgGepCase fi i dst).inst
  | .alloca => cgAllocaCase fi i dst
  | .call => cgCall fn fi i dst
  | _ => (cgScalarDef fn i dst).inst

/-- A handler with the register of the result: its own, or a fresh one that is stored after it; R0 where there is no result. -/
def cgWithResult (i : Inst) (handler : Byte → EmitInst Unit) : EmitInst Unit := do
  let cg ← Exec.get
  match cg.home? i.result with
  | none => handler 0
  | some home =>
    match home.valSlot with
    | none => handler home.reg
    | some slot => do
      let defReg ← cgAllocReg.inst
      handler defReg
      (cgStwSpOff (cg.valSlotOff slot) defReg).inst

/-! ## Ends of blocks -/

/-- `cg_block_has_phi`. -/
def cgBlockHasPhi (b : Ir.Block) : Bool := b.phis.any fun phi => !phi.isEh

/-- The moves of an edge and the jump. -/
def cgEdge (fn : Func) (succ : Nat) : EmitFn Unit := do
  let cg ← Exec.get
  let _ ← Emit.lift (cgEmitPhiMoves cg.curBlock (fn.block succ))
  cgJump succ

/-- A conditional branch to a block. -/
def cgBranchTo (op : Opcode) (condReg : Byte) (target : Nat) : EmitFn Unit := do
  cgQueueFixup target 24 8
  let cg ← Exec.get
  Emit.lift (cgEmit (encBr op condReg cg.zeroReg 0))

/-- The false edge between the two jumps that isolate it. -/
def cgFalseSection (fn : Func) (condReg : Byte) (falseBb : Nat) : EmitFunc Unit := do
  let cg ← Exec.get
  (Emit.lift (cgEmit (encBr .beq condReg cg.zeroReg 1))).func
  let jskipIdx := (← Exec.get).code.length
  (Emit.lift (cgEmit (encI24 .jmp 0))).func
  (cgEdge fn falseBb).func
  let cg ← Exec.get
  let skip := cg.code.length - (jskipIdx + 1)
  Exec.stopIf (skip > 0x7FFFFF) .phiSkip
  Exec.modify fun cg => { cg with code := cg.code.set jskipIdx (encI24 .jmp (BitVec.ofNat 32 skip)) }

/-- The conditional branch. -/
def cgBrCond (fn : Func) (condReg : Byte) (trueBb falseBb : Nat) : EmitFunc Unit :=
  if cgBlockHasPhi (fn.block trueBb) = true ∧ cgBlockHasPhi (fn.block falseBb) = true then do
    cgFalseSection fn condReg falseBb
    (cgEdge fn trueBb).func
  else if cgBlockHasPhi (fn.block trueBb) = true then do
    (cgBranchTo .beq condReg falseBb).func
    (cgEdge fn trueBb).func
  else do
    (cgBranchTo .bne condReg trueBb).func
    (cgEdge fn falseBb).func

/-- `case LLVMBr`. -/
def cgBr (fn : Func) (i : Inst) : EmitFunc Unit :=
  match i.successors with
  | [target] => (cgEdge fn target).func
  | [trueBb, falseBb] => do
    let condReg ← (Emit.lift (cgRegFor (i.operand 0))).func
    cgBrCond fn condReg trueBb falseBb
  | _ => Exec.stop (.cg .notImplemented)

/-- The return value, to R0 and R1. -/
def cgReturnValue (fn : Func) (i : Inst) : Emit Unit :=
  match i.operands with
  | [] => pure ()
  | rv :: _ =>
    if (fn.typeOf rv).isWide = true then do
      let v ← cgI64Read rv
      cgMoveTo 0 v.1
      cgMoveTo 1 v.2
    else do
      let r ← cgRegFor rv
      cgMoveTo 0 r

/-- `case LLVMRet`. -/
def cgRet (fn : Func) (i : Inst) : Emit Unit := do
  cgReturnValue fn i
  let cg ← Exec.get
  cgSpAdd (BitVec.ofNat 32 cg.frameBytes)
  cgEmit (encR .ret 0 0 0)

/-- The definition of a double. -/
def cgEmitF64Def (fn : Func) (info : CallInfo) (i : Inst) : Emit Unit :=
  match i.op with
  | .siToFp => cgIntToF64 true fn info i
  | .uiToFp => cgIntToF64 false fn info i
  | _ => Exec.stop .notImplemented

/-- A turn of the instruction loop. -/
def cgTurn (fn : Func) (fi : FnInfo) (i : Inst) : EmitFunc Unit := do
  Exec.modify fun cg => { cg with nextReg := cg.ssaRegHigh }
  if (i.op ≠ .phi ∧ i.op ≠ .call ∧ i.op ≠ .invoke) ∧ (i.ty.isWideInt || i.ty.isI65) = true then (Emit.lift (cgEmitI64Def fn i)).func
  else if (i.op ≠ .phi ∧ i.op ≠ .call ∧ i.op ≠ .invoke) ∧ i.ty.isF64 = true then (Emit.lift (cgEmitF64Def fn fi.calls i)).func
  else if (i.op ≠ .call ∧ i.op ≠ .invoke) ∧ i.ty.isVector = true then Exec.stop (.cg .notImplemented)
  else
    match i.op with
    | .phi => pure ()
    | .br => cgBr fn i
    | .switch => (cgSwitch fn i).func
    | .ret => (Emit.lift (cgRet fn i)).func
    | .unreachable => (Emit.lift (cgEmit (encR .halt 0 0 0))).func
    | _ => (cgWithResult i (cgCase fn fi i)).func

def cgTurns (fn : Func) (fi : FnInfo) : List Inst → EmitFunc Unit
  | [] => pure ()
  | i :: is => do
    cgTurn fn fi i
    cgTurns fn fi is

/-- The loop over the blocks. -/
def cgBlocks (fn : Func) (fi : FnInfo) : List Ir.Block → EmitFunc Unit
  | [] => pure ()
  | b :: bs => do
    Exec.modify fun cg => { cg with blockOffsets := cg.blockOffsets ++ [cg.code.length], curBlock := b.id }
    cgTurns fn fi b.insts
    cgBlocks fn fi bs

/-! ## The prologue -/

/-- Argument word `word` in the frame of the caller. -/
def Cg.argOff (cg : Cg) (vararg : Bool) (word : Nat) : Word :=
  BitVec.ofNat 32 (cg.frameBytes + 4 + (if vararg = true then word else word - 8) * 4)

/-- The word of a scalar parameter. -/
def cgParamWord (vararg : Bool) (dst : Byte) (word : Nat) : Emit Unit := do
  let cg ← Exec.get
  if vararg = false ∧ word < 8 then cgMoveTo dst (BitVec.ofNat 8 word) else cgLdwSpOff dst (cg.argOff vararg word)

/-- A word of a wide parameter, to its slot. -/
def cgParamHalf (vararg : Bool) (off : Word) (word : Nat) : Emit Unit := do
  let cg ← Exec.get
  if vararg = false ∧ word < 8 then cgStwSpOff off (BitVec.ofNat 8 word)
  else do
    Exec.modify fun cg => { cg with nextReg := cg.ssaRegHigh }
    let tmp ← cgAllocReg
    cgLdwSpOff tmp (cg.argOff vararg word)
    cgStwSpOff off tmp

/-- The turn for parameter `p`, whose first word is `word`; it gives the word of the next one. -/
def cgParam (vararg : Bool) (p word : Nat) : Emit Nat := do
  let cg ← Exec.get
  match cg.home? (.arg p) with
  | none => do
    Exec.demand False
    pure word
  | some home =>
    match home.i64Slot with
    | none => do
      cgParamWord vararg home.reg word
      pure (word + 1)
    | some slot => do
      cgParamHalf vararg (cg.valSlotOff slot) word
      cgParamHalf vararg (cg.valSlotOff slot + 4) (word + 1)
      pure (word + 2)

/-- The loop over the parameters, with what is left of its turns. -/
def cgParams (vararg : Bool) : Nat → Nat → Nat → Emit Unit
  | 0, _, _ => pure ()
  | left + 1, p, word => do
    let word ← cgParam vararg p word
    cgParams vararg left (p + 1) word

/-- The pointers to the allocas. -/
def cgAllocaPtrs : List (Local × Word) → EmitInst Unit
  | [] => pure ()
  | (l, off) :: allocas => do
    let cg ← Exec.get
    match cg.home? l with
    | none => Exec.stop .allocaNotAllocated
    | some home => do
      (cgMoviScratch off).inst
      Emit.inst (Exec.when (home.reg ≠ cgRegSpilled) (cgEmit (encR .add home.reg regSp cgRegScratch)))
      cgAllocaPtrs allocas

/-- The code in front of the blocks: the frame, the parameters, the zero register, in the entry function the constructors, the allocas. -/
def cgFnPrologue (fn : Func) (ctorIdx : List Nat) (allocas : List (Local × Word)) : EmitInst Unit := do
  let cg ← Exec.get
  (cgSpSub (BitVec.ofNat 32 cg.frameBytes)).inst
  Exec.modify fun cg => { cg with nextReg := cg.ssaRegHigh }
  (cgParams fn.vararg fn.params.length 0 0).inst
  (cgEmit (encI16 .movi cg.zeroReg 0)).inst
  (cgCtorCalls ctorIdx).inst
  cgAllocaPtrs allocas

/-! ## Functions -/

/-- A function with what else is read of it. -/
structure FnSource where
  id : Nat
  fn : Func
  gep : Nat → Option ((source : Globals.Ty) × Option (Val × GepIndices source))
  varargCall : Nat → Bool

/-- What the emission reads of the module. -/
structure ModInfo where
  td : TargetData
  funcByName : String → Option Nat

/-- `cg_reset_function_state`, and the blocks of the function. -/
def CgFn.resetFor (cg : CgFn) (fn : Func) : CgFn :=
  { cg with
    map := [], nextReg := 8, fixups := [], allocaBytes := 0, spillBytes := 0, valSpillCount := 0, frameBytes := 0, ssaRegHigh := 8,
    zeroReg := 0, tableFixups := [], blocks := fn.blocks.map Ir.Block.id, blockOffsets := [] }

/-- The prologue and the blocks; the constructors are those of the entry function, else none. -/
def cgEmitFunction (mi : ModInfo) (src : FnSource) (ctorIdx : List Nat) (allocas : List (Local × Word)) : EmitFunc Unit := do
  let calls ← (Emit.lift (cgPasses src.fn mi.funcByName)).func
  (cgFnPrologue src.fn ctorIdx allocas).func
  cgBlocks src.fn { td := mi.td, gep := src.gep, varargCall := src.varargCall, calls, allocas } src.fn.blocks

/-- `cg_function`. -/
def cgFunction (mi : ModInfo) (src : FnSource) (ctorIdx : List Nat) : EmitFunc Unit := do
  Exec.modify fun cg => cg.resetFor src.fn
  match cgCollectAllocas src.fn with
  | .error e => Exec.stop e
  | .ok (allocas, allocaBytes) => do
    Exec.modify fun cg => { cg with allocaBytes := allocaBytes.toNat }
    cgEmitFunction mi src ctorIdx allocas
    let cg ← Exec.get
    match cgFinish cg with
    | .error e => Exec.stop (.cg e)
    | .ok done => Exec.modify fun _ => done

/-- `entry_offset` and `frame_size` of `struct cg_func`. -/
structure FuncEntry where
  entryOffset : Nat
  frameSize : Nat
  deriving DecidableEq

/-- The loop over the functions; `ctors` gives the constructors for the entry function. -/
def cgFunctions (mi : ModInfo) (ctors : Nat → List Nat) : List FnSource → Nat → EmitFunc (List FuncEntry)
  | [], _ => pure []
  | src :: srcs, k => do
    let entryOffset := (← Exec.get).code.length
    cgFunction mi src (ctors k)
    let frameSize := (← Exec.get).frameBytes
    let entries ← cgFunctions mi ctors srcs (k + 1)
    pure ({ entryOffset, frameSize } :: entries)

end CronoVM
