import CronoVM.Lib.Checked
import CronoVM.Translator.Ir

/-!
# Code generation: state and emission

The state of the code generator, the homes of values, the register allocation of the emit phase, and the short instruction sequences
everything else is emitted with. An error of the source sets `had_error` and the output is thrown away; here it ends the generation.
-/

namespace CronoVM

open Checked Ir

/-! ## Constants -/

/-- `CG_REG_SCRATCH`. -/
def cgRegScratch : Byte := 254

/-- `CG_REG_ZERO`. -/
def cgRegZero : Byte := 253

/-- `CG_MAX_SSA_REG`. -/
def cgMaxSsaReg : Nat := 229

/-- `CG_MAX_EMIT_REG`. -/
def cgMaxEmitReg : Nat := 252

/-- `CG_REG_SPILLED`. -/
def cgRegSpilled : Byte := 0

/-- `CG_NO_SLOT`. -/
def cgNoSlot : Nat := 0xFFFF

/-! ## Errors -/

/-- The errors of the code generator that are modelled. -/
inductive CgError where
  | scratchExhausted | constTooWide | nonFloatConstant | globalNotInLayout | funcNotDefined | badConstGep | constGepTooWide
  | badConstExpr | noRegister | phiNotAllocated | tooManyPhiMoves | widePhiSource | phiReadyOverflow
  | fixupTarget | branchRange | tableFixupTarget | tableSkip | caseNotConst
  | noWideSlot | noWide3Slot | i65CmpOperand | i65CmpPredicate | icmpPredicate | truncSlot | notImplemented
  | noWideDefSlot | oddWidth | noAggSlot | rmwOperation | noAbsSlot | noOverflowSlot
  | noF64Slot | helperNotFound | signedSaturation
  | funnelArgs | funnelSlot | funnelWidth | oddWideToDouble | noF64DefSlot | noVectorSlot | vectorStoreElement
  | gepIndex | gepTooWide
  deriving DecidableEq, Repr

/-- The text an error is reported with. -/
def CgError.message : CgError → String
  | .scratchExhausted => "internal: emit scratch window exhausted"
  | .constTooWide => "constant is wider than i32 (i64 not yet supported)"
  | .nonFloatConstant => "non-f32 floating-point constant — only float supported"
  | .globalNotInLayout => "global not in layout"
  | .funcNotDefined => "address taken: function has no definition in this module (extern is not supported)"
  | .badConstGep => "unsupported constant GEP expression"
  | .constGepTooWide => "constant GEP offset is wider than i32"
  | .badConstExpr => "unsupported constant expression"
  | .noRegister => "operand has no register assigned (use-before-def or unsupported value kind)"
  | .phiNotAllocated => "internal: phi register not pre-allocated"
  | .tooManyPhiMoves => "internal: too many phi moves on a single edge"
  | .widePhiSource => "internal: wide phi source without a slot or constant"
  | .phiReadyOverflow => "internal: phi-copy ready overflow"
  | .fixupTarget => "internal: fixup target block not found"
  | .branchRange => "internal: branch offset out of range after relaxation pass"
  | .tableFixupTarget => "internal: table fixup target block not found"
  | .tableSkip => "internal: switch-table BEQ skip outside imm8 range"
  | .caseNotConst => "switch case operand is not a constant integer"
  | .noWideSlot => "internal: i64 operand without a frame slot"
  | .noWide3Slot => "internal: i65 operand without a frame slot"
  | .i65CmpOperand => "i65 icmp only supported against constant 0"
  | .i65CmpPredicate => "i65 icmp predicate unsupported (only slt/sge/eq/ne vs 0)"
  | .icmpPredicate => "unsupported icmp predicate"
  | .truncSlot => "trunc: i64 source without slot"
  | .notImplemented => "codegen not implemented yet"
  | .noWideDefSlot => "internal: i64 def without a frame slot"
  | .oddWidth => "operation not supported at an odd wide width (only sext/zext/extractvalue legalised for 33..63/65)"
  | .noAggSlot => "internal: cmpxchg without agg slot"
  | .rmwOperation => "i64 atomicrmw: unsupported op (xchg/add/sub/and/or/xor/nand supported)"
  | .noAbsSlot => "internal: abs.i64 without i64 slot"
  | .noOverflowSlot => "internal: with.overflow without agg slot"
  | .noF64Slot => "internal: f64 operand without a frame slot"
  | .signedSaturation => "llvm.{s}{add,sub}.sat not yet lowered (signed)"
  | .funnelArgs => "llvm.fsh{l,r} expects 3 args"
  | .funnelSlot => "llvm.fsh{l,r}: i64 result without a frame slot"
  | .funnelWidth => "llvm.fsh{l,r} width unsupported"
  | .oddWideToDouble => "sitofp/uitofp from a non-64 wide integer to double is not supported"
  | .noF64DefSlot => "internal: f64 def without a frame slot"
  | .noVectorSlot => "internal: vector operand without a frame slot"
  | .vectorStoreElement => "vector store: unsupported element type"
  | .gepIndex => "GEP into struct requires constant index, or descended into unsupported aggregate kind"
  | .gepTooWide => "GEP constant offset is wider than i32"
  | .helperNotFound => "f64 runtime helper not found — link cvm_float64_rt.c"

/-! ## State -/

/-- Where a value is kept: its entries in `regs`, `val_slot`, `i64_slot`, `agg_slot` and `vec_slot`; none for `CG_NO_SLOT`. -/
structure Home where
  reg : Byte
  valSlot : Option Nat := none
  i64Slot : Option Nat := none
  aggSlot : Option Nat := none
  vecSlot : Option Nat := none
  deriving DecidableEq

/-- `struct cg`. -/
structure Cg where
  code : List Word
  /-- `vals` and the arrays parallel to it. -/
  map : List (Local × Home)
  nextReg : Nat
  /-- `free_list`, the top first. -/
  freeList : List Byte
  zeroReg : Byte
  allocaBytes : Nat
  spillBytes : Nat
  valSpillCount : Nat
  frameBytes : Nat
  ssaRegHigh : Nat
  /-- The globals with their offsets. -/
  globals : List (Nat × Word)
  /-- The functions of the module. -/
  funcs : List Nat

/-- A piece of the code generator. -/
abbrev Emit (α : Type) : Type := Exec Cg CgError α

/-- The home of a result or parameter, its first entry counting. -/
def Cg.home? (cg : Cg) (l : Local) : Option Home := (cg.map.find? fun e => e.1 = l).map Prod.snd

/-- `cg_lookup`. -/
def Cg.lookup (cg : Cg) : Val → Option Home
  | .loc l => cg.home? l
  | _ => none

/-- `cg_val_slot_off`. -/
def Cg.valSlotOff (cg : Cg) (slot : Nat) : Word := BitVec.ofNat 32 (cg.allocaBytes + cg.spillBytes + slot * 4)

/-! ## Emission -/

/-- `cg_emit`. -/
def cgEmit (inst : Word) : Emit Unit := Exec.modify fun cg => { cg with code := cg.code ++ [inst] }

/-- `cg_alloc_reg`. -/
def cgAllocReg : Emit Byte := do
  let cg ← Exec.get
  match cg.freeList with
  | r :: rest => do
    Exec.modify fun cg => { cg with freeList := rest }
    pure r
  | [] => do
    Exec.stopIf (cg.nextReg > cgMaxEmitReg) .scratchExhausted
    Exec.modify fun cg => { cg with nextReg := cg.nextReg + 1 }
    pure (BitVec.ofNat 8 cg.nextReg)

/-- `cg_emit_load_const32`. -/
def cgEmitLoadConst32 (rd : Byte) (imm : Word) : Emit Unit :=
  if -32768 ≤ imm.toInt ∧ imm.toInt ≤ 32767 then cgEmit (encI16 .movi rd (imm.setWidth 16))
  else do
    cgEmit (encI16 .movi rd (imm.setWidth 16))
    cgEmit (encI16 .movhi rd ((imm >>> 16).setWidth 16))

/-- `cg_movi_scratch`. -/
def cgMoviScratch (imm : Word) : Emit Unit := cgEmitLoadConst32 cgRegScratch imm

/-- `cg_addr_sp_plus`. -/
def cgAddrSpPlus (offset : Word) : Emit Unit := do
  cgMoviScratch offset
  cgEmit (encR .add cgRegScratch regSp cgRegScratch)

/-- `cg_sp_sub`. -/
def cgSpSub (n : Word) : Emit Unit := Exec.when (n ≠ 0) do
  cgMoviScratch n
  cgEmit (encR .sub regSp regSp cgRegScratch)

/-- `cg_sp_add`. -/
def cgSpAdd (n : Word) : Emit Unit := Exec.when (n ≠ 0) do
  cgMoviScratch n
  cgEmit (encR .add regSp regSp cgRegScratch)

/-- `cg_stw_sp_off`. -/
def cgStwSpOff (offset : Word) (srcReg : Byte) : Emit Unit := do
  cgAddrSpPlus offset
  cgEmit (encR .stw 0 cgRegScratch srcReg)

/-- `cg_ldw_sp_off`. -/
def cgLdwSpOff (dstReg : Byte) (offset : Word) : Emit Unit := do
  cgAddrSpPlus offset
  cgEmit (encR .ldw dstReg cgRegScratch 0)

/-! ## Operands -/

/-- `cg_reload_spilled`. -/
def cgReloadSpilled (slot : Nat) : Emit Byte := do
  let reload ← cgAllocReg
  let cg ← Exec.get
  cgLdwSpOff reload (cg.valSlotOff slot)
  pure reload

/-- A register that holds a constant word. -/
def cgConstReg (imm : Word) : Emit Byte := do
  let r ← cgAllocReg
  cgEmitLoadConst32 r imm
  pure r

/-- The value `cg_reg_for` loads for an integer constant: zero-extended for `i1`, else sign-extended. -/
def constIntImm (width bits : Nat) : Int :=
  if width = 1 then ((BitVec.ofNat width bits).toNat : Int) else (BitVec.ofNat width bits).toInt

/-- `cg_reg_for` on a constant. -/
def cgRegForConst : Const → Emit Byte
  | .aliasOf aliasee => cgRegForConst aliasee
  | .int width bits => do
    let imm := constIntImm width bits
    Exec.stopIf (imm < -2147483648 ∨ imm > 2147483647) .constTooWide
    cgConstReg (BitVec.ofInt 32 imm)
  | .null => do
    let r ← cgAllocReg
    cgEmit (encI16 .movi r 0)
    pure r
  | .float bits => cgConstReg bits
  | .double _ _ => Exec.stop .nonFloatConstant
  | .undef _ => do return (← Exec.get).zeroReg
  | .global id => do
    let cg ← Exec.get
    match cg.globals.find? fun e => e.1 = id with
    | none => Exec.stop .globalNotInLayout
    | some e => cgConstReg e.2
  | .func id => do
    let cg ← Exec.get
    match cg.funcs.idxOf? id with
    | none => Exec.stop .funcNotDefined
    | some fidx => cgConstReg (BitVec.ofNat 32 ((fidx + 1) * 2))
  | .cast c _ => cgRegForConst c
  | .gep _ none => Exec.stop .badConstGep
  | .gep base (some off) => do
    let b ← cgRegForConst base
    if off = 0 then pure b
    else do
      Exec.stopIf (off < -2147483648 ∨ off > 2147483647) .constGepTooWide
      let offR ← cgConstReg (BitVec.ofInt 32 off)
      let sumR ← cgAllocReg
      cgEmit (encR .add sumR b offR)
      pure sumR
  | .expr _ => Exec.stop .badConstExpr
  | .other _ => Exec.stop .noRegister

/-- `cg_reg_for`. -/
def cgRegFor (v : Val) : Emit Byte := do
  let cg ← Exec.get
  match cg.lookup v with
  | some home =>
    match home.valSlot with
    | some slot => cgReloadSpilled slot
    | none => pure home.reg
  | none =>
    match v with
    | .const c => cgRegForConst c
    | _ => Exec.stop .noRegister

end CronoVM
