import CronoVM.Translator.PhiMoves
import CronoVM.Translator.PreAlloc
import CronoVM.Translator.RuntimeCall
import Mathlib.Logic.Function.Basic

/-!
# Live registers

The passes of `cg_function` between the allocation of registers and the emission: which registers are live at the ends of the blocks, which
ones after each call, and the slots of the frame that those are saved in.
-/

namespace CronoVM

open Checked Ir

/-! ## Sets of registers -/

/-- `cg_bits`: bits for the registers from R8 on. -/
structure CgBits where
  w : Vector (BitVec 64) 4
  deriving DecidableEq

namespace CgBits

variable (b dst src : CgBits) (bit : Nat)

/-- The word of a bit. -/
def word : BitVec 64 := b.w[bit / 64]?.getD 0

/-- `cg_bits_clear`. -/
def empty : CgBits := ⟨Vector.replicate 4 0⟩

/-- `cg_bits_set`. -/
def set : CgBits := ⟨b.w.setIfInBounds (bit / 64) (b.word bit ||| BitVec.twoPow 64 (bit % 64))⟩

/-- `cg_bits_clear_bit`. -/
def clearBit : CgBits := ⟨b.w.setIfInBounds (bit / 64) (b.word bit &&& ~~~BitVec.twoPow 64 (bit % 64))⟩

/-- `cg_bits_test`. -/
def test : Bool := (b.word bit).getLsbD (bit % 64)

/-- `cg_bits_or`. -/
def or : CgBits := ⟨Vector.zipWith (fun x y => x ||| y) dst.w src.w⟩

/-- `cg_bits_andnot`. -/
def andnot : CgBits := ⟨Vector.zipWith (fun x y => x &&& ~~~y) dst.w src.w⟩

/-- A bit that there may be. -/
def set? (bit : Option Nat) : CgBits := bit.elim b b.set

/-- A bit that there may be. -/
def clearBit? (bit : Option Nat) : CgBits := bit.elim b b.clearBit

end CgBits

/-- `cg_spill_bit_of`. -/
def Cg.spillBitOf (cg : Cg) (v : Val) : Option Nat :=
  match cg.lookup v with
  | none => none
  | some h =>
    if h.valSlot.isSome = true then none
    else if h.reg.toNat < 8 ∨ cg.ssaRegHigh ≤ h.reg.toNat then none
    else some (h.reg.toNat - 8)

/-! ## Blocks -/

/-- The successors of `LLVMGetBasicBlockTerminator`. -/
def Ir.Block.successors (b : Ir.Block) : List Nat := (b.insts.getLast?.map Inst.successors).getD []

/-- `cg_block_index`. -/
def Ir.Func.blockIndex (fn : Func) (id : Nat) : Option Nat := fn.blocks.findIdx? fun b => b.id == id

/-- `def`, `use` and `phi_def` of a block. -/
structure BlockSets where
  defs : CgBits
  use : CgBits
  phiDef : CgBits
  deriving DecidableEq

section sets

variable (cg : Cg)

/-- What is live before an instruction, from what is live after it. -/
def cgLiveBefore (i : Inst) (live : CgBits) : CgBits :=
  i.operands.foldl (fun live v => live.set? (cg.spillBitOf v)) (live.clearBit? (cg.spillBitOf (.loc i.result)))

/-- `cg_block_def_use` -/
def cgBlockDefUse (fn : Func) (b : Ir.Block) (isEntry : Bool) : BlockSets :=
  let defs := b.insts.foldl (fun d i => d.set? (cg.spillBitOf (.loc i.result))) .empty
  let phiDef := b.insts.foldl (fun d i => if i.op = .phi then d.set? (cg.spillBitOf (.loc i.result)) else d) .empty
  -- the prologue gives the parameters their registers
  let defs := if isEntry = true then (List.range fn.params.length).foldl (fun d p => d.set? (cg.spillBitOf (.loc (.arg p)))) defs else defs
  let live := b.insts.foldr (fun i live => if i.op = .phi then live else cgLiveBefore cg i live) .empty
  { defs, use := live.andnot phiDef, phiDef }

/-- `cg_or_phi_use_from_edge` -/
def cgOrPhiUseFromEdge (pred : Nat) (s : Ir.Block) (out : CgBits) : CgBits :=
  s.phis.foldl (fun out phi => out.set? ((incomingFrom phi pred).bind cg.spillBitOf)) out

/-! ## The fixed point -/

/-- `bb_live_in` and `bb_live_out` of a block. -/
structure BlockLive where
  liveIn : CgBits
  liveOut : CgBits
  deriving DecidableEq

/-- The sets of a block by its index. -/
def cgSets (fn : Func) (b : Nat) : BlockSets :=
  match fn.blocks[b]? with
  | none => { defs := .empty, use := .empty, phiDef := .empty }
  | some bb => cgBlockDefUse cg fn bb (b == 0)

/-- What an edge to a successor adds to `new_out`. -/
def cgEdgeOut (fn : Func) (live : Nat → BlockLive) (pred : Nat) (out : CgBits) (succ : Nat) : CgBits :=
  match fn.blockIndex succ with
  | none => out
  | some si =>
    match fn.blocks[si]? with
    | none => out
    | some sb => cgOrPhiUseFromEdge cg pred sb (out.or ((live si).liveIn.andnot (cgSets cg fn si).phiDef))

/-- `new_out` -/
def cgNewOut (fn : Func) (live : Nat → BlockLive) (b : Nat) : CgBits :=
  match fn.blocks[b]? with
  | none => .empty
  | some bb => bb.successors.foldl (cgEdgeOut cg fn live bb.id) .empty

/-- The turn of the loop for a block, and whether it changed a set. -/
def cgLiveVisit (fn : Func) (live : Nat → BlockLive) (b : Nat) : (Nat → BlockLive) × Bool :=
  let sets := cgSets cg fn b
  let newOut := cgNewOut cg fn live b
  let newIn := sets.use.or (newOut.andnot sets.defs)
  (Function.update live b ⟨newIn, newOut⟩, decide (newIn ≠ (live b).liveIn) || decide (newOut ≠ (live b).liveOut))

/-- One pass over blocks. -/
def cgLivePass (fn : Func) : List Nat → (Nat → BlockLive) → (Nat → BlockLive) × Bool
  | [], live => (live, false)
  | b :: rest, live =>
    let v := cgLiveVisit cg fn live b
    let r := cgLivePass fn rest v.1
    (r.1, v.2 || r.2)

/-- `while (changed)`; none when the fuel is used up. -/
def cgLiveLoop (fn : Func) : Nat → (Nat → BlockLive) → Option (Nat → BlockLive)
  | 0, _ => none
  | fuel + 1, live =>
    let r := cgLivePass cg fn (List.range fn.blocks.length).reverse live
    if r.2 = true then cgLiveLoop fn fuel r.1 else some r.1

/-- `cg_compute_liveness` -/
def cgComputeLiveness (fn : Func) (fuel : Nat) : Option (Nat → BlockLive) := cgLiveLoop cg fn fuel fun _ => ⟨.empty, .empty⟩

end sets

/-! ## Calls -/

/-- `cg_op_is_runtime_call` -/
def Ir.Func.isRuntimeCall (fn : Func) (i : Inst) : Bool :=
  match i.op with
  | .resume => true
  | .extractValue => fn.isEhValue (i.operand 0)
  | .fadd | .fsub | .fmul | .fdiv | .siToFp | .uiToFp | .fpExt => i.ty.isF64
  | .fcmp | .fpToSi | .fpToUi | .fpTrunc => (fn.typeOf (i.operand 0)).isF64
  | .udiv | .sdiv | .urem | .srem => i.ty.isI64
  | .shl | .lshr | .ashr => i.ty.isI64 && !(i.operand 1).isConstInt
  | .call => i.ty.isF64 && i.callee ∈ ["llvm.fmuladd.f64", "llvm.fma.f64", "llvm.sqrt.f64", "sqrt"]
  | _ => false

/-- The instructions that `cg_compute_call_liveouts` notes. -/
def Ir.Func.isSpillPoint (fn : Func) (i : Inst) : Bool := i.op = .call || i.op = .invoke || fn.isRuntimeCall i

section calls

variable (cg : Cg) (fn : Func)

/-- The way back through a block, its last instruction first: what is live after each spill point. -/
def cgCallLiveouts : List Inst → CgBits → List (Nat × CgBits)
  | [], _ => []
  | i :: earlier, live =>
    if i.op = .phi then cgCallLiveouts earlier live
    else if fn.isSpillPoint i = true then (i.id, live) :: cgCallLiveouts earlier (cgLiveBefore cg i live)
    else cgCallLiveouts earlier (cgLiveBefore cg i live)

/-- `cg_compute_call_liveouts`: the array `call_lives`. -/
def cgComputeCallLiveouts (live : Nat → BlockLive) : List (Nat × CgBits) :=
  fn.blocks.zipIdx.flatMap fun b => cgCallLiveouts cg fn b.1.insts.reverse (live b.2).liveOut

/-- `ever_spilled`: what lives across a call, and the operands of an invoke. -/
def cgEverSpilled (callLives : List (Nat × CgBits)) : CgBits :=
  let ever := callLives.foldl (fun ever c => ever.or c.2) .empty
  fn.insts.foldl (fun ever i => if i.op = .invoke then i.operands.foldl (fun ever v => ever.set? (cg.spillBitOf v)) ever else ever) ever

/-- `cg_lookup_call_live` -/
def cgLookupCallLive (callLives : List (Nat × CgBits)) (call : Inst) : Option CgBits :=
  (callLives.find? fun c => c.1 == call.id).map Prod.snd

/-- `cg_call_spill_set` -/
def cgCallSpillSet (callLives : List (Nat × CgBits)) (i : Inst) : CgBits :=
  ((cgLookupCallLive callLives i).getD (cgEverSpilled cg fn callLives)).clearBit? (cg.spillBitOf (.loc i.result))

/-- What the emission asks of the passes. -/
def cgCallInfo (funcByName : String → Option Nat) (callLives : List (Nat × CgBits)) : CallInfo where
  funcByName := funcByName
  everSpilled := (cgEverSpilled cg fn callLives).test
  callSpillSet i := (cgCallSpillSet cg fn callLives i).test

/-! ## The frame -/

/-- `CVM_EH_FRAME_BYTES` -/
def ehFrameBytes : Nat := 24

/-- The sizes of the parts of the frame: `[alloca_bytes | spill_bytes | val_spill_bytes]`, and the frame of the exceptions above. -/
def Cg.layoutFrame (info : CallInfo) : Cg :=
  let spillBytes := info.spillSlotCount cg.ssaRegHigh * 4
  let frameBytes := cg.allocaBytes + spillBytes + cg.valSpillBytes
  { cg with
    spillBytes
    frameBytes := if fn.insts.any (fun i => i.op = .invoke) = true then frameBytes + ehFrameBytes else frameBytes }

end calls

/-- The passes of `cg_function` in front of the emission. -/
def cgPasses (fn : Func) (funcByName : String → Option Nat) : Emit CallInfo := do
  cgPreAllocFunction fn
  Exec.modify fun cg => { cg with ssaRegHigh := cg.nextReg }
  let cg ← Exec.get
  -- each block's sets change at most 512 times
  let live := cgComputeLiveness cg fn (512 * fn.blocks.length + 1)
  Exec.demand (live.isSome = true)
  let info := cgCallInfo cg fn funcByName (cgComputeCallLiveouts cg fn (live.getD fun _ => ⟨.empty, .empty⟩))
  Exec.modify fun cg => cg.layoutFrame fn info
  pure info

end CronoVM
