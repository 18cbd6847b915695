import CronoVM.Translator.Emit

/-!
# Vectors

A vector whose lanes fit a word is kept in slots, a lane in each: how the translator reads a lane, of a constant or of a value in slots, and
the store of a vector, lane by lane.
-/

namespace CronoVM

open Checked Ir

/-! ## Types and constants -/

/-- The element type of a vector whose lanes fit a word. -/
inductive LaneTy where
  | int (width : Nat)
  | pointer
  deriving DecidableEq

namespace LaneTy

/-- `cg_vec_elem_bits`. -/
def elemBits : LaneTy → Nat
  | int w => w
  | pointer => 32

/-- `cg_vec_lane_mem`: the opcodes of a load and of a store, and the bytes from lane to lane. -/
def laneMem : LaneTy → Option (Opcode × Opcode × Nat)
  | pointer => some (.ldw, .stw, 4)
  | int w =>
    if w = 1 ∨ w = 8 then some (.ldb, .stb, 1)
    else if w = 16 then some (.ldh, .sth, 2)
    else if w = 32 then some (.ldw, .stw, 4)
    else none

end LaneTy

/-- A constant vector, with what the translator reads of it. -/
inductive VecConst where
  | undef
  | aggregateZero
  | elements (lanes : List Const)
  /-- A constant expression, of which no element is given. -/
  | expr

/-- `LLVMGetAggregateElement`. -/
def VecConst.aggregateElement : VecConst → Nat → Option Const
  | elements lanes, lane => lanes[lane]?
  | _, _ => none

/-- A vector value. -/
inductive VecVal where
  | loc (l : Local)
  | const (c : VecConst)

/-! ## Lanes -/

/-- The word of an integer lane: its bits, sign-extended from the element width. -/
def laneImm (elemBits width bits : Nat) : Word :=
  let z := BitVec.ofNat 64 (bits % 2 ^ width)
  if 1 ≤ elemBits ∧ elemBits < 32 then
    let sbit := 1#64 <<< (elemBits - 1)
    ((z ^^^ sbit) - sbit).setWidth 32
  else z.setWidth 32

/-- The word `cg_vec_read_lane` loads for an element of a constant. -/
def laneConst (elem : LaneTy) : Option Const → Word
  | some (.int width bits) => laneImm elem.elemBits width bits
  | _ => 0

/-- `cg_vec_read_lane`. -/
def cgVecReadLane (elem : LaneTy) (v : VecVal) (lane : Nat) : Emit Byte :=
  match v with
  | .const .undef | .const .aggregateZero => do
    let r ← cgAllocReg
    cgEmit (encI16 .movi r 0)
    pure r
  | .const c => do
    let r ← cgAllocReg
    cgEmitLoadConst32 r (laneConst elem (c.aggregateElement lane))
    pure r
  | .loc l => do
    let cg ← Exec.get
    match (cg.home? l).bind Home.vecSlot with
    | none => Exec.stop .noVectorSlot
    | some slot =>
      let r ← cgAllocReg
      cgLdwSpOff r (cg.valSlotOff slot + BitVec.ofNat 32 (lane * 4))
      pure r

/-! ## Stores -/

/-- The store of a lane. -/
def cgVecStoreLane (elem : LaneTy) (st : Opcode) (bytes : Nat) (v : VecVal) (addr : Byte) (lane : Nat) : Emit Unit := do
  let r ← cgVecReadLane elem v lane
  if lane = 0 then cgEmit (encR st 0 addr r)
  else do
    cgMoviScratch (BitVec.ofNat 32 (lane * bytes))
    let a ← cgAllocReg
    cgEmit (encR .add a addr cgRegScratch)
    cgEmit (encR st 0 a r)

/-- The stores of the first lanes, each with the scratch registers from `after` on. -/
def cgVecStoreLanes (elem : LaneTy) (st : Opcode) (bytes : Nat) (v : VecVal) (addr : Byte) (after : Nat) : Nat → Emit Unit
  | 0 => pure ()
  | lane + 1 => do
    cgVecStoreLanes elem st bytes v addr after lane
    Exec.modify fun cg => { cg with nextReg := after }
    cgVecStoreLane elem st bytes v addr lane

/-- The store of a vector in `case LLVMStore`. -/
def cgVecStore (elem : LaneTy) (lanes : Nat) (v : VecVal) (ptr : Val) : Emit Unit :=
  match elem.laneMem with
  | none => Exec.stop .vectorStoreElement
  | some (_, st, bytes) => do
    let addr ← cgRegFor ptr
    let after := (← Exec.get).nextReg
    cgVecStoreLanes elem st bytes v addr after lanes

end CronoVM
