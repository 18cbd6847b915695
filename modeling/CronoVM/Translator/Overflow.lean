import CronoVM.Translator.Scalar
import CronoVM.Translator.Wide

/-!
# Arithmetic with an overflow flag

`llvm.{uadd,umul,sadd}.with.overflow.iN`, in `case LLVMCall`. The words of the result go to the slots of the call's aggregate, and the flag to
the slot after them.
-/

namespace CronoVM

open Checked Ir

/-- The kinds of `cg_overflow_call_kind`. -/
inductive OverflowKind where
  | uadd | umul | sadd
  deriving DecidableEq, Repr

/-- The widths `cg_overflow_call_kind` takes. -/
def cgOverflowCallKind (kind : OverflowKind) (bits : Nat) : Bool :=
  match kind with
  | .sadd => decide (33 ≤ bits ∧ bits ≤ 63 ∨ bits = 65)
  | .uadd | .umul => decide (bits = 32 ∨ bits = 64)

/-- `cg_overflow_val_words`: the words of the result. -/
def cgOverflowValWords (bits : Nat) : Nat := if bits > 64 then 3 else if bits ≥ 33 then 2 else 1

/-- Registers are stored in the slots of an aggregate, from word `k` on. -/
def cgStoreSlots (base k : Nat) : List Byte → Emit Unit
  | [] => pure ()
  | r :: rs => do
    cgStwSpOff ((← Exec.get).valSlotOff (aggWordSlot base k)) r
    cgStoreSlots base (k + 1) rs

/-- One word: the sum and its carry. -/
def cgUaddOverflow32 (a b : Byte) : Emit (List Byte) := do
  let val ← cgAllocReg
  let ovf ← cgAllocReg
  cgEmit (encR .add val a b)
  cgEmit (encR .cmpLtu ovf val a)
  pure [val, ovf]

/-- One word: the product, and whether its high half is zero. -/
def cgUmulOverflow32 (a b : Byte) : Emit (List Byte) := do
  let val ← cgAllocReg
  let ovf ← cgAllocReg
  let hi ← cgAllocReg
  cgEmit (encR .mul val a b)
  cgEmit (encR .mulhu hi a b)
  cgEmit (encR .cmpLtu ovf (← Exec.get).zeroReg hi)
  pure [val, ovf]

/-- Two words: the sum, and the carry out of the high one. -/
def cgUaddOverflow64 (al ah bl bh : Byte) : Emit (List Byte) := do
  let lo ← cgAllocReg
  let hi ← cgAllocReg
  let ovf ← cgAllocReg
  let c1 ← cgAllocReg
  let c2 ← cgAllocReg
  let c3 ← cgAllocReg
  let t ← cgAllocReg
  cgEmit (encR .add lo al bl)
  cgEmit (encR .cmpLtu c1 lo al)
  cgEmit (encR .add t ah bh)
  cgEmit (encR .cmpLtu c2 t ah)
  cgEmit (encR .add hi t c1)
  cgEmit (encR .cmpLtu c3 hi t)
  cgEmit (encR .or ovf c2 c3)
  pure [lo, hi, ovf]

/-- Two words: the product, and whether a partial product or a carry is above bit 63. -/
def cgUmulOverflow64 (al ah bl bh : Byte) : Emit (List Byte) := do
  let lo ← cgAllocReg
  let hi ← cgAllocReg
  let ovf ← cgAllocReg
  let t0hi ← cgAllocReg
  let t1lo ← cgAllocReg
  let t1hi ← cgAllocReg
  let t2lo ← cgAllocReg
  let t2hi ← cgAllocReg
  cgEmit (encR .mul lo al bl)
  cgEmit (encR .mulhu t0hi al bl)
  cgEmit (encR .mul t1lo al bh)
  cgEmit (encR .mulhu t1hi al bh)
  cgEmit (encR .mul t2lo ah bl)
  cgEmit (encR .mulhu t2hi ah bl)
  let s ← cgAllocReg
  let ca ← cgAllocReg
  let cb ← cgAllocReg
  cgEmit (encR .add s t0hi t1lo)
  cgEmit (encR .cmpLtu ca s t0hi)
  cgEmit (encR .add hi s t2lo)
  cgEmit (encR .cmpLtu cb hi s)
  let o ← cgAllocReg
  let tmp ← cgAllocReg
  let zero := (← Exec.get).zeroReg
  cgEmit (encR .cmpLtu o zero t1hi)
  cgEmit (encR .cmpLtu tmp zero t2hi)
  cgEmit (encR .or o o tmp)
  cgEmit (encR .or tmp ca cb)
  cgEmit (encR .or o o tmp)
  let ahnz ← cgAllocReg
  let bhnz ← cgAllocReg
  cgEmit (encR .cmpLtu ahnz zero ah)
  cgEmit (encR .cmpLtu bhnz zero bh)
  cgEmit (encR .and tmp ahnz bhnz)
  cgEmit (encR .or ovf o tmp)
  pure [lo, hi, ovf]

/-- Two words of a signed integer of `bits` bits: the sum with its sign extended again, and whether that changed it. -/
def cgSaddOverflowWide2 (bits : Nat) (al ah bl bh : Byte) : Emit (List Byte) := do
  let lo ← cgAllocReg
  let hi ← cgAllocReg
  let carry ← cgAllocReg
  let canon ← cgAllocReg
  let ovf ← cgAllocReg
  cgAddWords lo hi carry al ah bl bh
  cgShiftImm .shl canon hi (64 - bits)
  cgShiftImm .sar canon canon (64 - bits)
  cgEmit (encR .cmpNe ovf hi canon)
  pure [lo, canon, ovf]

/-- Three words of a signed integer of 65 bits. -/
def cgSaddOverflowWide3 (a b : Byte × Byte × Byte) : Emit (List Byte) := do
  let w0 ← cgAllocReg
  let w1 ← cgAllocReg
  let w2 ← cgAllocReg
  let c0 ← cgAllocReg
  let t ← cgAllocReg
  let ca ← cgAllocReg
  let cb ← cgAllocReg
  let c1 ← cgAllocReg
  let canon ← cgAllocReg
  let ovf ← cgAllocReg
  cgEmit (encR .add w0 a.1 b.1)
  cgEmit (encR .cmpLtu c0 w0 a.1)
  cgEmit (encR .add t a.2.1 b.2.1)
  cgEmit (encR .cmpLtu ca t a.2.1)
  cgEmit (encR .add w1 t c0)
  cgEmit (encR .cmpLtu cb w1 t)
  cgEmit (encR .or c1 ca cb)
  cgEmit (encR .add w2 a.2.2 b.2.2)
  cgEmit (encR .add w2 w2 c1)
  cgShiftImm .shl canon w2 31
  cgShiftImm .sar canon canon 31
  cgEmit (encR .cmpNe ovf w2 canon)
  pure [w0, w1, canon, ovf]

/-- The registers of the result and of the flag. -/
def cgOverflowRegs (kind : OverflowKind) (bits : Nat) (x y : Val) : Emit (List Byte) :=
  if bits = 32 then do
    let a ← cgRegFor x
    let b ← cgRegFor y
    if kind = .uadd then cgUaddOverflow32 a b else cgUmulOverflow32 a b
  else if kind = .sadd ∧ bits = 65 then do
    let a ← cgI65Read x
    let b ← cgI65Read y
    cgSaddOverflowWide3 a b
  else do
    let a ← cgI64Read x
    let b ← cgI64Read y
    match kind with
    | .sadd => cgSaddOverflowWide2 bits a.1 a.2 b.1 b.2
    | .uadd => cgUaddOverflow64 a.1 a.2 b.1 b.2
    | .umul => cgUmulOverflow64 a.1 a.2 b.1 b.2

/-- `cg_overflow_call_kind` calls. -/
def cgWithOverflow (kind : OverflowKind) (bits : Nat) (i : Inst) : Emit Unit := do
  match ((← Exec.get).lookup (.loc i.result)).bind Home.aggSlot with
  | none => Exec.stop .noOverflowSlot
  | some base => do
    let regs ← cgOverflowRegs kind bits (i.operand 0) (i.operand 1)
    cgStoreSlots base 0 regs

end CronoVM
