import CronoVM.Translator.Intrinsics
import CronoVM.Translator.RuntimeCall

/-!
# Intrinsics on bits

Counts of bits, reversals and funnel shifts in `case LLVMCall`: loops and networks of swaps with displacements and masks the translator
knows. `llvm.ctlz.i64` has its result in slots and is with the values of two words.
-/

namespace CronoVM

open Checked Ir NarrowInt

/-! ## Counts -/

/-- `llvm.ctlz.i32` -/
def cgCtlz32 (src dst : Byte) : Emit Unit := do
  let x ← cgAllocReg
  let n ← cgAllocReg
  let one ← cgAllocReg
  let k32 ← cgAllocReg
  cgEmit (encR .mov x src 0)
  cgEmit (encI16 .movi n 0)
  cgEmit (encI16 .movi one 1)
  let zeroReg := (← Exec.get).zeroReg
  cgEmit (encBr .beq x zeroReg 3)
  cgEmit (encR .shr x x one)
  cgEmit (encR .add n n one)
  cgEmit (encI24 .jmp (-4))
  cgEmit (encI16 .movi k32 32)
  cgEmit (encR .sub dst k32 n)

/-- The mask of a count at a narrow width. -/
def cgMaskCount (bits : Nat) (x : Byte) : Emit Unit := Exec.when (bits < 32) do
  let m ← cgAllocReg
  cgEmitLoadConst32 m (lowMask 32 bits)
  cgEmit (encR .and x x m)

/-- `llvm.ctpop.iN`, for N = 8, 16 and 32. -/
def cgCtpop (bits : Nat) (src dst : Byte) : Emit Unit := do
  let x ← cgAllocReg
  let n ← cgAllocReg
  let one ← cgAllocReg
  let t ← cgAllocReg
  cgEmit (encR .mov x src 0)
  cgMaskCount bits x
  cgEmit (encI16 .movi n 0)
  cgEmit (encI16 .movi one 1)
  let zeroReg := (← Exec.get).zeroReg
  cgEmit (encBr .beq x zeroReg 4)
  cgEmit (encR .sub t x one)
  cgEmit (encR .and x x t)
  cgEmit (encR .add n n one)
  cgEmit (encI24 .jmp (-5))
  cgEmit (encR .mov dst n 0)

/-- `llvm.cttz.iN`, for N = 8, 16 and 32. -/
def cgCttz (bits : Nat) (src dst : Byte) : Emit Unit := do
  let x ← cgAllocReg
  let n ← cgAllocReg
  let one ← cgAllocReg
  let t ← cgAllocReg
  cgEmit (encR .mov x src 0)
  cgMaskCount bits x
  cgEmit (encI16 .movi n 0)
  cgEmit (encI16 .movi one 1)
  let zeroReg := (← Exec.get).zeroReg
  cgEmit (encBr .beq x zeroReg 5)
  cgEmit (encR .and t x one)
  cgEmit (encBr .bne t zeroReg 4)
  cgEmit (encR .shr x x one)
  cgEmit (encR .add n n one)
  cgEmit (encI24 .jmp (-5))
  cgEmit (encI16 .movi n (BitVec.ofNat 16 bits))
  cgEmit (encR .mov dst n 0)

/-! ## Reversals -/

/-- `llvm.bswap.i16` -/
def cgBswap16 (x dst : Byte) : Emit Unit := do
  let t1 ← cgAllocReg
  let t2 ← cgAllocReg
  let k8 ← cgAllocReg
  let kff ← cgAllocReg
  cgEmitLoadConst32 k8 8
  cgEmitLoadConst32 kff 0xFF
  cgEmit (encR .and t1 x kff)
  cgEmit (encR .shl t1 t1 k8)
  cgEmit (encR .shr t2 x k8)
  cgEmit (encR .and t2 t2 kff)
  cgEmit (encR .or dst t1 t2)

/-- `llvm.bswap.i32` -/
def cgBswap32 (x dst : Byte) : Emit Unit := do
  let b0 ← cgAllocReg
  let b1 ← cgAllocReg
  let b2 ← cgAllocReg
  let b3 ← cgAllocReg
  let k8 ← cgAllocReg
  let k24 ← cgAllocReg
  let m1 ← cgAllocReg
  let m2 ← cgAllocReg
  cgEmitLoadConst32 k8 8
  cgEmitLoadConst32 k24 24
  cgEmitLoadConst32 m1 0x0000FF00
  cgEmitLoadConst32 m2 0x00FF0000
  cgEmit (encR .shr b0 x k24)
  cgEmit (encR .shr b1 x k8)
  cgEmit (encR .and b1 b1 m1)
  cgEmit (encR .shl b2 x k8)
  cgEmit (encR .and b2 b2 m2)
  cgEmit (encR .shl b3 x k24)
  cgEmit (encR .or dst b0 b1)
  cgEmit (encR .or dst dst b2)
  cgEmit (encR .or dst dst b3)

/-- The low `s` bits of each group of `2 * s`, over `bits` bits. -/
def swapLowMask (bits s : Nat) : Word :=
  (List.range bits).foldl (fun lo bit => if bit % (2 * s) < s then lo ||| 1#32 <<< bit else lo) 0#32

/-- A step of the swaps: the groups of `s` bits change places. -/
def cgSwapStep (bits : Nat) (x t mh ml sh : Byte) (s : Nat) : Emit Unit := do
  let lo := swapLowMask bits s
  let hi := lo <<< s &&& lowMask 32 bits
  cgEmitLoadConst32 mh hi
  cgEmitLoadConst32 ml lo
  cgEmitLoadConst32 sh (BitVec.ofNat 32 s)
  cgEmit (encR .and t x mh)
  cgEmit (encR .shr t t sh)
  cgEmit (encR .and x x ml)
  cgEmit (encR .shl x x sh)
  cgEmit (encR .or x x t)

/-- The steps for `s`, `2 * s` and so on, below `bits`. -/
def cgSwapSteps (bits : Nat) (x t mh ml sh : Byte) : Nat → Nat → Emit Unit
  | 0, _ => pure ()
  | turns + 1, s =>
    if s < bits then do
      cgSwapStep bits x t mh ml sh s
      cgSwapSteps bits x t mh ml sh turns (2 * s)
    else pure ()

/-- `llvm.bitreverse.iN`, for N = 8, 16 and 32. -/
def cgBitreverse (bits : Nat) (src dst : Byte) : Emit Unit := do
  let x ← cgAllocReg
  let t ← cgAllocReg
  let mh ← cgAllocReg
  let ml ← cgAllocReg
  let sh ← cgAllocReg
  let kw ← cgAllocReg
  cgEmitLoadConst32 kw (lowMask 32 bits)
  cgEmit (encR .and x src kw)
  cgSwapSteps bits x t mh ml sh bits 1
  cgEmit (encR .mov dst x 0)

/-! ## Intrinsics of one operand -/

/-- The intrinsics that look at the bits of one operand. -/
inductive BitIntrinsic where
  | ctlz
  | ctpop
  | cttz
  | bswap
  | bitreverse
  deriving DecidableEq

/-- `llvm.<op>.iN` is one the translator knows, with a result in a register. -/
def BitIntrinsic.hasWidth : BitIntrinsic → Nat → Bool
  | .ctlz, w => w = 32
  | .ctpop, w | .cttz, w | .bitreverse, w => w = 8 ∨ w = 16 ∨ w = 32
  | .bswap, w => w = 16 ∨ w = 32

/-- The code of `llvm.<op>.iN`, with its operand in a register. -/
def cgBitBody (op : BitIntrinsic) (bits : Nat) (src dst : Byte) : Emit Unit :=
  match op with
  | .ctlz => cgCtlz32 src dst
  | .ctpop => cgCtpop bits src dst
  | .cttz => cgCttz bits src dst
  | .bswap => if bits = 16 then cgBswap16 src dst else cgBswap32 src dst
  | .bitreverse => cgBitreverse bits src dst

/-- `llvm.<op>.iN` -/
def cgBitIntrinsic (op : BitIntrinsic) (bits : Nat) (v : Val) (dst : Byte) : Emit Unit :=
  if op.hasWidth bits = true then do
    let src ← cgRegFor v
    cgBitBody op bits src dst
  else Exec.stop .notImplemented

/-! ## Funnel shifts -/

/-- The amount of a funnel shift, reduced at a narrow width. -/
def cgFunnelAmount (fbits : Nat) (c : Byte) : Emit Byte :=
  if fbits < 32 then do
    let s ← cgAllocReg
    cgMoviScratch (BitVec.ofNat 32 (fbits - 1))
    cgEmit (encR .and s c cgRegScratch)
    pure s
  else pure c

/-- A register, masked at a narrow width. -/
def cgFunnelMask (fbits : Nat) (dst src : Byte) : Emit Unit := do
  cgMoviScratch (lowMask 32 fbits)
  cgEmit (encR .and dst src cgRegScratch)

/-- The two shifts, to the left and to the right. -/
def cgFunnelShifts (isFshr : Bool) (fbits : Nat) (a b s aSh bSh inv : Byte) : Emit Unit := do
  if isFshr = true then cgEmit (encR .shr bSh b s) else cgEmit (encR .shl aSh a s)
  cgMoviScratch (BitVec.ofNat 32 fbits)
  cgEmit (encR .sub inv cgRegScratch s)
  if isFshr = true then cgEmit (encR .shl aSh a inv)
  else if fbits < 32 then do
    cgFunnelMask fbits bSh b
    cgEmit (encR .shr bSh bSh inv)
  else cgEmit (encR .shr bSh b inv)

/-- The result, and what replaces it if the amount is 0. -/
def cgFunnelResult (fbits : Nat) (aSh bSh s fixup dst : Byte) : Emit Unit := do
  cgEmit (encR .or dst aSh bSh)
  Exec.when (fbits < 32) (cgFunnelMask fbits dst dst)
  let zeroReg := (← Exec.get).zeroReg
  cgEmit (encBr .bne s zeroReg 1)
  cgEmit (encR .mov dst fixup 0)

/-- `llvm.fshl.iN` and `llvm.fshr.iN` of a width up to 32. -/
def cgFunnelWord (isFshr : Bool) (fbits : Nat) (x y z : Val) (dst : Byte) : Emit Unit := do
  let a ← cgRegFor x
  let b ← cgRegFor y
  let c ← cgRegFor z
  let aSh ← cgAllocReg
  let bSh ← cgAllocReg
  let inv ← cgAllocReg
  let s ← cgFunnelAmount fbits c
  cgFunnelShifts isFshr fbits a b s aSh bSh inv
  cgFunnelResult fbits aSh bSh s (if isFshr = true then b else a) dst

/-- The funnel shifts. -/
def cgFunnelShift (info : CallInfo) (i : Inst) (isFshr : Bool) (fbits : Nat) (dst : Byte) : Emit Unit :=
  if i.operands.length ≠ 3 then Exec.stop .funnelArgs
  else if fbits = 64 then do
    let cg ← Exec.get
    match (cg.home? i.result).bind Home.i64Slot with
    | none => Exec.stop .funnelSlot
    | some slot =>
      cgEmitRuntimeCall info i (if isFshr = true then "__cvm_fshr64" else "__cvm_fshl64") [i.operand 0, i.operand 1, i.operand 2] none
        (some slot) 0 0
  else if fbits = 0 ∨ fbits > 32 then Exec.stop .funnelWidth
  else cgFunnelWord isFshr fbits (i.operand 0) (i.operand 1) (i.operand 2) dst

end CronoVM
