import CronoVM.Isa
import CronoVM.Lib.TwoWord

/-!
# Binary64 in software

`cvm_float64.h` of the runtime library: doubles as the two words of their bits, and the four operations on them, computed in 32-bit words.
An `int` of the source that stays small is an integer here.
-/

namespace CronoVM

open TwoWord

/-- The struct `cvm_f64`: the bits of a double. -/
structure CvmF64 where
  lo : Word
  hi : Word
  deriving DecidableEq, Repr

/-! ## Bit fields -/

def cvmDSign (x : CvmF64) : Word := (x.hi >>> 31) &&& 1#32

def cvmDExp (x : CvmF64) : Word := (x.hi >>> 20) &&& 0x7FF#32

def cvmDMhi (x : CvmF64) : Word := x.hi &&& 0x000FFFFF#32

def cvmDPack (sign exp mhi20 mlo32 : Word) : CvmF64 where
  lo := mlo32
  hi := (sign <<< 31) ||| ((exp &&& 0x7FF#32) <<< 20) ||| (mhi20 &&& 0xFFFFF#32)

def cvmDZero : CvmF64 := ⟨0#32, 0x00000000#32⟩

def cvmDNegZero : CvmF64 := ⟨0#32, 0x80000000#32⟩

def cvmDInf : CvmF64 := ⟨0#32, 0x7FF00000#32⟩

def cvmDNegInf : CvmF64 := ⟨0#32, 0xFFF00000#32⟩

/-- The quiet NaN. -/
def cvmDNan : CvmF64 := ⟨0#32, 0x7FF80000#32⟩

def cvmDIszero (x : CvmF64) : Bool := cvmDExp x == 0#32 && cvmDMhi x == 0#32 && x.lo == 0#32

def cvmDIsinf (x : CvmF64) : Bool := cvmDExp x == 0x7FF#32 && cvmDMhi x == 0#32 && x.lo == 0#32

def cvmDIsnan (x : CvmF64) : Bool := cvmDExp x == 0x7FF#32 && (cvmDMhi x != 0#32 || x.lo != 0#32)

def cvmDNeg (x : CvmF64) : CvmF64 := { x with hi := x.hi ^^^ 0x80000000#32 }

/-- One halving of the search for the highest bit: the upper half, if a bit of it is set. -/
def topBitHalve (mask : Word) (k : Nat) (p : Nat × Word) : Nat × Word := if p.2 &&& mask ≠ 0#32 then (p.1 + k, p.2 >>> k) else p

/-- `cvm__top_bit_u32`: the index of the highest bit that is set. -/
def cvmTopBitU32 (x : Word) : Nat :=
  let p := (0, x)
  let p := topBitHalve 0xFFFF0000#32 16 p
  let p := topBitHalve 0x0000FF00#32 8 p
  let p := topBitHalve 0x000000F0#32 4 p
  let p := topBitHalve 0x0000000C#32 2 p
  if p.2 &&& 0x00000002#32 ≠ 0#32 then p.1 + 1 else p.1

/-! ## Addition and subtraction -/

/-- The two words of a significand. -/
structure Significand where
  mHi : Word
  mLo : Word

/-- The significand of the smaller operand, shifted to the exponent of the larger one. -/
def cvmDAlign (expDiff bMHi bMLo : Word) : Significand :=
  if expDiff ≥ 32#32 then { mHi := 0#32, mLo := bMHi >>> (expDiff - 32#32) }
  else if expDiff > 0#32 then { mHi := bMHi >>> expDiff, mLo := (bMLo >>> expDiff) ||| (bMHi <<< (32#32 - expDiff)) }
  else { mHi := bMHi, mLo := bMLo }

/-- A significand shifted left. -/
def cvmDRenormalise (n : Nat) (rHi rLo : Word) : Significand :=
  if n ≥ 32 then { mHi := rLo <<< (n - 32), mLo := 0#32 }
  else { mHi := (rHi <<< n) ||| (rLo >>> (32 - n)), mLo := rLo <<< n }

/-- The difference of two significands, shifted left until its leading one is bit 52. -/
def cvmDSubAligned (rSign rExp aMHi aMLo bMHi bMLo : Word) : CvmF64 :=
  let rLo := aMLo - bMLo
  let rHi := aMHi - bMHi - (if aMLo < bMLo then 1#32 else 0#32)
  if rLo = 0#32 ∧ rHi = 0#32 then cvmDZero
  else
    let leading : Nat := if rHi ≠ 0#32 then 32 + cvmTopBitU32 rHi else cvmTopBitU32 rLo
    let shl : Int := 52 - leading
    if shl > 0 then
      let r := cvmDRenormalise shl.toNat rHi rLo
      let rExpSigned : Int := rExp.toInt - shl
      if rExpSigned ≤ 0 then (if rSign ≠ 0#32 then cvmDNegZero else cvmDZero)
      else cvmDPack rSign (BitVec.ofInt 32 rExpSigned) (r.mHi &&& 0xFFFFF#32) r.mLo
    else cvmDPack rSign rExp (rHi &&& 0xFFFFF#32) rLo

/-- The sum of two significands, shifted right if it has a bit 53. -/
def cvmDAddAligned (rSign rExp aMHi aMLo bMHi bMLo : Word) : CvmF64 :=
  let rLo := aMLo + bMLo
  let rHi := aMHi + bMHi + (if rLo < aMLo then 1#32 else 0#32)
  if rHi &&& 0x200000#32 ≠ 0#32 then
    let rLo := (rLo >>> 1) ||| (rHi <<< 31)
    let rHi := rHi >>> 1
    let rExp := rExp + 1#32
    if rExp ≥ 0x7FF#32 then (if rSign ≠ 0#32 then cvmDNegInf else cvmDInf)
    else cvmDPack rSign rExp (rHi &&& 0xFFFFF#32) rLo
  else cvmDPack rSign rExp (rHi &&& 0xFFFFF#32) rLo

/-- The sum of two finite nonzero operands, the larger one first. -/
def cvmDAddOrdered (a b : CvmF64) : CvmF64 :=
  let rSign := cvmDSign a
  let effSub := cvmDSign a != cvmDSign b
  let aExp := cvmDExp a
  let bExp := cvmDExp b
  let aMLo := a.lo
  let aMHi := cvmDMhi a ||| 0x100000#32
  let bMLo := b.lo
  let bMHi := cvmDMhi b ||| 0x100000#32
  let expDiff := aExp - bExp
  if expDiff ≥ 64#32 then a
  else
    let b := cvmDAlign expDiff bMHi bMLo
    if effSub then cvmDSubAligned rSign aExp aMHi aMLo b.mHi b.mLo else cvmDAddAligned rSign aExp aMHi aMLo b.mHi b.mLo

/-- `cvm_d_add` -/
def cvmDAdd (a b : CvmF64) : CvmF64 :=
  if cvmDIsnan a || cvmDIsnan b then cvmDNan
  else if cvmDIsinf a then (if cvmDIsinf b && cvmDSign a != cvmDSign b then cvmDNan else a)
  else if cvmDIsinf b then b
  else if cvmDIszero a then b
  else if cvmDIszero b then a
  else
    let aMagHi := a.hi &&& 0x7FFFFFFF#32
    let bMagHi := b.hi &&& 0x7FFFFFFF#32
    if aMagHi < bMagHi ∨ (aMagHi = bMagHi ∧ a.lo < b.lo) then cvmDAddOrdered b a else cvmDAddOrdered a b

/-- `cvm_d_sub` -/
def cvmDSub (a b : CvmF64) : CvmF64 := cvmDAdd a (cvmDNeg b)

/-! ## Multiplication -/

/-- `cvm_mulhu`, the opcode `MULHU`. -/
def cvmMulhu (a b : Word) : Word := mulHigh a b

/-- The sum of the four partial products, each of two words: its words, the lowest first. -/
def cvmDMulSum (p0Lo p0Hi p1Lo p1Hi p2Lo p2Hi p3Lo p3Hi : Word) : Word × Word × Word × Word :=
  let w0 := p0Lo
  let s1a := p0Hi + p1Lo
  let c1a : Word := if s1a < p0Hi then 1#32 else 0#32
  let w1 := s1a + p2Lo
  let c1b : Word := if w1 < s1a then 1#32 else 0#32
  let carryToW2 := c1a + c1b
  let s2a := p1Hi + p2Hi
  let c2a : Word := if s2a < p1Hi then 1#32 else 0#32
  let s2b := s2a + p3Lo
  let c2b : Word := if s2b < s2a then 1#32 else 0#32
  let w2 := s2b + carryToW2
  let c2c : Word := if w2 < s2b then 1#32 else 0#32
  let carryToW3 := c2a + c2b + c2c
  let w3 := p3Hi + carryToW3
  (w0, w1, w2, w3)

/-- The words of the product of two significands, the lowest first. -/
def cvmDMulWords (aMhiFull aMlo bMhiFull bMlo : Word) : Word × Word × Word × Word :=
  cvmDMulSum (aMlo * bMlo) (cvmMulhu aMlo bMlo) (aMlo * bMhiFull) (cvmMulhu aMlo bMhiFull) (aMhiFull * bMlo) (cvmMulhu aMhiFull bMlo)
    (aMhiFull * bMhiFull) (cvmMulhu aMhiFull bMhiFull)

/-- The 53 bits from the leading one of a product on, with its exponent. -/
def cvmDMulResult (rSign aExp bExp w1 w2 w3 : Word) : CvmF64 :=
  let extra : Nat := if (w3 >>> 9) &&& 1#32 ≠ 0#32 then 1 else 0
  let shift := 52 + extra
  let s := shift - 32
  let outHi := (w3 <<< (32 - s)) ||| (w2 >>> s)
  let outLo := (w2 <<< (32 - s)) ||| (w1 >>> s)
  let rExpSigned : Int := aExp.toInt + bExp.toInt - 1023 + extra
  if rExpSigned ≥ 0x7FF then (if rSign ≠ 0#32 then cvmDNegInf else cvmDInf)
  else if rExpSigned ≤ 0 then (if rSign ≠ 0#32 then cvmDNegZero else cvmDZero)
  else cvmDPack rSign (BitVec.ofInt 32 rExpSigned) (outHi &&& 0xFFFFF#32) outLo

/-- The product of two finite nonzero operands. -/
def cvmDMulFinite (rSign : Word) (a b : CvmF64) : CvmF64 :=
  let aMhiFull := cvmDMhi a ||| 0x100000#32
  let aMlo := a.lo
  let bMhiFull := cvmDMhi b ||| 0x100000#32
  let bMlo := b.lo
  let w := cvmDMulWords aMhiFull aMlo bMhiFull bMlo
  cvmDMulResult rSign (cvmDExp a) (cvmDExp b) w.2.1 w.2.2.1 w.2.2.2

/-- `cvm_d_mul` -/
def cvmDMul (a b : CvmF64) : CvmF64 :=
  if cvmDIsnan a || cvmDIsnan b then cvmDNan
  else
    let rSign := cvmDSign a ^^^ cvmDSign b
    if cvmDIsinf a then
      if cvmDIszero b then cvmDNan else if rSign ≠ 0#32 then cvmDNegInf else cvmDInf
    else if cvmDIsinf b then
      if cvmDIszero a then cvmDNan else if rSign ≠ 0#32 then cvmDNegInf else cvmDInf
    else if cvmDIszero a || cvmDIszero b then (if rSign ≠ 0#32 then cvmDNegZero else cvmDZero)
    else cvmDMulFinite rSign a b

/-! ## Division -/

/-- What `cvm_d_div_round_rne` writes through its pointers. -/
structure RoundedQuotient where
  qHi : Word
  qLo : Word
  rExpSigned : Int

/-- `cvm_d_div_round_rne`: rounds a quotient of 54 bits, the last of them the guard bit. -/
def cvmDDivRoundRne (qHi qLo : Word) (rExpSigned : Int) (rLo rHi : Word) : RoundedQuotient :=
  let guard := qLo &&& 1#32
  let sticky : Word := if rLo ||| rHi ≠ 0#32 then 1#32 else 0#32
  let ql := (qLo >>> 1) ||| (qHi <<< 31)
  let qh := qHi >>> 1
  let lsb := ql &&& 1#32
  if guard ≠ 0#32 ∧ (sticky ≠ 0#32 ∨ lsb ≠ 0#32) then
    let newLo := ql + 1#32
    let carry : Word := if newLo = 0#32 then 1#32 else 0#32
    let ql := newLo
    let qh := qh + carry
    if qh &&& 0x200000#32 ≠ 0#32 then ⟨qh >>> 1, (ql >>> 1) ||| ((qh &&& 1#32) <<< 31), rExpSigned + 1⟩
    else ⟨qh, ql, rExpSigned⟩
  else ⟨qh, ql, rExpSigned⟩

/-- The partial remainder and the quotient of the long division. -/
structure DivState where
  rHi : Word
  rLo : Word
  qHi : Word
  qLo : Word

/-- One turn of the long division. -/
def cvmDDivStep (bMHi bMLo : Word) (d : DivState) : DivState :=
  let rHi := (d.rHi <<< 1) ||| (d.rLo >>> 31)
  let rLo := d.rLo <<< 1
  let qHi := (d.qHi <<< 1) ||| (d.qLo >>> 31)
  let qLo := d.qLo <<< 1
  let rGeB : Bool := if rHi ≠ bMHi then decide (rHi > bMHi) else decide (rLo ≥ bMLo)
  if rGeB then
    let newLo := rLo - bMLo
    let borrow : Word := if rLo < bMLo then 1#32 else 0#32
    { rHi := rHi - bMHi - borrow, rLo := newLo, qHi := qHi, qLo := qLo ||| 1#32 }
  else { rHi := rHi, rLo := rLo, qHi := qHi, qLo := qLo }

/-- The state after a number of turns. -/
def cvmDDivLoop (bMHi bMLo : Word) (d : DivState) : Nat → DivState
  | 0 => d
  | n + 1 => cvmDDivStep bMHi bMLo (cvmDDivLoop bMHi bMLo d n)

/-- A dividend that is not below the divisor, and what that does to the exponent. -/
structure Dividend where
  aMHi : Word
  aMLo : Word
  expAdjust : Int

/-- The dividend, doubled if it is below the divisor. -/
def cvmDDivPreshift (aMHi aMLo bMHi bMLo : Word) : Dividend :=
  let aLtB : Bool := if aMHi ≠ bMHi then decide (aMHi < bMHi) else decide (aMLo < bMLo)
  if aLtB then ⟨(aMHi <<< 1) ||| (aMLo >>> 31), aMLo <<< 1, -1⟩ else ⟨aMHi, aMLo, 0⟩

/-- The state before the first turn: the leading one of the quotient is there. -/
def cvmDDivSeed (aMHi aMLo bMHi bMLo : Word) : DivState where
  rLo := aMLo - bMLo
  rHi := aMHi - bMHi - (if aMLo < bMLo then 1#32 else 0#32)
  qLo := 1#32
  qHi := 0#32

/-- A rounded quotient, packed. -/
def cvmDDivResult (rSign : Word) (q : RoundedQuotient) : CvmF64 :=
  if q.rExpSigned ≥ 0x7FF then (if rSign ≠ 0#32 then cvmDNegInf else cvmDInf)
  else if q.rExpSigned ≤ 0 then (if rSign ≠ 0#32 then cvmDNegZero else cvmDZero)
  else cvmDPack rSign (BitVec.ofInt 32 q.rExpSigned) (q.qHi &&& 0xFFFFF#32) q.qLo

/-- The quotient of two finite nonzero operands. -/
def cvmDDivFinite (rSign : Word) (a b : CvmF64) : CvmF64 :=
  let bMLo := b.lo
  let bMHi := cvmDMhi b ||| 0x100000#32
  let p := cvmDDivPreshift (cvmDMhi a ||| 0x100000#32) a.lo bMHi bMLo
  let d := cvmDDivLoop bMHi bMLo (cvmDDivSeed p.aMHi p.aMLo bMHi bMLo) 53
  let rExpSigned : Int := (cvmDExp a).toInt - (cvmDExp b).toInt + 1023 + p.expAdjust
  cvmDDivResult rSign (cvmDDivRoundRne d.qHi d.qLo rExpSigned d.rLo d.rHi)

/-- `cvm_d_div` -/
def cvmDDiv (a b : CvmF64) : CvmF64 :=
  if cvmDIsnan a || cvmDIsnan b then cvmDNan
  else
    let rSign := cvmDSign a ^^^ cvmDSign b
    if cvmDIsinf a then
      if cvmDIsinf b then cvmDNan else if rSign ≠ 0#32 then cvmDNegInf else cvmDInf
    else if cvmDIsinf b then (if rSign ≠ 0#32 then cvmDNegZero else cvmDZero)
    else if cvmDIszero b then
      if cvmDIszero a then cvmDNan else if rSign ≠ 0#32 then cvmDNegInf else cvmDInf
    else if cvmDIszero a then (if rSign ≠ 0#32 then cvmDNegZero else cvmDZero)
    else cvmDDivFinite rSign a b

end CronoVM
