import CronoVM.Runtime.Float64Compare

/-!
# Conversions and square roots in software

The conversions between doubles and the other types of `cvm_float64.h`, and of `cvm_float64_rt.c` those from 64-bit integers and
`__cvm_fsqrt`. A `float` is the word of its bits here, and so is an `int32_t`.
-/

namespace CronoVM

/-- `cvm_d_from_f32` -/
def cvmDFromF32 (f : Word) : CvmF64 :=
  let sign := f >>> 31
  let exp32 := (f >>> 23) &&& 0xFF#32
  let m32 := f &&& 0x7FFFFF#32
  if exp32 = 0#32 then (if sign ≠ 0#32 then cvmDNegZero else cvmDZero)
  else if exp32 = 0xFF#32 then
    if m32 = 0#32 then (if sign ≠ 0#32 then cvmDNegInf else cvmDInf) else cvmDNan
  else
    let exp64 := exp32 - 127#32 + 1023#32
    let mhi := m32 >>> 3
    let mlo := (m32 &&& 0x7#32) <<< 29
    cvmDPack sign exp64 mhi mlo

/-- `cvm_d_to_f32` -/
def cvmDToF32 (x : CvmF64) : Word :=
  let sign := cvmDSign x
  let exp64 := cvmDExp x
  if exp64 = 0#32 then sign <<< 31
  else if exp64 = 0x7FF#32 then (if cvmDMhi x = 0#32 ∧ x.lo = 0#32 then (sign <<< 31) ||| 0x7F800000#32 else 0x7FC00000#32)
  else
    let e32 : Int := exp64.toInt - 1023 + 127
    if e32 ≥ 0xFF then (sign <<< 31) ||| 0x7F800000#32
    else if e32 ≤ 0 then sign <<< 31
    else
      let m23 := (cvmDMhi x <<< 3) ||| (x.lo >>> 29)
      (sign <<< 31) ||| (BitVec.ofInt 32 e32 <<< 23) ||| (m23 &&& 0x7FFFFF#32)

/-- A mantissa without its leading one, shifted left. -/
def cvmDMantissa (mantNoLead : Word) (shl : Nat) : Significand :=
  if shl ≥ 32 then { mLo := 0#32, mHi := mantNoLead <<< (shl - 32) }
  else if shl = 0 then { mLo := mantNoLead, mHi := 0#32 }
  else { mLo := mantNoLead <<< shl, mHi := mantNoLead >>> (32 - shl) }

/-- `cvm_d_from_u32` -/
def cvmDFromU32 (v : Word) : CvmF64 :=
  if v = 0#32 then cvmDZero
  else
    let top := cvmTopBitU32 v
    let exp := BitVec.ofNat 32 (1023 + top)
    let mantNoLead := v ^^^ (1#32 <<< top)
    let m := cvmDMantissa mantNoLead (52 - top)
    cvmDPack 0#32 exp (m.mHi &&& 0xFFFFF#32) m.mLo

/-- `cvm_d_from_i32` -/
def cvmDFromI32 (v : Word) : CvmF64 :=
  if v = 0#32 then cvmDZero
  else if v.slt 0#32 then
    let mag := ~~~v + 1#32
    let r := cvmDFromU32 mag
    { r with hi := r.hi ||| 0x80000000#32 }
  else cvmDFromU32 v

/-- The integer part of a double with the exponent `e`, from its significand. -/
def cvmDTruncate (x : CvmF64) (e : Int) : Word :=
  let mhiFull := cvmDMhi x ||| 0x100000#32
  let sh := (52 - e).toNat
  if sh ≥ 32 then mhiFull >>> (sh - 32) else (mhiFull <<< (32 - sh)) ||| (x.lo >>> sh)

/-- `cvm_d_to_i32` -/
def cvmDToI32 (x : CvmF64) : Word :=
  if cvmDIsnan x then 0#32
  else
    let sign := cvmDSign x
    let exp := cvmDExp x
    if exp = 0#32 then 0#32
    else
      let e : Int := exp.toInt - 1023
      if e < 0 then 0#32
      else if e ≥ 31 then (if sign ≠ 0#32 then 0x80000000#32 else 0x7FFFFFFF#32)
      else
        let result := cvmDTruncate x e
        if sign ≠ 0#32 then -result else result

/-- `cvm_d_to_u32` -/
def cvmDToU32 (x : CvmF64) : Word :=
  if cvmDIsnan x then 0#32
  else if cvmDSign x ≠ 0#32 then 0#32
  else
    let exp := cvmDExp x
    if exp = 0#32 then 0#32
    else
      let e : Int := exp.toInt - 1023
      if e < 0 then 0#32 else if e ≥ 32 then 0xFFFFFFFF#32 else cvmDTruncate x e

/-- `__cvm_f_from_u64` -/
def cvmFFromU64 (v : BitVec 64) : CvmF64 :=
  let lo : Word := v.setWidth 32
  let hi : Word := (v >>> 32).setWidth 32
  let dlo := cvmDFromU32 lo
  if hi = 0#32 then dlo
  else
    let k16 := cvmDFromU32 0x10000#32
    let thi := cvmDMul (cvmDMul (cvmDFromU32 hi) k16) k16
    cvmDAdd thi dlo

/-- `__cvm_f_from_i64` -/
def cvmFFromI64 (v : BitVec 64) : CvmF64 := if v.slt 0#64 then cvmDNeg (cvmFFromU64 (-v)) else cvmFFromU64 v

/-- The constant 0.5. -/
def cvmDHalf : CvmF64 := cvmDPack 0#32 1022#32 0#32 0#32

/-- One turn of the loop of `__cvm_fsqrt`. -/
def cvmFsqrtStep (x y : CvmF64) : CvmF64 := cvmDMul (cvmDAdd y (cvmDDiv x y)) cvmDHalf

/-- The first approximation: the exponent is halved. -/
def cvmFsqrtSeed (x : CvmF64) : CvmF64 :=
  let se : Int := ((cvmDExp x).toInt - 1023) / 2
  cvmDPack 0#32 (BitVec.ofInt 32 (se + 1023)) 0#32 0#32

/-- The approximation after a number of turns. -/
def cvmFsqrtLoop (x : CvmF64) : Nat → CvmF64
  | 0 => cvmFsqrtSeed x
  | n + 1 => cvmFsqrtStep x (cvmFsqrtLoop x n)

/-- `__cvm_fsqrt` -/
def cvmFsqrt (x : CvmF64) : CvmF64 :=
  if cvmDIsnan x then cvmDNan
  else if cvmDIszero x then x
  else if cvmDSign x ≠ 0#32 then cvmDNan
  else if cvmDIsinf x then x
  else cvmFsqrtLoop x 6

end CronoVM
