import CronoVM.Isa

/-!
# 64-bit integers in software

`cvm_int64.h` and `cvm_int64_rt.c` of the runtime library: 64-bit integers as two words, and what the translator calls for divisions,
remainders and shifts by amounts it does not know.
-/

namespace CronoVM

/-- The struct `cvm_i64`. -/
structure CvmI64 where
  lo : Word
  hi : Word
  deriving DecidableEq, Repr

/-! ## Shifts of a word

As the machine shifts: by the low five bits of the amount. -/

def shlU32 (x n : Word) : Word := x <<< (n &&& 31#32)

def shrU32 (x n : Word) : Word := x >>> (n &&& 31#32)

def sarI32 (x n : Word) : Word := x.sshiftRight' (n &&& 31#32)

/-! ## `cvm_int64.h` -/

def cvmI64Zero : CvmI64 := ⟨0#32, 0#32⟩

def cvmI64FromParts (lo hi : Word) : CvmI64 := ⟨lo, hi⟩

def cvmI64Neg (x : CvmI64) : CvmI64 :=
  let lo := ~~~x.lo + 1#32
  { lo := lo, hi := ~~~x.hi + (if lo = 0#32 then 1#32 else 0#32) }

def cvmI64Sub (a b : CvmI64) : CvmI64 where
  lo := a.lo - b.lo
  hi := a.hi - b.hi - (if a.lo < b.lo then 1#32 else 0#32)

def cvmU64Shl (x : CvmI64) (nIn : Word) : CvmI64 :=
  let n := nIn &&& 63#32
  if n = 0#32 then x
  else if n ≥ 32#32 then { lo := 0#32, hi := shlU32 x.lo (n - 32#32) }
  else { lo := shlU32 x.lo n, hi := shlU32 x.hi n ||| shrU32 x.lo (32#32 - n) }

def cvmU64Shr (x : CvmI64) (nIn : Word) : CvmI64 :=
  let n := nIn &&& 63#32
  if n = 0#32 then x
  else if n ≥ 32#32 then { hi := 0#32, lo := shrU32 x.hi (n - 32#32) }
  else { hi := shrU32 x.hi n, lo := shrU32 x.lo n ||| shlU32 x.hi (32#32 - n) }

def cvmI64Sar (x : CvmI64) (nIn : Word) : CvmI64 :=
  let n := nIn &&& 63#32
  if n = 0#32 then x
  else if n ≥ 32#32 then { lo := sarI32 x.hi (n - 32#32), hi := sarI32 x.hi 31#32 }
  else { hi := sarI32 x.hi n, lo := shrU32 x.lo n ||| shlU32 x.hi (32#32 - n) }

def cvmU64Le (a b : CvmI64) : Bool := if a.hi ≠ b.hi then decide (a.hi < b.hi) else decide (a.lo ≤ b.lo)

/-! ## Division -/

/-- The quotient and the remainder of `cvm__udivmod64`. -/
structure DivMod64 where
  q : CvmI64
  r : CvmI64

/-- The turn of the loop for bit `i`. -/
def cvmUdivmodStep (a b : CvmI64) (i : Nat) (s : DivMod64) : DivMod64 :=
  let r := cvmU64Shl s.r 1#32
  let bit := if i ≥ 32 then (a.hi >>> (i - 32)) &&& 1#32 else (a.lo >>> i) &&& 1#32
  let r := { r with lo := r.lo ||| bit }
  if cvmU64Le b r then
    { r := cvmI64Sub r b
      q := if i ≥ 32 then { s.q with hi := s.q.hi ||| (1#32 <<< (i - 32)) } else { s.q with lo := s.q.lo ||| (1#32 <<< i) } }
  else { s with r := r }

/-- The state after the turns for the bits 63, 62, …, `k` of them. -/
def cvmUdivmodLoop (a b : CvmI64) : Nat → DivMod64
  | 0 => ⟨cvmI64Zero, cvmI64Zero⟩
  | k + 1 => cvmUdivmodStep a b (63 - k) (cvmUdivmodLoop a b k)

/-- `cvm__udivmod64` -/
def cvmUdivmod64 (a b : CvmI64) : DivMod64 := cvmUdivmodLoop a b 64

/-- What `cvm__i64_abs` writes through `neg`. -/
def cvmI64IsNeg (x : CvmI64) : Bool := (x.hi >>> 31) &&& 1#32 != 0#32

/-- `cvm__i64_abs` -/
def cvmI64Abs (x : CvmI64) : CvmI64 := if cvmI64IsNeg x then cvmI64Neg x else x

/-- `__cvm_udiv64` -/
def cvmUdiv64 (a b : CvmI64) : CvmI64 := (cvmUdivmod64 a b).q

/-- `__cvm_umod64` -/
def cvmUmod64 (a b : CvmI64) : CvmI64 := (cvmUdivmod64 a b).r

/-- `__cvm_sdiv64` -/
def cvmSdiv64 (a b : CvmI64) : CvmI64 :=
  let q := (cvmUdivmod64 (cvmI64Abs a) (cvmI64Abs b)).q
  if cvmI64IsNeg a ^^ cvmI64IsNeg b then cvmI64Neg q else q

/-- `__cvm_smod64` -/
def cvmSmod64 (a b : CvmI64) : CvmI64 :=
  let r := (cvmUdivmod64 (cvmI64Abs a) (cvmI64Abs b)).r
  if cvmI64IsNeg a then cvmI64Neg r else r

/-! ## Shifts by variable amounts -/

/-- `__cvm_shl64` -/
def cvmShl64 (x n : CvmI64) : CvmI64 := cvmU64Shl x n.lo

/-- `__cvm_shr64` -/
def cvmShr64 (x n : CvmI64) : CvmI64 := cvmU64Shr x n.lo

/-- `__cvm_sar64` -/
def cvmSar64 (x n : CvmI64) : CvmI64 := cvmI64Sar x n.lo

/-- `__cvm_fshl64` -/
def cvmFshl64 (a b c : CvmI64) : CvmI64 :=
  let s := c.lo &&& 63#32
  if s = 0#32 then a
  else
    let hi := cvmU64Shl a s
    let lo := cvmU64Shr b (64#32 - s)
    cvmI64FromParts (hi.lo ||| lo.lo) (hi.hi ||| lo.hi)

/-- `__cvm_fshr64` -/
def cvmFshr64 (a b c : CvmI64) : CvmI64 :=
  let s := c.lo &&& 63#32
  if s = 0#32 then b
  else
    let hi := cvmU64Shl a (64#32 - s)
    let lo := cvmU64Shr b s
    cvmI64FromParts (hi.lo ||| lo.lo) (hi.hi ||| lo.hi)

end CronoVM
