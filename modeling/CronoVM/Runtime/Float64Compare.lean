import CronoVM.Runtime.Float64

/-!
# Comparisons of doubles in software

The comparisons of `cvm_float64.h` and the helpers of `cvm_float64_rt.c` the translator calls for an `fcmp`. An `int` that is 0 or 1 is a
Boolean here.
-/

namespace CronoVM

/-- `cvm_d_eq` -/
def cvmDEq (a b : CvmF64) : Bool :=
  if cvmDIsnan a || cvmDIsnan b then false
  else if cvmDIszero a && cvmDIszero b then true
  else a.lo == b.lo && a.hi == b.hi

/-- `cvm_d_ne` -/
def cvmDNe (a b : CvmF64) : Bool :=
  if cvmDIsnan a || cvmDIsnan b then true
  else if cvmDIszero a && cvmDIszero b then false
  else a.lo != b.lo || a.hi != b.hi

/-- `cvm_d_lt` -/
def cvmDLt (a b : CvmF64) : Bool :=
  if cvmDIsnan a || cvmDIsnan b then false
  else if cvmDIszero a && cvmDIszero b then false
  else
    let sa := cvmDSign a
    let sb := cvmDSign b
    if sa ≠ sb then decide (sa > sb)
    else if sa = 0#32 then (if a.hi ≠ b.hi then decide (a.hi < b.hi) else decide (a.lo < b.lo))
    else (if a.hi ≠ b.hi then decide (a.hi > b.hi) else decide (a.lo > b.lo))

/-- `cvm_d_le` -/
def cvmDLe (a b : CvmF64) : Bool := cvmDLt a b || cvmDEq a b

/-- `cvm_d_gt` -/
def cvmDGt (a b : CvmF64) : Bool := cvmDLt b a

/-- `cvm_d_ge` -/
def cvmDGe (a b : CvmF64) : Bool := cvmDLe b a

/-! ## The helpers -/

/-- The helpers that compare two doubles. -/
inductive FloatHelper where
  | feq | fne | flt | fle | fgt | fge | ford | fone
  deriving DecidableEq, Repr

/-- The name the translator looks a helper up by. -/
def FloatHelper.name : FloatHelper → String
  | .feq => "__cvm_feq"
  | .fne => "__cvm_fne"
  | .flt => "__cvm_flt"
  | .fle => "__cvm_fle"
  | .fgt => "__cvm_fgt"
  | .fge => "__cvm_fge"
  | .ford => "__cvm_ford"
  | .fone => "__cvm_fone"

/-- What a helper returns. -/
def FloatHelper.eval : FloatHelper → CvmF64 → CvmF64 → Bool
  | .feq, a, b => cvmDEq a b
  | .fne, a, b => cvmDNe a b
  | .flt, a, b => cvmDLt a b
  | .fle, a, b => cvmDLe a b
  | .fgt, a, b => cvmDGt a b
  | .fge, a, b => cvmDGe a b
  | .ford, a, b => !cvmDIsnan a && !cvmDIsnan b
  | .fone, a, b => cvmDLt a b || cvmDLt b a

end CronoVM
