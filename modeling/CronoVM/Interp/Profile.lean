import CronoVM.Isa

/-!
# The profiler

`cvm_profile_reset` and `PROF_TICK` of a build with `CVM_PROFILE`. Function `s` of a program has its entry in slot `2 * s` of FUNCS.
-/

namespace CronoVM

/-- The counters, and the locals of `cvm_exec_at` that cache a function with its range. -/
structure Prof where
  counts : List (BitVec 64)
  total : BitVec 64
  cur : Nat
  lo : Word
  hi : Word
  deriving DecidableEq, Repr

/-- `cvm_profile_reset`, if memory does not run out, and the start of `cvm_exec_at`. -/
def cvmProfileReset (funcCount : Nat) : Prof :=
  { counts := List.replicate funcCount 0, total := 0, cur := 0, lo := 0, hi := 0 }

/-- The entry of function `s`. -/
def profEntry (funcOffsets : List Word) (s : Nat) : Word := funcOffsets.getD (s * 2) 0

/-- The binary search of `PROF_TICK` in `[lo, hi)`. -/
def profSearch (funcOffsets : List Word) (pc : Word) (lo hi ans : Nat) : Nat :=
  if lo < hi then
    let m := (lo + hi) / 2
    if profEntry funcOffsets m ≤ pc then profSearch funcOffsets pc (m + 1) hi m else profSearch funcOffsets pc lo m ans
  else ans
  termination_by hi - lo

/-- The refresh of the cache. -/
def profRefresh (funcOffsets : List Word) (codeCount pc : Word) (p : Prof) : Prof :=
  let ns := funcOffsets.length / 2
  let ans := profSearch funcOffsets pc 1 ns 0
  { p with
    cur := ans
    lo := if ans ≠ 0 then profEntry funcOffsets ans else 0
    hi := if ans + 1 < ns then profEntry funcOffsets (ans + 1) else codeCount }

/-- `PROF_TICK`: the counters after the instruction at `pc` is charged, and whether the cap is reached. -/
def profTick (funcOffsets : List Word) (codeCount : Word) (cap : BitVec 64) (pc : Word) (p : Prof) : Prof × Bool :=
  let p := if pc < p.lo ∨ pc ≥ p.hi then profRefresh funcOffsets codeCount pc p else p
  let counts := if p.cur < p.counts.length then p.counts.modify p.cur (· + 1) else p.counts
  let total := p.total + 1
  ({ p with counts, total }, cap ≠ 0 ∧ total ≥ cap)

/-- The profile after the instructions at the given places. -/
def profRun (funcOffsets : List Word) (codeCount : Word) (cap : BitVec 64) (p : Prof) (pcs : List Word) : Prof :=
  pcs.foldl (fun p pc => (profTick funcOffsets codeCount cap pc p).1) p

end CronoVM
