import CronoVM.Lib.LinearProbing
import CronoVM.Translator.Emit

/-!
# From values to indices

The arrays in which `struct cg` keeps the homes of values, and the hash with open addressing that finds the index of a value in them.
`int`s are natural numbers, and an allocation succeeds.
-/

namespace CronoVM

/-- `LLVMValueRef`, where it points at a value; NULL is `none`. -/
structure LLVMValueRef where
  addr : BitVec 64
  ne_null : addr ≠ 0
  deriving DecidableEq

/-- The part of `struct cg` that the functions below work on. -/
structure ValueIndex where
  /-- `vals`, `regs` and the arrays of slots, up to `map_count`. -/
  vals : List (LLVMValueRef × Home)
  mapCap : Nat
  htabKey : Nat → Option LLVMValueRef
  htabIdx : Nat → Int
  htabCap : Nat

/-- `map_count`. -/
def ValueIndex.mapCount (s : ValueIndex) : Nat := s.vals.length

/-- `struct cg cg = {0}`. -/
def ValueIndex.initial : ValueIndex := { vals := [], mapCap := 0, htabKey := fun _ => none, htabIdx := fun _ => 0, htabCap := 0 }

/-- What `cg_reset_function_state` does to this part. -/
def cgResetFunctionState (s : ValueIndex) : ValueIndex :=
  let s := { s with vals := [] }
  if s.htabCap ≠ 0 then { s with htabKey := fun _ => none } else s

/-! ## The hash -/

/-- The slots a probe loop looks at, in their order. -/
def htabSlot (cap : Nat) (v : LLVMValueRef) : Nat → Nat
  | 0 => (v.addr.toNat >>> 4) &&& (cap - 1)
  | i + 1 => (htabSlot cap v i + 1) &&& (cap - 1)

/-- The loop of `cg_htab_put` and `cg_lookup`, up to the first slot that is empty or has the value. After `htab_cap` slots the loop is
back at its first one, so that it does not end if there is none among these. -/
def htabProbe (cap : Nat) (key : Nat → Option LLVMValueRef) (v : LLVMValueRef) : Option Nat :=
  LinearProbing.firstStop (htabSlot cap v) (fun h => key h = none ∨ key h = some v) cap 0

/-- `cg_htab_put` -/
def cgHtabPut (s : ValueIndex) (v : LLVMValueRef) (idx : Int) : Option ValueIndex := do
  let h ← htabProbe s.htabCap s.htabKey v
  if s.htabKey h = some v then
    some s
  else
    some { s with htabKey := Function.update s.htabKey h (some v), htabIdx := Function.update s.htabIdx h idx }

/-- `while (cap < min_cap) cap <<= 1;`, for at most `fuel` turns. -/
def growCap (minCap : Nat) : Nat → Nat → Nat
  | 0, cap => cap
  | fuel + 1, cap => if cap < minCap then growCap minCap fuel (cap <<< 1) else cap

/-- `cg_htab_grow`; `junk` is what `malloc` finds in the memory of `htab_idx`. -/
def cgHtabGrow (s : ValueIndex) (minCap : Nat) (junk : Nat → Int) : Option ValueIndex :=
  let cap := growCap minCap minCap (if s.htabCap ≠ 0 then s.htabCap else 64)
  let s := { s with htabKey := fun _ => none, htabIdx := junk, htabCap := cap }
  s.vals.zipIdx.foldlM (fun s e => cgHtabPut s e.1.1 e.2) s

/-- `cg_lookup` -/
def cgLookup (s : ValueIndex) (v : LLVMValueRef) : Option Int :=
  if s.htabCap = 0 then
    some (-1)
  else do
    let h ← htabProbe s.htabCap s.htabKey v
    if s.htabKey h = none then some (-1) else some (s.htabIdx h)

/-- `cg_assign`; the entry it writes into the arrays counts from `map_count++` on. -/
def cgAssign (s : ValueIndex) (v : LLVMValueRef) (r : Byte) (junk : Nat → Int) : Option (Byte × ValueIndex) := do
  let s := if s.mapCount = s.mapCap then { s with mapCap := if s.mapCap ≠ 0 then s.mapCap * 2 else 16 } else s
  let s ← if s.htabCap < 2 * (s.mapCount + 1) then cgHtabGrow s (2 * (s.mapCount + 1)) junk else some s
  let s ← cgHtabPut s v s.mapCount
  some (r, { s with vals := s.vals ++ [(v, { reg := r })] })

/-! ## Runs -/

/-- What the translator does with the arrays, a function after another. -/
inductive IndexOp where
  | assign (v : LLVMValueRef) (r : Byte) (junk : Nat → Int)
  | lookup (v : LLVMValueRef)
  | reset

/-- One operation; none if a loop of it does not end. -/
def IndexOp.run (s : ValueIndex) : IndexOp → Option ValueIndex
  | .assign v r junk => (cgAssign s v r junk).map Prod.snd
  | .lookup v => (cgLookup s v).map fun _ => s
  | .reset => some (cgResetFunctionState s)

/-- Operations from the state the translator starts in. -/
def runIndexOps (ops : List IndexOp) : Option ValueIndex := ops.foldlM IndexOp.run ValueIndex.initial

end CronoVM
