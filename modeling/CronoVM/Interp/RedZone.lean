import CronoVM.Lib.Memory
import CronoVM.Lib.LinearProbing

/-!
# The red zone

The checking allocator shadow of a build with `CVM_DIAG`: calls of the program's allocator are hooked, a byte of shadow for each byte of
the heap says whether it belongs to a live block, and a map with open addressing has the sizes of the blocks.
-/

namespace CronoVM

/-- `rz_on`: not set up, switched off, checking, or after the one report. -/
inductive RzOn where
  | unset | off | armed | reported
  deriving DecidableEq, Repr

/-- `rz_kind`, which is 0 outside the allocator. -/
inductive RzKind where
  | malloc | calloc | realloc | free
  deriving DecidableEq, Repr

/-- The statics of the red zone. -/
structure RedZone where
  on : RzOn
  shadow : Nat → Byte
  hs : Word
  he : Word
  malloc : Word
  free : Word
  realloc : Word
  calloc : Word
  key : Nat → Word
  val : Nat → Word
  depth : Nat
  /-- `rz_ad`, which is -1 outside the allocator. -/
  ad : Option Nat
  kind : Option RzKind
  a0 : Word
  a1 : Word

/-- The variables `CVM_REDZONE` and `CVM_RZ_*` of the environment. -/
structure RzEnv where
  redzone : Bool
  malloc : Option Word
  free : Option Word
  realloc : Option Word
  calloc : Option Word

/-- The statics before the first run. -/
def RedZone.initial : RedZone :=
  { on := .unset, shadow := fun _ => 0, hs := 0, he := 0, malloc := 0, free := 0, realloc := 0, calloc := 0,
    key := fun _ => 0, val := fun _ => 0, depth := 0, ad := none, kind := none, a0 := 0, a1 := 0 }

/-- `rz_setup`: hooks that the environment does not name get slot 0. -/
def rzSetup (env : RzEnv) (hs he : Word) (z : RedZone) : RedZone :=
  if z.on ≠ .unset then z
  else if ¬ env.redzone then { z with on := .off }
  else
    { z with
      on := .armed, hs, he, shadow := fun _ => 0, key := fun _ => 0, val := fun _ => 0,
      malloc := env.malloc.getD 0, free := env.free.getD 0, realloc := env.realloc.getD 0, calloc := env.calloc.getD 0 }

/-! ## The map from pointers to sizes -/

/-- `RZ_MAPN` -/
def rzMapN : Word := 0x100000#32

/-- The `i`-th slot that is looked at for a pointer. -/
def rzSlot (p : Word) (i : Nat) : Nat :=
  let h := (p >>> 3) &&& (rzMapN - 1)
  ((h + BitVec.ofNat 32 i) &&& (rzMapN - 1)).toNat

/-- The loop of `rz_put`, `rz_get` and `rz_del`, up to the first slot that is empty or has the pointer. -/
def rzProbe (key : Nat → Word) (p : Word) : Option Nat :=
  LinearProbing.firstStop (rzSlot p) (fun j => key j = 0 ∨ key j = p) rzMapN.toNat 0

/-- `rz_put` -/
def rzPut (z : RedZone) (p s : Word) : RedZone :=
  if p = 0 then z
  else match rzProbe z.key p with
    | some j => { z with key := Function.update z.key j p, val := Function.update z.val j s }
    | none => z

/-- `rz_get` -/
def rzGet (z : RedZone) (p : Word) : Word :=
  match rzProbe z.key p with
  | some j => if z.key j = 0 then 0 else z.val j
  | none => 0

/-- `rz_del` -/
def rzDel (z : RedZone) (p : Word) : RedZone :=
  match rzProbe z.key p with
  | some j =>
    if z.key j = 0 then z else { z with key := Function.update z.key j 0, val := Function.update z.val j 0 }
  | none => z

/-! ## The shadow -/

/-- `rz_mark` -/
def rzMark (z : RedZone) (a s : Word) (v : Byte) : RedZone :=
  if a < z.hs then z
  else
    let stop := if a + s > z.he then z.he else a + s
    if a ≥ stop then z
    else
      { z with
        shadow := fun i =>
          if (a - z.hs).toNat ≤ i ∧ i < (a - z.hs).toNat + (stop - a).toNat then v else z.shadow i }

/-- `rz_check`, without its report. -/
def rzCheck (z : RedZone) (addr sz : Word) : RedZone :=
  if z.on ≠ .armed ∨ z.ad.isSome then z
  else if addr < z.hs ∨ addr ≥ z.he then z
  else
    let stop := if addr + sz > z.he then z.he else addr + sz
    if (List.range' addr.toNat (stop.toNat - addr.toNat)).any fun p => z.shadow (p - z.hs.toNat) = 0 then
      { z with on := .reported }
    else z

/-! ## The hooks -/

/-- The allocator function that a slot of FUNCS is hooked as, if any. -/
def rzKind (z : RedZone) (fid : Word) : Option RzKind :=
  if fid = z.malloc then some .malloc
  else if fid = z.calloc then some .calloc
  else if fid = z.realloc then some .realloc
  else if fid = z.free then some .free
  else none

/-- `rz_call`, with the first two registers. -/
def rzCall (z : RedZone) (fid r0 r1 : Word) : RedZone :=
  if z.on ≠ .armed then z
  else
    let z := { z with depth := z.depth + 1 }
    if z.ad.isSome then z
    else match rzKind z fid with
      | none => z
      | some k => { z with ad := some z.depth, kind := some k, a0 := r0, a1 := r1 }

/-- What `rz_ret` does when the allocator returns `res`. -/
def rzServed (z : RedZone) (res : Word) : RedZone :=
  match z.kind with
  | some .malloc => if res ≠ 0 then rzPut (rzMark z res z.a0 1) res z.a0 else z
  | some .calloc =>
    let s := z.a0 * z.a1
    if res ≠ 0 then rzPut (rzMark z res s 1) res s else z
  | some .free => if z.a0 ≠ 0 then rzDel (rzMark z z.a0 (rzGet z z.a0) 0) z.a0 else z
  | some .realloc =>
    let os := rzGet z z.a0
    if res ≠ 0 ∧ res ≠ z.a0 then
      let released := if z.a0 ≠ 0 then rzDel (rzMark z z.a0 os 0) z.a0 else z
      rzPut (rzMark released res z.a1 1) res z.a1
    else if res ≠ 0 then
      let marked := if z.a1 > os then rzMark z (z.a0 + os) (z.a1 - os) 1 else rzMark z (z.a0 + z.a1) (os - z.a1) 0
      rzPut marked res z.a1
    else z
  | none => z

/-- `rz_ret`, with the first register. -/
def rzRet (z : RedZone) (r0 : Word) : RedZone :=
  if z.on ≠ .armed then z
  else
    let z := if z.ad = some z.depth then { rzServed z r0 with ad := none, kind := none } else z
    { z with depth := z.depth - 1 }

/-- What the interpreter tells the red zone. -/
inductive RzEvent where
  | call (fid r0 r1 : Word)
  | ret (r0 : Word)
  | store (addr sz : Word)

def rzEvent (z : RedZone) : RzEvent → RedZone
  | .call fid r0 r1 => rzCall z fid r0 r1
  | .ret r0 => rzRet z r0
  | .store addr sz => rzCheck z addr sz

end CronoVM
