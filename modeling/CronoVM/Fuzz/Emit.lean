import CronoVM.Fuzz.Language
import CronoVM.Lib.Draws

/-!
# The generator of test programs

The emitters of `cvm-fuzz`: each draws from the generator's stream of numbers and gives the part of the program that it prints. The counts
of the variables, a global in the source, are an argument. Layout and comments are left out.
-/

namespace CronoVM.Fuzz

open CIntegers Draws

/-! ## Draws -/

abbrev Gen : Type → Type := Draw (BitVec 64)

/-- A number below `n`, from a number of `rng_next`. -/
def rnd (n : Nat) : Gen Nat := do
  let z ← draw
  pure (z.toNat % n)

def chance (pct : Nat) : Gen Bool := do
  let k ← rnd 100
  pure (k < pct)

/-- An element of a table. -/
def pick {α : Type} (table : List α) (default : α) : Gen α := do
  let k ← rnd table.length
  pure (table.getD k default)

/-! ## Expressions -/

namespace Ty

/-- `TYBITS` -/
def bits : Ty → Nat
  | .u8 => 8
  | .u16 => 16
  | .u32 => 32
  | .u64 => 64

/-- `TYNAME` -/
def name : Ty → StdType
  | .u8 => .uint8
  | .u16 => .uint16
  | .u32 => .uint32
  | .u64 => .uint64

/-- `ctype` -/
def ctype (t : Ty) : StdType := if t = .u64 then .uint64 else .uint32

/-- The signed type of a comparison. -/
def signed : Ty → StdType
  | .u8 => .int8
  | .u16 => .int16
  | .u32 => .int32
  | .u64 => .int64

/-- `for (int t = 0; t < NTYPES; t++)` -/
def all : List Ty := [.u8, .u16, .u32, .u64]

end Ty

/-- `g_count` -/
abbrev Pool : Type := Ty → Nat

/-- The counts of the four types. -/
def pool (n8 n16 n32 n64 : Nat) : Pool
  | .u8 => n8
  | .u16 => n16
  | .u32 => n32
  | .u64 => n64

/-- `rnd(NTYPES)` as a type. -/
def rndTy : Gen Ty := pick Ty.all .u8

def emitLit (t : Ty) : Gen Expr :=
  match t with
  | .u8 => return .lit .int32 (← rnd 256)
  | .u16 => return .lit .int32 (← rnd 65536)
  | .u32 => return .lit .uint32 ((← draw).toNat % 2 ^ 32)
  | .u64 => return .lit .uint64 (← draw).toNat

/-- The name that `emit_var` prints. -/
def emitVar (count : Pool) (t : Ty) : Gen Name := do
  let k ← rnd (count t)
  pure (.pool t k)

def emitLeaf (count : Pool) (t : Ty) : Gen Expr := do
  if count t > 0 then
    if ← chance 70 then return .var (← emitVar count t) else emitLit t
  else emitLit t

/-- A comparison that is not signed has all operators. -/
def cmpOps : List CmpOp := [.lt, .gt, .le, .ge, .eq, .ne]

/-- The type that a `select` compares: `cmpt`. -/
def pickCmpt : Gen Ty := do
  if ← chance 60 then
    if ← chance 50 then return .u8 else return .u16
  else return .u32

/-- The forms of `emit_expr`, with what it calls for the operands. -/
def emitForm (sub : Ty → Gen Expr) (t : Ty) (form : Nat) : Gen Expr :=
  match form with
  | 0 | 1 => do
    let op ← pick [.add, .sub, .mul, .and, .or, .xor] .add
    let a ← sub t
    let b ← sub t
    pure (.cast t.name (.bin op (.cast t.ctype a) (.cast t.ctype b)))
  | 2 => do
    let sh ← rnd t.bits
    let dir : BinOp := if ← chance 50 then .shl else .shr
    let a ← sub t
    pure (.cast t.name (.bin dir (.cast t.ctype a) (.lit .int32 sh)))
  | 3 => do
    let w := t.bits
    let r := 1 + (← rnd (w - 1))
    let a ← sub t
    let b ← sub t
    pure (.cast t.name (.bin .or (.bin .shl (.cast t.ctype a) (.lit .int32 r)) (.bin .shr (.cast t.ctype b) (.lit .int32 (w - r)))))
  | 4 => do
    let op : BinOp := if ← chance 50 then .div else .mod
    let a ← sub t
    let b ← sub t
    pure (.cast t.name (.bin op (.cast t.ctype a) (.bin .or (.cast t.ctype b) (.lit .uint32 1))))
  | 5 => do
    let s ← rndTy
    let a ← sub s
    pure (.cast t.name a)
  | _ => do
    let cmpt ← pickCmpt
    let a ← sub cmpt
    let op ← pick cmpOps .lt
    let b ← sub cmpt
    let x ← sub t
    let y ← sub t
    pure (.cast t.name (.cond (.cmp op (.cast cmpt.signed a) (.cast cmpt.signed b)) x y))

/-- `emit_expr`; `rot64` is `g_allow_rot64`. -/
def emitExpr (count : Pool) (rot64 : Bool) : Nat → Ty → Gen Expr
  | 0, t => emitLeaf count t
  | depth + 1, t => do
    if ← chance 35 then emitLeaf count t
    else do
      let form ← rnd 7
      let form := if form = 3 ∧ t = .u64 ∧ rot64 = false then 0 else form
      emitForm (emitExpr count rot64 depth) t form

/-! ## Statements -/

section statements

variable (count : Pool) (rot64 : Bool)

/-- The first loop of `emit_assign`: at most `tries` draws more for a type that has variables. -/
def pickType (tries : Nat) : Gen Ty := do
  let t ← rndTy
  if count t = 0 then
    match tries with
    | 0 => pure t
    | tries + 1 => pickType tries
  else pure t

def emitAssign : Gen (List Simple) := do
  let t ← pickType count 7
  if count t = 0 then return []
  else do
    let x ← emitVar count t
    let depth := 2 + (← rnd 2)
    let e ← emitExpr count rot64 depth t
    return [.assign x e]

/-- `while (k--) emit_assign(indent);` -/
def emitAssigns (k : Nat) : Gen (List Simple) := do
  let groups ← each (List.range k) fun _ => emitAssign count rot64
  return groups.flatten

def emitCond : Gen Expr := do
  let t ← rndTy
  if ← chance 50 then do
    let a ← emitExpr count rot64 2 t
    let op ← pick [.lt, .gt, .le, .ge] .lt
    let b ← emitExpr count rot64 2 t
    return .cmp op (.cast t.signed a) (.cast t.signed b)
  else do
    let a ← emitExpr count rot64 2 t
    let op ← pick cmpOps .lt
    let b ← emitExpr count rot64 2 t
    return .cmp op a b

/-- The line of a loop that feeds its counter in. -/
def emitFeed : Gen (List Simple) := do
  if count .u32 > 0 then do
    let x ← emitVar count .u32
    let y ← emitVar count .u32
    return [.assign x (.bin .add (.var y) (.var .index))]
  else return []

/-- `emit_stmt` -/
def emitStmt : Gen (List Stmt) := do
  let kind ← rnd 100
  if kind < 45 then do
    let k := 1 + (← rnd 3)
    return (← emitAssigns count rot64 k).map .simple
  else if kind < 60 then do
    let c ← emitCond count rot64
    let k := 1 + (← rnd 3)
    let ss ← emitAssigns count rot64 k
    let k := 1 + (← rnd 3)
    let ts ← emitAssigns count rot64 k
    return [.ite c ss ts]
  else if kind < 72 then do
    let trips := 1 + (← rnd 8)
    let feed ← emitFeed count
    let k := 1 + (← rnd 2)
    let ss ← emitAssigns count rot64 k
    return [.loop trips (feed ++ ss)]
  else if kind < 84 then
    if count .u32 = 0 then return (← emitAssign count rot64).map .simple
    else do
      let m := 2 + (← rnd 6)
      let x ← emitVar count .u32
      let cases ← each (List.range m) fun c => do
        let y ← emitVar count .u32
        let e ← emitExpr count rot64 2 .u32
        return (c, Simple.assign y e)
      return [.switch (.bin .and (.var x) (.lit .int32 (m - 1))) cases]
  else if kind < 94 then
    if count .u32 ≥ 1 then do
      if ← chance 50 then do
        let x ← emitVar count .u32
        let args ← each (List.range 4) fun _ => emitLeaf count .u32
        return [.simple (.call x .mix32 args)]
      else if count .u64 ≥ 1 then do
        let x ← emitVar count .u64
        let args ← each (List.range 3) fun _ => emitLeaf count .u64
        return [.simple (.call x .mix64 args)]
      else return (← emitAssign count rot64).map .simple
    else return (← emitAssign count rot64).map .simple
  else
    if count .u32 ≥ 1 ∧ count .u64 ≥ 1 ∧ count .u16 ≥ 1 ∧ count .u8 ≥ 1 then do
      let x ← emitLeaf count .u32
      let y ← emitLeaf count .u16
      let z ← emitLeaf count .u8
      let w ← emitLeaf count .u64
      let dst ← emitVar count .u32
      return [.block [
        .decl .uint32 (.field .local .x) x, .decl .uint16 (.field .local .y) y,
        .decl .uint8 (.field .local .z) z, .decl .uint64 (.field .local .w) w,
        .decl .uint32 (.field .copy .x) (.var (.field .local .x)), .decl .uint16 (.field .copy .y) (.var (.field .local .y)),
        .decl .uint8 (.field .copy .z) (.var (.field .local .z)), .decl .uint64 (.field .copy .w) (.var (.field .local .w)),
        .call dst .useS [.var (.field .copy .x), .var (.field .copy .y), .var (.field .copy .z), .var (.field .copy .w)]]]
    else return (← emitAssign count rot64).map .simple

end statements

/-! ## Functions -/

/-- `x op= e;` -/
def opAssign (op : BinOp) (x : Name) (e : Expr) : Stmt := .simple (.assign x (.bin op (.var x) e))

def mix32 : Fn where
  name := .mix32
  params := [(.param 0, .uint32), (.param 1, .uint32), (.param 2, .uint32), (.param 3, .uint32)]
  body := [opAssign .add (.param 0) (.var (.param 1)), opAssign .xor (.param 0) (.bin .shr (.var (.param 0)) (.lit .int32 13)),
    opAssign .mul (.param 0) (.lit .uint32 0x9e3779b1), opAssign .sub (.param 0) (.var (.param 2)),
    opAssign .xor (.param 0) (.bin .shl (.var (.param 0)) (.lit .int32 7)), opAssign .add (.param 0) (.var (.param 3)),
    opAssign .xor (.param 0) (.bin .shr (.var (.param 0)) (.lit .int32 17))]
  retType := .uint32
  ret := .var (.param 0)

def mix64 : Fn where
  name := .mix64
  params := [(.param 0, .uint64), (.param 1, .uint64), (.param 2, .uint64)]
  body := [opAssign .add (.param 0) (.var (.param 1)), opAssign .xor (.param 0) (.bin .shr (.var (.param 0)) (.lit .int32 29)),
    opAssign .mul (.param 0) (.lit .uint64 0xff51afd7ed558ccd), opAssign .sub (.param 0) (.var (.param 2)),
    opAssign .xor (.param 0) (.bin .shl (.var (.param 0)) (.lit .int32 17))]
  retType := .uint64
  ret := .var (.param 0)

def useS : Fn where
  name := .useS
  params := [(.field .param .x, .uint32), (.field .param .y, .uint16), (.field .param .z, .uint8), (.field .param .w, .uint64)]
  body := []
  retType := .uint32
  ret := .bin .xor (.bin .xor (.bin .xor (.bin .xor (.var (.field .param .x)) (.cast .uint32 (.var (.field .param .y))))
    (.cast .uint32 (.var (.field .param .z)))) (.cast .uint32 (.var (.field .param .w))))
    (.cast .uint32 (.bin .shr (.var (.field .param .w)) (.lit .int32 32)))

/-- `emit_helpers`, the last function first. -/
def emitHelpers : Program := [useS, mix64, mix32]

/-- The variables of the pool, in the order of their declarations. -/
def poolVars (count : Pool) : List (Ty × Nat) := Ty.all.flatMap fun t => (List.range (count t)).map fun k => (t, k)

/-- A turn of FNV-1a: the checksum takes a word in. -/
def mixIn (e : Expr) : Simple := .assign .sum (.bin .mul (.bin .xor (.var .sum) e) (.lit .uint32 16777619))

/-- The words of a variable of the pool. -/
def poolWords (v : Ty × Nat) : List Expr :=
  if v.1 = .u64 then [.cast .uint32 (.var (.pool v.1 v.2)), .cast .uint32 (.bin .shr (.var (.pool v.1 v.2)) (.lit .int32 32))]
  else [.cast .uint32 (.var (.pool v.1 v.2))]

/-- `emit_gen_helper`; the counts of the program come back when it is done, since they are an argument. -/
def emitGenHelper (rot64 : Bool) (id : Nat) : Gen Fn := do
  let n8 := 2 + (← rnd 3)
  let n16 := 2 + (← rnd 3)
  let n32 := 3 + (← rnd 5)
  let n64 := 1 + (← rnd 3)
  let count := pool n8 n16 n32 n64
  let decls ← each (poolVars count) fun v => do
    let e ← emitLit v.1
    return Simple.decl v.1.name (.pool v.1 v.2) e
  let params : List Stmt := if count .u32 ≥ 2 then
    [.simple (.assign (.pool .u32 0) (.var (.param 0))), .simple (.assign (.pool .u32 1) (.var (.param 1)))] else []
  let stmts := 8 + (← rnd 12)
  let body ← each (List.range stmts) fun _ => emitStmt count rot64
  return {
    name := .genH id
    params := [(.param 0, .uint32), (.param 1, .uint32)]
    body := decls.map .simple ++ params ++ body.flatten ++ [.simple (.decl .uint32 .sum (.lit .uint32 2166136261))] ++
      (poolVars count).flatMap fun v => (poolWords v).map fun e => .simple (mixIn e)
    retType := .uint32
    ret := .var .sum }

/-- `for (int i = 0; i < nhelpers; i++) emit_gen_helper(i);`, the last one first. -/
def emitGenHelpers (rot64 : Bool) : Nat → Gen Program
  | 0 => return emitHelpers
  | n + 1 => do
    let fns ← emitGenHelpers rot64 n
    let fn ← emitGenHelper rot64 n
    return fn :: fns

/-- `for (uint32_t i = 0; i < 16; i++) arr[i] = vseed * (i + 1u);` -/
def fillArr : Stmt := .loop 16 [.store .arr (.var .index) (.bin .mul (.var .vseed) (.bin .add (.var .index) (.lit .uint32 1)))]

/-- `arr[(e) & 15]` -/
def maskedIndex (e : Expr) : Expr := .bin .and e (.lit .int32 15)

/-- `nhelpers > 0 && chance(10)` -/
def chanceHelper (nhelpers : Nat) : Gen Bool := if nhelpers > 0 then chance 10 else pure false

/-- A statement of the body of `conf_main`. -/
def emitMainStmt (count : Pool) (rot64 : Bool) (nhelpers : Nat) : Gen (List Stmt) := do
  if (← chance 12) ∧ count .u32 > 0 then do
    let i ← emitLeaf count .u32
    let e ← emitExpr count rot64 2 .u32
    let x ← emitVar count .u32
    let j ← emitLeaf count .u32
    return [.simple (.store .arr (maskedIndex i) e), .simple (.assign x (.index .arr (maskedIndex j)))]
  else do
    let helper ← chanceHelper nhelpers
    if helper = true ∧ count .u32 > 0 then do
      let x ← emitVar count .u32
      let id ← rnd nhelpers
      let args ← each (List.range 2) fun _ => emitLeaf count .u32
      return [.simple (.call x (.genH id) args)]
    else emitStmt count rot64

/-- `MIX(e)` -/
def mix (e : Expr) : Simple := mixIn (.cast .uint32 e)

/-- `emit_program`: the generated helpers, then `conf_main`. -/
def emitProgram (rot64 : Bool) : Gen Program := do
  let n8 := 2 + (← rnd 6)
  let n16 := 2 + (← rnd 6)
  let n32 := 6 + (← rnd 40)
  let n64 := 2 + (← rnd 8)
  let nhelpers ← rnd 3
  let nstmts := 30 + (← rnd 90)
  let fns ← emitGenHelpers rot64 nhelpers
  let seed ← each (List.range 8) fun _ => do
    return (← draw).toNat % 2 ^ 32
  let k ← rnd 8
  let count := pool n8 n16 n32 n64
  let decls ← each (poolVars count) fun v => do
    let e ← emitLit v.1
    return Simple.decl v.1.name (.pool v.1 v.2) (.cast v.1.name (.bin .xor (.var .vseed) e))
  let body ← each (List.range nstmts) fun _ => emitMainStmt count rot64 nhelpers
  return {
    name := .confMain
    params := []
    body := [.initArr .seed seed,
      .simple (.decl .uint32 .vseed (.index .seed (.bin .and (.cast .uint32 (.lit .int32 k)) (.lit .int32 7))))] ++ decls.map .simple ++
      [.declArr .arr 16, fillArr] ++ body.flatten ++ [.simple (.decl .uint32 .sum (.lit .uint32 2166136261))] ++
      ((poolVars count).flatMap fun v => (poolWords v).map fun e => .simple (mix e)) ++
      [.loop 16 [mix (.index .arr (.var .index))]]
    retType := .int32
    ret := .cast .int32 (.var .sum) } :: fns

end CronoVM.Fuzz
