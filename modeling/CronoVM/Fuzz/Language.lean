import CronoVM.Lib.CIntegers

/-!
# The C of the generated programs

The programs `cvm-fuzz` writes, as syntax trees, and their execution. The names stand for the ones in the text; a struct is its fields.
An execution stops with a fault where the standard leaves the behaviour undefined, and where an operator that may overflow is not
evaluated in `uint32_t` or `uint64_t`.
-/

namespace CronoVM.Fuzz

open CIntegers

/-! ## Syntax -/

/-- The types of the variables: `T_U8`, `T_U16`, `T_U32`, `T_U64`. -/
inductive Ty where
  | u8 | u16 | u32 | u64
  deriving DecidableEq, Repr

/-- The fields of `struct S`. -/
inductive Field where
  | x | y | z | w
  deriving DecidableEq, Repr

/-- The variables of type `struct S`: `_s`, its copy `_s2`, and the parameter of `use_s`. -/
inductive StructVar where
  | local | copy | param
  deriving DecidableEq, Repr

/-- The names of variables. -/
inductive Name where
  /-- A prefix for the type and a number: `b0`, `s0`, `a0`, `w0` and on. -/
  | pool (t : Ty) (k : Nat)
  /-- `i` -/
  | index
  /-- The parameters of a helper: `p0` and `p1`, or `a` to `d`. -/
  | param (k : Nat)
  /-- The checksum: `_r` in a helper, `h` in `conf_main`. -/
  | sum
  | vseed
  | field (v : StructVar) (f : Field)
  deriving DecidableEq, Repr

/-- The arrays `arr` and `SEED`, of `uint32_t`. -/
inductive ArrName where
  | arr | seed
  deriving DecidableEq, Repr

inductive FnName where
  | mix32 | mix64 | useS
  | genH (id : Nat)
  | confMain
  deriving DecidableEq, Repr

inductive Expr where
  | var (x : Name)
  /-- A number: `UINT8_C(n)`, `UINT16_C(n)` and decimals are of type `int32`, which is `int`. -/
  | lit (t : StdType) (n : Nat)
  | cast (t : StdType) (e : Expr)
  | bin (op : BinOp) (a b : Expr)
  | cmp (op : CmpOp) (a b : Expr)
  | cond (c a b : Expr)
  | index (A : ArrName) (e : Expr)
  deriving DecidableEq, Repr

/-- The statements without others in them. -/
inductive Simple where
  /-- `x = e;` -/
  | assign (x : Name) (e : Expr)
  /-- `arr[e] = v;` -/
  | store (A : ArrName) (e v : Expr)
  /-- `x = f(args);` -/
  | call (x : Name) (f : FnName) (args : List Expr)
  /-- `T x = e;` -/
  | decl (t : StdType) (x : Name) (e : Expr)
  deriving DecidableEq, Repr

inductive Stmt where
  | simple (s : Simple)
  /-- `uint32_t arr[n];` -/
  | declArr (A : ArrName) (n : Nat)
  /-- `uint32_t arr[] = { … };` -/
  | initArr (A : ArrName) (ns : List Nat)
  | ite (c : Expr) (ss ts : List Simple)
  /-- `for (uint32_t i = 0; i < n; i++) { … }` -/
  | loop (n : Nat) (ss : List Simple)
  /-- A `switch` whose cases end with `break`. -/
  | switch (e : Expr) (cases : List (Nat × Simple))
  /-- Statements in braces. -/
  | block (ss : List Simple)
  deriving DecidableEq, Repr

structure Fn where
  name : FnName
  params : List (Name × StdType)
  body : List Stmt
  retType : StdType
  /-- What is returned at the end of the body. -/
  ret : Expr
  deriving DecidableEq, Repr

/-- The functions of a program, the last one first. -/
abbrev Program : Type := List Fn

/-! ## Expressions -/

/-- Why an execution stops. -/
inductive Fault where
  /-- A name that is not declared, or not yet. -/
  | undeclared
  /-- A name that is declared where it already is. -/
  | redeclared
  /-- An element of an array that has no value. -/
  | uninitialised
  /-- `+`, `-`, `*`, `<<`, `>>`, `/` or `%` in another type than `uint32_t` and `uint64_t`. -/
  | notUnsigned
  | shiftAmount
  | zeroDivisor
  | indexRange
  /-- A loop that has not ended. -/
  | endless
  | arguments
  deriving DecidableEq, Repr

/-- The variables in scope with their types and values, and the elements of the arrays. -/
structure State where
  vars : Name → Option (StdType × Int)
  arrs : ArrName → Option (List (Option Int))

/-- The value of an element of an array. -/
def State.load (st : State) (A : ArrName) (k : Int) : Except Fault Int :=
  match st.arrs A with
  | none => .error .undeclared
  | some cells =>
    if 0 ≤ k ∧ k < cells.length then
      match cells.getD k.toNat none with
      | none => .error .uninitialised
      | some n => .ok n
    else .error .indexRange

/-- The type in which an operator is evaluated. -/
def opType (m : DataModel) (op : BinOp) (s t : IntType) : IntType := if op.isShift = true then s.promote else IntType.common m s t

/-- A binary operator on two values. -/
def binary (m : DataModel) (op : BinOp) (x y : IntType × Int) : Except Fault (IntType × Int) :=
  let t := opType m op x.1 y.1
  if op.isArith = true ∧ t ≠ StdType.uint32.type m ∧ t ≠ StdType.uint64.type m then .error .notUnsigned
  else if op.isShift = true ∧ ¬(0 ≤ y.2 ∧ y.2 < t.width m) then .error .shiftAmount
  else if op.isDiv = true ∧ convert t.isSigned (t.width m) y.2 = 0 then .error .zeroDivisor
  else .ok (t, op.compute t.isSigned (t.width m) x.2 y.2)

/-- A value in a type that may be unknown. -/
def converted (m : DataModel) (v : Int) : Option IntType → Except Fault (IntType × Int)
  | none => .error .undeclared
  | some t => .ok (t, convert t.isSigned (t.width m) v)

/-- The type of an expression. -/
def Expr.type (m : DataModel) (vars : Name → Option StdType) : Expr → Option IntType
  | .var x => (vars x).map (StdType.type m)
  | .lit t _ => some (t.type m)
  | .cast t _ => some (t.type m)
  | .bin op a b => do
    let s ← a.type m vars
    let t ← b.type m vars
    some (opType m op s t)
  | .cmp _ _ _ => some .int
  | .cond _ a b => do
    let s ← a.type m vars
    let t ← b.type m vars
    some (IntType.common m s t)
  | .index _ _ => some (StdType.uint32.type m)

/-- The value of an expression. -/
def Expr.eval (m : DataModel) (st : State) : Expr → Except Fault (IntType × Int)
  | .var x =>
    match st.vars x with
    | none => .error .undeclared
    | some v => .ok (v.1.type m, v.2)
  | .lit t n => .ok (t.type m, n)
  | .cast t e => do
    let v ← e.eval m st
    .ok (t.type m, convert t.isSigned t.width v.2)
  | .bin op a b => do
    let x ← a.eval m st
    let y ← b.eval m st
    binary m op x y
  | .cmp op a b => do
    let x ← a.eval m st
    let y ← b.eval m st
    let t := IntType.common m x.1 y.1
    let u := convert t.isSigned (t.width m) x.2
    let v := convert t.isSigned (t.width m) y.2
    .ok (.int, if op.holds u v = true then 1 else 0)
  | .cond c a b => do
    let v ← c.eval m st
    let x ← if v.2 ≠ 0 then a.eval m st else b.eval m st
    let vars := fun x => (st.vars x).map Prod.fst
    converted m x.2 (Expr.type m vars (.cond c a b))
  | .index A e => do
    let v ← e.eval m st
    let n ← st.load A v.2
    .ok (StdType.uint32.type m, n)

/-! ## Statements -/

namespace State

/-- A variable takes a value, which is converted to its type. -/
def assign (st : State) (x : Name) (v : Int) : Except Fault State :=
  match st.vars x with
  | none => .error .undeclared
  | some (t, _) => .ok { st with vars := Function.update st.vars x (some (t, convert t.isSigned t.width v)) }

/-- A variable is declared with its value. -/
def declare (st : State) (t : StdType) (x : Name) (v : Int) : Except Fault State :=
  match st.vars x with
  | none => .ok { st with vars := Function.update st.vars x (some (t, convert t.isSigned t.width v)) }
  | some _ => .error .redeclared

/-- An element of an array takes a value. -/
def store (st : State) (A : ArrName) (k v : Int) : Except Fault State :=
  match st.arrs A with
  | none => .error .undeclared
  | some cells =>
    if 0 ≤ k ∧ k < cells.length then
      .ok { st with arrs := Function.update st.arrs A (some (cells.set k.toNat (some (convert false 32 v)))) }
    else .error .indexRange

/-- At the end of a block, what was declared in it is gone. -/
def leave (outer st : State) : State := { st with vars := fun x => if (outer.vars x).isSome = true then st.vars x else none }

end State

/-- How the functions declared before are called. -/
abbrev Calls : Type := FnName → List Int → Except Fault Int

section exec

variable (m : DataModel) (call : Calls)

def Simple.exec (st : State) : Simple → Except Fault State
  | .assign x e => do
    let v ← e.eval m st
    st.assign x v.2
  | .store A e v => do
    let k ← e.eval m st
    let v ← v.eval m st
    st.store A k.2 v.2
  | .call x f args => do
    let vs ← args.mapM (Expr.eval m st)
    let v ← call f (vs.map Prod.snd)
    st.assign x v
  | .decl t x e => do
    let v ← e.eval m st
    st.declare t x v.2

def execSimples (st : State) : List Simple → Except Fault State
  | [] => .ok st
  | s :: ss => do
    let st ← s.exec m call st
    execSimples st ss

/-- The turns of a loop, at most `fuel` of them. -/
def turns (n : Nat) (ss : List Simple) : Nat → State → Except Fault State
  | 0, _ => .error .endless
  | fuel + 1, st => do
    let c ← (Expr.cmp .lt (.var .index) (.lit .int32 n)).eval m st
    if c.2 = 0 then .ok st
    else do
      let st ← execSimples m call st ss
      let v ← (Expr.bin .add (.var .index) (.lit .int32 1)).eval m st
      let st ← st.assign .index v.2
      turns n ss fuel st

/-- A statement, with loops of fewer than `fuel` turns. -/
def Stmt.exec (fuel : Nat) (st : State) : Stmt → Except Fault State
  | .simple s => s.exec m call st
  | .declArr A n => .ok { st with arrs := Function.update st.arrs A (some (List.replicate n none)) }
  | .initArr A ns => .ok { st with arrs := Function.update st.arrs A (some (ns.map fun (k : Nat) => some (convert false 32 (k : Int)))) }
  | .ite c ss ts => do
    let v ← c.eval m st
    if v.2 ≠ 0 then execSimples m call st ss else execSimples m call st ts
  | .loop n ss => do
    let inner ← st.declare .uint32 .index 0
    let inner ← turns m call n ss fuel inner
    .ok (st.leave inner)
  | .switch e cases => do
    let v ← e.eval m st
    match cases.find? fun c => (c.1 : Int) = v.2 with
    | none => .ok st
    | some c => c.2.exec m call st
  | .block ss => do
    let inner ← execSimples m call st ss
    .ok (st.leave inner)

def execStmts (fuel : Nat) (st : State) : List Stmt → Except Fault State
  | [] => .ok st
  | s :: ss => do
    let st ← s.exec m call fuel st
    execStmts fuel st ss

/-- The state in which the body of a function starts. -/
def bindParams : List (Name × StdType) → List Int → Except Fault State
  | [], [] => .ok ⟨fun _ => none, fun _ => none⟩
  | p :: ps, v :: vs => do
    let st ← bindParams ps vs
    st.declare p.2 p.1 v
  | _, _ => .error .arguments

/-- A call of a function. -/
def Fn.run (fuel : Nat) (fn : Fn) (args : List Int) : Except Fault Int := do
  let st ← bindParams fn.params args
  let st ← execStmts m call fuel st fn.body
  let v ← fn.ret.eval m st
  .ok (convert fn.retType.isSigned fn.retType.width v.2)

end exec

/-- The calls a program allows: a function calls the ones before it. -/
def Program.calls (m : DataModel) (fuel : Nat) : Program → Calls
  | [], _, _ => .error .undeclared
  | fn :: fns, f, args => if fn.name = f then fn.run m (Program.calls m fuel fns) fuel args else Program.calls m fuel fns f args

/-- The checksum: what `conf_main` returns. -/
def Program.checksum (m : DataModel) (fuel : Nat) (p : Program) : Except Fault Int := p.calls m fuel .confMain []

/-! ## Scopes -/

/-- What is declared at a place of a program. A variable has a value from its declaration on. -/
structure Scope where
  vars : Name → Bool
  arrs : ArrName → Bool
  fns : FnName → Bool

/-- All that the expression names is declared. -/
def Expr.inScope (S : Scope) : Expr → Bool
  | .var x => S.vars x
  | .lit _ _ => true
  | .cast _ e => e.inScope S
  | .bin _ a b => a.inScope S && b.inScope S
  | .cmp _ a b => a.inScope S && b.inScope S
  | .cond c a b => c.inScope S && a.inScope S && b.inScope S
  | .index A e => S.arrs A && e.inScope S

/-- The scope after a statement, when all that it names is declared before. -/
def Simple.scope (S : Scope) : Simple → Option Scope
  | .assign x e => if S.vars x && e.inScope S then some S else none
  | .store A e v => if S.arrs A && e.inScope S && v.inScope S then some S else none
  | .call x f args => if S.vars x && S.fns f && args.all (Expr.inScope S) then some S else none
  | .decl _ x e => if e.inScope S then some { S with vars := Function.update S.vars x true } else none

def simplesScope (S : Scope) : List Simple → Option Scope
  | [] => some S
  | s :: ss => do
    let S ← s.scope S
    simplesScope S ss

def Stmt.scope (S : Scope) : Stmt → Option Scope
  | .simple s => s.scope S
  | .declArr A _ => some { S with arrs := Function.update S.arrs A true }
  | .initArr A _ => some { S with arrs := Function.update S.arrs A true }
  | .ite c ss ts => if c.inScope S && (simplesScope S ss).isSome && (simplesScope S ts).isSome then some S else none
  | .loop _ ss => if (simplesScope { S with vars := Function.update S.vars .index true } ss).isSome then some S else none
  | .switch e cases => if e.inScope S && cases.all (fun c => (c.2.scope S).isSome) then some S else none
  | .block ss => if (simplesScope S ss).isSome then some S else none

def stmtsScope (S : Scope) : List Stmt → Option Scope
  | [] => some S
  | s :: ss => do
    let S ← s.scope S
    stmtsScope S ss

/-- All that the function names is declared, with the functions before it. -/
def Fn.inScope (fns : FnName → Bool) (fn : Fn) : Bool :=
  match stmtsScope ⟨fun x => fn.params.any (fun p => p.1 = x), fun _ => false, fns⟩ fn.body with
  | none => false
  | some S => fn.ret.inScope S

def Program.inScope : Program → Bool
  | [] => true
  | fn :: fns => fn.inScope (fun f => fns.any fun fn => fn.name = f) && Program.inScope fns

end CronoVM.Fuzz
