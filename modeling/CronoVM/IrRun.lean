import CronoVM.Lemmas.PreAlloc
import CronoVM.Theorems.Gep
import CronoVM.Translator.ControlFlow
import CronoVM.Translator.Function

/-!
# What a program of the IR does

A program runs on a stack of activations over a memory of bytes. A value may be poison, which is no value here, and a byte may have none;
an operation on poison gives poison. There is no step where the IR gives an instruction no meaning, and where the stack has no room.
-/

namespace CronoVM.Ir

open NarrowInt
open Globals (TargetData GepPath)

/-! ## Memory -/

/-- The bytes of the memory; none where nothing is known to be. -/
abbrev Contents : Type := Nat → Option Byte

namespace Contents

variable (mem : Contents) (p n : Nat)

/-- The `n` bytes from `p` on, with zeros behind them. -/
def read : Option Word :=
  if (List.range n).all (fun k => (mem (p + k)).isSome) = true then some (leWord fun k => if k < n then (mem (p + k)).getD 0 else 0)
  else none

/-- The low `n` bytes of a value, from `p` on. -/
def write (x : Option Nat) : Contents := fun q => if p ≤ q ∧ q < p + n then x.map fun x => leByte (BitVec.ofNat 32 x) (q - p) else mem q

/-- The `n` bytes from `p` on hold nothing yet. -/
def fresh : Contents := fun q => if p ≤ q ∧ q < p + n then none else mem q

end Contents

/-- The bytes that a load or a store of a value takes. -/
def Ty.accessBytes : Ty → Nat
  | .int w => if w = 1 then 1 else w / 8
  | _ => 4

/-- The value of a type in the bytes that are read; one bit is a byte with 0 or 1. -/
def Ty.loaded (ty : Ty) (w : Option Word) : Option Nat := w.bind fun w => if ty = .int 1 ∧ 1 < w.toNat then none else some w.toNat

/-! ## Programs -/

/-- A program: the layout of its types, the addresses of its globals, its functions, the bytes of their frames, and the lowest address of the
stack. -/
structure Program where
  td : TargetData
  globals : List (Nat × Word)
  srcs : List FnSource
  frameBytes : Nat → Nat
  limit : Nat

/-- A function that has been called: where it is, its values, its SP, and the bytes of the objects it may have pointers to. -/
structure Activation where
  fn : Nat
  block : Nat
  pos : Nat
  env : Env
  sp : Nat
  own : Nat → Bool

namespace Activation

variable (a : Activation)

def owns (p n : Nat) : Bool := (List.range n).all fun k => a.own (p + k)

/-- The instruction is over, with a result. -/
def define (i : Inst) (x : Option Nat) : Activation := { a with env := Function.update a.env i.result x, pos := a.pos + 1 }

end Activation

/-- The activation that runs, those that wait for it, and the memory. -/
structure State where
  top : Activation
  callers : List Activation
  mem : Contents

/-- What an instruction does. -/
inductive Effect where
  | value (x : Option Nat) (mem : Contents)
  | jump (succ : Nat)
  | call (callee : Nat) (args : List (Option Nat))
  | ret (ty : Ty) (x : Option Nat)

/-- The words of arguments that are not in registers. -/
def stackedWords (n : Nat) : Nat := n - 8

namespace Program

variable (P : Program)

def funcs : List Nat := P.srcs.map FnSource.id

/-! ## Values -/

/-- A constant. Aliases, casts and addresses are of words; other expressions have no value here. -/
def constVal : Const → Option Nat
  | .aliasOf aliasee => if aliasee.typeOf.regWidth = 32 then constVal aliasee else none
  | .int width bits => some (bits % 2 ^ width)
  | .float bits => some bits.toNat
  | .null => some 0
  | .global id => (P.globals.find? fun e => e.1 = id).map fun e => e.2.toNat
  | .func id => (P.funcs.idxOf? id).map cvmFnSlot
  | .cast c ty => if c.typeOf.regWidth = 32 ∧ ty.regWidth = 32 then constVal c else none
  | .gep base (some off) =>
    if base.typeOf.regWidth = 32 then (constVal base).map fun b => (BitVec.ofNat 32 b + BitVec.ofInt 32 off).toNat else none
  | .gep _ none | .double _ _ | .undef _ | .expr _ | .other _ => none

def val (env : Env) : Val → Option Nat
  | .loc l => env l
  | .const c => P.constVal c
  | .block _ => none

/-- The bits of an operand of width `w`. -/
def bits (env : Env) (w : Nat) (v : Val) : Option (BitVec w) := (P.val env v).map (BitVec.ofNat w)

/-- The result of an integer instruction; a compare also takes pointers. -/
def scalarValue (fn : Func) (env : Env) (i : Inst) : Option Nat :=
  let s := (fn.typeOf (i.operand 0)).regWidth
  let d := i.ty.regWidth
  match i.op with
  | .icmp => do
    let p ← i.predicate
    let x ← P.bits env s (i.operand 0)
    let y ← P.bits env s (i.operand 1)
    some (p.eval x y).toNat
  | .zext | .trunc => (P.bits env s (i.operand 0)).map fun x => (x.setWidth d).toNat
  | .sext => (P.bits env s (i.operand 0)).map fun x => (x.signExtend d).toNat
  | op => do
    let b ← op.intBinOp?
    let x ← P.bits env d (i.operand 0)
    let y ← P.bits env d (i.operand 1)
    (b.eval x y).map BitVec.toNat

/-- The instruction divides by zero, or by poison. -/
def faults (env : Env) (i : Inst) : Bool :=
  i.op.intBinOp?.any IntBinOp.isDiv && (P.bits env i.ty.regWidth (i.operand 1)).all (· = 0)

/-- An index of a GEP; one that is no constant is a word. -/
def index (fn : Func) (env : Env) : Val → Option Int
  | .const (.int width bits) => some (BitVec.ofNat width bits).toInt
  | v => if fn.typeOf v = .int 32 then (P.bits env 32 v).map BitVec.toInt else none

/-- The path of indices. -/
def path (fn : Func) (env : Env) : {t : Globals.Ty} → GepIndices t → Option (GepPath t)
  | _, .nil => some .nil
  | _, .elem idx rest => do
    let n ← P.index fn env idx
    let path ← path fn env rest
    some (.elem n path)
  | _, .field fi rest => (path fn env rest).map (.field fi)
  | _, .stop => none

/-- The indices of a GEP, the first apart. -/
def indices (fn : Func) (env : Env) {source : Globals.Ty} : Option (Val × GepIndices source) → Option (Option (Int × GepPath source))
  | none => some none
  | some (first, rest) => do
    let n ← P.index fn env first
    let path ← P.path fn env rest
    some (some (n, path))

/-- The address a GEP gives. -/
def gepValue (src : FnSource) (env : Env) (i : Inst) : Option Nat :=
  match src.gep i.id with
  | none => none
  | some g => do
    let base ← P.val env (i.operand 0)
    let values ← P.indices src.fn env g.2
    let off ← llvmOffset P.td g.1 values
    some (BitVec.ofNat 32 base + BitVec.ofInt 32 off).toNat

/-! ## Instructions -/

/-- The function a call is of. -/
def calleeIdx (env : Env) (i : Inst) : Option Nat :=
  match calleeOf i with
  | .direct id => P.funcs.idxOf? id
  | .coroSwap => none
  | .indirect v => (P.val env v).bind fun x => (List.range P.srcs.length).find? fun k => cvmFnSlot k = x

/-- A call with arguments of the types of the parameters. -/
def callEffect (src : FnSource) (env : Env) (i : Inst) : Option Effect := do
  let k ← P.calleeIdx env i
  let callee ← P.srcs[k]?
  let args := i.operands.dropLast
  if args.map src.fn.typeOf = callee.fn.params ∧ callee.fn.vararg = false ∧ src.varargCall i.id = false then
    some (.call k (args.map (P.val env)))
  else none

def branchEffect (env : Env) (i : Inst) : Option Effect :=
  match i.successors with
  | [target] => some (.jump target)
  | [trueBb, falseBb] => (P.val env (i.operand 0)).map fun c => .jump (if c % 2 = 1 then trueBb else falseBb)
  | _ => none

def retEffect (fn : Func) (env : Env) (i : Inst) : Effect :=
  match i.operands with
  | [] => .ret .void none
  | rv :: _ => .ret (fn.typeOf rv) (P.val env rv)

def next (src : FnSource) (a : Activation) (mem : Contents) (i : Inst) : Option Effect :=
  match i.op with
  | .load => do
    let p ← P.val a.env (i.operand 0)
    if a.owns p i.ty.accessBytes = true then some (.value (i.ty.loaded (mem.read p i.ty.accessBytes)) mem) else none
  | .store => do
    let p ← P.val a.env (i.operand 1)
    let ty := src.fn.typeOf (i.operand 0)
    if a.owns p ty.accessBytes = true then
      some (.value none (mem.write p ty.accessBytes ((P.val a.env (i.operand 0)).map fun x => x % 2 ^ ty.regWidth)))
    else none
  | .fence => some (.value none mem)
  | .ptrToInt | .intToPtr | .bitCast | .freeze => some (.value (P.val a.env (i.operand 0)) mem)
  | .select => some (.value ((P.val a.env (i.operand 0)).bind fun c => P.val a.env (i.operand (if c % 2 = 1 then 1 else 2))) mem)
  | .getElementPtr => some (.value (P.gepValue src a.env i) mem)
  | .call => P.callEffect src a.env i
  | .br => P.branchEffect a.env i
  | .ret => some (P.retEffect src.fn a.env i)
  | .icmp | .zext | .sext | .trunc => some (.value (P.scalarValue src.fn a.env i) mem)
  | op =>
    if op.intBinOp?.isSome = true ∧ P.faults a.env i = false then some (.value (P.scalarValue src.fn a.env i) mem)
    else none

/-! ## Steps -/

/-- The values behind the edge from block `pred`: all phis take theirs at once. -/
def phiEnv (env : Env) (pred : Nat) (phis : List Inst) : Env := fun l =>
  match phis.find? fun phi => phi.result = l with
  | some phi => (incomingFrom phi pred).bind (P.val env)
  | none => env l

/-- The activation of function `k` whose return address is at `base`, and the memory with its allocas. They have their addresses from the
start, and the first instruction is the one behind them. -/
def enter (k : Nat) (args : List (Option Nat)) (base : Nat) (own : Nat → Bool) (mem : Contents) : Option (Activation × Contents) := do
  let src ← P.srcs[k]?
  let frame ← (cgCollectAllocas src.fn).toOption
  if P.limit + P.frameBytes k ≤ base then
    let sp := base - P.frameBytes k
    let bytes := frame.2.toNat
    let env : Env := fun l =>
      match l with
      | .arg p => (args[p]?).join
      | .inst _ => (frame.1.find? fun e => e.1 = l).map fun e => (BitVec.ofNat 32 sp + e.2).toNat
    some ({ fn := k, block := src.fn.entryId, pos := frame.1.length, env, sp, own := fun q => own q || (sp ≤ q && q < sp + bytes) },
      mem.fresh sp bytes)
  else none

/-- The function of an activation, and the instruction it is at. -/
def current (a : Activation) : Option (FnSource × Inst) := do
  let src ← P.srcs[a.fn]?
  let i ← (src.fn.block a.block).body[a.pos]?
  some (src, i)

/-- The edge to a block. -/
def jump (src : FnSource) (a : Activation) (succ : Nat) : Activation :=
  { a with env := P.phiEnv a.env a.block (src.fn.block succ).phis, block := succ, pos := 0 }

/-- The call of function `k`. -/
def call (s : State) (k : Nat) (args : List (Option Nat)) : Option State :=
  if P.limit + 4 * stackedWords args.length + 4 ≤ s.top.sp then
    (P.enter k args (s.top.sp - 4 * stackedWords args.length - 4) s.top.own s.mem).map fun e =>
      { top := e.1, callers := s.top :: s.callers, mem := e.2 }
  else none

/-- The return of a value to the caller. -/
def resume (s : State) (ty : Ty) (x : Option Nat) : Option State :=
  match s.callers with
  | [] => none
  | c :: callers => do
    let cur ← P.current c
    if cur.2.ty = ty then some { top := c.define cur.2 x, callers, mem := s.mem } else none

def step (s : State) : Option State := do
  let cur ← P.current s.top
  match ← P.next cur.1 s.top s.mem cur.2 with
  | .value x mem => some { s with top := s.top.define cur.2 x, mem }
  | .jump succ => some { s with top := P.jump cur.1 s.top succ }
  | .call k args => P.call s k args
  | .ret ty x => P.resume s ty x

/-- What the first function returns, once it does. -/
def result (s : State) : Option (Ty × Option Nat) := do
  let cur ← P.current s.top
  match s.callers, P.next cur.1 s.top s.mem cur.2 with
  | [], some (.ret ty x) => some (ty, x)
  | _, _ => none

end Program

/-! ## Functions of words -/

/-- The types of the values that take one word. -/
def Ty.isWord : Ty → Bool
  | .int w => 0 < w ∧ w ≤ 32
  | .pointer | .float => true
  | _ => false

/-- The types of a result that is an integer of at most one word, and of an operand that is one too. -/
def Ty.areInts (d s : Ty) : Bool := d.kind = .integer ∧ d.isWord = true ∧ s.kind = .integer ∧ s.isWord = true

/-- The instructions that end a block. -/
def Op.isTerminator : Op → Bool
  | .ret | .br | .switch | .unreachable | .invoke | .resume => true
  | _ => false

def Func.coversCallee (fn : Func) : Callee → Bool
  | .direct _ => true
  | .coroSwap => false
  | .indirect v => fn.typeOf v = .pointer

/-- The instruction works on values of one word. Bits are only what compares give, and what is selected and combined of them. -/
def Func.covers (fn : Func) (i : Inst) : Bool :=
  let x := fn.typeOf (i.operand 0)
  let y := fn.typeOf (i.operand 1)
  match i.op with
  | .icmp => i.ty = .int 1 ∧ i.predicate.isSome = true ∧ x.isWord = true ∧ y = x
  | .zext | .sext => i.ty.areInts x = true ∧ x.regWidth < i.ty.regWidth
  | .trunc => i.ty.areInts x = true ∧ i.ty.regWidth < x.regWidth
  | .load => i.ty.isWord = true ∧ (memOps i.ty).isSome = true ∧ x = .pointer
  | .store => i.ty = .void ∧ x.isWord = true ∧ (memOps x).isSome = true ∧ y = .pointer
  | .fence | .unreachable => i.ty = .void
  | .ptrToInt | .intToPtr | .bitCast | .freeze =>
    i.ty.isWord = true ∧ x.isWord = true ∧ i.ty.regWidth ≤ x.regWidth ∧ (i.ty = .int 1 → x = .int 1)
  | .select => i.ty.isWord = true ∧ x = .int 1 ∧ y = i.ty ∧ fn.typeOf (i.operand 2) = i.ty
  | .getElementPtr => i.ty = .pointer ∧ x = .pointer
  | .alloca => i.ty = .pointer
  | .phi => i.ty.isWord = true ∧ i.operands.all fun v => fn.typeOf v = i.ty
  | .call =>
    (i.ty = .void ∨ i.ty.isWord = true) ∧ (i.operands.dropLast.all fun v => (fn.typeOf v).isWord) = true ∧ overflowCall? i = none ∧
      isSetjmp i = false ∧ isLongjmp i = false ∧ fn.coversCallee (calleeOf i) = true
  | .br => i.ty = .void ∧ (i.successors.length = 1 ∨ i.successors.length = 2 ∧ x = .int 1)
  | .ret => i.ty = .void ∧ i.operands.all fun v => (fn.typeOf v).isWord
  | op =>
    match op.intBinOp? with
    | none => false
    | some b => i.ty.areInts x = true ∧ x = i.ty ∧ y = i.ty ∧ (b.isShift = true → 5 ≤ i.ty.regWidth) ∧
        (i.ty = .int 1 → b = .and ∨ b = .or ∨ b = .xor)

/-- The values of indices. -/
def indexVals : {t : Globals.Ty} → GepIndices t → List Val
  | _, .elem idx rest => idx :: indexVals rest
  | _, .field _ rest => indexVals rest
  | _, .nil | _, .stop => []

/-- The values of all indices of a GEP. -/
def gepVals {source : Globals.Ty} : Option (Val × GepIndices source) → List Val
  | none => []
  | some (first, rest) => first :: indexVals rest

/-- A block that its only terminator ends. -/
def Block.closed (b : Block) : Bool := (b.insts.getLast?.any fun i => i.op.isTerminator) && b.insts.dropLast.all fun i => !i.op.isTerminator

end CronoVM.Ir

namespace CronoVM

open Ir

/-- A function on values of one word, whose allocas are at its start. -/
structure FnSource.OfWords (src : FnSource) : Prop where
  ssa : src.fn.Ssa
  fixed : src.fn.vararg = false
  params : ∀ t ∈ src.fn.params, t.isWord = true
  insts : ∀ i ∈ src.fn.insts, src.fn.covers i = true
  closed : ∀ b ∈ src.fn.blocks, b.closed = true
  succs : ∀ b ∈ src.fn.blocks, ∀ s ∈ b.successors, s ∈ src.fn.blocks.map Ir.Block.id
  entry : ∃ e bs, src.fn.blocks = e :: bs ∧ (∀ i ∈ e.insts, i.op ≠ .phi) ∧ ∀ i ∈ e.insts.dropWhile fun i => i.op = .alloca, i.op ≠ .alloca
  indices : ∀ i ∈ src.fn.insts, ∀ g, src.gep i.id = some g → ∀ v ∈ gepVals g.2, v ∈ i.operands
  slots : (src.fn.allocSteps.map (AllocStep.words src.fn)).sum < cgNoSlot

end CronoVM
