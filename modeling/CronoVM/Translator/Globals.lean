import Mathlib.Data.List.FinRange
import CronoVM.Lib.Memory
import CronoVM.Translator.Writer

/-!
# Global variables

`cg_collect_globals` and what it calls: the offsets of the global variables in the DATA section, and the bytes of their initialisers.
A type is given with its parts, an initialiser with its type. What LLVM says of the target's layout is a parameter.
-/

namespace CronoVM.Globals

/-! ## Types -/

/-- The type of a global variable, or of a part of it. -/
inductive Ty where
  | int (width : Nat)
  | float
  | double
  | pointer
  | array (n : Nat) (elem : Ty)
  | struct (isPacked : Bool) (n : Nat) (fields : Fin n → Ty)
  | vector (lanes : Nat) (elem : Ty)
  /-- A floating-point type of another width, a scalable vector, or a type of the target. -/
  | other

/-- `type_in_subset` on the types a global variable can have. -/
def typeInSubset : Ty → Bool
  | .int width => 1 ≤ width ∧ width ≤ 65
  | .float | .double | .pointer => true
  | .array _ elem => typeInSubset elem
  | .struct _ n fields => (List.finRange n).all fun i => typeInSubset (fields i)
  | .vector lanes (.int width) => width ≤ 32 ∧ 1 ≤ lanes ∧ lanes ≤ 256
  | .vector lanes .pointer => 1 ≤ lanes ∧ lanes ≤ 256
  | .vector _ _ => false
  | .other => false

/-- Neither an array nor a struct. -/
def Ty.isScalar : Ty → Bool
  | .array _ _ | .struct _ _ _ => false
  | _ => true

def Ty.isPointer : Ty → Bool
  | .pointer => true
  | _ => false

/-- The bits of a value of a type, where a pointer has `p`. -/
def Ty.bits (p : Nat) : Ty → Nat
  | .int w => w
  | .float => 32
  | .double => 64
  | .pointer => p
  | .vector lanes elem => lanes * elem.bits p
  | .array _ _ | .struct _ _ _ | .other => 0

/-- The quiet bit of a `float` is set. -/
def quiet (bits : Word) : Word := bits ||| 0x00400000#32

/-- A NaN whose quiet bit is clear. -/
def isSignaling (bits : Word) : Bool :=
  bits &&& 0x7F800000#32 == 0x7F800000#32 && bits &&& 0x007FFFFF#32 != 0#32 && bits &&& 0x00400000#32 == 0#32

/-- LLVM has no wider integers. -/
def maxIntBits : Nat := 2 ^ 23

/-- What LLVM says of the target and what the host does with floating point. -/
structure TargetData where
  /-- `LLVMABISizeOfType` -/
  abiSize : Ty → Nat
  /-- `LLVMABIAlignmentOfType` -/
  abiAlign : Ty → Nat
  /-- `LLVMOffsetOfElement` -/
  offsetOfElement : (isPacked : Bool) → (n : Nat) → (fields : Fin n → Ty) → Fin n → Nat
  /-- `LLVMConstRealGetDouble` of a `float`. -/
  realGetDouble : Word → BitVec 64
  /-- The conversion of a `double` to `float`. -/
  floatOfDouble : BitVec 64 → Word
  /-- A value fits into the bytes of its type. -/
  bits_le : ∀ t : Ty, t.bits (8 * abiSize .pointer) ≤ 8 * abiSize t
  int_size : ∀ w, w ≤ maxIntBits → abiSize (.int w) < 2 ^ 32
  float_size : abiSize .float = 4
  double_size : abiSize .double = 8
  array_size : ∀ n t, abiSize (.array n t) = n * abiSize t
  /-- The fields lie in the struct. -/
  field_le : ∀ p n fs i, offsetOfElement p n fs i + abiSize (fs i) ≤ abiSize (.struct p n fs)
  /-- The fields do not overlap and are in order. -/
  field_lt : ∀ p n fs (i j : Fin n), i < j → offsetOfElement p n fs i + abiSize (fs i) ≤ offsetOfElement p n fs j
  /-- Alignments are powers of two, of a word. -/
  abiAlign_pow : ∀ t, ∃ k, k < 32 ∧ abiAlign t = 2 ^ k
  /-- A `float` survives the way through a `double`, but for a signaling NaN, which becomes a quiet one. -/
  float_roundtrip : ∀ b, floatOfDouble (realGetDouble b) = if isSignaling b then quiet b else b

/-! ## Constants -/

/-- The casts of constants. -/
inductive CastOp where
  | ptrToInt | intToPtr | bitCast | addrSpaceCast | other
  deriving DecidableEq, Repr

/-- The indices of a constant GEP from the second on. -/
inductive GepPath : Ty → Type where
  | nil {t : Ty} : GepPath t
  | elem {n : Nat} {t : Ty} (ci : Int) (rest : GepPath t) : GepPath (.array n t)
  | field {p : Bool} {n : Nat} {fs : Fin n → Ty} (fi : Fin n) (rest : GepPath (fs fi)) : GepPath (.struct p n fs)
  /-- An index that is no integer constant, or not into an array or a struct. -/
  | stop {t : Ty} : GepPath t

/-- A constant of a type. A global variable and a function are named by numbers. -/
inductive Const : Ty → Type where
  | int {w : Nat} (hw : w ≤ maxIntBits) (v : BitVec w) : Const (.int w)
  | float (bits : Word) : Const .float
  | double (bits : BitVec 64) : Const .double
  | null : Const .pointer
  /-- `zeroinitializer`. -/
  | zero (t : Ty) : Const t
  /-- `undef` or `poison`. -/
  | undef (t : Ty) : Const t
  | array {n : Nat} {t : Ty} (elems : Fin n → Const t) : Const (.array n t)
  | struct {p : Bool} {n : Nat} {fs : Fin n → Ty} (elems : (i : Fin n) → Const (fs i)) : Const (.struct p n fs)
  | global (id : Nat) : Const .pointer
  | func (id : Nat) : Const .pointer
  | aliasOf (aliasee : Const .pointer) : Const .pointer
  | cast {s : Ty} (op : CastOp) (t : Ty) (c : Const s) (hs : s.isScalar = true) (ht : t.isScalar = true) : Const t
  /-- A GEP: the type its offsets are counted in, the first index if it is an integer constant, the others, the base. -/
  | gep (source : Ty) (first : Option Int) (path : GepPath source) (base : Const .pointer) : Const .pointer
  /-- Any other constant. -/
  | other (t : Ty) : Const t

/-- A global variable: its type, the alignment it is declared with or 0, its initialiser unless it is a declaration. -/
structure GlobalVar where
  ty : Ty
  align : Nat
  init : Option (Const ty)
  align_pow : align = 0 ∨ ∃ k, k < 32 ∧ align = 2 ^ k

/-- What is read of a module: its global variables and its function definitions. -/
structure Module where
  globals : List GlobalVar
  funcs : List Nat

/-! ## Constants in bytes -/

/-- `struct cg_global` -/
structure CgGlobal where
  value : Nat
  offset : Word
  size : Word

/-- `(uint8_t)(v >> (b * 8))` -/
def byteOf (v b : Nat) : Byte := BitVec.ofNat 8 (v >>> (8 * b))

section serialize

variable (td : TargetData)

/-- The walk of `cg_const_gep_offset` over the indices from the second on. -/
def gepWalk : {t : Ty} → GepPath t → Int → Option Int
  | _, .nil, off => some off
  | _, .elem (t := t) ci rest, off => gepWalk rest (off + ci * td.abiSize t)
  | _, @GepPath.field p n fs fi rest, off => gepWalk rest (off + td.offsetOfElement p n fs fi)
  | _, .stop, _ => none

/-- `cg_const_gep_offset` -/
def cgConstGepOffset (source : Ty) (first : Option Int) (path : GepPath source) : Option Int :=
  match first with
  | some ci => gepWalk td path (ci * td.abiSize source)
  | none => none

/-- The word of an address is written. -/
def putGlobalAddr (items : List CgGlobal) (id : Nat) (extra : Int) (out : Mem) (off : Word) : Option Mem :=
  match items.find? fun it => it.value = id with
  | some it => some (out.setWord off.toNat (it.offset + BitVec.ofInt 32 extra))
  | none => none

/-- `serialize_global_ptr` -/
def serializeGlobalPtr (items : List CgGlobal) (sz : Word) (out : Mem) (off : Word) : {t : Ty} → Const t → Option Mem
  | _, .cast op _ c _ _ => if sz < 4#32 ∨ op = .other then none else serializeGlobalPtr items sz out off c
  | _, .gep source first path (.global id) =>
    if sz < 4#32 then none
    else
      match cgConstGepOffset td source first path with
      | some extra => putGlobalAddr items id extra out off
      | none => none
  | _, .global id => if sz < 4#32 then none else putGlobalAddr items id 0 out off
  | _, _ => none

/-- `serialize_function_index` -/
def serializeFunctionIndex (funcs : List Nat) (fn : Nat) (out : Mem) (off : Word) : Option Mem :=
  match funcs.idxOf? fn with
  | some fidx => some (out.setWord off.toNat (BitVec.ofNat 32 (cvmFnSlot fidx)))
  | none => none

/-- `LLVMABISizeOfType`, in 32 bits. -/
def sizeOf (t : Ty) : Word := BitVec.ofNat 32 (td.abiSize t)

variable (items : List CgGlobal) (funcs : List Nat) (cap : Word)

/-- The check at the head of `serialize_constant`: a constant must lie below the capacity. -/
def belowCap (t : Ty) (off : Word) (rest : Option Mem) : Option Mem := if off + sizeOf td t > cap then none else rest

/-- `serialize_constant` -/
def serializeConstant : {t : Ty} → Const t → Mem → Word → Option Mem
  | t, .cast op _ c hs ht, out, off => belowCap td cap t off (
      match op with
      | .ptrToInt | .intToPtr | .bitCast => serializeConstant c out off
      | .addrSpaceCast => if t.isPointer then serializeGlobalPtr td items (sizeOf td t) out off (.cast .addrSpaceCast t c hs ht) else none
      | .other => none)
  | _, .aliasOf aliasee, out, off => belowCap td cap .pointer off (serializeConstant aliasee out off)
  | _, .null, out, off => belowCap td cap .pointer off (some out)
  | t, .zero _, out, off => belowCap td cap t off (some out)
  | t, .undef _, out, off => belowCap td cap t off (some out)
  | _, .int (w := w) _ v, out, off => belowCap td cap (.int w) off (
      some (out.blit off.toNat (min (sizeOf td (.int w)).toNat 8) (byteOf (v.toNat % 2 ^ 64))))
  | _, .float bits, out, off => belowCap td cap .float off (some (out.setWord off.toNat (td.floatOfDouble (td.realGetDouble bits))))
  | _, .double bits, out, off => belowCap td cap .double off (some (out.blit off.toNat 8 (byteOf bits.toNat)))
  | _, .func id, out, off => belowCap td cap .pointer off (
      if sizeOf td .pointer < 4#32 then none else serializeFunctionIndex funcs id out off)
  | _, .array (n := n) (t := elem) elems, out, off => belowCap td cap (.array n elem) off (
      (List.finRange n).foldlM (fun out i => serializeConstant (elems i) out (off + BitVec.ofNat 32 i * sizeOf td elem)) out)
  | _, @Const.struct p n fs elems, out, off => belowCap td cap (.struct p n fs) off (
      (List.finRange n).foldlM (fun out i => serializeConstant (elems i) out (off + BitVec.ofNat 32 (td.offsetOfElement p n fs i))) out)
  | _, .global id, out, off => belowCap td cap .pointer off (
      serializeGlobalPtr td items (sizeOf td .pointer) out off (.global id))
  | _, .gep source first path base, out, off => belowCap td cap .pointer off (
      serializeGlobalPtr td items (sizeOf td .pointer) out off (.gep source first path base))
  | t, .other _, _, off => belowCap td cap t off none

end serialize

/-! ## Layout -/

/-- `struct cg_globals`; the bytes of `data` are those of `data_bytes`, its size is `data_cap`. -/
structure CgGlobals where
  items : List CgGlobal
  data : Mem
  dataSize : Word

/-- The errors of `cg_collect_globals`, each with the number of the global variable. -/
inductive GlobalsError where
  | noInitializer (i : Nat)
  | rejected (i : Nat)
  | initializer (i : Nat)
  /-- The loop of `cg_data_reserve` has not ended. -/
  | outOfFuel
  deriving DecidableEq, Repr

/-- The text an error is reported with. -/
def GlobalsError.message : GlobalsError → String
  | .noInitializer _ => "external global has no initializer (extern not supported)"
  | .rejected _ => "global rejected"
  | .initializer _ => "unsupported initializer shape (or function-pointer initialiser without a definition for the referenced function)"
  | .outOfFuel => ""

/-- The loop of `cg_data_reserve`: the capacity is doubled. -/
def growCap : Nat → Word → Word → Option Word
  | 0, _, _ => none
  | fuel + 1, cap, need => if cap < need then growCap fuel (cap * 2#32) need else some cap

/-- `cg_data_reserve` -/
def cgDataReserve (fuel : Nat) (data : Mem) (need : Word) : Option Mem :=
  if data.size ≥ need.toNat then some data
  else
    match growCap fuel (if data.size = 0 then 64#32 else BitVec.ofNat 32 data.size) need with
    | some cap => some { size := cap.toNat, byte := (data.blit data.size (cap.toNat - data.size) fun _ => 0#8).byte }
    | none => none

section layout

variable (td : TargetData)

/-- The alignment of a global variable: the larger one of its type's and of its own. -/
def alignOf (gv : GlobalVar) : Word :=
  let align := BitVec.ofNat 32 (td.abiAlign gv.ty)
  let gvalign := BitVec.ofNat 32 gv.align
  let align := if gvalign > align then gvalign else align
  if align = 0#32 then 1#32 else align

/-- The first pass of `cg_collect_globals` from the global variable `i` on, with the cursor. -/
def layoutGlobals (fuel : Nat) : List GlobalVar → Nat → Word → CgGlobals → Except GlobalsError CgGlobals
  | [], _, _, g => .ok g
  | gv :: gvs, i, cursor, g =>
    if gv.init = none then .error (.noInitializer i)
    else if typeInSubset gv.ty = false then .error (.rejected i)
    else
      let size := sizeOf td gv.ty
      let align := alignOf td gv
      let cursor := (cursor + align - 1#32) &&& ~~~(align - 1#32)
      match cgDataReserve fuel g.data (cursor + size) with
      | none => .error .outOfFuel
      | some data =>
        let next := cursor + size
        layoutGlobals fuel gvs (i + 1) next
          { items := g.items ++ [{ value := i, offset := cursor, size := size }], data := data
            dataSize := if next > g.dataSize then next else g.dataSize }

/-- The second pass of `cg_collect_globals`. -/
def serializeGlobals (mod : Module) (items : List CgGlobal) : List CgGlobal → Mem → Except GlobalsError Mem
  | [], data => .ok data
  | it :: its, data =>
    match mod.globals[it.value]? with
    | some gv =>
      match gv.init with
      | some init =>
        match serializeConstant td items mod.funcs (BitVec.ofNat 32 data.size) init data it.offset with
        | some data => serializeGlobals mod items its data
        | none => .error (.initializer it.value)
      | none => serializeGlobals mod items its data
    | none => serializeGlobals mod items its data

/-- The state before the first pass: eight bytes are reserved if a global variable is defined. -/
def globalsGuard (fuel : Nat) (mod : Module) : Option (Word × CgGlobals) :=
  let empty : CgGlobals := { items := [], data := { size := 0, byte := fun _ => 0#8 }, dataSize := 0#32 }
  if mod.globals.any fun gv => gv.init.isSome then
    (cgDataReserve fuel empty.data 8#32).map fun data => (8#32, { empty with data := data, dataSize := 8#32 })
  else some (0#32, empty)

/-- The global variables with their offsets. -/
def layOut (fuel : Nat) (mod : Module) : Except GlobalsError CgGlobals :=
  match globalsGuard fuel mod with
  | some (cursor, g) => layoutGlobals td fuel mod.globals 0 cursor g
  | none => .error .outOfFuel

/-- `cg_collect_globals` -/
def cgCollectGlobals (fuel : Nat) (mod : Module) : Except GlobalsError CgGlobals :=
  match layOut td fuel mod with
  | .ok g =>
    match serializeGlobals td mod g.items g.items g.data with
    | .ok data => .ok { g with data := data }
    | .error e => .error e
  | .error e => .error e

end layout

end CronoVM.Globals
