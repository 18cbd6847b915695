import CronoVM.Lib.Memory

/-!
# The exception runtime

`cvm_cxxrt.cpp` of the runtime library: the search for a base class in `type_info` records, the chain of frames that `invoke` pushes, and
the `__cxa_*` functions. A load or store of the compiled code outside of memory ends the program with `CVM_E_BAD_ADDR`.
-/

namespace CronoVM

/-- A mapped result is one of the map. -/
theorem Except.map_eq_ok_iff {ε α β : Type} {f : α → β} {x : Except ε α} {b : β} : x.map f = .ok b ↔ ∃ a, x = .ok a ∧ f a = b := by
  cases x with
  | error e => exact iff_of_false (fun h => nomatch h) fun ⟨_, h, _⟩ => nomatch h
  | ok a => exact ⟨fun h => ⟨a, rfl, Except.ok.inj h⟩, fun ⟨_, ha, h⟩ => congrArg Except.ok (Except.ok.inj ha ▸ h)⟩

/-! ## Loads and stores -/

/-- `LDW` at an address; `none` is `CVM_E_BAD_ADDR`. -/
def Mem.ldw (m : Mem) (p : Word) : Option Word := if p.toNat + 4 ≤ m.size then some (m.word p.toNat) else none

/-- `STB` at an address. -/
def Mem.stb (m : Mem) (p : Word) (b : Byte) : Option Mem := if p.toNat < m.size then some (m.setByte p.toNat b) else none

/-! ## Type information -/

mutual

/-- A `type_info` record at an address, by what `ti_kind` says of it; null and what is no class are `other`. -/
inductive TypeInfo where
  | other (p : Word)
  | leaf (p : Word)
  | si (p : Word) (base : TypeInfo)
  | vmi (p : Word) (bases : Bases)

/-- `bases[]` of a `ti_vmi`: `offset_flags` and the base. -/
inductive Bases where
  | nil
  | cons (offsetFlags : Word) (base : TypeInfo) (rest : Bases)

end

/-- The pointer to a record. -/
def TypeInfo.addr : TypeInfo → Word
  | .other p | .leaf p | .si p _ | .vmi p _ => p

/-- The null pointer. -/
def TypeInfo.null : TypeInfo := .other 0#32

def virtualMask : Word := 1#32

def publicMask : Word := 2#32

def offsetShift : Nat := 8

/-- The offset of a base in the subobject at `off` of the object at `most`: the one of the record, or for a virtual base the one in the
vtable of the subobject. -/
def baseOffset (m : Mem) (most off offsetFlags : Word) : Option Word :=
  if offsetFlags &&& virtualMask ≠ 0#32 then do
    let vptr ← m.ldw (most + off)
    m.ldw (vptr + offsetFlags.sshiftRight offsetShift)
  else some (offsetFlags.sshiftRight offsetShift)

mutual

/-- `ti_search` -/
def tiSearch (m : Mem) (dst most : Word) : TypeInfo → Word → Option Word
  | .other p, off => if p = dst then some off else some (-1#32)
  | .leaf p, off => if p = dst then some off else some (-1#32)
  | .si p base, off => if p = dst then some off else tiSearch m dst most base off
  | .vmi p bases, off => if p = dst then some off else tiSearchBases m dst most bases off

/-- The loop of `ti_search` over the bases. -/
def tiSearchBases (m : Mem) (dst most : Word) : Bases → Word → Option Word
  | .nil, _ => some (-1#32)
  | .cons offsetFlags base rest, off =>
    if offsetFlags &&& publicMask = 0#32 then tiSearchBases m dst most rest off
    else
      match baseOffset m most off offsetFlags with
      | none => none
      | some boff =>
        match tiSearch m dst most base (off + boff) with
        | none => none
        | some r => if (0#32).sle r then some r else tiSearchBases m dst most rest off

end

/-- `__dynamic_cast`, with the record at an address. -/
def dynamicCast (m : Mem) (record : Word → TypeInfo) (sub dst : Word) : Option Word :=
  if sub = 0#32 then some 0#32
  else do
    let vptr ← m.ldw sub
    let offToTop ← m.ldw (vptr - 8#32)
    let dyn ← m.ldw (vptr - 4#32)
    let most := sub + offToTop
    let r ← tiSearch m dst most (record dyn) 0#32
    some (if r.slt 0#32 then 0#32 else most + r)

/-- `eh_type_matches`; `dummy` is the address of its local variable, whose byte it sets to 0. The byte goes with the function's frame: nothing
reads it after the return. -/
def ehTypeMatches (m : Mem) (dummy : Word) (thrown : TypeInfo) (caught : Word) : Option Bool := do
  let m ← m.stb dummy 0#8
  let r ← tiSearch m caught dummy thrown 0#32
  some ((0#32).sle r)

/-! ## The chain of frames -/

/-- `eh_desc`: the addresses of the clauses' types, 0 for `catch(...)`. -/
structure EhDesc where
  clauses : List Word
  hasCleanup : Bool
  deriving DecidableEq, Repr

/-- `eh_frame` at an address; its `next` is the rest of the chain. -/
structure EhFrame where
  addr : Word
  desc : Option EhDesc
  deriving DecidableEq, Repr

/-- `exc_header` -/
structure ExcHeader where
  ti : TypeInfo
  dtor : Word
  handlerCount : Int

/-- The globals of the runtime, the headers of the exception objects, and the objects whose destructor and `free` have run, with the
destructor, the last one first. -/
structure EhState where
  mem : Mem
  top : List EhFrame
  exc : Word
  ti : TypeInfo
  sel : Word
  header : Word → ExcHeader
  done : List (Word × Word)

/-- How a walk along the chain ends otherwise: the call of `__cvm_eh_terminate`, or `CVM_E_BAD_ADDR`. -/
inductive EhEnd where
  | terminate | badAddr
  deriving DecidableEq, Repr

/-- The first clause of a frame that catches, as the selector it sets. -/
def ehSelect (m : Mem) (dummy : Word) (ti : TypeInfo) : List Word → Option (Option Word)
  | [] => some none
  | cti :: rest =>
    if cti = 0#32 then some (some 0#32)
    else
      match ehTypeMatches m dummy ti cti with
      | none => none
      | some true => some (some cti)
      | some false => ehSelect m dummy ti rest

/-- The frame that a walk along the chain stops at: the frame, the selector and the rest of the chain. -/
structure Landing where
  frame : EhFrame
  sel : Word
  rest : List EhFrame
  deriving DecidableEq, Repr

/-- The loop of `eh_unwind`. -/
def ehWalk (m : Mem) (dummy : Word) (ti : TypeInfo) : List EhFrame → Except EhEnd Landing
  | [] => .error .terminate
  | f :: rest =>
    match f.desc with
    | none => ehWalk m dummy ti rest
    | some d =>
      match ehSelect m dummy ti d.clauses with
      | none => .error .badAddr
      | some (some sel) => .ok ⟨f, sel, rest⟩
      | some none => if d.hasCleanup then .ok ⟨f, 0#32, rest⟩ else ehWalk m dummy ti rest

/-- `eh_unwind`: the frame it jumps to, and the state there. -/
def ehUnwind (dummy : Word) (s : EhState) : Except EhEnd (EhFrame × EhState) :=
  (ehWalk s.mem dummy s.ti s.top).map fun l => (l.frame, { s with top := l.rest, sel := l.sel })

/-! ## The functions the translator calls -/

/-- `__cvm_eh_push` -/
def cvmEhPush (f : EhFrame) (s : EhState) : EhState := { s with top := f :: s.top }

/-- `__cvm_eh_pop` -/
def cvmEhPop (s : EhState) : EhState := { s with top := s.top.tail }

/-- `__cvm_eh_exc` -/
def cvmEhExc (s : EhState) : Word := s.exc

/-- `__cvm_eh_sel` -/
def cvmEhSel (s : EhState) : Word := s.sel

/-- `__cvm_eh_resume` -/
def cvmEhResume (dummy : Word) (s : EhState) : Except EhEnd (EhFrame × EhState) := ehUnwind dummy s

/-! ## `__cxa_*` -/

def EhState.setHeader (s : EhState) (obj : Word) (h : ExcHeader) : EhState := { s with header := Function.update s.header obj h }

/-- `__cxa_allocate_exception`, with the object that `malloc` makes room for. -/
def cxaAllocateException (obj : Word) (s : EhState) : EhState := s.setHeader obj ⟨.null, 0#32, 0⟩

/-- `__cxa_throw` -/
def cxaThrow (dummy obj : Word) (ti : TypeInfo) (dtor : Word) (s : EhState) : Except EhEnd (EhFrame × EhState) :=
  let s := s.setHeader obj { s.header obj with ti := ti, dtor := dtor }
  ehUnwind dummy { s with exc := obj, ti := ti }

/-- `__cxa_begin_catch`: what it returns, and the state. It does not look at its argument. -/
def cxaBeginCatch (_exc : Word) (s : EhState) : Word × EhState :=
  if s.exc ≠ 0#32 then
    let h := s.header s.exc
    (s.exc, s.setHeader s.exc { h with handlerCount := if h.handlerCount < 0 then -h.handlerCount + 1 else h.handlerCount + 1 })
  else (s.exc, s)

/-- `__cxa_end_catch` -/
def cxaEndCatch (s : EhState) : EhState :=
  if s.exc = 0#32 then s
  else
    let h := s.header s.exc
    if h.handlerCount < 0 then s.setHeader s.exc { h with handlerCount := h.handlerCount + 1 }
    else
      let s := s.setHeader s.exc { h with handlerCount := h.handlerCount - 1 }
      if h.handlerCount - 1 = 0 then { s with done := (s.exc, h.dtor) :: s.done, exc := 0#32, ti := .null } else s

/-- `__cxa_rethrow` -/
def cxaRethrow (dummy : Word) (s : EhState) : Except EhEnd (EhFrame × EhState) :=
  let s :=
    if s.exc ≠ 0#32 then
      let h := s.header s.exc
      s.setHeader s.exc { h with handlerCount := -h.handlerCount }
    else s
  ehUnwind dummy s

end CronoVM
