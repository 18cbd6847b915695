import CronoVM.Runtime.Exceptions
import Mathlib.Data.List.Count

/-!
# One exception after the other

What a program does with exceptions is a stack of activities: an exception in flight, from a raise to the handler it reaches, and a handler,
from `__cxa_begin_catch` to `__cxa_end_catch`. The runtime has one exception in its globals; it is the innermost one as long as none is
thrown while another is in flight or handled.
-/

namespace CronoVM

variable {dummy : Word} {s s' : EhState}

/-! ## What the program does -/

/-- What goes on with an exception: it is in flight, at a landing pad that was reached with a selector, or handled. -/
inductive Activity where
  | flight (exc sel : Word)
  | handler (exc : Word)
  deriving DecidableEq, Repr

def Activity.exc : Activity → Word
  | .flight e _ => e
  | .handler e => e

/-- The activities of a program, the innermost first; the objects that have room and are not thrown yet; the types and destructors of the
thrown ones; the throws so far, and the objects whose last activity has ended, with their destructors. -/
structure EhProgram where
  acts : List Activity
  allocated : List Word
  types : Word → TypeInfo
  dtors : Word → Word
  thrown : List Word
  ended : List (Word × Word)

/-- An exception is in flight or handled. -/
def EhProgram.Alive (σ : EhProgram) (e : Word) : Prop := e ∈ σ.acts.map Activity.exc

/-- An activity with an exception ends; what is left. If it was the last one, the object goes. -/
def EhProgram.close (σ : EhProgram) (e : Word) (acts : List Activity) : EhProgram :=
  { σ with acts := acts, ended := if e ∈ acts.map Activity.exc then σ.ended else (e, σ.dtors e) :: σ.ended }

/-- The steps of a program. -/
inductive EhEvent where
  | push (f : EhFrame)
  | pop
  | allocate (obj : Word)
  | throw (obj : Word) (ti : TypeInfo) (dtor : Word)
  | resume
  | beginCatch (exc : Word)
  | endCatch
  | rethrow

/-- A step of a well-nested program, and what the runtime does. A raise steps to the landing pad it reaches. -/
inductive EhStep (dummy : Word) : EhEvent → EhState → EhProgram → EhState → EhProgram → Prop
  | push {s : EhState} {σ : EhProgram} (f : EhFrame) : EhStep dummy (.push f) s σ (cvmEhPush f s) σ
  | pop {s : EhState} {σ : EhProgram} : EhStep dummy .pop s σ (cvmEhPop s) σ
  | allocate {s : EhState} {σ : EhProgram} {obj : Word} : obj ≠ 0#32 → ¬σ.Alive obj → obj ∉ σ.allocated →
      EhStep dummy (.allocate obj) s σ (cxaAllocateException obj s) { σ with allocated := obj :: σ.allocated }
  | throw {s s' : EhState} {σ : EhProgram} {obj dtor : Word} {ti : TypeInfo} {f : EhFrame} : obj ∈ σ.allocated →
      cxaThrow dummy obj ti dtor s = .ok (f, s') →
      EhStep dummy (.throw obj ti dtor) s σ s'
        { σ with
          acts := .flight obj s'.sel :: σ.acts
          allocated := σ.allocated.filter (· ≠ obj)
          types := Function.update σ.types obj ti
          dtors := Function.update σ.dtors obj dtor
          thrown := obj :: σ.thrown }
  | resume {s s' : EhState} {σ : EhProgram} {e k : Word} {acts : List Activity} {f : EhFrame} : σ.acts = .flight e k :: acts →
      cvmEhResume dummy s = .ok (f, s') → EhStep dummy .resume s σ s' { σ with acts := .flight e s'.sel :: acts }
  | beginCatch {s : EhState} {σ : EhProgram} {e k : Word} {acts : List Activity} (exc : Word) : σ.acts = .flight e k :: acts →
      EhStep dummy (.beginCatch exc) s σ (cxaBeginCatch exc s).2 { σ with acts := .handler e :: acts }
  | endCatch {s : EhState} {σ : EhProgram} {e : Word} {acts : List Activity} : σ.acts = .handler e :: acts →
      EhStep dummy .endCatch s σ (cxaEndCatch s) (σ.close e acts)
  /-- The exception in flight leaves a handler, whose cleanup ends it. -/
  | leave {s : EhState} {σ : EhProgram} {e x k : Word} {acts : List Activity} : σ.acts = .flight x k :: .handler e :: acts →
      EhStep dummy .endCatch s σ (cxaEndCatch s) (σ.close e (.flight x k :: acts))
  | rethrow {s s' : EhState} {σ : EhProgram} {e : Word} {before acts : List Activity} {f : EhFrame} : σ.acts = before ++ .handler e :: acts →
      (∀ a ∈ before, ∃ x k, a = .flight x k) → cxaRethrow dummy s = .ok (f, s') →
      EhStep dummy .rethrow s σ s' { σ with acts := .flight e s'.sel :: σ.acts }

/-- No exception is thrown while another one is alive, and none is raised again in a cleanup, while it is in flight. -/
def Calm (σ : EhProgram) : EhEvent → Prop
  | .throw _ _ _ => σ.acts = []
  | .rethrow => ∃ e acts, σ.acts = .handler e :: acts
  | _ => True

/-- The runs whose steps all meet a condition on the program's state before them. -/
inductive EhRun (dummy : Word) (P : EhProgram → EhEvent → Prop) (s₀ : EhState) (σ₀ : EhProgram) : EhState → EhProgram → Prop
  | start : EhRun dummy P s₀ σ₀ s₀ σ₀
  | step {s s' : EhState} {σ σ' : EhProgram} {event : EhEvent} : EhRun dummy P s₀ σ₀ s σ → P σ event → EhStep dummy event s σ s' σ' →
      EhRun dummy P s₀ σ₀ s' σ'

/-- A program before its first exception. -/
structure EhStart (s₀ : EhState) (σ₀ : EhProgram) : Prop where
  acts : σ₀.acts = []
  allocated : σ₀.allocated = []
  thrown : σ₀.thrown = []
  ended : σ₀.ended = []
  done : s₀.done = []

/-! ## What the runtime should do -/

/-- The globals are those of the innermost activity, and the objects that are gone are those whose last activity has ended. -/
structure EhOk (s : EhState) (σ : EhProgram) : Prop where
  /-- A landing pad and `__cxa_begin_catch` see the exception that reached it, and it is the one a `resume` raises. -/
  flight : ∀ e k acts, σ.acts = .flight e k :: acts → cvmEhExc s = e ∧ cvmEhSel s = k ∧ (∀ exc, (cxaBeginCatch exc s).1 = e) ∧
    ∀ dummy f s', cvmEhResume dummy s = .ok (f, s') → s'.exc = e ∧ s'.ti = σ.types e
  /-- `throw;` raises the exception that is handled. -/
  handler : ∀ e acts, σ.acts = .handler e :: acts → ∀ dummy f s', cxaRethrow dummy s = .ok (f, s') → s'.exc = e ∧ s'.ti = σ.types e
  /-- The destructor and `free` run when the last activity with an object ends, once for each throw. -/
  done : s.done = σ.ended
  once : ∀ e, σ.thrown.count e = (σ.ended.map Prod.fst).count e + if e ∈ σ.acts.map Activity.exc then 1 else 0

/-! ## One exception at a time -/

/-- The activities are with one exception: handlers, and a flight perhaps; its handler count is their number, negative in flight. -/
structure OneException (s : EhState) (σ : EhProgram) : Prop where
  acts : σ.acts = [] ∨ ∃ e n, s.exc = e ∧ e ≠ 0#32 ∧ s.ti = σ.types e ∧ (s.header e).dtor = σ.dtors e ∧ e ∉ σ.allocated ∧
    ((0 < n ∧ σ.acts = List.replicate n (.handler e) ∧ (s.header e).handlerCount = n) ∨
      (σ.acts = .flight e s.sel :: List.replicate n (.handler e) ∧ (s.header e).handlerCount = -n))
  allocated : ∀ e ∈ σ.allocated, e ≠ 0#32 ∧ (s.header e).handlerCount = 0
  done : s.done = σ.ended
  once : ∀ e, σ.thrown.count e = (σ.ended.map Prod.fst).count e + if e ∈ σ.acts.map Activity.exc then 1 else 0

namespace EhAux

variable {σ σ' : EhProgram} {e : Word} {f : EhFrame} {n : Nat}

/-- A raise keeps the exception and the headers. -/
theorem ehUnwind_kept (h : ehUnwind dummy s = .ok (f, s')) :
    s'.exc = s.exc ∧ s'.ti = s.ti ∧ s'.header = s.header ∧ s'.done = s.done := by
  obtain ⟨l, -, hl⟩ := Except.map_eq_ok_iff.mp h
  obtain ⟨-, rfl⟩ := Prod.mk.inj hl
  exact ⟨rfl, rfl, rfl, rfl⟩

/-- The object of equal handlers. -/
theorem map_exc_replicate (n : Nat) (e : Word) : (List.replicate n (Activity.handler e)).map Activity.exc = List.replicate n e :=
  List.map_replicate

/-- An object that goes is counted. -/
theorem once_close (σ : EhProgram) (e : Word) (acts : List Activity)
    (h : ∀ x, σ.thrown.count x = (σ.ended.map Prod.fst).count x + if x ∈ e :: acts.map Activity.exc then 1 else 0) (x : Word) :
    (σ.close e acts).thrown.count x = ((σ.close e acts).ended.map Prod.fst).count x +
      if x ∈ (σ.close e acts).acts.map Activity.exc then 1 else 0 := by
  have hx := h x
  unfold EhProgram.close
  dsimp only
  by_cases hmem : e ∈ acts.map Activity.exc
  · rw [if_pos hmem, hx]
    by_cases hxe : x = e
    · rw [if_pos (hxe ▸ List.mem_cons_self), if_pos (hxe ▸ hmem)]
    · simp only [List.mem_cons, hxe, false_or]
  · rw [if_neg hmem, List.map_cons, hx]
    by_cases hxe : x = e
    · subst hxe
      rw [List.count_cons_self, if_pos List.mem_cons_self, if_neg hmem]
    · rw [List.count_cons_of_ne (fun heq => hxe heq.symm)]
      simp only [List.mem_cons, hxe, false_or]

/-- What `__cxa_begin_catch` does with an exception. -/
theorem cxaBeginCatch_eq (hexc : s.exc = e) (hne : e ≠ 0#32) (exc : Word) : cxaBeginCatch exc s = (e, s.setHeader e { s.header e with
    handlerCount := if (s.header e).handlerCount < 0 then -(s.header e).handlerCount + 1 else (s.header e).handlerCount + 1 }) := by
  unfold cxaBeginCatch
  rw [hexc, if_pos hne]

end EhAux

open EhAux

namespace OneException

variable {σ σ' : EhProgram} {event : EhEvent}

/-- The exception in flight is that of the globals. -/
theorem of_flight (h : OneException s σ) {e k : Word} {acts : List Activity} (hacts : σ.acts = .flight e k :: acts) :
    s.exc = e ∧ s.sel = k ∧ e ≠ 0#32 ∧ s.ti = σ.types e ∧ (s.header e).dtor = σ.dtors e ∧ e ∉ σ.allocated ∧
      ∃ n : Nat, acts = List.replicate n (.handler e) ∧ (s.header e).handlerCount = -n := by
  rcases h.acts with hnil | ⟨e', n, hexc, hne, hti, hdtor, hnot, ⟨hpos, hall, -⟩ | ⟨hall, hcount⟩⟩
  · rw [hnil] at hacts
    nomatch hacts
  · rw [hall] at hacts
    cases n with
    | zero => exact absurd hpos (Nat.lt_irrefl 0)
    | succ n => nomatch hacts
  · rw [hall] at hacts
    obtain ⟨hhead, rfl⟩ := List.cons.inj hacts
    obtain ⟨rfl, rfl⟩ := Activity.flight.inj hhead
    exact ⟨hexc, rfl, hne, hti, hdtor, hnot, n, rfl, hcount⟩

/-- So is the one that is handled. -/
theorem of_handler (h : OneException s σ) {e : Word} {acts : List Activity} (hacts : σ.acts = .handler e :: acts) :
    s.exc = e ∧ e ≠ 0#32 ∧ s.ti = σ.types e ∧ (s.header e).dtor = σ.dtors e ∧ e ∉ σ.allocated ∧
      ∃ n : Nat, acts = List.replicate n (.handler e) ∧ (s.header e).handlerCount = n + 1 := by
  rcases h.acts with hnil | ⟨e', n, hexc, hne, hti, hdtor, hnot, ⟨hpos, hall, hcount⟩ | ⟨hall, -⟩⟩
  · rw [hnil] at hacts
    nomatch hacts
  · rw [hall] at hacts
    cases n with
    | zero => exact absurd hpos (Nat.lt_irrefl 0)
    | succ n =>
      obtain ⟨hhead, rfl⟩ := List.cons.inj hacts
      obtain rfl := Activity.handler.inj hhead
      exact ⟨hexc, hne, hti, hdtor, hnot, n, rfl, hcount⟩
  · rw [hall] at hacts
    nomatch hacts

/-- A change of the header of the exception leaves those of the allocated objects. -/
theorem allocated_of_header (h : OneException s σ) {e : Word} {hd : ExcHeader} (hnot : e ∉ σ.allocated) :
    ∀ x ∈ σ.allocated, x ≠ 0#32 ∧ ((s.setHeader e hd).header x).handlerCount = 0 := by
  intro x hx
  have hne : x ≠ e := fun heq => hnot (heq ▸ hx)
  have hother : (s.setHeader e hd).header x = s.header x := Function.update_of_ne hne _ _
  rw [hother]
  exact h.allocated x hx

/-- One step of a calm program. -/
theorem step (h : OneException s σ) (hcalm : Calm σ event) (hstep : EhStep dummy event s σ s' σ') : OneException s' σ' := by
  cases hstep with
  | push f => exact ⟨h.acts, h.allocated, h.done, h.once⟩
  | pop => exact ⟨h.acts, h.allocated, h.done, h.once⟩
  | @allocate _ _ obj hne hdead hfresh =>
    refine ⟨?_, fun x hx => ?_, h.done, h.once⟩
    · rcases h.acts with hnil | ⟨e, n, hexc, he, hti, hdtor, hnot, hacts⟩
      · exact Or.inl hnil
      · have heobj : e ≠ obj := by
          rintro rfl
          refine hdead ?_
          rcases hacts with ⟨hpos, hacts, -⟩ | ⟨hacts, -⟩
          · rw [EhProgram.Alive, hacts, map_exc_replicate]
            exact List.mem_replicate.mpr ⟨Nat.ne_of_gt hpos, rfl⟩
          · rw [EhProgram.Alive, hacts]
            exact List.mem_cons_self
        have hheader : (cxaAllocateException obj s).header e = s.header e := Function.update_of_ne heobj _ _
        refine Or.inr ⟨e, n, hexc, he, hti, ?_, ?_, ?_⟩
        · rw [hheader]
          exact hdtor
        · exact fun hmem => (List.mem_cons.mp hmem).elim heobj hnot
        · rw [hheader]
          exact hacts
    · rcases List.mem_cons.mp hx with rfl | hx
      · refine ⟨hne, ?_⟩
        have hheader : (cxaAllocateException x s).header x = ⟨.null, 0#32, 0⟩ := Function.update_self _ _ _
        rw [hheader]
      · have hxobj : x ≠ obj := fun heq => hfresh (heq ▸ hx)
        have hheader : (cxaAllocateException obj s).header x = s.header x := Function.update_of_ne hxobj _ _
        rw [hheader]
        exact h.allocated x hx
  | @throw _ _ _ obj dtor ti f hobj hthrow =>
    obtain ⟨hexc, hti, hheader, hdone⟩ := ehUnwind_kept hthrow
    obtain ⟨hne, hcount⟩ := h.allocated obj hobj
    have hself : s'.header obj = { s.header obj with ti := ti, dtor := dtor } := by
      rw [hheader]
      exact Function.update_self _ _ _
    have hnil : σ.acts = [] := hcalm
    refine ⟨Or.inr ⟨obj, 0, hexc, hne, ?_, ?_, ?_, Or.inr ⟨?_, ?_⟩⟩, fun x hx => ?_, hdone.trans h.done, fun x => ?_⟩
    · refine Eq.trans hti ?_
      dsimp only
      rw [Function.update_self]
    · rw [hself]
      dsimp only
      rw [Function.update_self]
    · exact fun hmem => of_decide_eq_true (List.mem_filter.mp hmem).2 rfl
    · rw [hnil]
      rfl
    · rw [hself]
      exact hcount
    · obtain ⟨hx, hxobj⟩ := List.mem_filter.mp hx
      have hother : s'.header x = s.header x := by
        rw [hheader]
        exact Function.update_of_ne (of_decide_eq_true hxobj) _ _
      rw [hother]
      exact h.allocated x hx
    · have honce := h.once x
      rw [hnil] at honce ⊢
      dsimp only
      by_cases hx : x = obj
      · subst hx
        rw [List.count_cons_self, honce]
        simp [Activity.exc]
      · rw [List.count_cons_of_ne (fun heq => hx heq.symm), honce]
        simp [Activity.exc, hx]
  | @resume _ _ _ e k acts f hacts hresume =>
    obtain ⟨hexc', hti', hheader, hdone⟩ := ehUnwind_kept hresume
    obtain ⟨hexc, -, hne, hti, hdtor, hnot, n, rfl, hcount⟩ := h.of_flight hacts
    refine ⟨Or.inr ⟨e, n, hexc'.trans hexc, hne, hti'.trans hti, hheader ▸ hdtor, hnot, Or.inr ⟨rfl, hheader ▸ hcount⟩⟩,
      hheader ▸ h.allocated, hdone.trans h.done, fun x => ?_⟩
    have honce := h.once x
    rw [hacts] at honce
    exact honce
  | @beginCatch _ _ e k acts exc hacts =>
    obtain ⟨hexc, -, hne, hti, hdtor, hnot, n, rfl, hcount⟩ := h.of_flight hacts
    rw [cxaBeginCatch_eq hexc hne exc]
    dsimp only
    have hself : ∀ hd, (s.setHeader e hd).header e = hd := fun hd => Function.update_self _ _ _
    refine ⟨Or.inr ⟨e, n + 1, hexc, hne, hti, ?_, hnot, Or.inl ⟨Nat.succ_pos n, rfl, ?_⟩⟩, h.allocated_of_header hnot, h.done, fun x => ?_⟩
    · rw [hself]
      exact hdtor
    · rw [hself, hcount]
      dsimp only
      split <;> omega
    · have honce := h.once x
      rw [hacts] at honce
      exact honce
  | @endCatch _ _ e acts hacts =>
    obtain ⟨hexc, hne, hti, hdtor, hnot, n, rfl, hcount⟩ := h.of_handler hacts
    have hself : ∀ hd, (s.setHeader e hd).header e = hd := fun hd => Function.update_self _ _ _
    have honce := once_close σ e (List.replicate n (.handler e)) fun x => by
      have honce := h.once x
      rw [hacts] at honce
      exact honce
    unfold cxaEndCatch
    rw [hexc, if_neg hne]
    dsimp only
    rw [hcount, if_neg (by omega)]
    cases n with
    | zero =>
      -- the last handler
      rw [if_pos (by omega)]
      refine ⟨Or.inl rfl, h.allocated_of_header hnot, ?_, honce⟩
      have hended : (σ.close e (List.replicate 0 (.handler e))).ended = (e, σ.dtors e) :: σ.ended := by
        unfold EhProgram.close
        dsimp only
        exact if_neg List.not_mem_nil
      rw [hended, hdtor]
      dsimp only
      rw [← h.done]
      exact congrArg (fun x => (x, σ.dtors e) :: s.done) hexc
    | succ n =>
      rw [if_neg (by omega)]
      refine ⟨Or.inr ⟨e, n + 1, hexc, hne, hti, ?_, hnot, Or.inl ⟨Nat.succ_pos n, rfl, ?_⟩⟩, h.allocated_of_header hnot, ?_, honce⟩
      · rw [hself]
        exact hdtor
      · rw [hself]
        dsimp only
        omega
      · have hended : (σ.close e (List.replicate (n + 1) (.handler e))).ended = σ.ended := if_pos List.mem_cons_self
        rw [hended]
        exact h.done
  | @leave _ _ e x k acts hacts =>
    obtain ⟨hexc, hsel, hne, hti, hdtor, hnot, n, hall, hcount⟩ := h.of_flight hacts
    cases n with
    | zero => nomatch hall
    | succ n =>
      obtain ⟨hhead, rfl⟩ := List.cons.inj hall
      obtain rfl := Activity.handler.inj hhead
      have hself : ∀ hd, (s.setHeader e hd).header e = hd := fun hd => Function.update_self _ _ _
      have honce := once_close σ e (.flight e k :: List.replicate n (.handler e)) fun x => by
        have honce := h.once x
        rw [hacts] at honce
        simpa [Activity.exc] using honce
      unfold cxaEndCatch
      rw [hexc, if_neg hne]
      dsimp only
      rw [hcount, if_pos (by omega)]
      refine ⟨Or.inr ⟨e, n, hexc, hne, hti, ?_, hnot, Or.inr ⟨?_, ?_⟩⟩, h.allocated_of_header hnot, ?_, honce⟩
      · rw [hself]
        exact hdtor
      · rw [← hsel]
        rfl
      · rw [hself]
        dsimp only
        omega
      · have hended : (σ.close e (.flight e k :: List.replicate n (.handler e))).ended = σ.ended := if_pos List.mem_cons_self
        rw [hended]
        exact h.done
  | @rethrow _ _ _ e before acts f hacts hbefore hrethrow =>
    obtain ⟨e', acts', hacts'⟩ := hcalm
    have hhead : before = [] ∧ e' = e := by
      rw [hacts] at hacts'
      cases before with
      | nil => exact ⟨rfl, (Activity.handler.inj (List.cons.inj hacts').1).symm⟩
      | cons a before =>
        obtain ⟨x, k, rfl⟩ := hbefore a List.mem_cons_self
        nomatch (List.cons.inj hacts').1
    obtain ⟨rfl, rfl⟩ := hhead
    obtain ⟨hexc, hne, hti, hdtor, hnot, n, hall, hcount⟩ := h.of_handler hacts'
    unfold cxaRethrow at hrethrow
    rw [hexc, if_pos hne] at hrethrow
    obtain ⟨hexc', hti', hheader, hdone⟩ := ehUnwind_kept hrethrow
    have hself : s'.header e' = { s.header e' with handlerCount := -(s.header e').handlerCount } := by
      rw [hheader]
      exact Function.update_self _ _ _
    refine ⟨Or.inr ⟨e', n + 1, hexc'.trans hexc, hne, hti'.trans hti, ?_, hnot, Or.inr ⟨?_, ?_⟩⟩, ?_, hdone.trans h.done, fun x => ?_⟩
    · rw [hself]
      exact hdtor
    · dsimp only
      rw [hacts', hall]
      rfl
    · rw [hself]
      dsimp only
      omega
    · rw [hheader]
      exact h.allocated_of_header hnot
    · have honce := h.once x
      rw [hacts'] at honce
      dsimp only
      rw [hacts']
      simpa [Activity.exc] using honce

/-- With one exception at a time the globals are those of the innermost activity. -/
theorem ehOk (h : OneException s σ) : EhOk s σ := by
  refine ⟨fun e k acts hacts => ?_, fun e acts hacts dummy f s' hrethrow => ?_, h.done, h.once⟩
  · obtain ⟨hexc, hsel, hne, hti, -⟩ := h.of_flight hacts
    refine ⟨hexc, hsel, fun exc => ?_, fun dummy f s' hresume => ?_⟩
    · rw [cxaBeginCatch_eq hexc hne]
    · obtain ⟨hexc', hti', -⟩ := ehUnwind_kept hresume
      exact ⟨hexc'.trans hexc, hti'.trans hti⟩
  · obtain ⟨hexc, hne, hti, -⟩ := h.of_handler hacts
    unfold cxaRethrow at hrethrow
    rw [hexc, if_pos hne] at hrethrow
    obtain ⟨hexc', hti', -⟩ := ehUnwind_kept hrethrow
    exact ⟨hexc'.trans hexc, hti'.trans hti⟩

end OneException

/-- In every run of a program that throws no exception while another one is in flight or handled, the runtime does what it should. -/
theorem exceptions_calm {s₀ : EhState} {σ₀ σ : EhProgram} (hstart : EhStart s₀ σ₀) (h : EhRun dummy Calm s₀ σ₀ s σ) : EhOk s σ := by
  have hone : OneException s σ := by
    induction h with
    | start =>
      refine ⟨Or.inl hstart.acts, fun x hx => ?_, hstart.done.trans hstart.ended.symm, fun x => ?_⟩
      · rw [hstart.allocated] at hx
        nomatch hx
      · rw [hstart.thrown, hstart.ended, hstart.acts]
        rfl
    | step _ hcalm hstep ih => exact ih.step hcalm hstep
  exact hone.ehOk

/-! ## An exception in a handler -/

/-- The globals at the start of a program. -/
def ehInitial : EhState := ⟨⟨64, fun _ => 0⟩, [], 0#32, .null, 0#32, fun _ => ⟨.null, 0#32, 0⟩, []⟩

/-- A program that has done nothing with exceptions. -/
def ehIdle : EhProgram := ⟨[], [], fun _ => .null, fun _ => 0#32, [], []⟩

/-- A frame with `catch (...)`. -/
def catchAll (addr : Word) : EhFrame := ⟨addr, some ⟨[0#32], false⟩⟩

/-- The globals at the start of a program. -/
theorem ehInitial_start : EhStart ehInitial ehIdle := ⟨rfl, rfl, rfl, rfl, rfl⟩

/-- A run can go on from where another one has ended. -/
theorem EhRun.trans {P : EhProgram → EhEvent → Prop} {s₀ s₁ s₂ : EhState} {σ₀ σ₁ σ₂ : EhProgram} (h : EhRun dummy P s₀ σ₀ s₁ σ₁)
    (h' : EhRun dummy P s₁ σ₁ s₂ σ₂) : EhRun dummy P s₀ σ₀ s₂ σ₂ := by
  induction h' with
  | start => exact h
  | step _ hp hstep ih => exact .step ih hp hstep

/-- An exception that is thrown, caught and raised again by `throw;`, and what is left when the second handler has ended. -/
theorem exceptions_calm_rethrown : ∃ s σ s' σ', EhRun 0#32 Calm ehInitial ehIdle s σ ∧ σ.acts = [.flight 16#32 0#32, .handler 16#32] ∧ EhOk s σ ∧
    EhRun 0#32 Calm s σ s' σ' ∧ σ'.acts = [] ∧ σ'.ended = [(16#32, 0#32)] ∧ EhOk s' σ' := by
  have hrun : ∃ s σ s' σ', EhRun 0#32 Calm ehInitial ehIdle s σ ∧ σ.acts = [.flight 16#32 0#32, .handler 16#32] ∧
      EhRun 0#32 Calm s σ s' σ' ∧ σ'.acts = [] ∧ σ'.ended = [(16#32, 0#32)] := by
    refine ⟨_, _, _, _, .step (.step (.step (.step (.step (.step .start ?_ (.push (catchAll 4#32))) ?_ (.push (catchAll 8#32)))
      ?_ (.allocate ?_ ?_ ?_)) ?_ (.throw List.mem_cons_self (rfl : cxaThrow 0#32 16#32 (.leaf 4#32) 0#32 _ = _)))
      ?_ (.beginCatch 0#32 rfl)) ?_ (.rethrow (List.nil_append _).symm (fun _ h => nomatch h) (rfl : cxaRethrow 0#32 _ = _)), rfl,
      .step (.step (.step .start ?_ (.leave rfl)) ?_ (.beginCatch 0#32 rfl)) ?_ (.endCatch rfl), rfl, rfl⟩
    · exact trivial
    · exact trivial
    · exact trivial
    · decide
    · exact List.not_mem_nil
    · exact List.not_mem_nil
    · exact rfl
    · exact trivial
    · exact ⟨_, _, rfl⟩
    · exact trivial
    · exact trivial
    · exact trivial
  obtain ⟨s, σ, s', σ', hraised, hacts, hrest, hnone, hended⟩ := hrun
  exact ⟨s, σ, s', σ', hraised, hacts, exceptions_calm ehInitial_start hraised, hrest, hnone, hended,
    exceptions_calm ehInitial_start (hraised.trans hrest)⟩

/-- An exception that is thrown and caught in the handler of another one: `throw;` then raises nothing. -/
theorem nested_rethrow : ∃ s σ f s', EhRun 0#32 (fun _ _ => True) ehInitial ehIdle s σ ∧ EhStart ehInitial ehIdle ∧
    σ.acts = [.handler 16#32] ∧ cxaRethrow 0#32 s = .ok (f, s') ∧ s'.exc ≠ 16#32 ∧ ¬EhOk s σ := by
  have hrun : ∃ s σ f s', EhRun 0#32 (fun _ _ => True) ehInitial ehIdle s σ ∧ σ.acts = [.handler 16#32] ∧
      cxaRethrow 0#32 s = .ok (f, s') ∧ s'.exc ≠ 16#32 := by
    refine ⟨_, _, _, _, .step (.step (.step (.step (.step (.step (.step (.step (.step (.step .start
      trivial (.push (catchAll 4#32))) trivial (.push (catchAll 8#32))) trivial (.allocate ?_ ?_ ?_))
      trivial (.throw List.mem_cons_self (rfl : cxaThrow 0#32 16#32 (.leaf 4#32) 0#32 _ = _))) trivial (.beginCatch 0#32 rfl))
      trivial (.push (catchAll 12#32))) trivial (.allocate ?_ ?_ ?_))
      trivial (.throw List.mem_cons_self (rfl : cxaThrow 0#32 32#32 (.leaf 4#32) 0#32 _ = _))) trivial (.beginCatch 0#32 rfl))
      trivial (.endCatch rfl), rfl, rfl, ?_⟩
    · decide
    · exact List.not_mem_nil
    · exact List.not_mem_nil
    · decide
    · exact fun hmem => absurd (List.mem_singleton.mp hmem) (by decide)
    · exact fun hmem => absurd (List.mem_filter.mp hmem).1 (fun hmem => absurd (List.mem_singleton.mp hmem) (by decide))
    · decide
  obtain ⟨s, σ, f, s', hrun, hacts, hrethrow, hexc⟩ := hrun
  exact ⟨s, σ, f, s', hrun, ehInitial_start, hacts, hrethrow, hexc, fun hok => hexc (hok.handler _ _ hacts _ _ _ hrethrow).1⟩

end CronoVM
