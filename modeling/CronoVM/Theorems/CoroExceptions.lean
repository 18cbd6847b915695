import CronoVM.Runtime.Exceptions

/-!
# Try-frames of coroutines

The chain of frames is one for all coroutines, and a swap does not touch it. Each coroutine pops what it pushed and catches in what it
pushed as long as its frames are the innermost of the chain when it is swapped to, and a throw that none of them takes finds no others.
-/

namespace CronoVM

variable {κ : Type} [DecidableEq κ] {dummy : Word}

/-! ## Runs -/

/-- The functions of the runtime that end in a walk along the chain. -/
inductive Raise where
  | throw (obj : Word) (ti : TypeInfo) (dtor : Word)
  | resume
  | rethrow

def Raise.run (dummy : Word) : Raise → EhState → Except EhEnd (EhFrame × EhState)
  | .throw obj ti dtor, s => cxaThrow dummy obj ti dtor s
  | .resume, s => cvmEhResume dummy s
  | .rethrow, s => cxaRethrow dummy s

/-- The type that the walk looks for. -/
def Raise.ti : Raise → EhState → TypeInfo
  | .throw _ ti _, _ => ti
  | .resume, s => s.ti
  | .rethrow, s => s.ti

/-- The runtime, the running coroutine, and the frames that each coroutine has pushed and not left yet, the last one first. -/
structure CoroState (κ : Type) where
  eh : EhState
  current : κ
  own : κ → List EhFrame

/-- The frames of the running coroutine. -/
def CoroState.frames (w : CoroState κ) : List EhFrame := w.own w.current

def CoroState.setFrames (w : CoroState κ) (eh : EhState) (frames : List EhFrame) : CoroState κ :=
  { w with eh := eh, own := Function.update w.own w.current frames }

/-- What the coroutines do. -/
inductive CoroEvent (κ : Type) where
  | swap (c : κ)
  | push (f : EhFrame)
  | pop
  | raise (r : Raise)

/-- The frame of the running coroutine that should take an exception. -/
def CoroState.takes (dummy : Word) (w : CoroState κ) (r : Raise) : Except EhEnd Landing := ehWalk w.eh.mem dummy (r.ti w.eh) w.frames

/-- A step of one of the coroutines. Each pops only what it has pushed; after a raise, the frames outside the one that should take it are
left. -/
inductive CoroStep (dummy : Word) : CoroEvent κ → CoroState κ → CoroState κ → Prop
  | swap {w : CoroState κ} (c : κ) : CoroStep dummy (.swap c) w { w with current := c }
  | push {w : CoroState κ} (f : EhFrame) : CoroStep dummy (.push f) w (w.setFrames (cvmEhPush f w.eh) (f :: w.frames))
  | pop {w : CoroState κ} {f : EhFrame} {frames : List EhFrame} : w.frames = f :: frames →
      CoroStep dummy .pop w (w.setFrames (cvmEhPop w.eh) frames)
  | raise {w : CoroState κ} {r : Raise} {f : EhFrame} {eh' : EhState} : r.run dummy w.eh = .ok (f, eh') →
      CoroStep dummy (.raise r) w (w.setFrames eh' ((w.takes dummy r).toOption.elim [] Landing.rest))

/-- A coroutine that is swapped to has its frames innermost on the chain, and a coroutine that raises has a frame that takes the exception
or is the only one with frames. -/
def Nested (dummy : Word) (w : CoroState κ) : CoroEvent κ → Prop
  | .swap c => w.own c <+: w.eh.top
  | .raise r => (∃ l, w.takes dummy r = .ok l) ∨ w.eh.top = w.frames
  | _ => True

/-- The runs whose steps all meet a condition on the state before them, from a state without frames. -/
inductive CoroEhRun (dummy : Word) (P : CoroState κ → CoroEvent κ → Prop) (w₀ : CoroState κ) : CoroState κ → Prop
  | start : w₀.eh.top = [] → (∀ c, w₀.own c = []) → CoroEhRun dummy P w₀ w₀
  | step {w w' : CoroState κ} {event : CoroEvent κ} : CoroEhRun dummy P w₀ w → P w event → CoroStep dummy event w w' →
      CoroEhRun dummy P w₀ w'

/-! ## The chain -/

/-- A walk that stops in the first part of a chain. -/
theorem ehWalk_append {m : Mem} {ti : TypeInfo} (own rest : List EhFrame) : ehWalk m dummy ti (own ++ rest) =
    match ehWalk m dummy ti own with
    | .ok l => .ok { l with rest := l.rest ++ rest }
    | .error .terminate => ehWalk m dummy ti rest
    | .error .badAddr => .error .badAddr := by
  induction own with
  | nil => rfl
  | cons f own ih =>
    rw [List.cons_append, ehWalk, ehWalk, ih]
    cases f.desc with
    | none => rfl
    | some d =>
      dsimp only
      cases ehSelect m dummy ti d.clauses with
      | none => rfl
      | some found =>
        cases found with
        | some sel => rfl
        | none => cases d.hasCleanup <;> rfl

/-- The frame that a walk stops at is on the chain. -/
theorem ehWalk_mem {m : Mem} {ti : TypeInfo} {top : List EhFrame} {l : Landing} (h : ehWalk m dummy ti top = .ok l) : l.frame ∈ top := by
  induction top with
  | nil => nomatch h
  | cons f top ih =>
    rw [ehWalk] at h
    split at h
    · exact List.mem_cons_of_mem f (ih h)
    · split at h
      · nomatch h
      · rw [← Except.ok.inj h]
        exact List.mem_cons_self
      · split at h
        · rw [← Except.ok.inj h]
          exact List.mem_cons_self
        · exact List.mem_cons_of_mem f (ih h)

/-- Every raise walks along the chain. -/
theorem Raise.run_eq (dummy : Word) (r : Raise) (s : EhState) : ∃ s' : EhState, s'.top = s.top ∧ r.run dummy s =
    (ehWalk s.mem dummy (r.ti s) s.top).map fun l => (l.frame, { s' with top := l.rest, sel := l.sel }) := by
  cases r with
  | throw obj ti dtor =>
    exact ⟨{ s.setHeader obj { s.header obj with ti := ti, dtor := dtor } with exc := obj, ti := ti }, rfl, rfl⟩
  | resume => exact ⟨s, rfl, rfl⟩
  | rethrow =>
    unfold Raise.run cxaRethrow
    by_cases hnull : s.exc ≠ 0#32
    · dsimp only
      rw [if_pos hnull]
      exact ⟨s.setHeader s.exc { s.header s.exc with handlerCount := -(s.header s.exc).handlerCount }, rfl, rfl⟩
    · dsimp only
      rw [if_neg hnull]
      exact ⟨s, rfl, rfl⟩

variable {w w' : CoroState κ} {event : CoroEvent κ} {r : Raise}

omit [DecidableEq κ] in
/-- A raise that meets the condition walks along the frames of the running coroutine. -/
theorem walk_eq (h : w.frames <+: w.eh.top) (hnested : Nested dummy w (.raise r)) :
    ehWalk w.eh.mem dummy (r.ti w.eh) w.eh.top =
      (w.takes dummy r).map fun l => { l with rest := l.rest ++ w.eh.top.drop w.frames.length } := by
  obtain ⟨rest, hrest⟩ := h
  have hdrop : w.eh.top.drop w.frames.length = rest := by rw [← hrest, List.drop_left]
  rw [hdrop]
  rcases hnested with hsome | hall
  · obtain ⟨l, hl⟩ := hsome
    rw [hl, ← hrest, ehWalk_append]
    unfold CoroState.takes at hl
    rw [hl]
    rfl
  · have hnil : rest = [] := List.append_cancel_left ((hrest.trans hall).trans (List.append_nil _).symm)
    rw [hnil, hall]
    unfold CoroState.takes
    cases ehWalk w.eh.mem dummy (r.ti w.eh) w.frames with
    | error e => rfl
    | ok l =>
      dsimp only [Except.map]
      rw [List.append_nil]

/-- The frames of the running coroutine stay innermost. -/
theorem prefix_step (h : w.frames <+: w.eh.top) (hnested : Nested dummy w event) (hstep : CoroStep dummy event w w') :
    w'.frames <+: w'.eh.top := by
  have hset : ∀ eh frames, (w.setFrames eh frames).frames = frames := fun eh frames => Function.update_self _ _ _
  cases hstep with
  | swap c => exact hnested
  | push f =>
    rw [hset]
    exact List.prefix_cons_inj f |>.mpr h
  | @pop _ f frames hframes =>
    obtain ⟨rest, hrest⟩ := h
    rw [hframes] at hrest
    rw [hset]
    refine ⟨rest, ?_⟩
    show frames ++ rest = w.eh.top.tail
    rw [← hrest]
    rfl
  | @raise _ r f eh' hraise =>
    rw [hset]
    obtain ⟨s', -, hrun⟩ := r.run_eq dummy w.eh
    rw [hrun, walk_eq h hnested] at hraise
    obtain ⟨_, hmap, hf⟩ := Except.map_eq_ok_iff.mp hraise
    obtain ⟨l, hl, rfl⟩ := Except.map_eq_ok_iff.mp hmap
    obtain ⟨-, rfl⟩ := Prod.mk.inj hf
    rw [hl]
    exact List.prefix_append _ _

/-! ## What holds in the runs -/

/-- A pop removes the frame that the running coroutine pushed last, and a raise goes to the frame of the running coroutine that takes the
exception, or terminates when there is none. -/
structure CoroEhOk (dummy : Word) (w : CoroState κ) : Prop where
  pop : ∀ f frames, w.frames = f :: frames → w.eh.top = f :: (cvmEhPop w.eh).top
  raise : ∀ r, Nested dummy w (.raise r) → (r.run dummy w.eh).map Prod.fst = (w.takes dummy r).map Landing.frame ∧
    ∀ f eh', r.run dummy w.eh = .ok (f, eh') → f ∈ w.frames

/-- In every run in which each coroutine is swapped to with its frames innermost, and raises only what a frame of its own takes or while no
other coroutine has frames, coroutines and exceptions do not get into each other's way. -/
theorem coro_exceptions_nested {w₀ w : CoroState κ} (h : CoroEhRun dummy (Nested dummy) w₀ w) : CoroEhOk dummy w := by
  have hprefix : w.frames <+: w.eh.top := by
    induction h with
    | start htop hown =>
      rw [CoroState.frames, hown]
      exact List.nil_prefix
    | step _ hnested hstep ih => exact prefix_step ih hnested hstep
  refine ⟨fun f frames hframes => ?_, fun r hnested => ?_⟩
  · obtain ⟨rest, hrest⟩ := hprefix
    rw [hframes] at hrest
    unfold cvmEhPop
    rw [← hrest]
    rfl
  · have hwalk := walk_eq hprefix hnested
    obtain ⟨s', -, hrun⟩ := r.run_eq dummy w.eh
    refine ⟨?_, fun f eh' hraise => ?_⟩
    · rw [hrun, hwalk]
      cases w.takes dummy r with
      | error e => rfl
      | ok l => rfl
    · rw [hrun, hwalk] at hraise
      obtain ⟨_, hmap, hf⟩ := Except.map_eq_ok_iff.mp hraise
      obtain ⟨l, hl, rfl⟩ := Except.map_eq_ok_iff.mp hmap
      have hmem : l.frame ∈ w.frames := ehWalk_mem hl
      rw [← (Prod.mk.inj hf).1]
      exact hmem

/-! ## A throw without a frame -/

/-- Two coroutines before anything. -/
def coroIdle : CoroState Bool :=
  ⟨⟨⟨64, fun _ => 0⟩, [], 0#32, .null, 0#32, fun _ => ⟨.null, 0#32, 0⟩, []⟩, false, fun _ => []⟩

/-- A frame with `catch (...)`. -/
def catchAllFrame : EhFrame := ⟨8#32, some ⟨[0#32], false⟩⟩

/-- A coroutine without frames throws while another one has a frame, and lands there. -/
theorem coroIdle_throw : ∃ w f eh', CoroEhRun 0#32 (fun _ _ => True) coroIdle w ∧ w.frames = [] ∧
    (Raise.throw 16#32 (.leaf 4#32) 0#32).run 0#32 w.eh = .ok (f, eh') ∧ w.current = true ∧ f ∈ w.own false ∧ f ∉ w.frames :=
  ⟨_, _, _, .step (.step (.start rfl fun _ => rfl) trivial (.push catchAllFrame)) trivial (.swap true), rfl, rfl, rfl, List.mem_cons_self,
    List.not_mem_nil⟩

/-- A coroutine catches in its frame, after a swap to another one and back. -/
theorem coro_exceptions_nested_back : ∃ w, CoroEhRun 0#32 (Nested 0#32) coroIdle w ∧ w.frames = [catchAllFrame] ∧ CoroEhOk 0#32 w := by
  have hrun : ∃ w, CoroEhRun 0#32 (Nested 0#32) coroIdle w ∧ w.frames = [catchAllFrame] := by
    refine ⟨_, .step (.step (.step (.start rfl fun _ => rfl) ?_ (.push catchAllFrame)) ?_ (.swap true)) ?_ (.swap false), rfl⟩
    · trivial
    · exact List.nil_prefix
    · exact List.prefix_refl _
  obtain ⟨w, hrun, hframes⟩ := hrun
  exact ⟨w, hrun, hframes, coro_exceptions_nested hrun⟩

end CronoVM
