import Mathlib.Data.List.Nodup
import CronoVM.Runtime.OnceInit

/-!
# One-time initialisation and coroutines

The runtime keeps a mark of what is done and none of what is being done. So an initialiser runs once as long as nobody reaches its guard
while it is running; a coroutine that does runs it a second time.
-/

namespace CronoVM

variable {κ : Type} [DecidableEq κ]

/-! ## Marks -/

namespace OnceObject

/-- A completed initialisation is marked, and no other. -/
theorem enter_leave (x y : OnceObject) (m : OnceMem) : y.enter (x.leave m) = if y = x then false else y.enter m := by
  cases x with
  | guard g =>
    cases y with
    | guard h =>
      by_cases heq : h = g
      · rw [heq, if_pos rfl]
        show (Function.update m.guardByte g 1#8 g == 0#8) = false
        rw [Function.update_self]
        rfl
      · rw [if_neg (mt guard.inj heq)]
        show (Function.update m.guardByte g 1#8 h == 0#8) = (m.guardByte h == 0#8)
        rw [Function.update_of_ne heq]
    | flag f => rw [if_neg nofun]; rfl
  | flag f =>
    cases y with
    | guard g => rw [if_neg nofun]; rfl
    | flag h =>
      by_cases heq : h = f
      · rw [heq, if_pos rfl]
        show (!(Function.update m.flagWord f 0xFFFFFFFF#32 f == 0xFFFFFFFF#32)) = false
        rw [Function.update_self]
        rfl
      · rw [if_neg (mt flag.inj heq)]
        show (!(Function.update m.flagWord f 0xFFFFFFFF#32 h == 0xFFFFFFFF#32)) = !(m.flagWord h == 0xFFFFFFFF#32)
        rw [Function.update_of_ne heq]

/-- A failed initialisation leaves no trace. -/
theorem unwind_eq (x : OnceObject) (m : OnceMem) : x.unwind m = m := by
  cases x with
  | guard g => rfl
  | flag f => rfl

end OnceObject

/-! ## Runs -/

/-- A guarded initialisation is not reached by anybody while its initialiser is running. -/
def Undisturbed (w : OnceState κ) : OnceEvent κ → Prop
  | .reach x => ∀ c, x ∉ w.inside c
  | _ => True

/-- What a step of a run owes. An initialiser completes once, it does not start while another coroutine is inside it, nobody passes before
it has completed, and where it throws the next one to reach it starts it. -/
structure OnceLaw (past : List OnceEffect) (w : OnceState κ) (effect : OnceEffect) (w' : OnceState κ) : Prop where
  once : ∀ x, effect = .completes x → .completes x ∉ past
  alone : ∀ x, effect = .starts x → ∀ c, c ≠ w.current → x ∉ w.inside c
  passes : ∀ x, effect = .passes x → .completes x ∈ past
  fails : ∀ x, effect = .fails x → w'.mem = w.mem ∧ x.enter w'.mem = true

namespace OnceAux

/-- The marks tell what has completed. -/
def Marked (past : List OnceEffect) (w : OnceState κ) : Prop := ∀ x : OnceObject, x.enter w.mem = false ↔ .completes x ∈ past

/-- A step marks what it completes and nothing else. -/
theorem marked_step {past : List OnceEffect} {w w' : OnceState κ} {event : OnceEvent κ} {effect : OnceEffect} (h : Marked past w)
    (hstep : OnceStep event w effect w') : Marked (effect :: past) w' := by
  intro y
  rw [List.mem_cons]
  cases hstep with
  | swap c => exact (h y).trans (or_iff_right nofun).symm
  | start _ => exact (h y).trans (or_iff_right nofun).symm
  | pass _ => exact (h y).trans (or_iff_right nofun).symm
  | @finish _ x rest hinside =>
    show y.enter (x.leave w.mem) = false ↔ _
    rw [OnceObject.enter_leave, OnceEffect.completes.injEq]
    by_cases hyx : y = x
    · rw [if_pos hyx]
      exact iff_of_true rfl (Or.inl hyx)
    · rw [if_neg hyx, h y]
      exact (or_iff_right hyx).symm
  | @throw _ x rest hinside =>
    show y.enter (x.unwind w.mem) = false ↔ _
    rw [OnceObject.unwind_eq]
    exact (h y).trans (or_iff_right nofun).symm

/-- In every run the marks tell what has completed. -/
theorem marked_run {P : OnceState κ → OnceEvent κ → Prop} {past : List OnceEffect} {w : OnceState κ} (h : OnceRun P past w) :
    Marked past w := by
  induction h with
  | start hfresh =>
    intro x
    rw [hfresh.1 x]
    exact iff_of_false Bool.false_ne_true.symm List.not_mem_nil
  | step _ _ hstep ih => exact marked_step ih hstep

/-- Every object that is being initialised is so in one place, and is not marked. -/
structure Exclusive (w : OnceState κ) : Prop where
  nodup : ∀ c, (w.inside c).Nodup
  apart : ∀ c d x, x ∈ w.inside c → x ∈ w.inside d → c = d
  clear : ∀ c x, x ∈ w.inside c → x.enter w.mem = true

/-- Only the current coroutine enters or leaves an initialiser. -/
theorem inside_setInside (w : OnceState κ) (mem : OnceMem) (objects : List OnceObject) (c : κ) :
    (w.setInside mem objects).inside c = if c = w.current then objects else w.inside c := Function.update_apply _ _ _ _

/-- Leaving the innermost initialiser keeps the others where they are. -/
theorem exclusive_leave {w : OnceState κ} (h : Exclusive w) {x : OnceObject} {rest : List OnceObject}
    (hinside : w.inside w.current = x :: rest) {mem : OnceMem} (hmem : ∀ y : OnceObject, y ≠ x → y.enter mem = y.enter w.mem) :
    Exclusive (w.setInside mem rest) := by
  have hnodup := h.nodup w.current
  rw [hinside, List.nodup_cons] at hnodup
  have hold : ∀ c y, y ∈ (w.setInside mem rest).inside c → y ∈ w.inside c := by
    intro c y hy
    rw [inside_setInside] at hy
    by_cases hc : c = w.current
    · rw [if_pos hc] at hy
      rw [hc, hinside]
      exact List.mem_cons_of_mem x hy
    · rwa [if_neg hc] at hy
  have hne : ∀ c y, y ∈ (w.setInside mem rest).inside c → y ≠ x := by
    rintro c _ hy rfl
    have hc : c = w.current := h.apart c w.current _ (hold c _ hy) (by rw [hinside]; exact List.mem_cons_self)
    rw [inside_setInside, if_pos hc] at hy
    exact hnodup.1 hy
  refine ⟨fun c => ?_, fun c d y hc hd => h.apart c d y (hold c y hc) (hold d y hd), fun c y hy => ?_⟩
  · rw [inside_setInside]
    split
    · exact hnodup.2
    · exact h.nodup c
  · exact (hmem y (hne c y hy)).trans (h.clear c y (hold c y hy))

/-- A step that disturbs no initialiser leaves each object with one of them at most. -/
theorem exclusive_step {w w' : OnceState κ} {event : OnceEvent κ} {effect : OnceEffect} (h : Exclusive w) (hquiet : Undisturbed w event)
    (hstep : OnceStep event w effect w') : Exclusive w' := by
  cases hstep with
  | swap c => exact ⟨h.nodup, h.apart, h.clear⟩
  | @start _ x henter =>
    have hmem : ∀ c y, y ∈ (w.setInside w.mem (x :: w.inside w.current)).inside c → (c = w.current ∧ y = x) ∨ (y ≠ x ∧ y ∈ w.inside c) := by
      intro c y hy
      rw [inside_setInside] at hy
      by_cases hc : c = w.current
      · rw [if_pos hc] at hy
        rcases List.mem_cons.mp hy with rfl | hy
        · exact Or.inl ⟨hc, rfl⟩
        · exact Or.inr ⟨fun hyx => hquiet w.current (hyx ▸ hy), hc ▸ hy⟩
      · rw [if_neg hc] at hy
        exact Or.inr ⟨fun hyx => hquiet c (hyx ▸ hy), hy⟩
    refine ⟨fun c => ?_, fun c d y hc hd => ?_, fun c y hy => ?_⟩
    · rw [inside_setInside]
      split
      · exact List.nodup_cons.mpr ⟨hquiet w.current, h.nodup w.current⟩
      · exact h.nodup c
    · rcases hmem c y hc with ⟨hcur, rfl⟩ | ⟨hyx, hold⟩
      · rcases hmem d _ hd with ⟨hcur', -⟩ | ⟨hne, -⟩
        · exact hcur.trans hcur'.symm
        · exact absurd rfl hne
      · rcases hmem d y hd with ⟨-, hyx'⟩ | ⟨-, hold'⟩
        · exact absurd hyx' hyx
        · exact h.apart c d y hold hold'
    · rcases hmem c y hy with ⟨-, rfl⟩ | ⟨-, hy⟩
      · exact henter
      · exact h.clear c y hy
  | pass _ => exact h
  | @finish _ x rest hinside =>
    refine exclusive_leave h hinside fun y hyx => ?_
    rw [OnceObject.enter_leave, if_neg hyx]
  | @throw _ x rest hinside =>
    refine exclusive_leave h hinside fun y _ => ?_
    rw [OnceObject.unwind_eq]

/-- So does a run of such steps. -/
theorem exclusive_run {past : List OnceEffect} {w : OnceState κ} (h : OnceRun Undisturbed past w) : Exclusive w := by
  induction h with
  | start hfresh =>
    have hnone : ∀ c x, x ∉ OnceState.inside _ c := fun c x hx => by
      rw [hfresh.2 c] at hx
      exact List.not_mem_nil hx
    refine ⟨fun c => ?_, fun c _ x hx => absurd hx (hnone c x), fun c x hx => absurd hx (hnone c x)⟩
    rw [hfresh.2 c]
    exact List.nodup_nil
  | step _ hquiet hstep ih => exact exclusive_step ih hquiet hstep

end OnceAux

open OnceAux

/-- In every run in which no guarded initialisation is reached while its initialiser is running, one-time initialisation does what it is
for. The first step that breaks the condition starts the initialiser a second time. -/
theorem once_init_undisturbed {past : List OnceEffect} {w w' : OnceState κ} {event : OnceEvent κ} {effect : OnceEffect}
    (h : OnceRun Undisturbed past w) (hstep : OnceStep event w effect w') :
    (Undisturbed w event → OnceLaw past w effect w') ∧
      (¬Undisturbed w event → ∃ x c, event = .reach x ∧ x ∈ w.inside c ∧ effect = .starts x) := by
  have hmarked := marked_run h
  have hexclusive := exclusive_run h
  constructor
  · intro hquiet
    cases hstep with
    | swap c => exact ⟨nofun, nofun, nofun, nofun⟩
    | @start _ x henter =>
      refine ⟨nofun, ?_, nofun, nofun⟩
      rintro _ ⟨⟩ c -
      exact hquiet c
    | @pass _ x henter =>
      refine ⟨nofun, nofun, ?_, nofun⟩
      rintro _ ⟨⟩
      exact (hmarked x).mp henter
    | @finish _ x rest hinside =>
      have hclear : x.enter w.mem = true := hexclusive.clear w.current x (by rw [hinside]; exact List.mem_cons_self)
      refine ⟨?_, nofun, nofun, nofun⟩
      rintro _ ⟨⟩ hpast
      rw [(hmarked x).mpr hpast] at hclear
      exact Bool.false_ne_true hclear
    | @throw _ x rest hinside =>
      have hclear : x.enter w.mem = true := hexclusive.clear w.current x (by rw [hinside]; exact List.mem_cons_self)
      refine ⟨nofun, nofun, nofun, ?_⟩
      rintro _ ⟨⟩
      have hmem : (w.setInside (x.unwind w.mem) rest).mem = w.mem := x.unwind_eq w.mem
      rw [hmem]
      exact ⟨rfl, hclear⟩
  · intro hdisturbed
    cases event with
    | swap c => exact absurd trivial hdisturbed
    | finish => exact absurd trivial hdisturbed
    | throw => exact absurd trivial hdisturbed
    | reach x =>
      obtain ⟨c, hc⟩ := not_forall_not.mp hdisturbed
      have hclear := hexclusive.clear c x hc
      cases hstep with
      | start _ => exact ⟨x, c, rfl, hc, rfl⟩
      | pass henter =>
        rw [henter] at hclear
        exact absurd hclear Bool.false_ne_true

/-- Two coroutines and a guard, before anything. -/
def onceIdle : OnceState Bool := ⟨⟨fun _ => 0#8, fun _ => 0#32⟩, false, fun _ => []⟩

/-- At the start nothing is initialised. -/
theorem onceIdle_fresh : onceIdle.Fresh := by
  refine ⟨fun x => ?_, fun _ => rfl⟩
  cases x with
  | guard g => rfl
  | flag f => rfl

/-- The first coroutine is in the initialiser of a guard, and the second one runs. -/
def onceBegun : OnceState Bool := { onceIdle.setInside onceIdle.mem [.guard 8#32] with current := true }

/-- The second one is in the initialiser of another guard. -/
def onceOther : OnceState Bool := onceBegun.setInside onceBegun.mem [.guard 16#32]

/-- That one has failed, and the first coroutine runs again. -/
def onceBack : OnceState Bool := { onceOther.setInside onceOther.mem [] with current := false }

/-- The first initialiser has ended, and the second coroutine runs. -/
def onceDone : OnceState Bool := { onceBack.setInside (cxaGuardRelease 8#32 onceBack.mem) [] with current := true }

/-- What has become of the initialisations before the first one ends. -/
def oncePast : List OnceEffect :=
  [.silent, .fails (.guard 16#32), .starts (.guard 16#32), .silent, .starts (.guard 8#32)]

/-- An initialiser swaps to a coroutine whose own initialiser throws and that swaps back; then the first one ends, and the other coroutine
passes its guard. -/
theorem once_init_undisturbed_swap :
    (OnceRun Undisturbed (oncePast.drop 2) onceOther ∧ OnceStep .throw onceOther (.fails (.guard 16#32)) (onceOther.setInside onceOther.mem []) ∧
      OnceLaw (oncePast.drop 2) onceOther (.fails (.guard 16#32)) (onceOther.setInside onceOther.mem [])) ∧
    (OnceRun Undisturbed oncePast onceBack ∧ ∃ w, OnceStep .finish onceBack (.completes (.guard 8#32)) w ∧
      OnceLaw oncePast onceBack (.completes (.guard 8#32)) w) ∧
    OnceStep (.reach (.guard 8#32)) onceDone (.passes (.guard 8#32)) onceDone ∧
      OnceLaw (.silent :: .completes (.guard 8#32) :: oncePast) onceDone (.passes (.guard 8#32)) onceDone := by
  have hfirst : Undisturbed onceIdle (.reach (.guard 8#32)) := fun _ => List.not_mem_nil
  have hother : Undisturbed onceBegun (.reach (.guard 16#32)) := fun c => by cases c <;> decide
  have hlast : Undisturbed onceDone (.reach (.guard 8#32)) := fun c => by cases c <;> decide
  have hbegin : OnceRun Undisturbed (oncePast.drop 4) _ := .step (.start onceIdle_fresh) hfirst (.start rfl)
  have hbegun : OnceRun Undisturbed (oncePast.drop 3) onceBegun := .step hbegin (by trivial) (.swap true)
  have hinner : OnceRun Undisturbed (oncePast.drop 2) onceOther := .step hbegun hother (.start rfl)
  have hthrow : OnceStep .throw onceOther (.fails (.guard 16#32)) (onceOther.setInside onceOther.mem []) := .throw rfl
  have hfailed : OnceRun Undisturbed (oncePast.drop 1) _ := .step hinner (by trivial) hthrow
  have hback : OnceRun Undisturbed oncePast onceBack := .step hfailed (by trivial) (.swap false)
  have hfinish : OnceStep .finish onceBack (.completes (.guard 8#32)) _ := .finish rfl
  have hended : OnceRun Undisturbed (.completes (.guard 8#32) :: oncePast) _ := .step hback (by trivial) hfinish
  have hdone : OnceRun Undisturbed (.silent :: .completes (.guard 8#32) :: oncePast) onceDone := .step hended (by trivial) (.swap true)
  have hpass : OnceStep (.reach (.guard 8#32)) onceDone (.passes (.guard 8#32)) onceDone := .pass rfl
  exact ⟨⟨hinner, hthrow, (once_init_undisturbed hinner hthrow).1 trivial⟩, ⟨hback, _, hfinish, (once_init_undisturbed hback hfinish).1 trivial⟩,
    hpass, (once_init_undisturbed hdone hpass).1 hlast⟩

/-- An initialiser swaps to a coroutine that reaches the same guard, and is started there again. -/
theorem initialiser_starts_again : ¬∀ (past : List OnceEffect) (w w' : OnceState Bool) (event : OnceEvent Bool) (effect : OnceEffect),
    OnceRun (fun _ _ => True) past w → OnceStep event w effect w' → OnceLaw past w effect w' := by
  intro h
  have hrun : OnceRun (κ := Bool) (fun _ _ => True) _ _ := .step (.step (.start onceIdle_fresh) trivial (.start (x := .guard 8#32) rfl))
    trivial (.swap true)
  have halone := (h _ _ _ _ _ hrun (.start (x := .guard 8#32) rfl)).alone (.guard 8#32) rfl false Bool.false_ne_true
  exact halone List.mem_cons_self

end CronoVM
