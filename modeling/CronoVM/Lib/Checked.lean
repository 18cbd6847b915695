import Mathlib.Logic.Function.Basic
import Mathlib.Tactic.Common

/-!
# Checked state computations

A small library for programs whose raw memory accesses must be shown to be in bounds. A computation over a state `σ` ends in one of
three ways: with a value, with a deliberate stop (an error code of the program, or its normal end), or in `oob`, the outcome of a raw
access outside its array. `Exec.wp` is the weakest precondition of a computation; its rules turn a program text into the conditions
under which no raw access goes wrong.
-/

namespace CronoVM.Checked

/-- How a computation ends. -/
inductive Outcome (σ ε α : Type) where
  | val (a : α) (s : σ)
  | stop (e : ε) (s : σ)
  | oob

/-- The computation returned. -/
def Outcome.isVal {σ ε α : Type} : Outcome σ ε α → Bool
  | .val _ _ => true
  | _ => false

/-- A check of an outcome gives the value and the state. -/
theorem Outcome.exists_of_isVal {σ ε α : Type} {o : Outcome σ ε α} (h : o.isVal = true) : ∃ a s, o = .val a s := by
  cases o with
  | val a s => exact ⟨a, s, rfl⟩
  | stop e s => exact Bool.noConfusion h
  | oob => exact Bool.noConfusion h

/-- The computation returned, with a value and a state of which `p` holds. -/
def Outcome.holds {σ ε α : Type} (p : α → σ → Bool) : Outcome σ ε α → Bool
  | .val a s => p a s
  | _ => false

/-- With a test of both. -/
theorem Outcome.exists_of_holds {σ ε α : Type} {p : α → σ → Bool} {o : Outcome σ ε α} (h : o.holds p = true) :
    ∃ a s, o = .val a s ∧ p a s = true := by
  cases o with
  | val a s => exact ⟨a, s, rfl, h⟩
  | stop e s => exact Bool.noConfusion h
  | oob => exact Bool.noConfusion h

/-- What the computation stopped with. -/
def Outcome.stop? {σ ε α : Type} : Outcome σ ε α → Option ε
  | .stop e _ => some e
  | _ => none

/-- A stop gives the state it stops in. -/
theorem Outcome.exists_of_stop? {σ ε α : Type} {o : Outcome σ ε α} {e : ε} (h : o.stop? = some e) : ∃ s, o = .stop e s := by
  cases o with
  | val a s => nomatch h
  | stop e' s =>
    cases h
    exact ⟨s, rfl⟩
  | oob => nomatch h

/-- A computation over the state `σ` that may stop with an `ε`. -/
def Exec (σ ε α : Type) : Type := σ → Outcome σ ε α

namespace Exec

variable {σ ε α β : Type}

/-- Sequencing: a stop or an out-of-bounds access ends the whole computation. -/
def bind (m : Exec σ ε α) (k : α → Exec σ ε β) : Exec σ ε β := fun s =>
  match m s with
  | .val a t => k a t
  | .stop e t => .stop e t
  | .oob => .oob

instance : Monad (Exec σ ε) where
  pure a := fun s => .val a s
  bind := Exec.bind

def get : Exec σ ε σ := fun s => .val s s

def modify (f : σ → σ) : Exec σ ε Unit := fun s => .val () (f s)

def stop (e : ε) : Exec σ ε α := fun s => .stop e s

/-- Continue only where `c` holds; a raw access demands that its index is inside the array. -/
def demand (c : Prop) [Decidable c] : Exec σ ε Unit := fun s => if c then .val () s else .oob

/-- The early return `if (c) return e;`. -/
def stopIf (c : Prop) [Decidable c] (e : ε) : Exec σ ε Unit := fun s => if c then .stop e s else .val () s

/-- `if (c) m;`. -/
def when (c : Prop) [Decidable c] (m : Exec σ ε Unit) : Exec σ ε Unit := if c then m else pure ()

/-! ## Running -/

section run

variable (s : σ)

@[simp] theorem run_pure (a : α) : (pure a : Exec σ ε α) s = .val a s := rfl

@[simp] theorem run_bind (m : Exec σ ε α) (k : α → Exec σ ε β) :
    (m >>= k) s = match m s with | .val a t => k a t | .stop e t => .stop e t | .oob => .oob := rfl

@[simp] theorem run_get : (get : Exec σ ε σ) s = .val s s := rfl

@[simp] theorem run_modify (f : σ → σ) : (modify f : Exec σ ε Unit) s = .val () (f s) := rfl

@[simp] theorem run_stop (e : ε) : (stop e : Exec σ ε α) s = .stop e s := rfl

theorem run_demand (c : Prop) [Decidable c] :
    (demand c : Exec σ ε Unit) s = if c then .val () s else .oob := rfl

@[simp] theorem run_demand_of {c : Prop} [Decidable c] (h : c) : (demand c : Exec σ ε Unit) s = .val () s := if_pos h

@[simp] theorem run_stopIf_of {c : Prop} [Decidable c] (h : c) (e : ε) : (stopIf c e : Exec σ ε Unit) s = .stop e s :=
  if_pos h

@[simp] theorem run_stopIf_of_not {c : Prop} [Decidable c] (h : ¬c) (e : ε) :
    (stopIf c e : Exec σ ε Unit) s = .val () s := if_neg h

end run

/-! ## Weakest preconditions -/

/-- From `s`, the computation makes no access out of bounds, a value it returns satisfies `Q`, and a stop satisfies `E`. -/
def wp (m : Exec σ ε α) (Q : α → σ → Prop) (E : ε → σ → Prop) (s : σ) : Prop :=
  match m s with
  | .val a t => Q a t
  | .stop e t => E e t
  | .oob => False

section wp

variable {Q : α → σ → Prop} {E : ε → σ → Prop} {s : σ}

@[simp] theorem wp_pure (a : α) : wp (pure a) Q E s ↔ Q a s := Iff.rfl

@[simp] theorem wp_bind (m : Exec σ ε β) (k : β → Exec σ ε α) :
    wp (m >>= k) Q E s ↔ wp m (fun b t => wp (k b) Q E t) E s := by
  unfold wp
  rw [run_bind]
  cases m s <;> rfl

@[simp] theorem wp_get {Q : σ → σ → Prop} : wp get Q E s ↔ Q s s := Iff.rfl

@[simp] theorem wp_modify {Q : Unit → σ → Prop} (f : σ → σ) : wp (modify f) Q E s ↔ Q () (f s) := Iff.rfl

@[simp] theorem wp_stop (e : ε) : wp (stop e) Q E s ↔ E e s := Iff.rfl

@[simp] theorem wp_demand {Q : Unit → σ → Prop} (c : Prop) [Decidable c] :
    wp (demand c) Q E s ↔ c ∧ Q () s := by
  by_cases h : c <;> simp [wp, demand, h]

@[simp] theorem wp_stopIf {Q : Unit → σ → Prop} (c : Prop) [Decidable c] (e : ε) :
    wp (stopIf c e) Q E s ↔ (c → E e s) ∧ (¬c → Q () s) := by
  by_cases h : c <;> simp [wp, stopIf, h]

@[simp] theorem wp_ite (c : Prop) [Decidable c] (m n : Exec σ ε α) :
    wp (if c then m else n) Q E s ↔ (c → wp m Q E s) ∧ (¬c → wp n Q E s) := by
  by_cases h : c <;> simp [h]

@[simp] theorem wp_when {Q : Unit → σ → Prop} (c : Prop) [Decidable c] (m : Exec σ ε Unit) :
    wp (when c m) Q E s ↔ (c → wp m Q E s) ∧ (¬c → Q () s) := wp_ite c m (pure ())

/-- A weaker postcondition is easier to reach. -/
theorem wp_mono {Q' : α → σ → Prop} {E' : ε → σ → Prop} {m : Exec σ ε α} (hQ : ∀ a t, Q a t → Q' a t)
    (hE : ∀ e t, E e t → E' e t) (h : wp m Q E s) : wp m Q' E' s := by
  unfold wp at h ⊢
  cases hm : m s with
  | val a t => rw [hm] at h; exact hQ a t h
  | stop e t => rw [hm] at h; exact hE e t h
  | oob => rw [hm] at h; exact h

/-- Two postconditions at once. -/
theorem wp_and {Q' : α → σ → Prop} {E' : ε → σ → Prop} {m : Exec σ ε α} (h : wp m Q E s) (h' : wp m Q' E' s) :
    wp m (fun a t => Q a t ∧ Q' a t) (fun e t => E e t ∧ E' e t) s := by
  unfold wp at h h' ⊢
  cases hm : m s with
  | val a t =>
    rw [hm] at h h'
    exact ⟨h, h'⟩
  | stop e t =>
    rw [hm] at h h'
    exact ⟨h, h'⟩
  | oob =>
    rw [hm] at h
    exact h

/-- What follows a computation that returned. -/
theorem wp_bind_of {m : Exec σ ε β} {k : β → Exec σ ε α} {R : β → σ → Prop} (h : wp m R E s)
    (hk : ∀ b t, m s = .val b t → R b t → wp (k b) Q E t) : wp (m >>= k) Q E s := by
  rw [wp_bind]
  unfold wp at h ⊢
  cases hm : m s with
  | val b t =>
    rw [hm] at h
    exact hk b t hm h
  | stop e t =>
    rw [hm] at h
    exact h
  | oob =>
    rw [hm] at h
    exact h

/-- What a computation returned satisfies its postcondition. -/
theorem of_wp {m : Exec σ ε α} {a : α} {t : σ} (h : wp m Q E s) (hrun : m s = .val a t) : Q a t := by
  unfold wp at h
  rwa [hrun] at h

/-- A sequence that returned went through a state between its parts. -/
theorem of_bind {m : Exec σ ε β} {k : β → Exec σ ε α} {a : α} {t : σ} (hrun : (m >>= k) s = .val a t) :
    ∃ b u, m s = .val b u ∧ k b u = .val a t := by
  rw [run_bind] at hrun
  cases hm : m s with
  | val b u =>
    rw [hm] at hrun
    exact ⟨b, u, rfl, hrun⟩
  | stop e u =>
    rw [hm] at hrun
    nomatch hrun
  | oob =>
    rw [hm] at hrun
    nomatch hrun

end wp

/-! ## Liberal preconditions -/

/-- If the computation returns a value from `s`, this satisfies `Q`. -/
def wlp (m : Exec σ ε α) (Q : α → σ → Prop) (s : σ) : Prop := ∀ a t, m s = .val a t → Q a t

section wlp

variable {Q : α → σ → Prop} {s : σ}

theorem wlp_of_val {m : Exec σ ε α} {a : α} {t : σ} (h : m s = .val a t) : wlp m Q s ↔ Q a t := by
  constructor
  · intro hall
    exact hall a t h
  · intro hq b u hrun
    rw [h] at hrun
    cases hrun
    exact hq

@[simp] theorem wlp_pure (a : α) : wlp (pure a : Exec σ ε α) Q s ↔ Q a s := wlp_of_val rfl

@[simp] theorem wlp_bind (m : Exec σ ε β) (k : β → Exec σ ε α) :
    wlp (m >>= k) Q s ↔ wlp m (fun b t => wlp (k b) Q t) s := by
  constructor
  · intro h b t hm a u hk
    refine h a u ?_
    rw [run_bind, hm]
    exact hk
  · intro h a u hrun
    obtain ⟨b, t, hm, hk⟩ := of_bind hrun
    exact h b t hm a u hk

@[simp] theorem wlp_get {Q : σ → σ → Prop} : wlp (get : Exec σ ε σ) Q s ↔ Q s s := wlp_of_val rfl

@[simp] theorem wlp_modify {Q : Unit → σ → Prop} (f : σ → σ) : wlp (modify f : Exec σ ε Unit) Q s ↔ Q () (f s) := wlp_of_val rfl

@[simp] theorem wlp_stop (e : ε) : wlp (stop e : Exec σ ε α) Q s := fun _ _ hrun => nomatch hrun

@[simp] theorem wlp_demand {Q : Unit → σ → Prop} (c : Prop) [Decidable c] :
    wlp (demand c : Exec σ ε Unit) Q s ↔ (c → Q () s) := by
  by_cases h : c
  · rw [wlp_of_val (run_demand_of s h)]
    exact ⟨fun hq _ => hq, fun hq => hq h⟩
  · refine ⟨fun _ hc => absurd hc h, fun _ a t hrun => ?_⟩
    rw [run_demand, if_neg h] at hrun
    nomatch hrun

@[simp] theorem wlp_stopIf {Q : Unit → σ → Prop} (c : Prop) [Decidable c] (e : ε) :
    wlp (stopIf c e : Exec σ ε Unit) Q s ↔ (¬c → Q () s) := by
  by_cases h : c
  · refine ⟨fun _ hc => absurd h hc, fun _ a t hrun => ?_⟩
    rw [run_stopIf_of s h] at hrun
    nomatch hrun
  · rw [wlp_of_val (run_stopIf_of_not s h e)]
    exact ⟨fun hq _ => hq, fun hq => hq h⟩

@[simp] theorem wlp_ite (c : Prop) [Decidable c] (m n : Exec σ ε α) :
    wlp (if c then m else n) Q s ↔ (c → wlp m Q s) ∧ (¬c → wlp n Q s) := by
  by_cases h : c <;> simp [h]

end wlp

/-! ## Stops -/

/-- Every stop of the computation satisfies `P`. -/
def StopsIn (P : ε → Prop) (m : Exec σ ε α) : Prop := ∀ s e t, m s = .stop e t → P e

namespace StopsIn

variable {P : ε → Prop}

/-- A computation that never stops. -/
theorem of_never {m : Exec σ ε α} (h : ∀ s e t, m s ≠ .stop e t) : StopsIn P m := fun s e t hrun => absurd hrun (h s e t)

theorem pure (a : α) : StopsIn P (Pure.pure a : Exec σ ε α) := of_never fun _ _ _ hrun => nomatch hrun

theorem get : StopsIn P (Exec.get : Exec σ ε σ) := of_never fun _ _ _ hrun => nomatch hrun

theorem modify (f : σ → σ) : StopsIn P (Exec.modify f : Exec σ ε Unit) := of_never fun _ _ _ hrun => nomatch hrun

theorem stop {e : ε} (h : P e) : StopsIn P (Exec.stop e : Exec σ ε α) := by
  intro s e' t hrun
  cases hrun
  exact h

theorem demand (c : Prop) [Decidable c] : StopsIn P (Exec.demand c : Exec σ ε Unit) := by
  refine of_never fun s e t hrun => ?_
  rw [run_demand] at hrun
  split at hrun <;> nomatch hrun

theorem stopIf (c : Prop) [Decidable c] {e : ε} (h : P e) : StopsIn P (Exec.stopIf c e : Exec σ ε Unit) := by
  intro s e' t hrun
  by_cases hc : c
  · rw [run_stopIf_of s hc] at hrun
    cases hrun
    exact h
  · rw [run_stopIf_of_not s hc] at hrun
    nomatch hrun

theorem bind {m : Exec σ ε β} {k : β → Exec σ ε α} (hm : StopsIn P m) (hk : ∀ b, StopsIn P (k b)) : StopsIn P (m >>= k) := by
  intro s e t hrun
  rw [run_bind] at hrun
  cases hms : m s with
  | val b u =>
    rw [hms] at hrun
    exact hk b u e t hrun
  | stop e' u =>
    rw [hms] at hrun
    cases hrun
    exact hm s e t hms
  | oob =>
    rw [hms] at hrun
    nomatch hrun

theorem ite (c : Prop) [Decidable c] {m n : Exec σ ε α} (hm : StopsIn P m) (hn : StopsIn P n) :
    StopsIn P (if c then m else n) := by
  by_cases h : c
  · rwa [if_pos h]
  · rwa [if_neg h]

end StopsIn

/-! ## Counting loops -/

/-- The turns `i`, …, `i + k - 1` of a loop that carries a value. -/
def loopFrom (body : Nat → β → Exec σ ε β) : Nat → Nat → β → Exec σ ε β
  | 0, _, b => pure b
  | k + 1, i, b => body i b >>= fun b' => loopFrom body k (i + 1) b'

/-- `for (i = 0; i < n; ++i)`. -/
def forRange (n : Nat) (body : Nat → β → Exec σ ε β) (b : β) : Exec σ ε β := loopFrom body n 0 b

/-- The loop rule: `inv i` holds before turn `i` and is carried to turn `i + 1`. -/
theorem wp_loopFrom {body : Nat → β → Exec σ ε β} {Q : β → σ → Prop} {E : ε → σ → Prop} (inv : Nat → β → σ → Prop)
    (k i : Nat) (b : β) (s : σ) (hstart : inv i b s)
    (hturn : ∀ j, i ≤ j → j < i + k → ∀ b s, inv j b s → wp (body j b) (inv (j + 1)) E s)
    (hend : ∀ b s, inv (i + k) b s → Q b s) : wp (loopFrom body k i b) Q E s := by
  induction k generalizing i b s with
  | zero => exact hend b s hstart
  | succ k ih =>
    rw [loopFrom, wp_bind]
    refine wp_mono (fun b' t ht => ?_) (fun _ _ h => h) (hturn i (Nat.le_refl i) (by omega) b s hstart)
    exact ih (i + 1) b' t ht (fun j hj hjk => hturn j (by omega) (by omega))
      (fun b s h => hend b s (by rwa [Nat.add_right_comm] at h))

theorem wp_forRange {n : Nat} {body : Nat → β → Exec σ ε β} {b : β} {Q : β → σ → Prop} {E : ε → σ → Prop} {s : σ}
    (inv : Nat → β → σ → Prop) (hstart : inv 0 b s)
    (hturn : ∀ i, i < n → ∀ b s, inv i b s → wp (body i b) (inv (i + 1)) E s) (hend : ∀ b s, inv n b s → Q b s) :
    wp (forRange n body b) Q E s :=
  wp_loopFrom inv n 0 b s hstart (fun j _ hj => hturn j (by omega)) (fun b s h => hend b s (by rwa [Nat.zero_add] at h))

/-! ## Runs

A machine that takes steps until it stops. -/

/-- At most `n` steps of `m`: the state reached, or the stop that ended the run. -/
def iterate (m : Exec σ ε Unit) : Nat → Exec σ ε Unit
  | 0 => pure ()
  | n + 1 => m >>= fun _ => iterate m n

/-- `t` is reached from `s` by steps of `m`. -/
inductive Reaches (m : Exec σ ε Unit) (s : σ) : σ → Prop where
  | refl : Reaches m s s
  | step {t u : σ} (h : Reaches m s t) (hstep : m t = .val () u) : Reaches m s u

/-- A run that goes on. -/
theorem Reaches.trans {m : Exec σ ε Unit} {s t u : σ} (h : Reaches m s t) (h' : Reaches m t u) : Reaches m s u := by
  induction h' with
  | refl => exact h
  | step _ hstep ih => exact .step ih hstep

/-- `t` is reached from `s` by at most `n` steps of `m`. -/
def Within (m : Exec σ ε Unit) (n : Nat) (s t : σ) : Prop := ∃ k ≤ n, iterate m k s = .val () t

namespace Within

variable {m : Exec σ ε Unit} {j k n : Nat} {s t u : σ}

/-- No step. -/
theorem refl (n : Nat) (s : σ) : Within m n s s := ⟨0, Nat.zero_le n, rfl⟩

/-- A single step. -/
theorem one (h : m s = .val () t) : Within m 1 s t := by
  refine ⟨1, Nat.le_refl 1, ?_⟩
  rw [iterate, run_bind, h]
  rfl

/-- A larger bound. -/
theorem mono (h : Within m j s t) (hle : j ≤ k) : Within m k s t := by
  obtain ⟨i, hi, hrun⟩ := h
  exact ⟨i, Nat.le_trans hi hle, hrun⟩

/-- Two runs of given lengths, one after the other. -/
theorem iterate_trans (h : iterate m j s = .val () t) (h' : iterate m k t = .val () u) : iterate m (j + k) s = .val () u := by
  induction j generalizing s with
  | zero =>
    cases h
    rwa [Nat.zero_add]
  | succ j ih =>
    obtain ⟨_, v, hv, hrest⟩ := of_bind h
    rw [Nat.succ_add, iterate, run_bind, hv]
    exact ih hrest

/-- The bounds add up. -/
theorem trans (h : Within m j s t) (h' : Within m k t u) : Within m (j + k) s u := by
  obtain ⟨i, hi, hrun⟩ := h
  obtain ⟨i', hi', hrun'⟩ := h'
  exact ⟨i + i', Nat.add_le_add hi hi', iterate_trans hrun hrun'⟩

/-- One step more. -/
theorem step (h : Within m n s t) (hstep : m t = .val () u) : Within m (n + 1) s u := h.trans (one hstep)

/-- A bounded run is a run. -/
theorem reaches (h : Within m n s t) : Reaches m s t := by
  obtain ⟨k, -, hrun⟩ := h
  induction k generalizing s with
  | zero =>
    cases hrun
    exact .refl
  | succ k ih =>
    obtain ⟨_, v, hv, hrest⟩ := of_bind hrun
    exact (Reaches.step .refl hv).trans (ih hrest)

end Within

/-- What a step keeps, every reachable state has. -/
theorem Reaches.invariant {m : Exec σ ε Unit} {I : σ → Prop} {E : ε → σ → Prop} (hstep : ∀ s, I s → wp m (fun _ => I) E s)
    {s t : σ} (h : Reaches m s t) (hs : I s) : I t := by
  induction h with
  | refl => exact hs
  | step _ hu ih =>
    have := hstep _ ih
    unfold wp at this
    rwa [hu] at this

/-- `t` is reached from `s` by steps of `m` that are all taken in states where `P` holds. -/
inductive ReachesVia (P : σ → Prop) (m : Exec σ ε Unit) (s : σ) : σ → Prop where
  | refl : ReachesVia P m s s
  | step {t u : σ} (h : ReachesVia P m s t) (ht : P t) (hstep : m t = .val () u) : ReachesVia P m s u

/-- A run through states of the kind that goes on. -/
theorem ReachesVia.trans {P : σ → Prop} {m : Exec σ ε Unit} {s t u : σ} (h : ReachesVia P m s t) (h' : ReachesVia P m t u) :
    ReachesVia P m s u := by
  induction h' with
  | refl => exact h
  | step _ hp hstep ih => exact .step ih hp hstep

/-- It is a run. -/
theorem ReachesVia.reaches {P : σ → Prop} {m : Exec σ ε Unit} {s t : σ} (h : ReachesVia P m s t) : Reaches m s t := by
  induction h with
  | refl => exact .refl
  | step _ _ hstep ih => exact .step ih hstep

/-- A wider kind of states. -/
theorem ReachesVia.mono {P Q : σ → Prop} (hPQ : ∀ s, P s → Q s) {m : Exec σ ε Unit} {s t : σ} (h : ReachesVia P m s t) :
    ReachesVia Q m s t := by
  induction h with
  | refl => exact .refl
  | step _ hp hstep ih => exact .step ih (hPQ _ hp) hstep

/-- The machine with a check before each step. -/
def checked (c : σ → Bool) (m : Exec σ ε Unit) : Exec σ ε Unit := get >>= fun s => demand (c s = true) >>= fun _ => m

/-- A checked step is a step from a state that passes the check. -/
theorem of_checked {c : σ → Bool} {m : Exec σ ε Unit} {s t : σ} (h : checked c m s = .val () t) : c s = true ∧ m s = .val () t := by
  obtain ⟨_, _, hget, hrest⟩ := of_bind h
  cases hget
  obtain ⟨_, u, hdemand, hm⟩ := of_bind hrest
  rw [run_demand] at hdemand
  split at hdemand
  case isTrue hc =>
    cases hdemand
    exact ⟨hc, hm⟩
  case isFalse => nomatch hdemand

/-- A run of the machine with a check is one whose steps are all taken where the check holds. -/
theorem ReachesVia.of_checked {c : σ → Bool} {m : Exec σ ε Unit} {n : Nat} {s t : σ} (h : iterate (checked c m) n s = .val () t) :
    ReachesVia (fun s => c s = true) m s t := by
  induction n generalizing s with
  | zero =>
    cases h
    exact .refl
  | succ n ih =>
    obtain ⟨_, u, hu, hrest⟩ := of_bind h
    obtain ⟨hc, hstep⟩ := Exec.of_checked hu
    have hone : ReachesVia (fun s => c s = true) m s u := .step .refl hc hstep
    exact hone.trans (ih hrest)

/-- A run of checked steps is a run. -/
theorem iterate_of_checked {c : σ → Bool} {m : Exec σ ε Unit} {n : Nat} {s t : σ} (h : iterate (checked c m) n s = .val () t) :
    iterate m n s = .val () t := by
  induction n generalizing s with
  | zero => exact h
  | succ n ih =>
    obtain ⟨_, u, hu, hrest⟩ := of_bind h
    rw [iterate, run_bind, (Exec.of_checked hu).2]
    exact ih hrest

/-- An invariant of the step is one of every run, and the run makes no access out of bounds. -/
theorem iterate_invariant {m : Exec σ ε Unit} {I : σ → Prop} {E : ε → σ → Prop} (hstep : ∀ s, I s → wp m (fun _ => I) E s)
    (n : Nat) (s : σ) (hs : I s) : wp (iterate m n) (fun _ => I) E s := by
  induction n generalizing s with
  | zero => exact hs
  | succ n ih =>
    rw [iterate, wp_bind]
    exact wp_mono (fun _ t ht => ih t ht) (fun _ _ he => he) (hstep s hs)

end Exec

end CronoVM.Checked
