import Mathlib.Order.Defs.Unbundled
import CronoVM.Lib.Checked

/-!
# Programs on a part of a state

A program that runs on a part of a state, and whose errors are some of a larger kind, as a program on the whole state. A relation between
states that each step of a program keeps is kept by the program.
-/

namespace CronoVM.Checked.Exec

variable {σ τ ε δ α β : Type}

/-- The program on a part of the state, its errors renamed. -/
def zoom (part : σ → τ) (put : σ → τ → σ) (err : ε → δ) (m : Exec τ ε α) : Exec σ δ α := fun s =>
  match m (part s) with
  | .val a t => .val a (put s t)
  | .stop e t => .stop (err e) (put s t)
  | .oob => .oob

section zoom

variable {part : σ → τ} {put : σ → τ → σ} {err : ε → δ} {m : Exec τ ε α} {Q : α → σ → Prop} {E : δ → σ → Prop} {s : σ}

@[simp] theorem wp_zoom : wp (zoom part put err m) Q E s ↔ wp m (fun a t => Q a (put s t)) (fun e t => E (err e) (put s t)) (part s) := by
  unfold wp zoom
  cases m (part s) <;> rfl

theorem of_zoom {a : α} {s' : σ} (h : zoom part put err m s = .val a s') : ∃ t, m (part s) = .val a t ∧ s' = put s t := by
  unfold zoom at h
  cases hm : m (part s) with
  | val b t =>
    rw [hm] at h
    obtain ⟨rfl, rfl⟩ := Outcome.val.inj h
    exact ⟨t, rfl, rfl⟩
  | stop e t =>
    rw [hm] at h
    cases h
  | oob =>
    rw [hm] at h
    cases h

end zoom

/-- Of a run that comes through, only the first postcondition counts. -/
theorem wlp_of_wp {m : Exec σ ε α} {Q : α → σ → Prop} {E : ε → σ → Prop} {s : σ} (h : wp m Q E s) : wlp m Q s := by
  intro a t hrun
  exact of_wp h hrun

/-! ## What a program keeps -/

/-- Each run of the program that comes through relates the state before to the state after. -/
def Keeps (R : σ → σ → Prop) (m : Exec σ ε α) : Prop := ∀ s a s', m s = .val a s' → R s s'

namespace Keeps

variable {R : σ → σ → Prop}

section preorder

variable [IsPreorder σ R]

theorem pure (a : α) : Keeps R (Pure.pure a : Exec σ ε α) := by
  intro s b s' h
  obtain ⟨-, rfl⟩ := Outcome.val.inj h
  exact refl s

theorem get : Keeps R (Exec.get : Exec σ ε σ) := by
  intro s b s' h
  obtain ⟨-, rfl⟩ := Outcome.val.inj h
  exact refl s

theorem stopIf (c : Prop) [Decidable c] (e : ε) : Keeps R (Exec.stopIf c e : Exec σ ε Unit) := by
  intro s b s' h
  by_cases hc : c
  · rw [run_stopIf_of _ hc] at h
    cases h
  · rw [run_stopIf_of_not _ hc] at h
    obtain ⟨-, rfl⟩ := Outcome.val.inj h
    exact refl s

theorem demand (c : Prop) [Decidable c] : Keeps R (Exec.demand c : Exec σ ε Unit) := by
  intro s b s' h
  rw [run_demand] at h
  split at h
  · obtain ⟨-, rfl⟩ := Outcome.val.inj h
    exact refl s
  · cases h

theorem bind {m : Exec σ ε β} {k : β → Exec σ ε α} (hm : Keeps R m) (hk : ∀ b, Keeps R (k b)) : Keeps R (m >>= k) := by
  intro s a s' h
  obtain ⟨b, t, hb, ha⟩ := of_bind h
  exact IsTrans.trans _ _ _ (hm s b t hb) (hk b t a s' ha)

end preorder

theorem modify {f : σ → σ} (hf : ∀ s, R s (f s)) : Keeps R (Exec.modify f : Exec σ ε Unit) := by
  intro s b s' h
  obtain ⟨-, rfl⟩ := Outcome.val.inj h
  exact hf s

theorem stop (e : ε) : Keeps R (Exec.stop e : Exec σ ε α) := by
  intro s b s' h
  cases h

theorem ite (c : Prop) [Decidable c] {m n : Exec σ ε α} (hm : Keeps R m) (hn : Keeps R n) : Keeps R (if c then m else n) := by
  split
  · exact hm
  · exact hn

theorem when [IsPreorder σ R] (c : Prop) [Decidable c] {m : Exec σ ε Unit} (hm : Keeps R m) : Keeps R (Exec.when c m) :=
  ite c hm (pure ())

theorem forRange [IsPreorder σ R] {body : Nat → β → Exec σ ε β} (hbody : ∀ b k, Keeps R (body k b)) (n : Nat) (b : β) :
    Keeps R (Exec.forRange n body b) := by
  have hloop : ∀ n k b, Keeps R (loopFrom body n k b) := by
    intro n
    induction n with
    | zero => exact fun _ _ => pure _
    | succ n ih => exact fun k b => bind (hbody b k) fun _ => ih _ _
  exact hloop n 0 b

/-- A relation between the wholes that follows from one between the parts. -/
theorem zoom {part : σ → τ} {put : σ → τ → σ} {err : ε → δ} {S : τ → τ → Prop} (hput : ∀ s t, S (part s) t → R s (put s t))
    {m : Exec τ ε α} (hm : Keeps S m) : Keeps R (Exec.zoom part put err m) := by
  intro s a s' h
  obtain ⟨t, ht, rfl⟩ := of_zoom h
  exact hput s t (hm _ a t ht)

end Keeps

end CronoVM.Checked.Exec
