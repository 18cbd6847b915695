import Mathlib.Data.List.Forall2
import Mathlib.Tactic.Common

/-!
# Programs that draw numbers

A generator takes numbers from a stream. What it returns is told for every stream at once: `Always P g` is followed through the steps of
the generator.
-/

namespace CronoVM.Draws

variable {δ α β ι : Type}

/-- A generator: it reads a stream of draws and leaves the rest of it. -/
abbrev Draw (δ : Type) : Type → Type := StateM (Nat → δ)

/-- The next number of the stream. -/
def draw : Draw δ δ := fun s => (s 0, fun n => s (n + 1))

/-- What `g` gives for each element of a list. -/
def each (is : List ι) (g : ι → Draw δ α) : Draw δ (List α) :=
  match is with
  | [] => pure []
  | i :: is => do
    let a ← g i
    let as ← each is g
    pure (a :: as)

/-- Whatever is drawn, the result is in `P`. -/
def Always (P : α → Prop) (g : Draw δ α) : Prop := ∀ s, P (g s).1

section always

variable {P Q : α → Prop} {g : Draw δ α}

theorem always_pure {a : α} (h : P a) : Always P (pure a : Draw δ α) := fun _ => h

theorem always_bind {R : β → Prop} {k : α → Draw δ β} (hg : Always P g) (hk : ∀ a, P a → Always R (k a)) : Always R (g >>= k) :=
  fun s => hk _ (hg s) _

theorem always_mono (h : ∀ a, P a → Q a) (hg : Always P g) : Always Q g := fun s => h _ (hg s)

theorem always_true : Always (fun _ => True) g := fun _ => trivial

theorem always_ite {c : Prop} [Decidable c] {g' : Draw δ α} (hg : c → Always P g) (hg' : ¬c → Always P g') :
    Always P (if c then g else g') := by
  by_cases h : c
  · rw [if_pos h]
    exact hg h
  · rw [if_neg h]
    exact hg' h

/-- The results stand to the elements as each does to its own. -/
theorem always_each {is : List ι} {R : ι → α → Prop} {g : ι → Draw δ α} (h : ∀ i ∈ is, Always (R i) (g i)) :
    Always (List.Forall₂ R is) (each is g) := by
  induction is with
  | nil => exact always_pure .nil
  | cons i is ih =>
    refine always_bind (h i List.mem_cons_self) fun a ha => ?_
    refine always_bind (ih fun j hj => h j (List.mem_cons_of_mem i hj)) fun as has => ?_
    exact always_pure (.cons ha has)

/-- A property of all results. -/
theorem always_each_mem {is : List ι} {g : ι → Draw δ α} (h : ∀ i ∈ is, Always P (g i)) : Always (fun as => ∀ a ∈ as, P a) (each is g) := by
  induction is with
  | nil => exact always_pure fun a ha => absurd ha List.not_mem_nil
  | cons i is ih =>
    refine always_bind (h i List.mem_cons_self) fun a ha => ?_
    refine always_bind (ih fun j hj => h j (List.mem_cons_of_mem i hj)) fun as has => ?_
    refine always_pure fun b hb => ?_
    rcases List.mem_cons.mp hb with rfl | hb
    · exact ha
    · exact has b hb

end always

end CronoVM.Draws
