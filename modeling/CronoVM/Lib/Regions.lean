import CronoVM.Lib.Memory

/-!
# Filling a memory region by region

A memory that starts out zero is filled by steps, each of which writes in a region of its own. What a step has written is there at the end.
-/

namespace CronoVM

namespace Mem

/-- Nothing but zeros, from `lo` on. -/
def ZeroOn (m : Mem) (lo len : Nat) : Prop := ∀ k, lo ≤ k → k < lo + len → m.byte k = 0#8

/-- The same bytes, from `lo` on. -/
def SameOn (m m' : Mem) (lo len : Nat) : Prop := ∀ k, lo ≤ k → k < lo + len → m'.byte k = m.byte k

/-- Nothing is changed but bytes from `lo` on. -/
structure Within (m m' : Mem) (lo len : Nat) : Prop where
  size : m'.size = m.size
  byte : ∀ k, k < lo ∨ lo + len ≤ k → m'.byte k = m.byte k

theorem within_refl (m : Mem) (lo len : Nat) : m.Within m lo len := ⟨rfl, fun _ _ => rfl⟩

theorem within_blit (m : Mem) {p n lo len : Nat} (f : Nat → Byte) (hlo : lo ≤ p) (hhi : p + n ≤ lo + len) : m.Within (m.blit p n f) lo len where
  size := rfl
  byte := by
    intro k hk
    rcases hk with hk | hk
    · exact m.blit_byte_of_lt f (by omega)
    · exact m.blit_byte_of_ge f (by omega)

theorem Within.zeroOn {m m' : Mem} {lo len lo' len' : Nat} (h : m.Within m' lo len) (hdisj : lo + len ≤ lo' ∨ lo' + len' ≤ lo)
    (hzero : m.ZeroOn lo' len') : m'.ZeroOn lo' len' := by
  intro k hlo hhi
  rw [h.byte k (by omega)]
  exact hzero k hlo hhi

theorem ZeroOn.mono {m : Mem} {lo len lo' len' : Nat} (h : m.ZeroOn lo len) (hlo : lo ≤ lo') (hhi : lo' + len' ≤ lo + len) :
    m.ZeroOn lo' len' := fun k hk hk' => h k (by omega) (by omega)

theorem SameOn.mono {m m' : Mem} {lo len lo' len' : Nat} (h : m.SameOn m' lo len) (hlo : lo ≤ lo') (hhi : lo' + len' ≤ lo + len) :
    m.SameOn m' lo' len' := fun k hk hk' => h k (by omega) (by omega)

end Mem

/-- One step for each element of a list, in order. -/
inductive Chain {ι : Type} (R : ι → Mem → Mem → Prop) : List ι → Mem → Mem → Prop
  | nil {m : Mem} : Chain R [] m m
  | cons {i : ι} {l : List ι} {m m' m'' : Mem} : R i m m' → Chain R l m' m'' → Chain R (i :: l) m m''

namespace Chain

variable {ι : Type}

theorem of_foldlM {f : Mem → ι → Option Mem} {l : List ι} {m m' : Mem} (h : l.foldlM f m = some m') :
    Chain (fun i m m' => f m i = some m') l m m' := by
  induction l generalizing m with
  | nil =>
    obtain rfl : m = m' := Option.some.inj h
    exact .nil
  | cons i l ih =>
    rw [List.foldlM_cons] at h
    obtain ⟨m₁, hstep, hrest⟩ := Option.bind_eq_some_iff.mp h
    exact .cons hstep (ih hrest)

variable {R : ι → Mem → Mem → Prop} {P : ι → Mem → Prop}

/-- Steps in disjoint regions: every region ends up as its step leaves it, and nothing else is changed. -/
theorem fill {l : List ι} {m m' : Mem} (h : Chain R l m m') (lo len : ι → Nat)
    (hsame : ∀ i ∈ l, ∀ m m', m.SameOn m' (lo i) (len i) → P i m → P i m')
    (hdisj : l.Pairwise fun i j => lo i + len i ≤ lo j ∨ lo j + len j ≤ lo i)
    (hstep : ∀ i ∈ l, ∀ m m', m.ZeroOn (lo i) (len i) → R i m m' → m.Within m' (lo i) (len i) ∧ P i m')
    (hzero : ∀ i ∈ l, m.ZeroOn (lo i) (len i)) :
    m'.size = m.size ∧ (∀ k, (∀ i ∈ l, k < lo i ∨ lo i + len i ≤ k) → m'.byte k = m.byte k) ∧ ∀ i ∈ l, P i m' := by
  induction h with
  | nil => exact ⟨rfl, fun _ _ => rfl, fun _ hi => nomatch hi⟩
  | @cons i l m m₁ m' hfirst _ ih =>
    obtain ⟨hhead, htail⟩ := List.pairwise_cons.mp hdisj
    obtain ⟨hwithin, hP⟩ := hstep i List.mem_cons_self m m₁ (hzero i List.mem_cons_self) hfirst
    obtain ⟨hsize, hframe, hrest⟩ := ih (fun j hj => hsame j (List.mem_cons_of_mem i hj)) htail
      (fun j hj => hstep j (List.mem_cons_of_mem i hj)) fun j hj =>
      hwithin.zeroOn (hhead j hj) (hzero j (List.mem_cons_of_mem i hj))
    refine ⟨hsize.trans hwithin.size, fun k hk => ?_, fun j hj => ?_⟩
    · rw [hframe k fun j hj => hk j (List.mem_cons_of_mem i hj), hwithin.byte k (hk i List.mem_cons_self)]
    · rcases List.mem_cons.mp hj with rfl | hj
      · refine hsame j List.mem_cons_self m₁ m' (fun k hlo hhi => hframe k fun j' hj' => ?_) hP
        have hapart := hhead j' hj'
        omega
      · exact hrest j hj

end Chain

end CronoVM
