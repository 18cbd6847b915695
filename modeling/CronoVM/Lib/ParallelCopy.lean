import Mathlib.Data.Finset.Card
import Mathlib.Tactic.Common

/-!
# Parallel copies in sequence

A parallel copy gives each of its destinations a value that was there before any destination was written: the value of a location, or
a constant. It is put in sequence by writing only destinations that nobody still reads; when each pending destination is still read,
all that is left are cycles, and one location is saved to a spare. `Inv` is what such a sequence keeps: for each location, `cur` says
where the value is now that it had in the beginning.
-/

namespace CronoVM.ParallelCopy

variable {ι V : Type}

/-- A parallel copy: `src d` is none where `d` is no destination, and else where the value of `d` comes from, none for a constant. -/
structure Copy (ι V : Type) where
  src : ι → Option (Option ι)
  const : ι → V

/-- `d` is written. -/
def Copy.IsDst (c : Copy ι V) (d : ι) : Prop := c.src d ≠ none

/-- `d` is written with the value of `a`. -/
def Copy.Reads (c : Copy ι V) (d a : ι) : Prop := c.src d = some (some a)

/-- The value destination `d` has to get. -/
def Copy.want (c : Copy ι V) (init : ι → V) (d : ι) : V :=
  match c.src d with
  | some (some a) => init a
  | _ => c.const d

/-- Where a sequence of copies is. -/
structure State (ι V : Type) where
  val : ι → V
  cur : ι → Option ι
  done : ι → Bool
  ready : List ι

/-- What a sequence of copies keeps; `init` are the values at the start. -/
structure Inv (c : Copy ι V) (spare : ι) (init : ι → V) (todo : List ι) (s : State ι V) : Prop where
  /-- Destinations that are done have their value. -/
  done_val : ∀ d, c.IsDst d → s.done d = true → s.val d = c.want init d
  /-- A value that is still to be read is where `cur` says. -/
  held : ∀ d a, c.Reads d a → s.done d = false → ∃ k, s.cur a = some k ∧ s.val k = init a
  /-- Nobody reads a ready destination any more. -/
  free : ∀ d ∈ s.ready, ∀ d' a, c.Reads d' a → s.done d' = false → s.cur a ≠ some d
  ready_dst : ∀ d ∈ s.ready, c.IsDst d ∧ s.done d = false
  ready_nodup : s.ready.Nodup
  /-- A value has not moved, or is in a destination that is done, or in the spare. -/
  moved : ∀ a k, s.cur a = some k → k = a ∨ s.done k = true ∨ k = spare
  /-- The value of a pending destination that is not ready has not moved. -/
  pending : ∀ d, c.IsDst d → s.done d = false → d ∉ s.ready → s.cur d = some d
  /-- A value that has not moved is still to be read by all its readers. -/
  unmoved : ∀ a, s.cur a = some a → (∃ d, c.Reads d a) ∧ ∀ d, c.Reads d a → s.done d = false
  /-- The destinations that are not on the list any more are done or ready. -/
  listed : ∀ d, c.IsDst d → d ∉ todo → s.done d = true ∨ d ∈ s.ready
  listed_dst : ∀ d ∈ todo, c.IsDst d

/-- What is asked of a copy: no location is copied to itself, and the spare is not part of it. -/
structure Copy.Ok (c : Copy ι V) (spare : ι) : Prop where
  no_self : ∀ d, ¬c.Reads d d
  spare_dst : ¬c.IsDst spare
  spare_src : ∀ d, ¬c.Reads d spare

namespace Inv

variable {c : Copy ι V} {spare : ι} {init : ι → V} {todo : List ι} {s : State ι V}

theorem isDst_of_reads {d a : ι} (h : c.Reads d a) : c.IsDst d := by
  rw [Copy.IsDst, h]
  simp

theorem want_of_reads {d a : ι} (h : c.Reads d a) : c.want init d = init a := by
  rw [Copy.want, h]

/-- The state before the first copy: what is read is where it was, and what nobody reads is ready. -/
theorem start {cur : ι → Option ι} {ready : List ι} (hcur : ∀ a k, cur a = some k ↔ k = a ∧ ∃ d, c.Reads d a)
    (hready : ∀ d, d ∈ ready ↔ c.IsDst d ∧ cur d = none) (hnodup : ready.Nodup) (htodo : ∀ d, d ∈ todo ↔ c.IsDst d) :
    Inv c spare init todo { val := init, cur := cur, done := fun _ => false, ready := ready } := by
  constructor
  case done_val => exact fun _ _ h => Bool.noConfusion h
  case held => exact fun d a hr _ => ⟨a, (hcur a a).mpr ⟨rfl, d, hr⟩, rfl⟩
  case free =>
    intro d hd d' a hr _ hk
    obtain ⟨rfl, hex⟩ := (hcur a d).mp hk
    have hnone := ((hready d).mp hd).2
    exact absurd (hnone.symm.trans hk) (Option.some_ne_none d).symm
  case ready_dst => exact fun d hd => ⟨((hready d).mp hd).1, rfl⟩
  case ready_nodup => exact hnodup
  case moved => exact fun a k hk => Or.inl ((hcur a k).mp hk).1
  case pending =>
    intro d hd _ hnr
    cases hk : cur d with
    | none => exact absurd ((hready d).mpr ⟨hd, hk⟩) hnr
    | some k =>
      obtain rfl := ((hcur d k).mp hk).1
      exact hk
  case unmoved => exact fun a ha => ⟨((hcur a a).mp ha).2, fun _ _ => rfl⟩
  case listed => exact fun d hd hnt => absurd ((htodo d).mpr hd) hnt
  case listed_dst => exact fun d hd => (htodo d).mp hd

variable [DecidableEq ι]

/-! ## A ready destination is written -/

/-- The state after `v` was written to `d`. -/
def State.put (s : State ι V) (d : ι) (v : V) (cur : ι → Option ι) (ready : List ι) : State ι V :=
  { val := Function.update s.val d v, cur := cur, done := Function.update s.done d true, ready := ready }

theorem done_put {d x : ι} {v : V} {cur : ι → Option ι} {ready : List ι} (h : (State.put s d v cur ready).done x = false) :
    x ≠ d ∧ s.done x = false := by
  by_cases hxd : x = d
  · simp [State.put, hxd] at h
  · exact ⟨hxd, by simpa [State.put, hxd] using h⟩

theorem done_put_of {d x : ι} {v : V} {cur : ι → Option ι} {ready : List ι} (h : s.done x = true ∨ x = d) :
    (State.put s d v cur ready).done x = true := by
  by_cases hxd : x = d
  · simp [State.put, hxd]
  · simpa [State.put, hxd] using h

/-- Writing a ready destination harms no value that is still to be read. -/
theorem held_update (h : Inv c spare init todo s) {d : ι} (hd : d ∈ s.ready) (v : V) {d' a : ι} (hr : c.Reads d' a)
    (hpend : s.done d' = false) : ∃ k, s.cur a = some k ∧ Function.update s.val d v k = init a := by
  obtain ⟨k, hk, hval⟩ := h.held d' a hr hpend
  have hne : k ≠ d := by
    rintro rfl
    exact h.free k hd d' a hr hpend hk
  exact ⟨k, hk, by rw [Function.update_of_ne hne, hval]⟩

/-- A ready destination gets its value, and where it came from a pending destination that had not moved, that one becomes ready. -/
theorem put (hok : c.Ok spare) (h : Inv c spare init todo s) {d : ι} {ready ready' : List ι} {cur' : ι → Option ι}
    (hready : s.ready = d :: ready) (hread : ∀ a, c.Reads d a → cur' a = some d) (hkeep : ∀ a, ¬c.Reads d a → cur' a = s.cur a)
    (hsub : ∀ x ∈ ready, x ∈ ready') (hnodup : ready'.Nodup)
    (hnew : ∀ x ∈ ready', x ∈ ready ∨ c.Reads d x ∧ c.IsDst x ∧ s.done x = false)
    (hpush : ∀ a, c.Reads d a → s.cur a = some a → c.IsDst a → s.done a = false → a ∈ ready') :
    Inv c spare init todo (State.put s d (c.want init d) cur' ready') := by
  have hmem : d ∈ s.ready := by rw [hready]; exact List.mem_cons_self
  have hrest : ∀ {x}, x ∈ ready → x ∈ s.ready := fun hx => by rw [hready]; exact List.mem_cons_of_mem d hx
  have hd := h.ready_dst d hmem
  have hdr := h.ready_nodup
  rw [hready, List.nodup_cons] at hdr
  have hcur : ∀ a, c.Reads d a ∧ cur' a = some d ∨ cur' a = s.cur a := by
    intro a
    by_cases hr : c.Reads d a
    · exact Or.inl ⟨hr, hread a hr⟩
    · exact Or.inr (hkeep a hr)
  constructor
  case done_val =>
    intro x hx hxdone
    by_cases hxd : x = d
    · simp [State.put, hxd]
    · have hold : s.done x = true := by simpa [State.put, hxd] using hxdone
      simpa [State.put, hxd] using h.done_val x hx hold
  case held =>
    intro x a hr hx
    obtain ⟨hxd, hx⟩ := done_put hx
    rcases hcur a with ⟨hda, hk⟩ | hk
    · exact ⟨d, hk, by simp [State.put, want_of_reads hda]⟩
    · obtain ⟨k, hsk, hval⟩ := held_update h hmem (c.want init d) hr hx
      exact ⟨k, hk.trans hsk, hval⟩
  case free =>
    intro x hx x' a hr hx' hk
    obtain ⟨_, hx'⟩ := done_put hx'
    rcases hnew x hx with hxr | ⟨hdx, hxdst, hxp⟩
    · rcases hcur a with ⟨_, hka⟩ | hka
      · obtain rfl : x = d := Option.some.inj (hk.symm.trans hka)
        exact hdr.1 hxr
      · exact h.free x (hrest hxr) x' a hr hx' (hka.symm.trans hk)
    · rcases hcur a with ⟨_, hka⟩ | hka
      · obtain rfl : x = d := Option.some.inj (hk.symm.trans hka)
        exact hok.no_self x hdx
      · rcases h.moved a x (hka.symm.trans hk) with rfl | hxdone | rfl
        · obtain rfl : x = d := Option.some.inj (hk.symm.trans (hread x hdx))
          exact hok.no_self x hdx
        · rw [hxp] at hxdone
          exact Bool.noConfusion hxdone
        · exact hok.spare_dst hxdst
  case ready_dst =>
    intro x hx
    have hold : c.IsDst x ∧ s.done x = false ∧ x ≠ d := by
      rcases hnew x hx with hxr | ⟨hdx, hxdst, hxp⟩
      · exact ⟨(h.ready_dst x (hrest hxr)).1, (h.ready_dst x (hrest hxr)).2, fun he => hdr.1 (he ▸ hxr)⟩
      · exact ⟨hxdst, hxp, fun he => hok.no_self d (he ▸ hdx)⟩
    exact ⟨hold.1, by simpa [State.put, hold.2.2] using hold.2.1⟩
  case ready_nodup => exact hnodup
  case moved =>
    intro a k hk
    rcases hcur a with ⟨_, hka⟩ | hka
    · obtain rfl : k = d := Option.some.inj (hk.symm.trans hka)
      exact Or.inr (Or.inl (done_put_of (Or.inr rfl)))
    · rcases h.moved a k (hka.symm.trans hk) with heq | hkd | hsp
      · exact Or.inl heq
      · exact Or.inr (Or.inl (done_put_of (Or.inl hkd)))
      · exact Or.inr (Or.inr hsp)
  case pending =>
    intro x hx hxp hxr
    obtain ⟨hxd, hxp⟩ := done_put hxp
    have hnr : x ∉ s.ready := by
      rw [hready, List.mem_cons]
      exact fun hor => hor.elim hxd fun hin => hxr (hsub x hin)
    have hself := h.pending x hx hxp hnr
    rcases hcur x with ⟨hdx, _⟩ | hka
    · exact absurd (hpush x hdx hself hx hxp) hxr
    · exact hka.trans hself
  case unmoved =>
    intro a ha
    have hnr : ¬c.Reads d a := by
      intro hr
      obtain rfl : a = d := Option.some.inj (ha.symm.trans (hread a hr))
      exact hok.no_self a hr
    obtain ⟨hex, hall⟩ := h.unmoved a ((hkeep a hnr).symm.trans ha)
    refine ⟨hex, fun x hr => ?_⟩
    have hxd : x ≠ d := by
      rintro rfl
      exact hnr hr
    simpa [State.put, hxd] using hall x hr
  case listed =>
    intro x hx hxt
    by_cases hxd : x = d
    · exact Or.inl (done_put_of (Or.inr hxd))
    · rcases h.listed x hx hxt with hxdone | hxr
      · exact Or.inl (done_put_of (Or.inl hxdone))
      · rw [hready, List.mem_cons] at hxr
        exact Or.inr (hsub x (hxr.resolve_left hxd))
  case listed_dst => exact h.listed_dst

/-! ## Only cycles are left -/

/-- With nothing ready, each pending destination is a copy of a pending destination that has not moved. -/
theorem cycle (h : Inv c spare init todo s) (hready : s.ready = []) {d : ι} (hd : c.IsDst d) (hp : s.done d = false) :
    ∃ a, c.Reads d a ∧ c.IsDst a ∧ s.done a = false := by
  classical
  have hmem : ∀ {x}, c.IsDst x → s.done x = false → x ∈ todo := by
    intro x hx hxp
    by_contra hnot
    rcases h.listed x hx hnot with hdone | hr
    · rw [hxp] at hdone
      exact Bool.noConfusion hdone
    · rw [hready] at hr
      exact List.not_mem_nil hr
  have hself : ∀ {x}, c.IsDst x → s.done x = false → s.cur x = some x := fun hx hxp =>
    h.pending _ hx hxp (by rw [hready]; exact List.not_mem_nil)
  -- Each pending destination has a pending reader; there are no more readers than destinations, so all of them are readers.
  let P := todo.toFinset.filter fun x => s.done x = false
  have hP : ∀ {x}, x ∈ P ↔ c.IsDst x ∧ s.done x = false := by
    intro x
    simp only [P, Finset.mem_filter, List.mem_toFinset]
    exact ⟨fun hx => ⟨h.listed_dst x hx.1, hx.2⟩, fun hx => ⟨hmem hx.1 hx.2, hx.2⟩⟩
  have hreader : ∀ x, ∃ y, x ∈ P → c.Reads y x ∧ y ∈ P := by
    intro x
    by_cases hx : x ∈ P
    · obtain ⟨hdst, hxp⟩ := hP.mp hx
      obtain ⟨⟨y, hy⟩, hall⟩ := h.unmoved x (hself hdst hxp)
      exact ⟨y, fun _ => ⟨hy, hP.mpr ⟨isDst_of_reads hy, hall y hy⟩⟩⟩
    · exact ⟨x, fun hin => absurd hin hx⟩
  choose reader hreader using hreader
  have hinj : Set.InjOn reader P := by
    intro x hx y hy hxy
    have hrx := (hreader x hx).1
    have hry := (hreader y hy).1
    rw [hxy, Copy.Reads, hry] at hrx
    exact (Option.some.inj (Option.some.inj hrx)).symm
  have hsurj := Finset.surjOn_of_injOn_of_card_le reader (fun x hx => (hreader x hx).2) hinj (Nat.le_refl _)
  obtain ⟨a, ha, rfl⟩ := hsurj (hP.mpr ⟨hd, hp⟩)
  exact ⟨a, (hreader a ha).1, hP.mp ha⟩

/-- The state after the value of `d` was saved to the spare. -/
def State.save (s : State ι V) (spare d : ι) : State ι V :=
  { s with val := Function.update s.val spare (s.val d), cur := Function.update s.cur d (some spare), ready := [d] }

/-- A pending destination is saved to the spare, and becomes ready. -/
theorem save (hok : c.Ok spare) {d : ι} (h : Inv c spare init (d :: todo) s) (hready : s.ready = []) (hp : s.done d = false) :
    Inv c spare init todo (State.save s spare d) := by
  have hd := h.listed_dst d List.mem_cons_self
  have hnot : ∀ {x}, x ∉ s.ready := by
    intro x
    rw [hready]
    exact List.not_mem_nil
  have hself := h.pending d hd hp hnot
  have hsd : spare ≠ d := fun he => hok.spare_dst (he ▸ hd)
  -- What a pending destination reads has not moved; so the spare holds nothing that is still to be read.
  have hstay : ∀ {x a}, c.Reads x a → s.done x = false → s.cur a = some a ∧ c.IsDst a := by
    intro x a hr hxp
    obtain ⟨a', hr', hdst, hap⟩ := h.cycle hready (isDst_of_reads hr) hxp
    obtain rfl : a = a' := Option.some.inj (Option.some.inj (hr.symm.trans hr'))
    exact ⟨h.pending a hdst hap hnot, hdst⟩
  constructor
  case done_val =>
    intro x hx hxdone
    have hne : x ≠ spare := fun he => hok.spare_dst (he ▸ hx)
    simpa [State.save, hne] using h.done_val x hx hxdone
  case held =>
    intro x a hr hxp
    obtain ⟨hcur, hdst⟩ := hstay hr hxp
    obtain ⟨k, hk, hval⟩ := h.held x a hr hxp
    obtain rfl : a = k := Option.some.inj (hcur.symm.trans hk)
    by_cases had : a = d
    · subst had
      exact ⟨spare, by simp [State.save], by simpa [State.save] using hval⟩
    · have hne : a ≠ spare := fun he => hok.spare_dst (he ▸ hdst)
      exact ⟨a, by simpa [State.save, had] using hcur, by simpa [State.save, hne] using hval⟩
  case free =>
    intro x hx x' a hr hxp hk
    obtain rfl : x = d := List.mem_singleton.mp hx
    obtain ⟨hcur, _⟩ := hstay hr hxp
    by_cases had : a = x
    · subst had
      simp only [State.save, Function.update_self, Option.some.injEq] at hk
      exact hsd hk
    · have hka : s.cur a = some x := by simpa [State.save, had] using hk
      exact had (Option.some.inj (hcur.symm.trans hka))
  case ready_dst =>
    intro x hx
    obtain rfl : x = d := List.mem_singleton.mp hx
    exact ⟨hd, hp⟩
  case ready_nodup => exact List.nodup_singleton d
  case moved =>
    intro a k hk
    by_cases had : a = d
    · subst had
      simp only [State.save, Function.update_self, Option.some.injEq] at hk
      exact Or.inr (Or.inr hk.symm)
    · exact h.moved a k (by simpa [State.save, had] using hk)
  case pending =>
    intro x hx hxp hxr
    have hxd : x ≠ d := fun he => hxr (List.mem_singleton.mpr he)
    simpa [State.save, hxd] using h.pending x hx hxp hnot
  case unmoved =>
    intro a ha
    have had : a ≠ d := by
      rintro rfl
      simp only [State.save, Function.update_self, Option.some.injEq] at ha
      exact hsd ha
    exact h.unmoved a (by simpa [State.save, had] using ha)
  case listed =>
    intro x hx hxt
    by_cases hxd : x = d
    · exact Or.inr (List.mem_singleton.mpr hxd)
    · refine Or.inl ((h.listed x hx ?_).resolve_right hnot)
      rw [List.mem_cons]
      exact fun hor => hor.elim hxd hxt
  case listed_dst => exact fun x hx => h.listed_dst x (List.mem_cons_of_mem d hx)

/-- The last destination of the list is never pending: it would be a copy of itself. -/
theorem last_done (hok : c.Ok spare) {d : ι} (h : Inv c spare init [d] s) (hready : s.ready = []) : s.done d = true := by
  by_contra hp
  have hp : s.done d = false := by simpa using hp
  obtain ⟨a, hr, hdst, hap⟩ := h.cycle hready (h.listed_dst d List.mem_cons_self) hp
  have hmem : a ∈ [d] := by
    by_contra hnot
    rcases h.listed a hdst hnot with hdone | hin
    · rw [hap] at hdone
      exact Bool.noConfusion hdone
    · rw [hready] at hin
      exact List.not_mem_nil hin
  obtain rfl : a = d := List.mem_singleton.mp hmem
  exact hok.no_self a hr

/-- A destination that is done is dropped from the list. -/
theorem drop {d : ι} (h : Inv c spare init (d :: todo) s) (hdone : s.done d = true) : Inv c spare init todo s :=
  { h with
    listed := fun x hx hxt => by
      by_cases hxd : x = d
      · exact Or.inl (hxd ▸ hdone)
      · exact h.listed x hx (by rw [List.mem_cons]; exact fun hor => hor.elim hxd hxt)
    listed_dst := fun x hx => h.listed_dst x (List.mem_cons_of_mem d hx) }

end Inv

end CronoVM.ParallelCopy
