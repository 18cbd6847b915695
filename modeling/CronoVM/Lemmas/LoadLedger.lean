import Mathlib.Algebra.Order.Group.Multiset
import Mathlib.Tactic.Abel
import CronoVM.Lemmas.LoadImage
import CronoVM.Lifecycle

/-!
# What the loader obtains and frees

The events of the allocator as a ledger. While a load is going on nothing is freed, and what was obtained is what the pointers name; every
way out of it but the successful one frees all of them.
-/

namespace CronoVM

open Checked

/-! ## The ledger -/

/-- The block an event obtains. -/
def AllocEvent.obtained? : AllocEvent → Option Nat
  | .alloc _ _ addr => addr
  | .free _ _ => none

/-- The block an event frees. -/
def AllocEvent.freed? : AllocEvent → Option Nat
  | .alloc _ _ _ => none
  | .free _ addr => some addr

/-- A request goes to the hook for allocations and a block goes back through the hook for deallocations. -/
def AllocEvent.Routed {A : Type} (al : Allocator A) : AllocEvent → Prop
  | .alloc via _ _ => via = if al.hasAlloc then Hook.user else Hook.stdlib
  | .free via _ => via = if al.hasFree then Hook.user else Hook.stdlib

/-- Every block that was obtained was freed, as often as it was obtained, each through its hook. -/
structure FreedOnce {A : Type} (al : Allocator A) (events : List AllocEvent) : Prop where
  freed : (events.filterMap AllocEvent.freed?).Perm (events.filterMap AllocEvent.obtained?)
  routed : ∀ e ∈ events, e.Routed al

namespace LedgerAux

variable {A : Type} (al : Allocator A)

def obtained (events : List AllocEvent) : Multiset Nat := (events.filterMap AllocEvent.obtained? : List Nat)

def freed (events : List AllocEvent) : Multiset Nat := (events.filterMap AllocEvent.freed? : List Nat)

/-- What two lists of events obtain. -/
theorem obtained_append (es fs : List AllocEvent) : obtained (es ++ fs) = obtained es + obtained fs := by
  rw [obtained, List.filterMap_append, ← Multiset.coe_add]
  rfl

/-- What two lists of events free. -/
theorem freed_append (es fs : List AllocEvent) : freed (es ++ fs) = freed es + freed fs := by
  rw [freed, List.filterMap_append, ← Multiset.coe_add]
  rfl

/-- The block a pointer names. -/
def named (p : Option Block) : Multiset Nat := (p.map (·.addr)).elim 0 fun a => {a}

/-- A null pointer names no block. -/
@[simp] theorem named_none : named none = 0 := rfl

/-- The blocks all pointers name. -/
def namedAll (bs : Blocks) : Multiset Nat :=
  named bs.code + named bs.heap + named bs.importBlob + named bs.importNames + named bs.importFns + named bs.importUd +
    named bs.funcOffsets + named bs.regions

/-- Nothing was freed, and the pointers name what was obtained. -/
structure Held (bs : Blocks) (s : LoadState A) : Prop where
  blocks : s.blocks = bs
  freed : freed s.events = 0
  obtained : obtained s.events = namedAll bs
  routed : ∀ e ∈ s.events, e.Routed al

/-- Each block is freed once where the two counts agree. -/
theorem freedOnce_of {es : List AllocEvent} (h : freed es = obtained es) (hrouted : ∀ e ∈ es, e.Routed al) : FreedOnce al es where
  freed := Multiset.coe_eq_coe.mp h
  routed := hrouted

/-! ## Requests -/

/-- A request enters what it obtains into the ledger. -/
structure Entered (s : LoadState A) (p : Option Block) (t : LoadState A) : Prop where
  blocks : t.blocks = s.blocks
  freed : freed t.events = freed s.events
  obtained : obtained t.events = obtained s.events + named p
  routed : (∀ e ∈ s.events, e.Routed al) → ∀ e ∈ t.events, e.Routed al

/-- A request that fails enters nothing. -/
theorem entered_none (s : LoadState A) : Entered al s none s where
  blocks := rfl
  freed := rfl
  obtained := (Multiset.add_zero _).symm
  routed h := h

/-- A request enters its block, if it gets one. -/
theorem wp_cvmIntAlloc (n : Nat) (s : LoadState A) : Exec.wp (cvmIntAlloc al n) (fun p t => Entered al s p t) (fun _ _ => False) s := by
  unfold cvmIntAlloc
  rw [Exec.wp_ite]
  refine ⟨fun _ => entered_none al s, fun _ => ?_⟩
  rw [Exec.wp_bind, Exec.wp_get, Exec.wp_bind, Exec.wp_modify, Exec.wp_pure]
  exact {
    blocks := rfl
    freed := (freed_append _ _).trans (Multiset.add_zero _)
    obtained := by
      rw [obtained_append]
      cases (al.alloc (if al.hasAlloc then Hook.user else Hook.stdlib) n s.world).1 with
      | none => rfl
      | some b => rfl
    routed := by
      intro h e he
      rcases List.mem_append.mp he with he | he
      · exact h e he
      · obtain rfl := List.mem_singleton.mp he
        rfl }

/-- So does a cleared one. -/
theorem wp_cvmIntCalloc (n size : Nat) (s : LoadState A) :
    Exec.wp (cvmIntCalloc al n size) (fun p t => Entered al s p t) (fun _ _ => False) s := by
  unfold cvmIntCalloc
  rw [Exec.wp_ite]
  refine ⟨fun _ => entered_none al s, fun _ => ?_⟩
  rw [Exec.wp_bind]
  refine Exec.wp_mono (fun p t ht => ?_) (fun _ _ h => h) (wp_cvmIntAlloc al (n * size) s)
  have hnamed : named (p.map fun p => { p with byte := fun _ => 0 }) = named p := by
    cases p with
    | none => rfl
    | some b => rfl
  exact ⟨ht.blocks, ht.freed, by rw [hnamed]; exact ht.obtained, ht.routed⟩

/-! ## Deallocations -/

/-- A free enters the block its pointer names. -/
theorem wp_cvmIntFree (p : Option Block) (s : LoadState A) :
    Exec.wp (cvmIntFree al p) (fun _ t => t.blocks = s.blocks ∧ freed t.events = freed s.events + named p ∧
      obtained t.events = obtained s.events ∧ ((∀ e ∈ s.events, e.Routed al) → ∀ e ∈ t.events, e.Routed al)) (fun _ _ => False) s := by
  cases p with
  | none => exact ⟨rfl, (Multiset.add_zero _).symm, rfl, fun h => h⟩
  | some b =>
    refine ⟨rfl, freed_append _ _, ?_, fun h e he => ?_⟩
    · exact (obtained_append _ _).trans (Multiset.add_zero _)
    · rcases List.mem_append.mp he with he | he
      · exact h e he
      · obtain rfl := List.mem_singleton.mp he
        rfl

/-- The blocks that a list of pointers names. -/
def namedBy (sels : List (Blocks → Option Block)) (bs : Blocks) : Multiset Nat := (sels.map fun sel => named (sel bs)).sum

/-- Frees of several pointers, by induction on them. -/
theorem wp_freeEach (sels : List (Blocks → Option Block)) (s : LoadState A) :
    Exec.wp (freeEach al sels) (fun _ t => freed t.events = freed s.events + namedBy sels s.blocks ∧ obtained t.events = obtained s.events ∧
      ((∀ e ∈ s.events, e.Routed al) → ∀ e ∈ t.events, e.Routed al)) (fun _ _ => False) s := by
  induction sels generalizing s with
  | nil => exact ⟨(Multiset.add_zero _).symm, rfl, fun h => h⟩
  | cons sel sels ih =>
    rw [freeEach, Exec.wp_bind, Exec.wp_get, Exec.wp_bind]
    refine Exec.wp_mono (fun _ t ht => ?_) (fun _ _ h => h) (wp_cvmIntFree al (sel s.blocks) s)
    obtain ⟨hblocks, hfreed, hobtained, hrouted⟩ := ht
    refine Exec.wp_mono (fun _ u hu => ?_) (fun _ _ h => h) (ih t)
    obtain ⟨hfreed', hobtained', hrouted'⟩ := hu
    refine ⟨?_, hobtained'.trans hobtained, fun h => hrouted' (hrouted h)⟩
    rw [hfreed', hfreed, hblocks, namedBy, namedBy, List.map_cons, List.sum_cons, Multiset.add_assoc]

/-- No pointers name no blocks. -/
theorem namedBy_nil (bs : Blocks) : namedBy [] bs = 0 := rfl

/-- The blocks of one pointer more. -/
theorem namedBy_cons (sel : Blocks → Option Block) (sels : List (Blocks → Option Block)) (bs : Blocks) :
    namedBy (sel :: sels) bs = named (sel bs) + namedBy sels bs := by
  rw [namedBy, List.map_cons, List.sum_cons]
  rfl

/-- What is left when everything was freed. -/
def Settled (s : LoadState A) : Prop := FreedOnce al s.events

/-- A list of pointers that names what all of them name settles the ledger. -/
theorem wp_settle {bs : Blocks} {s : LoadState A} {sels : List (Blocks → Option Block)} (h : Held al bs s)
    (hall : namedBy sels bs = namedAll bs) : Exec.wp (freeEach al sels) (fun _ t => Settled al t) (fun _ _ => False) s := by
  refine Exec.wp_mono (fun _ t ⟨hfreed, hobtained, hrouted⟩ => ?_) (fun _ _ h => h) (wp_freeEach al sels s)
  refine freedOnce_of al ?_ (hrouted h.routed)
  rw [hfreed, h.freed, h.blocks, hall, hobtained, h.obtained, Multiset.zero_add]

/-- A load that gives up has freed all it held. -/
theorem wp_oom {α : Type} {bs : Blocks} {s : LoadState A} (h : Held al bs s) {Q : α → LoadState A → Prop} :
    Exec.wp (oom al) Q (fun _ t => Settled al t) s := by
  rw [oom, Exec.wp_bind]
  refine Exec.wp_mono (fun _ t ht => ht) (fun _ _ h => h.elim) (wp_settle al h ?_)
  simp only [namedBy_cons, namedBy_nil, namedAll]
  abel

/-! ## The allocations -/

/-- A pointer that is NULL is set. -/
theorem wp_keepOrOom {bs : Blocks} {s : LoadState A} (h : Held al bs s) {request : Load A (Option Block)}
    {set : Option Block → Blocks → Blocks} (hreq : Exec.wp request (fun p t => Entered al s p t) (fun _ _ => False) s)
    (hset : ∀ p, namedAll (set p bs) = namedAll bs + named p) :
    Exec.wp (keepOrOom al request set) (fun _ t => ∃ p, Held al (set p bs) t) (fun _ t => Settled al t) s := by
  rw [keepOrOom, Exec.wp_bind]
  refine Exec.wp_mono (fun p t ht => ?_) (fun _ _ h => h.elim) hreq
  rw [Exec.wp_bind, Exec.wp_modify, Exec.wp_when]
  have hheld : Held al (set p bs) { t with blocks := set p t.blocks } := {
    blocks := by rw [ht.blocks, h.blocks]
    freed := ht.freed.trans h.freed
    obtained := by rw [hset, ← h.obtained]; exact ht.obtained
    routed := ht.routed h.routed }
  exact ⟨fun _ => wp_oom al hheld, fun _ => ⟨p, hheld⟩⟩

/-- A pointer that is set under a condition. -/
theorem wp_when_keepOrOom {c : Prop} [Decidable c] {bs : Blocks} {s : LoadState A} (h : Held al bs s) {request : Load A (Option Block)}
    {set : Option Block → Blocks → Blocks} (hreq : Exec.wp request (fun p t => Entered al s p t) (fun _ _ => False) s)
    (hset : ∀ p, namedAll (set p bs) = namedAll bs + named p) (hnull : set none bs = bs) :
    Exec.wp (Exec.when c (keepOrOom al request set)) (fun _ t => ∃ p, Held al (set p bs) t) (fun _ t => Settled al t) s := by
  rw [Exec.wp_when]
  exact ⟨fun _ => wp_keepOrOom al h hreq hset, fun _ => ⟨none, by rwa [hnull]⟩⟩

/-- The import tables are held, or all is freed. -/
theorem wp_allocImportTables {bs : Blocks} {s : LoadState A} (h : Held al bs s) (n : Nat) (hnames : bs.importNames = none)
    (hfns : bs.importFns = none) (hud : bs.importUd = none) :
    Exec.wp (allocImportTables al n) (fun _ t => ∃ bs', Held al bs' t) (fun _ t => Settled al t) s := by
  rw [allocImportTables, Exec.wp_bind]
  refine Exec.wp_mono (fun names t ht => ?_) (fun _ _ h => h.elim) (wp_cvmIntCalloc al n sizeofPtr s)
  rw [Exec.wp_bind]
  refine Exec.wp_mono (fun fns u hu => ?_) (fun _ _ h => h.elim) (wp_cvmIntCalloc al n sizeofPtr t)
  rw [Exec.wp_bind]
  refine Exec.wp_mono (fun ud v hv => ?_) (fun _ _ h => h.elim) (wp_cvmIntCalloc al n sizeofPtr u)
  rw [Exec.wp_bind, Exec.wp_modify, Exec.wp_when]
  have hblocks : v.blocks = bs := hv.blocks.trans (hu.blocks.trans (ht.blocks.trans h.blocks))
  have hheld : Held al { bs with importNames := names, importFns := fns, importUd := ud }
      { v with blocks := { v.blocks with importNames := names, importFns := fns, importUd := ud } } := {
    blocks := by rw [hblocks]
    freed := hv.freed.trans (hu.freed.trans (ht.freed.trans h.freed))
    obtained := by
      change obtained v.events = _
      rw [hv.obtained, hu.obtained, ht.obtained, h.obtained]
      simp only [namedAll, hnames, hfns, hud, named_none, Multiset.add_zero]
      abel
    routed := hv.routed (hu.routed (ht.routed h.routed)) }
  exact ⟨fun _ => wp_oom al hheld, fun _ => ⟨_, hheld⟩⟩

/-- At the start nothing is held. -/
theorem held_start (world : A) : Held al ⟨none, none, none, none, none, none, none, none⟩ (LoadState.start world) where
  blocks := rfl
  freed := rfl
  obtained := rfl
  routed := fun _ h => nomatch h

/-- The allocations end with all pointers in the ledger or with everything freed. -/
theorem wp_loadAlloc (p : LoadPlan) (world : A) :
    Exec.wp (loadAlloc al p) (fun _ t => ∃ bs, Held al bs t) (fun _ t => Settled al t) (LoadState.start world) := by
  rw [loadAlloc, Exec.wp_bind]
  refine Exec.wp_mono (fun _ s hs => ?_) (fun _ _ h => h)
    (wp_keepOrOom al (held_start al world) (wp_cvmIntAlloc al _ _) fun q => by simp only [namedAll, named_none]; abel)
  obtain ⟨code, hs⟩ := hs
  rw [Exec.wp_bind]
  refine Exec.wp_mono (fun _ t ht => ?_) (fun _ _ h => h)
    (wp_when_keepOrOom al hs (wp_cvmIntAlloc al _ _) (fun q => by simp only [namedAll, named_none]; abel) rfl)
  obtain ⟨heap, ht⟩ := ht
  rw [Exec.wp_bind]
  refine Exec.wp_mono (fun _ u hu => ?_) (fun _ _ h => h)
    (wp_when_keepOrOom al ht (wp_cvmIntAlloc al _ _) (fun q => by simp only [namedAll, named_none]; abel) rfl)
  obtain ⟨funcOffsets, hu⟩ := hu
  rw [Exec.wp_bind]
  refine Exec.wp_mono (fun _ v hv => ?_) (fun _ _ h => h)
    (wp_when_keepOrOom al hu (wp_cvmIntCalloc al _ _ _) (fun q => by simp only [namedAll, named_none]; abel) rfl)
  obtain ⟨regions, hv⟩ := hv
  rw [Exec.wp_when]
  refine ⟨fun _ => ?_, fun _ => ⟨_, hv⟩⟩
  rw [Exec.wp_bind]
  refine Exec.wp_mono (fun _ w hw => ?_) (fun _ _ h => h)
    (wp_keepOrOom al hv (wp_cvmIntAlloc al _ _) fun q => by simp only [namedAll, named_none]; abel)
  obtain ⟨importBlob, hw⟩ := hw
  rw [Exec.wp_when]
  exact ⟨fun _ => wp_allocImportTables al hw _ rfl rfl rfl, fun _ => ⟨_, hw⟩⟩

end LedgerAux

end CronoVM
