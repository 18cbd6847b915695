import CronoVM.Lemmas.PreAlloc

/-!
# Frame slots

The values that live in the frame get slots that do not overlap as long as the count of slots, which is cast to `uint16_t`, stays below the
marker for no slot, and no aggregate reaches beyond the last slot number, as its words are counted in 16 bits again.
-/

namespace CronoVM

open Checked Ir

/-- The values that live in slots have some; the words of each are kept in the value-spill area and apart from those of the others; an alias has
the slots of its aggregate, or none. -/
structure SlotsOk (fn : Func) (cg : Cg) : Prop where
  placed : ∀ e ∈ cg.map, fn.aliases e.1 = false → e.2.reg = cgRegSpilled → e.2.start ≠ none
  inside : ∀ e ∈ cg.map, fn.aliases e.1 = false → ∀ x ∈ e.2.wordSlots (fn.slotWords e.1), (x + 1) * 4 ≤ cg.valSpillBytes
  apart : cg.map.Pairwise fun e e' => fn.aliases e.1 = false → fn.aliases e'.1 = false →
    (e.2.wordSlots (fn.slotWords e.1)).Disjoint (e'.2.wordSlots (fn.slotWords e'.1))
  shared : ∀ e ∈ cg.map, fn.aliases e.1 = true → ∃ i, fn.inst? (.loc e.1) = some i ∧
    (e.2.start = none ∨ ∃ h, cg.lookup (i.operand 0) = some h ∧ e.2.start = h.aggSlot)

/-- The slots from the count on are right for what a step gives them to: they begin below the marker and end where the area has a size, and for
an aggregate at the last slot number. -/
def StepFits (fn : Func) (cg : Cg) (s : AllocStep) : Prop :=
  cg.valSpillCount < cgNoSlot ∧ cg.valSpillCount + s.words fn < 2 ^ 30 ∧
    (s.isAggregate fn = true → cg.valSpillCount + s.words fn ≤ 2 ^ 16)

/-- So it is at each step of the pass that takes slots. -/
def SlotsFit (fn : Func) (cg : Cg) : Prop :=
  ∀ before s after cg₁, fn.allocSteps = before ++ s :: after → cgAllocSteps fn before cg = .val () cg₁ → TakesSlots fn cg₁ s → StepFits fn cg₁ s

namespace FrameSlotsAux

variable {fn : Func} {cg cg' : Cg} {s : AllocStep} {steps : List AllocStep}

/-! ## Runs -/

/-- A run of the pass is one step and the rest. -/
theorem cgAllocSteps_cons (h : cgAllocSteps fn (s :: steps) cg = .val () cg') :
    ∃ cg₁, cgAllocStep fn s cg = .val () cg₁ ∧ cgAllocSteps fn steps cg₁ = .val () cg' := by
  rw [cgAllocSteps, Exec.run_bind] at h
  cases hstep : cgAllocStep fn s cg with
  | val u cg₁ =>
    rw [hstep] at h
    exact ⟨cg₁, rfl, h⟩
  | stop e cg₁ =>
    rw [hstep] at h
    nomatch h
  | oob =>
    rw [hstep] at h
    nomatch h

/-- After a step that has come through, the pass goes on with the rest. -/
theorem cgAllocSteps_of_cons {cg₁ : Cg} (hstep : cgAllocStep fn s cg = .val () cg₁) :
    cgAllocSteps fn (s :: steps) cg = cgAllocSteps fn steps cg₁ := by
  rw [cgAllocSteps, Exec.run_bind, hstep]

/-- Each step of a function is about its parameters and instructions. -/
theorem allocSteps_of (fn : Func) : ∀ s ∈ fn.allocSteps, s.Of fn := by
  have hinsts : ∀ (b : Ir.Block) (insts : List Inst), (∀ i ∈ insts, i ∈ fn.insts) → ∀ s ∈ instSteps b insts, s.Of fn := by
    intro b insts hinsts
    induction insts with
    | nil => exact fun s hs => nomatch hs
    | cons i later ih =>
      intro s hs
      rcases List.mem_cons.mp hs with rfl | hs
      · exact hinsts i List.mem_cons_self
      · exact ih (fun j hj => hinsts j (List.mem_cons_of_mem i hj)) s hs
  intro s hs
  rcases List.mem_append.mp hs with hs | hs
  · obtain ⟨p, -, rfl⟩ := List.mem_map.mp hs
    trivial
  · obtain ⟨b, hb, hs⟩ := List.mem_flatMap.mp hs
    rcases List.mem_cons.mp hs with rfl | hs
    · trivial
    · exact hinsts b b.insts (fun i hi => List.mem_flatMap.mpr ⟨b, hb, hi⟩) s hs

/-! ## The invariant -/

/-- The words of a home follow each other, those of an aggregate too. -/
def OneRange (h : Home) (words : Nat) : Prop := ∀ base, h.aggSlot = some base → h.start = some base ∧ base + words ≤ 2 ^ 16

/-- The slots of a value whose words do not wrap follow each other. -/
theorem mem_wordSlots {h : Home} {words x : Nat} (hrange : OneRange h words) :
    x ∈ h.wordSlots words ↔ ∃ s, h.start = some s ∧ s ≤ x ∧ x < s + words := by
  have hadd : ∀ s, (∃ k, k < words ∧ s + k = x) ↔ s ≤ x ∧ x < s + words := fun s =>
    ⟨fun ⟨k, hk, hx⟩ => by omega, fun hx => ⟨x - s, by omega, by omega⟩⟩
  unfold Home.wordSlots
  cases hagg : h.aggSlot with
  | some base =>
    obtain ⟨hstart, hend⟩ := hrange base hagg
    have hword : ∀ k, k < words → aggWordSlot base k = base + k := fun k hk => aggWordSlot_of_lt (by omega)
    simp only [List.mem_map, List.mem_range, hstart, Option.some.injEq, exists_eq_left', ← hadd base]
    exact exists_congr fun k => and_congr_right fun hk => by rw [hword k hk]
  | none =>
    cases hstart : h.start with
    | none => simp
    | some s => simp only [List.mem_map, List.mem_range, Option.some.injEq, exists_eq_left', ← hadd s]

/-- The values in slots lie one behind the other below the count. -/
structure Laid (fn : Func) (cg : Cg) : Prop where
  regs : cg.RegsOk
  placed : ∀ e ∈ cg.map, fn.aliases e.1 = false → e.2.reg = cgRegSpilled → e.2.start ≠ none
  whole : ∀ e ∈ cg.map, fn.aliases e.1 = false → OneRange e.2 (fn.slotWords e.1)
  below : ∀ e ∈ cg.map, fn.aliases e.1 = false → ∀ x ∈ e.2.wordSlots (fn.slotWords e.1), x < cg.valSpillCount
  apart : cg.map.Pairwise fun e e' => fn.aliases e.1 = false → fn.aliases e'.1 = false →
    (e.2.wordSlots (fn.slotWords e.1)).Disjoint (e'.2.wordSlots (fn.slotWords e'.1))
  covered : ∀ x, x < cg.valSpillCount → ∃ e ∈ cg.map, fn.aliases e.1 = false ∧ x ∈ e.2.wordSlots (fn.slotWords e.1)

/-- Below the marker the count is a slot. -/
theorem slotOf_of_lt {count : Nat} (h : count < cgNoSlot) : slotOf count = some count := by
  have hlt : count < 65535 := h
  unfold slotOf
  rw [Nat.mod_eq_of_lt (by omega), if_neg (by unfold cgNoSlot; omega)]

/-- A step that takes slots that are right keeps the invariant. -/
theorem Laid.slots (hlaid : Laid fn cg) {l : Local} {h : Home} {words : Nat} {agg : Bool} (heffect : SlotEffect fn cg cg' l h words agg)
    (hregs : cg'.RegsOk) (hlt : cg.valSpillCount < cgNoSlot) (hend : agg = true → cg.valSpillCount + words ≤ 2 ^ 16) : Laid fn cg' := by
  have hstart : h.start = some cg.valSpillCount := heffect.start.trans (slotOf_of_lt hlt)
  have hrange : OneRange h (fn.slotWords l) := by
    intro base hbase
    rw [heffect.aggSlot] at hbase
    split_ifs at hbase with hagg
    rw [slotOf_of_lt hlt] at hbase
    obtain rfl := Option.some.inj hbase
    exact ⟨hstart, heffect.words_eq ▸ hend hagg⟩
  have hwords : ∀ x, x ∈ h.wordSlots (fn.slotWords l) ↔ cg.valSpillCount ≤ x ∧ x < cg.valSpillCount + words := by
    intro x
    rw [mem_wordSlots hrange, hstart, heffect.words_eq]
    simp only [Option.some.injEq, exists_eq_left']
  have hmem : ∀ {e}, e ∈ cg'.map → e ∈ cg.map ∨ e = (l, h) := by
    intro e he
    rw [heffect.map] at he
    rcases List.mem_append.mp he with he | he
    · exact Or.inl he
    · exact Or.inr (List.mem_singleton.mp he)
  refine ⟨hregs, fun e he halias hspilled => ?_, fun e he halias => ?_, fun e he halias x hx => ?_, ?_, fun x hx => ?_⟩
  · rcases hmem he with he | rfl
    · exact hlaid.placed e he halias hspilled
    · rw [hstart]
      exact Option.some_ne_none _
  · rcases hmem he with he | rfl
    · exact hlaid.whole e he halias
    · exact hrange
  · rw [heffect.count]
    rcases hmem he with he | rfl
    · exact Nat.lt_add_right words (hlaid.below e he halias x hx)
    · exact ((hwords x).mp hx).2
  · rw [heffect.map, List.pairwise_append]
    refine ⟨hlaid.apart, List.pairwise_singleton .., fun e he e' he' halias _ x hx hx' => ?_⟩
    obtain rfl := List.mem_singleton.mp he'
    exact absurd (hlaid.below e he halias x hx) (Nat.not_lt.mpr ((hwords x).mp hx').1)
  · rw [heffect.count] at hx
    rw [heffect.map]
    by_cases hold : x < cg.valSpillCount
    · obtain ⟨e, he, hcover⟩ := hlaid.covered x hold
      exact ⟨e, List.mem_append_left _ he, hcover⟩
    · exact ⟨(l, h), List.mem_append_right _ List.mem_cons_self, heffect.notAlias, (hwords x).mpr ⟨Nat.not_lt.mp hold, hx⟩⟩

/-- A home without slots has none for an aggregate. -/
theorem aggSlot_of_start {h : Home} (hstart : h.start = none) : h.aggSlot = none := by
  unfold Home.start at hstart
  simp only [Option.or_eq_none_iff] at hstart
  exact hstart.1.2

/-- A step that takes no slots leaves the layout. -/
theorem Laid.other (hlaid : Laid fn cg) (heffect : OtherEffect fn cg cg') (hregs : cg'.RegsOk) : Laid fn cg' := by
  rcases heffect.map with hmap | ⟨l, h, hmap, hkind⟩
  · exact ⟨hregs, hmap ▸ hlaid.placed, hmap ▸ hlaid.whole, by rw [hmap, heffect.count]; exact hlaid.below, hmap ▸ hlaid.apart,
      by rw [hmap, heffect.count]; exact hlaid.covered⟩
  · have hnone : fn.aliases l = false → h.reg ≠ cgRegSpilled ∧ h.start = none := by
      intro hnot
      rcases hkind with halias | hreg
      · exact absurd (hnot.symm.trans halias.1) Bool.false_ne_true
      · exact hreg.2
    have hmem : ∀ {e}, e ∈ cg'.map → e ∈ cg.map ∨ e = (l, h) := by
      intro e he
      rw [hmap] at he
      rcases List.mem_append.mp he with he | he
      · exact Or.inl he
      · exact Or.inr (List.mem_singleton.mp he)
    have hempty : fn.aliases l = false → h.wordSlots (fn.slotWords l) = [] := by
      intro hnot
      rw [Home.wordSlots, aggSlot_of_start (hnone hnot).2, (hnone hnot).2]
    refine ⟨hregs, fun e he halias hspilled => ?_, fun e he halias => ?_, fun e he halias x hx => ?_, ?_, fun x hx => ?_⟩
    · rcases hmem he with he | rfl
      · exact hlaid.placed e he halias hspilled
      · exact absurd hspilled (hnone halias).1
    · rcases hmem he with he | rfl
      · exact hlaid.whole e he halias
      · intro base hbase
        rw [aggSlot_of_start (hnone halias).2] at hbase
        nomatch hbase
    · rw [heffect.count]
      rcases hmem he with he | rfl
      · exact hlaid.below e he halias x hx
      · rw [hempty halias] at hx
        nomatch hx
    · rw [hmap, List.pairwise_append]
      refine ⟨hlaid.apart, List.pairwise_singleton .., fun e he e' he' _ halias x _ hx => ?_⟩
      obtain rfl := List.mem_singleton.mp he'
      rw [hempty halias] at hx
      nomatch hx
    · rw [heffect.count] at hx
      obtain ⟨e, he, hcover⟩ := hlaid.covered x hx
      rw [hmap]
      exact ⟨e, List.mem_append_left _ he, hcover⟩

/-- The homes given so far stay, and the count grows. -/
theorem step_grows (hfn : fn.WellFormed) (hs : s.Of fn) (hregs : cg.RegsOk) (h : cgAllocStep fn s cg = .val () cg') :
    cg'.RegsOk ∧ (∃ more, cg'.map = cg.map ++ more) ∧ cg.valSpillCount ≤ cg'.valSpillCount := by
  obtain ⟨hok, ⟨-, l, home, heffect⟩ | ⟨-, heffect⟩⟩ := allocStep_effect hfn hs hregs h
  · exact ⟨hok, ⟨_, heffect.map⟩, heffect.count ▸ Nat.le_add_right ..⟩
  · refine ⟨hok, ?_, Nat.le_of_eq heffect.count.symm⟩
    rcases heffect.map with hmap | ⟨l, home, hmap, -⟩
    · exact ⟨[], by rw [hmap, List.append_nil]⟩
    · exact ⟨_, hmap⟩

/-- The pass only adds homes and slots. -/
theorem steps_grow (hfn : fn.WellFormed) (hsteps : ∀ s ∈ steps, s.Of fn) (hregs : cg.RegsOk) (h : cgAllocSteps fn steps cg = .val () cg') :
    cg'.RegsOk ∧ (∃ more, cg'.map = cg.map ++ more) ∧ cg.valSpillCount ≤ cg'.valSpillCount := by
  induction steps generalizing cg with
  | nil =>
    obtain ⟨-, rfl⟩ := Outcome.val.inj h
    exact ⟨hregs, ⟨[], (List.append_nil _).symm⟩, Nat.le_refl _⟩
  | cons s steps ih =>
    obtain ⟨cg₁, hstep, hrest⟩ := cgAllocSteps_cons h
    obtain ⟨hok, ⟨more, hmap⟩, hcount⟩ := step_grows hfn (hsteps s List.mem_cons_self) hregs hstep
    obtain ⟨hok', ⟨more', hmap'⟩, hcount'⟩ := ih (fun s' hs' => hsteps s' (List.mem_cons_of_mem s hs')) hok hrest
    exact ⟨hok', ⟨more ++ more', by rw [hmap', hmap, List.append_assoc]⟩, Nat.le_trans hcount hcount'⟩

/-! ## From the condition to the slots -/

/-- A run whose steps that take slots fit keeps the invariant, and a size of the area that it has. -/
theorem laid_of_fit (hfn : fn.WellFormed) (hsteps : ∀ s ∈ steps, s.Of fn) (hlaid : Laid fn cg) (hsize : cg.valSpillCount < 2 ^ 30)
    (hfit : ∀ before s after cg₁, steps = before ++ s :: after → cgAllocSteps fn before cg = .val () cg₁ → TakesSlots fn cg₁ s →
      StepFits fn cg₁ s)
    (h : cgAllocSteps fn steps cg = .val () cg') : Laid fn cg' ∧ cg'.valSpillCount < 2 ^ 30 := by
  induction steps generalizing cg with
  | nil =>
    obtain ⟨-, rfl⟩ := Outcome.val.inj h
    exact ⟨hlaid, hsize⟩
  | cons s steps ih =>
    obtain ⟨cg₁, hstep, hrest⟩ := cgAllocSteps_cons h
    have hnext : Laid fn cg₁ ∧ cg₁.valSpillCount < 2 ^ 30 := by
      obtain ⟨hok, ⟨htakes, l, home, heffect⟩ | ⟨-, heffect⟩⟩ := allocStep_effect hfn (hsteps s List.mem_cons_self) hlaid.regs hstep
      · obtain ⟨hlt, hsize, hend⟩ := hfit [] s steps cg rfl rfl htakes
        refine ⟨hlaid.slots heffect hok hlt hend, ?_⟩
        rw [heffect.count]
        exact hsize
      · refine ⟨hlaid.other heffect hok, ?_⟩
        rw [heffect.count]
        exact hsize
    refine ih (fun s' hs' => hsteps s' (List.mem_cons_of_mem s hs')) hnext.1 hnext.2 (fun before s' after cg₂ hsplit hrun => ?_) hrest
    refine hfit (s :: before) s' after cg₂ (by rw [hsplit, List.cons_append]) ?_
    rw [cgAllocSteps_of_cons hstep]
    exact hrun

/-! ## From the slots to the condition -/

/-- A slot that wrapped around is one of a value from before. -/
theorem slots_clash {l : Local} {h : Home} {words : Nat} {agg : Bool} (heffect : SlotEffect fn cg cg' l h words agg)
    (hplaced : h.start ≠ none) (hover : cgNoSlot ≤ cg.valSpillCount ∨ agg = true ∧ 2 ^ 16 < cg.valSpillCount + words) :
    ∃ x ∈ h.wordSlots (fn.slotWords l), x < cg.valSpillCount := by
  have hpos := heffect.words_pos
  by_cases hlarge : cgNoSlot ≤ cg.valSpillCount
  · have hlarge' : 65535 ≤ cg.valSpillCount := hlarge
    have hstart := heffect.start
    have haggSlot := heffect.aggSlot
    unfold slotOf at hstart haggSlot
    by_cases hmark : cg.valSpillCount % 2 ^ 16 = cgNoSlot
    · rw [if_pos hmark] at hstart
      exact absurd hstart hplaced
    · rw [if_neg hmark] at hstart haggSlot
      have hmark' : cg.valSpillCount % 2 ^ 16 ≠ 65535 := hmark
      refine ⟨cg.valSpillCount % 2 ^ 16, ?_, by omega⟩
      rw [heffect.words_eq, Home.wordSlots, haggSlot]
      by_cases hagg : agg = true
      · rw [if_pos hagg]
        exact List.mem_map.mpr ⟨0, List.mem_range.mpr hpos, Nat.mod_mod ..⟩
      · rw [if_neg hagg, hstart]
        exact List.mem_map.mpr ⟨0, List.mem_range.mpr hpos, Nat.add_zero _⟩
  · -- the words of the aggregate go on at slot 0
    obtain ⟨hagg, hend⟩ := hover.resolve_left hlarge
    have hlt : cg.valSpillCount < 65535 := Nat.not_le.mp hlarge
    have hsmall := heffect.small hagg
    refine ⟨0, ?_, by omega⟩
    rw [heffect.words_eq, Home.wordSlots, heffect.aggSlot, if_pos hagg, slotOf_of_lt (Nat.not_le.mp hlarge)]
    refine List.mem_map.mpr ⟨2 ^ 16 - cg.valSpillCount, List.mem_range.mpr (by omega), ?_⟩
    rw [aggWordSlot, Nat.add_sub_of_le (by omega), Nat.mod_self]

/-- What is right about the homes at the end of the pass shows that the slots of each step were right. -/
theorem fit_of_placed (hfn : fn.WellFormed) (hsteps : ∀ s ∈ steps, s.Of fn) (hlaid : Laid fn cg) (h : cgAllocSteps fn steps cg = .val () cg')
    (hplaced : ∀ e ∈ cg'.map, fn.aliases e.1 = false → e.2.reg = cgRegSpilled → e.2.start ≠ none)
    (hapart : cg'.map.Pairwise fun e e' => fn.aliases e.1 = false → fn.aliases e'.1 = false →
      (e.2.wordSlots (fn.slotWords e.1)).Disjoint (e'.2.wordSlots (fn.slotWords e'.1))) :
    Laid fn cg' ∧ ∀ before s after cg₁, steps = before ++ s :: after → cgAllocSteps fn before cg = .val () cg₁ → TakesSlots fn cg₁ s →
      cg₁.valSpillCount < cgNoSlot ∧ (s.isAggregate fn = true → cg₁.valSpillCount + s.words fn ≤ 2 ^ 16) := by
  induction steps generalizing cg with
  | nil =>
    obtain ⟨-, rfl⟩ := Outcome.val.inj h
    exact ⟨hlaid, fun before s after _ hsplit => absurd hsplit.symm (List.append_ne_nil_of_right_ne_nil before (List.cons_ne_nil s after))⟩
  | cons s steps ih =>
    obtain ⟨cg₁, hstep, hrest⟩ := cgAllocSteps_cons h
    have hsteps' : ∀ s' ∈ steps, s'.Of fn := fun s' hs' => hsteps s' (List.mem_cons_of_mem s hs')
    have hnext : Laid fn cg₁ ∧ (TakesSlots fn cg s →
        cg.valSpillCount < cgNoSlot ∧ (s.isAggregate fn = true → cg.valSpillCount + s.words fn ≤ 2 ^ 16)) := by
      obtain ⟨hok, ⟨-, l, home, heffect⟩ | ⟨htakes, heffect⟩⟩ := allocStep_effect hfn (hsteps s List.mem_cons_self) hlaid.regs hstep
      · obtain ⟨-, ⟨more, hmore⟩, -⟩ := steps_grow hfn hsteps' hok hrest
        rw [heffect.map, List.append_assoc] at hmore
        have hstays : (l, home) ∈ cg'.map := by
          rw [hmore]
          exact List.mem_append_right _ (List.mem_append_left _ List.mem_cons_self)
        have hright : ¬(cgNoSlot ≤ cg.valSpillCount ∨ s.isAggregate fn = true ∧ 2 ^ 16 < cg.valSpillCount + s.words fn) := by
          intro hover
          obtain ⟨x, hx, hlt⟩ := slots_clash heffect (hplaced _ hstays heffect.notAlias heffect.spilled) hover
          obtain ⟨e, he, halias, hx'⟩ := hlaid.covered x hlt
          rw [hmore, List.pairwise_append] at hapart
          exact hapart.2.2 e he (l, home) (List.mem_append_left _ List.mem_cons_self) halias heffect.notAlias hx' hx
        rw [not_or, not_and, Nat.not_le] at hright
        have hend : s.isAggregate fn = true → cg.valSpillCount + s.words fn ≤ 2 ^ 16 := fun h => Nat.not_lt.mp (hright.2 h)
        exact ⟨hlaid.slots heffect hok hright.1 hend, fun _ => ⟨hright.1, hend⟩⟩
      · exact ⟨hlaid.other heffect hok, fun h => absurd h htakes⟩
    obtain ⟨hlaid', hfit⟩ := ih hsteps' hnext.1 hrest
    refine ⟨hlaid', fun before s' after cg₂ hsplit hrun htakes => ?_⟩
    rcases before with _ | ⟨s₀, before⟩
    · obtain ⟨rfl, -⟩ := List.cons.inj hsplit
      obtain ⟨-, rfl⟩ := Outcome.val.inj hrun
      exact hnext.2 htakes
    · obtain ⟨rfl, htail⟩ := List.cons.inj hsplit
      rw [cgAllocSteps_of_cons hstep] at hrun
      exact hfit before s' after cg₂ htail hrun htakes

/-- A step that takes slots ends at the count of a later state at the latest. -/
theorem count_of_takes (hfn : fn.WellFormed) (hsteps : ∀ s ∈ steps, s.Of fn) (hregs : cg.RegsOk) (h : cgAllocSteps fn steps cg = .val () cg')
    {before after : List AllocStep} {cg₁ : Cg} (hsplit : steps = before ++ s :: after) (hrun : cgAllocSteps fn before cg = .val () cg₁)
    (htakes : TakesSlots fn cg₁ s) : cg₁.valSpillCount + s.words fn ≤ cg'.valSpillCount := by
  induction before generalizing cg steps with
  | nil =>
    obtain ⟨-, rfl⟩ := Outcome.val.inj hrun
    rw [List.nil_append] at hsplit
    subst hsplit
    obtain ⟨cg₂, hstep, hrest⟩ := cgAllocSteps_cons h
    obtain ⟨hok, ⟨-, l, home, heffect⟩ | ⟨hnot, -⟩⟩ := allocStep_effect hfn (hsteps s List.mem_cons_self) hregs hstep
    · rw [← heffect.count]
      exact (steps_grow hfn (fun s' hs' => hsteps s' (List.mem_cons_of_mem s hs')) hok hrest).2.2
    · exact absurd htakes hnot
  | cons s₀ before ih =>
    rw [List.cons_append] at hsplit
    subst hsplit
    obtain ⟨cg₂, hstep, hrest⟩ := cgAllocSteps_cons h
    rw [cgAllocSteps_of_cons hstep] at hrun
    have hok := (step_grows hfn (hsteps s₀ List.mem_cons_self) hregs hstep).1
    exact ih (fun s' hs' => hsteps s' (List.mem_cons_of_mem s₀ hs')) hok hrest rfl hrun

/-- The count is at most what all steps could take. -/
theorem count_le_words (hfn : fn.WellFormed) (hsteps : ∀ s ∈ steps, s.Of fn) (hregs : cg.RegsOk) (h : cgAllocSteps fn steps cg = .val () cg') :
    cg'.valSpillCount ≤ cg.valSpillCount + (steps.map (AllocStep.words fn)).sum := by
  induction steps generalizing cg with
  | nil =>
    obtain ⟨-, rfl⟩ := Outcome.val.inj h
    exact Nat.le_add_right ..
  | cons s steps ih =>
    obtain ⟨cg₁, hstep, hrest⟩ := cgAllocSteps_cons h
    have hone : cg₁.valSpillCount ≤ cg.valSpillCount + s.words fn := by
      obtain ⟨-, ⟨-, l, home, heffect⟩ | ⟨-, heffect⟩⟩ := allocStep_effect hfn (hsteps s List.mem_cons_self) hregs hstep
      · exact Nat.le_of_eq heffect.count
      · exact heffect.count ▸ Nat.le_add_right ..
    have hrec := ih (fun s' hs' => hsteps s' (List.mem_cons_of_mem s hs')) (step_grows hfn (hsteps s List.mem_cons_self) hregs hstep).1 hrest
    rw [List.map_cons, List.sum_cons]
    omega

/-! ## Aliases -/

/-- An alias shares the slots of the aggregate, if that had been given any. -/
def Shared (fn : Func) (cg : Cg) : Prop :=
  ∀ e ∈ cg.map, fn.aliases e.1 = true → ∃ i, fn.inst? (.loc e.1) = some i ∧
    (e.2.start = none ∨ ∃ h, cg.lookup (i.operand 0) = some h ∧ e.2.start = h.aggSlot)

/-- A value that has a home keeps it. -/
theorem lookup_append {v : Val} {h : Home} {more : List (Local × Home)} (hmap : cg'.map = cg.map ++ more) (hlookup : cg.lookup v = some h) :
    cg'.lookup v = some h := by
  cases v with
  | loc l =>
    obtain ⟨e, hfind, rfl⟩ := Option.map_eq_some_iff.mp hlookup
    have hfind' : cg'.map.find? (fun e => e.1 = l) = some e := by
      rw [hmap, List.find?_append, hfind]
      rfl
    exact Option.map_eq_some_iff.mpr ⟨e, hfind', rfl⟩
  | block id => nomatch hlookup
  | const c => nomatch hlookup

/-- New aliases share the slots of their aggregates. -/
theorem Shared.append (hshared : Shared fn cg) {more : List (Local × Home)} (hmap : cg'.map = cg.map ++ more)
    (hmore : ∀ e ∈ more, fn.aliases e.1 = true → AliasHome fn cg e.1 e.2) : Shared fn cg' := by
  intro e he halias
  rw [hmap] at he
  rcases List.mem_append.mp he with he | he
  · obtain ⟨i, hinst, hslot⟩ := hshared e he halias
    refine ⟨i, hinst, hslot.imp_right fun ⟨h, hlookup, hstart⟩ => ⟨h, lookup_append hmap hlookup, hstart⟩⟩
  · obtain ⟨-, i, hinst, hhome⟩ := hmore e he halias
    refine ⟨i, hinst, ?_⟩
    rw [hhome, PreAllocAux.start_i64]
    cases hlookup : cg.lookup (i.operand 0) with
    | none => exact Or.inl rfl
    | some h => exact Or.inr ⟨h, lookup_append hmap hlookup, rfl⟩

/-- After the pass every alias shares the slots of its aggregate. -/
theorem shared_of_steps (hfn : fn.WellFormed) (hsteps : ∀ s ∈ steps, s.Of fn) (hregs : cg.RegsOk) (hshared : Shared fn cg)
    (h : cgAllocSteps fn steps cg = .val () cg') : Shared fn cg' := by
  induction steps generalizing cg with
  | nil =>
    obtain ⟨-, rfl⟩ := Outcome.val.inj h
    exact hshared
  | cons s steps ih =>
    obtain ⟨cg₁, hstep, hrest⟩ := cgAllocSteps_cons h
    obtain ⟨hok, heffect⟩ := allocStep_effect hfn (hsteps s List.mem_cons_self) hregs hstep
    refine ih (fun s' hs' => hsteps s' (List.mem_cons_of_mem s hs')) hok ?_ hrest
    rcases heffect with ⟨-, l, home, heffect⟩ | ⟨-, heffect⟩
    · refine hshared.append heffect.map fun e he halias => ?_
      rw [List.mem_singleton.mp he, heffect.notAlias] at halias
      nomatch halias
    · rcases heffect.map with hmap | ⟨l, home, hmap, hkind⟩
      · exact hshared.append (hmap.trans (List.append_nil _).symm) fun e he => nomatch he
      · refine hshared.append hmap fun e he halias => ?_
        rw [List.mem_singleton.mp he] at halias ⊢
        rcases hkind with hhome | ⟨hnot, -, -⟩
        · exact hhome
        · exact absurd (hnot.symm.trans halias) Bool.false_ne_true

/-! ## The whole pass -/

/-- The function is its steps, with the pool emptied at the end. -/
theorem preAlloc_run (h : cgPreAllocFunction fn cg = .val () cg') :
    ∃ cg₁, cgAllocSteps fn fn.allocSteps cg.preAllocStart = .val () cg₁ ∧ cg' = { cg₁ with freeList := [] } := by
  unfold cgPreAllocFunction at h
  rw [Exec.run_bind, Exec.run_modify] at h
  dsimp only at h
  rw [Exec.run_bind] at h
  cases hsteps : cgAllocSteps fn fn.allocSteps cg.preAllocStart with
  | val u cg₁ =>
    rw [hsteps] at h
    exact ⟨cg₁, rfl, (Outcome.val.inj h).2.symm⟩
  | stop e cg₁ =>
    rw [hsteps] at h
    nomatch h
  | oob =>
    rw [hsteps] at h
    nomatch h

/-- Before the first step nothing is laid out. -/
theorem laid_start (fn : Func) (hmap : cg.map = []) (hcount : cg.valSpillCount = 0) : Laid fn cg.preAllocStart := by
  have hmap₀ : cg.preAllocStart.map = [] := hmap
  have hcount₀ : cg.preAllocStart.valSpillCount = 0 := hcount
  refine ⟨⟨Nat.le_refl 8, (by decide : 8 ≤ 253), fun r hr => nomatch hr⟩, ?_, ?_, ?_, ?_, fun x hx => ?_⟩
  · rw [hmap₀]
    exact fun e he => nomatch he
  · rw [hmap₀]
    exact fun e he => nomatch he
  · rw [hmap₀]
    exact fun e he => nomatch he
  · rw [hmap₀]
    exact List.Pairwise.nil
  · rw [hcount₀] at hx
    exact absurd hx (Nat.not_lt_zero x)

end FrameSlotsAux

open FrameSlotsAux

/-- In a function that the pass gets through, the words of values are kept apart exactly if each step that takes slots begins below the marker,
and one that gives them to an aggregate ends at the last slot number. So it is if all the words that the values could take do not reach the
marker. -/
theorem frame_slots_iff (fn : Func) (hfn : fn.WellFormed) (cg cg' : Cg) (hmap : cg.map = []) (hcount : cg.valSpillCount = 0)
    (h : cgPreAllocFunction fn cg = .val () cg') : (SlotsOk fn cg' ↔ SlotsFit fn cg.preAllocStart) ∧
      ((fn.allocSteps.map (AllocStep.words fn)).sum < cgNoSlot → SlotsOk fn cg') := by
  obtain ⟨cg₁, hrun, hend⟩ := preAlloc_run h
  have hsteps := allocSteps_of fn
  have hmap₀ : cg.preAllocStart.map = [] := hmap
  have hcount₀ : cg.preAllocStart.valSpillCount = 0 := hcount
  have hlaid₀ := laid_start fn hmap hcount
  have hshared : Shared fn cg₁ := by
    refine shared_of_steps hfn hsteps hlaid₀.regs (fun e he => ?_) hrun
    rw [hmap₀] at he
    nomatch he
  have hok : ∀ {cg₂ : Cg}, cg₂ = cg₁ → SlotsFit fn cg.preAllocStart → SlotsOk fn { cg₂ with freeList := [] } := by
    rintro cg₂ rfl hfit
    obtain ⟨hlaid, hsize⟩ := laid_of_fit hfn hsteps hlaid₀ (by rw [hcount₀]; decide) hfit hrun
    have hbytes : cg₂.valSpillCount * 4 % 2 ^ 32 = cg₂.valSpillCount * 4 := Nat.mod_eq_of_lt (by omega)
    refine ⟨hlaid.placed, fun e he halias x hx => ?_, hlaid.apart, hshared⟩
    have hbelow := hlaid.below e he halias x hx
    show _ ≤ cg₂.valSpillCount * 4 % 2 ^ 32
    rw [hbytes]
    exact Nat.mul_le_mul_right 4 hbelow
  subst hend
  refine ⟨⟨fun hslots => ?_, fun hfit => hok rfl hfit⟩, fun hsum => hok rfl fun before s after cg₂ hsplit hbefore htakes => ?_⟩
  · obtain ⟨hlaid, hfit⟩ := fit_of_placed hfn hsteps hlaid₀ hrun hslots.placed hslots.apart
    have hsize : cg₁.valSpillCount < 2 ^ 30 := by
      by_contra hlarge
      obtain ⟨e, he, halias, hx⟩ := hlaid.covered (cg₁.valSpillCount - 1) (by omega)
      have hinside : (cg₁.valSpillCount - 1 + 1) * 4 ≤ cg₁.valSpillCount * 4 % 2 ^ 32 := hslots.inside e he halias _ hx
      omega
    intro before s after cg₂ hsplit hbefore htakes
    have hle := count_of_takes hfn hsteps hlaid₀.regs hrun hsplit hbefore htakes
    obtain ⟨hlt, hend⟩ := hfit before s after cg₂ hsplit hbefore htakes
    exact ⟨hlt, Nat.lt_of_le_of_lt hle hsize, hend⟩
  · have hle := count_of_takes hfn hsteps hlaid₀.regs hrun hsplit hbefore htakes
    have hall := count_le_words hfn hsteps hlaid₀.regs hrun
    rw [hcount₀] at hall
    have hlt : (fn.allocSteps.map (AllocStep.words fn)).sum < 65535 := hsum
    have htop : cg₂.valSpillCount < 65535 := by omega
    exact ⟨htop, by omega, fun _ => by omega⟩

/-! ## A function of many sums -/

/-- A sum of a parameter with itself. -/
def addArg (k : Nat) : Inst := { id := k, op := .add, ty := .int 64, operands := [.loc (.arg 0), .loc (.arg 0)] }

/-- A function of one parameter and a block of sums. -/
def addsFn (n : Nat) : Func := { name := "sums", params := [.int 64], vararg := false, blocks := [⟨0, (List.range n).map addArg⟩] }

/-- A generator before the first function. -/
def freshCg : Cg where
  code := []
  map := []
  nextReg := 8
  freeList := []
  zeroReg := 0
  allocaBytes := 0
  spillBytes := 0
  valSpillCount := 0
  frameBytes := 0
  ssaRegHigh := 8
  globals := []
  funcs := []

namespace FrameSlotsAux

/-- The instructions of the function are the sums. -/
theorem addsFn_insts (n : Nat) : (addsFn n).insts = (List.range n).map addArg := List.append_nil _

/-- The function is well formed, however many sums it has. -/
theorem addsFn_wellFormed (n : Nat) : (addsFn n).WellFormed := by
  refine ⟨?_, fun i hi hvector => ?_⟩
  · have hids : ((List.range n).map addArg).map Inst.id = List.range n := by
      rw [List.map_map]
      exact List.map_id _
    rw [addsFn_insts, hids]
    exact List.nodup_range
  · rw [addsFn_insts] at hi
    obtain ⟨k, -, rfl⟩ := List.mem_map.mp hi
    nomatch hvector

/-- A sum takes two slots. -/
theorem addStep_eq (fn : Func) (b : Ir.Block) (k : Nat) (later : List Inst) (cg : Cg) :
    cgAllocStep fn (.inst b (addArg k) later) cg =
      .val () (cg.takeSlots (.inst k) { reg := cgRegSpilled, i64Slot := slotOf cg.valSpillCount } 2) := by
  have hcmpxchg : fn.isCmpxchg (addArg k) = false := eq_false_of_ne_true fun h => nomatch Func.isCmpxchg_op h
  have halias : fn.isAlias (addArg k) = false := eq_false_of_ne_true fun h => nomatch Func.isAlias_op h
  have hresult : cg.preAllocResult fn (addArg k) =
      (none, cg.takeSlots (.inst k) { reg := cgRegSpilled, i64Slot := slotOf cg.valSpillCount } 2) := by
    unfold Cg.preAllocResult
    rw [Func.overflowCall?_eq_none (by decide : Op.add ≠ Op.call)]
    dsimp only
    rw [hcmpxchg, halias]
    rfl
  rw [cgAllocStep, Exec.run_modify, hresult]
  rfl

/-- The steps of sums in front of another take two slots each. -/
theorem addSteps_run (fn : Func) (b : Ir.Block) (ks : List Nat) (i : Inst) (later : List Inst) (cg : Cg) :
    ∃ before after cg', instSteps b (ks.map addArg ++ i :: later) = before ++ .inst b i later :: after ∧
      cgAllocSteps fn before cg = .val () cg' ∧ cg'.valSpillCount = cg.valSpillCount + 2 * ks.length := by
  induction ks generalizing cg with
  | nil => exact ⟨[], instSteps b later, cg, rfl, rfl, rfl⟩
  | cons k ks ih =>
    obtain ⟨before, after, cg', hsplit, hrun, hcount⟩ := ih (cg.takeSlots (.inst k) { reg := cgRegSpilled, i64Slot := slotOf cg.valSpillCount } 2)
    refine ⟨.inst b (addArg k) (ks.map addArg ++ i :: later) :: before, after, cg', ?_, ?_, ?_⟩
    · rw [List.map_cons, List.cons_append, instSteps, hsplit, List.cons_append]
    · rw [cgAllocSteps_of_cons (addStep_eq ..)]
      exact hrun
    · rw [hcount, List.length_cons]
      show cg.valSpillCount + 2 + 2 * ks.length = _
      omega

/-- The pass gets through all sums. -/
theorem addSteps_all (fn : Func) (b : Ir.Block) (ks : List Nat) (cg : Cg) : ∃ cg', cgAllocSteps fn (instSteps b (ks.map addArg)) cg = .val () cg' := by
  induction ks generalizing cg with
  | nil => exact ⟨cg, rfl⟩
  | cons k ks ih =>
    rw [List.map_cons, instSteps, cgAllocSteps_of_cons (addStep_eq ..)]
    exact ih _

/-- A run of the steps is one of the function. -/
theorem preAlloc_of_run {cg cg₁ : Cg} {fn : Func} (h : cgAllocSteps fn fn.allocSteps cg.preAllocStart = .val () cg₁) :
    cgPreAllocFunction fn cg = .val () { cg₁ with freeList := [] } := by
  unfold cgPreAllocFunction
  rw [Exec.run_bind, Exec.run_modify]
  dsimp only
  rw [Exec.run_bind, h]
  rfl

/-- From 32768 sums on, the slots of some do not fit. -/
theorem addsFn_not_ok {n : Nat} (hn : 32767 ≤ n) :
    ∃ cg', cgPreAllocFunction (addsFn (n + 1)) freshCg = .val () cg' ∧ ¬SlotsOk (addsFn (n + 1)) cg' := by
  have hsteps : (addsFn (n + 1)).allocSteps =
      .param 0 (.int 64) :: .block :: instSteps ⟨0, (List.range (n + 1)).map addArg⟩ ((List.range (n + 1)).map addArg) :=
    congrArg (fun l => AllocStep.param 0 (.int 64) :: l) (List.append_nil _)
  have hbegin : ∀ (fn : Func) (steps : List AllocStep), cgAllocSteps fn (.param 0 (.int 64) :: .block :: steps) freshCg.preAllocStart =
      cgAllocSteps fn steps { freshCg.preAllocStart.takeSlots (.arg 0) { reg := cgRegSpilled, i64Slot := some 0 } 2 with freeList := [] } :=
    fun fn steps => rfl
  obtain ⟨cg₁, hrun⟩ : ∃ cg₁, cgAllocSteps (addsFn (n + 1)) (addsFn (n + 1)).allocSteps freshCg.preAllocStart = .val () cg₁ := by
    rw [hsteps, hbegin]
    exact addSteps_all ..
  refine ⟨_, preAlloc_of_run hrun, fun hslots => ?_⟩
  obtain ⟨-, hfit⟩ := fit_of_placed (addsFn_wellFormed (n + 1)) (allocSteps_of _) (laid_start _ rfl rfl) hrun hslots.placed hslots.apart
  obtain ⟨before, after, cg', hsplit, hbefore, hcount⟩ := addSteps_run (addsFn (n + 1)) ⟨0, (List.range (n + 1)).map addArg⟩ (List.range n)
    (addArg n) [] { freshCg.preAllocStart.takeSlots (.arg 0) { reg := cgRegSpilled, i64Slot := some 0 } 2 with freeList := [] }
  have hrange : (List.range (n + 1)).map addArg = (List.range n).map addArg ++ [addArg n] := by
    rw [List.range_succ, List.map_append]
    rfl
  have hinsts := (congrArg (instSteps ⟨0, (List.range (n + 1)).map addArg⟩) hrange).trans hsplit
  have hlt := hfit (.param 0 (.int 64) :: .block :: before) _ after cg' (by rw [hsteps, hinsts]; rfl) (by rw [hbegin]; exact hbefore) ?_
  · have hlt' : cg'.valSpillCount < 65535 := hlt.1
    have hcount' : cg'.valSpillCount = 2 + 2 * (List.range n).length := hcount
    rw [List.length_range] at hcount'
    omega
  · exact ⟨eq_false_of_ne_true fun h => (nomatch Func.isAlias_op h), Or.inr (Or.inr (Or.inr (Or.inl rfl)))⟩

end FrameSlotsAux

/-- The last of 32768 sums gets the slots of the parameter. -/
theorem addsFn_overlap : (addsFn 32768).WellFormed ∧
    ∃ cg', cgPreAllocFunction (addsFn 32768) freshCg = .val () cg' ∧ ¬SlotsOk (addsFn 32768) cg' :=
  ⟨addsFn_wellFormed 32768, addsFn_not_ok (Nat.le_refl 32767)⟩

/-- A compare and exchange of 64 bits and its results, a sum of vectors, a sum of 65 bits with its flag, and a 64-bit sum. -/
def mixedFn : Func where
  name := "mixed"
  params := [.pointer, .int 64]
  vararg := false
  blocks := [⟨0, [{ id := 0, op := .atomicCmpXchg, ty := .struct [.integer, .integer], operands := [.loc (.arg 0), .loc (.arg 1), .loc (.arg 1)] },
    { id := 1, op := .extractValue, ty := .int 64, operands := [.loc (.inst 0)], indices := [0] },
    { id := 2, op := .extractValue, ty := .int 1, operands := [.loc (.inst 0)], indices := [1] },
    { id := 3, op := .add, ty := .vector 4 true, operands := [.const (.undef (.vector 4 true)), .const (.undef (.vector 4 true))] },
    { id := 4, op := .call, ty := .struct [.integer, .integer], operands := [.const (.int 65 1), .const (.int 65 2)],
      callee := "llvm.sadd.with.overflow.i65" },
    { id := 5, op := .add, ty := .int 64, operands := [.loc (.inst 1), .loc (.arg 1)] }]⟩]

/-- The slots of some values after the pass. -/
def slotsAfter (fn : Func) (ls : List Local) : Outcome Cg CgError Unit → List (Option (List Nat))
  | .val _ cg => ls.map fun l => (cg.home? l).map fun h => h.wordSlots (fn.slotWords l)
  | _ => []

theorem mixedFn_wellFormed : mixedFn.WellFormed := ⟨by decide +kernel, by decide +kernel⟩

/-- The aggregates, the vector and the 64-bit values lie one behind the other, the value of the compare and exchange in the slots of its
aggregate. -/
theorem frame_slots_iff_mixedFn : ∃ cg', cgPreAllocFunction mixedFn freshCg = .val () cg' ∧ SlotsOk mixedFn cg' ∧
    [.arg 1, .inst 0, .inst 1, .inst 3, .inst 4, .inst 5].map (fun l => (cg'.home? l).map fun h => h.wordSlots (mixedFn.slotWords l)) =
      [some [0, 1], some [2, 3, 4], some [2, 3], some [5, 6, 7, 8], some [9, 10, 11, 12], some [13, 14]] := by
  have hslots : slotsAfter mixedFn [.arg 1, .inst 0, .inst 1, .inst 3, .inst 4, .inst 5] (cgPreAllocFunction mixedFn freshCg) =
      [some [0, 1], some [2, 3, 4], some [2, 3], some [5, 6, 7, 8], some [9, 10, 11, 12], some [13, 14]] := by decide +kernel
  cases h : cgPreAllocFunction mixedFn freshCg with
  | val u cg' =>
    rw [h] at hslots
    exact ⟨cg', rfl, (frame_slots_iff mixedFn mixedFn_wellFormed freshCg cg' rfl rfl h).2 (by decide +kernel), hslots⟩
  | stop e cg' =>
    rw [h] at hslots
    nomatch hslots
  | oob =>
    rw [h] at hslots
    nomatch hslots

end CronoVM
