import CronoVM.Theorems.CatchByBase

/-!
# Casts and handlers

`__dynamic_cast` finds the base subobjects that public paths lead to. `eh_unwind` stops where the thrown type and the clauses say, as far
as the search for a clause, which looks virtual bases up through a variable of its own, agrees with the object.
-/

namespace CronoVM

/-! ## Casts -/

/-- The subobject at `sub`, which is not null, is a part of the object of type `t` at `most`, as its vtable says. -/
structure PartOf (m : Mem) (record : Word → TypeInfo) (sub most : Word) (t : TypeInfo) : Prop where
  notNull : sub ≠ 0#32
  vtable : ∃ vptr offToTop ti, m.ldw sub = some vptr ∧ m.ldw (vptr - 8#32) = some offToTop ∧ m.ldw (vptr - 4#32) = some ti ∧
    most = sub + offToTop ∧ t = record ti

/-- A cast gives the one public subobject of the type, which lies behind the beginning of the object, and null if there is none. -/
structure CastOk (m : Mem) (record : Word → TypeInfo) (sub dst most : Word) (t : TypeInfo) : Prop where
  found : ∀ off, (∀ off', HasBase m most dst t 0#32 true off' ↔ off' = off) → (0#32).sle off = true →
    dynamicCast m record sub dst = some (most + off)
  absent : (∀ off, ¬HasBase m most dst t 0#32 true off) → dynamicCast m record sub dst = some 0#32

/-! ## Handlers -/

/-- What the comment of `eh_type_matches` says: the thrown type is the type of the clause or derives publicly from it. -/
def Derives (m : Mem) (obj : Word) (t : TypeInfo) (c : Word) : Prop := ∃ off, HasBase m obj c t 0#32 true off

/-- A clause catches if it is `catch(...)` or its type matches. -/
def Catches (Matches : Word → Prop) (c : Word) : Prop := c = 0#32 ∨ Matches c

/-- A frame qualifies with a selector: its first clause that catches, or else a cleanup. -/
inductive Qualifies (Matches : Word → Prop) : EhFrame → Word → Prop
  | clause {addr c : Word} {before after : List Word} {cleanup : Bool} : (∀ b ∈ before, ¬Catches Matches b) → Catches Matches c →
      Qualifies Matches ⟨addr, some ⟨before ++ c :: after, cleanup⟩⟩ c
  | cleanup {addr : Word} {clauses : List Word} : (∀ c ∈ clauses, ¬Catches Matches c) → Qualifies Matches ⟨addr, some ⟨clauses, true⟩⟩ 0#32

/-- No frame qualifies. -/
def NoneQualifies (Matches : Word → Prop) (frames : List EhFrame) : Prop := ∀ f ∈ frames, ∀ sel, ¬Qualifies Matches f sel

/-- The nearest frame that qualifies, with the frames below it. -/
structure Nearest (Matches : Word → Prop) (top : List EhFrame) (l : Landing) : Prop where
  above : ∃ above, top = above ++ l.frame :: l.rest ∧ NoneQualifies Matches above
  qualifies : Qualifies Matches l.frame l.sel

/-- `eh_unwind` goes to the nearest frame that qualifies and pops it and the frames above; without one it terminates the program. -/
structure UnwindOk (Matches : Word → Prop) (dummy : Word) (s : EhState) : Prop where
  lands : ∀ f s', ehUnwind dummy s = .ok (f, s') → ∃ l, Nearest Matches s.top l ∧ f = l.frame ∧ s' = { s with top := l.rest, sel := l.sel }
  terminates : ∀ e, ehUnwind dummy s = .error e → e = .terminate ∧ NoneQualifies Matches s.top

/-- The clauses up to the one that catches: those before it in its frame and those of the frames above. -/
def Examined (Matches : Word → Prop) (top : List EhFrame) (c : Word) : Prop :=
  ∃ above addr before after cleanup below, top = above ++ ⟨addr, some ⟨before ++ c :: after, cleanup⟩⟩ :: below ∧
    NoneQualifies Matches above ∧ ∀ b ∈ before, ¬Catches Matches b

namespace HandlerAux

/-! ## The search gives the offset -/

/-- A result is negative where it is not at least 0. -/
theorem slt_zero_iff (r : Word) : r.slt 0#32 = true ↔ ¬(0#32).sle r = true := by
  rw [BitVec.slt_iff_toInt_lt, BitVec.sle_iff_toInt_le, Int.not_le]

/-- A cast from a part of an object searches the whole object. -/
theorem dynamicCast_eq {m : Mem} {record : Word → TypeInfo} {sub most : Word} {t : TypeInfo} (dst : Word) (h : PartOf m record sub most t) :
    dynamicCast m record sub dst = (tiSearch m dst most t 0#32).map fun r => if r.slt 0#32 = true then 0#32 else most + r := by
  obtain ⟨hsub, vptr, offToTop, ti, hvptr, htop, hti, rfl, rfl⟩ := h
  unfold dynamicCast
  rw [if_neg hsub, hvptr]
  show ((m.ldw (vptr - 8#32)).bind fun offToTop => (m.ldw (vptr - 4#32)).bind fun dyn =>
    (tiSearch m dst (sub + offToTop) (record dyn) 0#32).bind fun r => some (if r.slt 0#32 = true then 0#32 else sub + offToTop + r)) = _
  rw [htop, Option.bind_some, hti, Option.bind_some]
  cases tiSearch m dst (sub + offToTop) (record ti) 0#32 with
  | none => rfl
  | some r => rfl

/-- A cast gives the public subobject, or the null pointer where there is none. -/
theorem castOk {m : Mem} {record : Word → TypeInfo} {sub most : Word} {t : TypeInfo} (dst : Word) (h : PartOf m record sub most t)
    (hstays : ¬Traps m most dst t 0#32) : CastOk m record sub dst most t := by
  have hok := tiSearch_ok m most dst t 0#32
  have hcast := dynamicCast_eq dst h
  cases hresult : tiSearch m dst most t 0#32 with
  | none =>
    rw [hresult] at hok
    exact absurd hok hstays
  | some r =>
    rw [hresult] at hok hcast
    obtain ⟨-, hfound, hmissing⟩ := hok
    rw [Option.map_some] at hcast
    refine ⟨fun off hbase hpos => ?_, fun hnone => ?_⟩
    · have hnonneg : (0#32).sle r = true := by
        by_contra hneg
        exact hmissing hneg off ((hbase off).mpr rfl) hpos
      rw [hcast, if_neg fun hneg => (slt_zero_iff r).mp hneg hnonneg, (hbase r).mp (hfound hnonneg)]
    · rw [hcast, if_pos ((slt_zero_iff r).mpr fun hpos => hnone r (hfound hpos))]

/-! ## The walk by any predicate -/

/-- Where a frame stops a walk: the selector. -/
def stopBy (q : Word → Bool) (f : EhFrame) : Option Word :=
  match f.desc with
  | none => none
  | some d =>
    match d.clauses.find? q with
    | some c => some c
    | none => if d.hasCleanup then some 0#32 else none

/-- The nearest frame that stops it. -/
def walkBy (q : Word → Bool) : List EhFrame → Option Landing
  | [] => none
  | f :: rest =>
    match stopBy q f with
    | some sel => some ⟨f, sel, rest⟩
    | none => walkBy q rest

/-- A walk that finds no frame is to terminate the program. -/
def endOf : Option Landing → Except EhEnd Landing
  | none => .error .terminate
  | some l => .ok l

/-- What the code makes of a clause. -/
def catchesBy (m : Mem) (dummy : Word) (t : TypeInfo) (c : Word) : Option Bool := if c = 0#32 then some true else ehTypeMatches m dummy t c

/-- The first clause that catches, unless one before it ends the program. -/
def selectBy (p : Word → Option Bool) : List Word → Option (Option Word)
  | [] => some none
  | c :: rest =>
    match p c with
    | none => none
    | some true => some (some c)
    | some false => selectBy p rest

/-- The selection of a clause, for what each clause answers. -/
theorem ehSelect_eq_selectBy (m : Mem) (dummy : Word) (t : TypeInfo) (clauses : List Word) :
    ehSelect m dummy t clauses = selectBy (catchesBy m dummy t) clauses := by
  induction clauses with
  | nil => rfl
  | cons c rest ih =>
    rw [ehSelect, selectBy, ih, catchesBy]
    by_cases hall : c = 0#32
    · rw [if_pos hall, if_pos hall, hall]
    · cases ehTypeMatches m dummy t c with
      | none => simp only [if_neg hall]
      | some found => cases found <;> simp only [if_neg hall]

/-- Where the code stops at a frame, unless the program ends. -/
def stopsAt (p : Word → Option Bool) (f : EhFrame) : Option (Option Word) :=
  match f.desc with
  | none => some none
  | some d =>
    match selectBy p d.clauses with
    | none => none
    | some (some c) => some (some c)
    | some none => some (if d.hasCleanup = true then some 0#32 else none)

/-- The walk stops at the first frame or goes on below it. -/
theorem ehWalk_cons (m : Mem) (dummy : Word) (t : TypeInfo) (f : EhFrame) (rest : List EhFrame) : ehWalk m dummy t (f :: rest) =
    match stopsAt (catchesBy m dummy t) f with
    | none => .error .badAddr
    | some (some sel) => .ok ⟨f, sel, rest⟩
    | some none => ehWalk m dummy t rest := by
  rw [ehWalk, stopsAt]
  cases f.desc with
  | none => rfl
  | some d =>
    dsimp only
    rw [ehSelect_eq_selectBy]
    cases selectBy (catchesBy m dummy t) d.clauses with
    | none => rfl
    | some found =>
      cases found with
      | some c => rfl
      | none => cases d.hasCleanup <;> rfl

section walk

variable {p : Word → Option Bool} {q : Word → Bool}

/-- The clause selected is in the list and matches. -/
theorem selectBy_eq_some {clauses : List Word} {c : Word} (h : selectBy p clauses = some (some c)) : c ∈ clauses ∧ p c = some true := by
  induction clauses with
  | nil => nomatch h
  | cons x rest ih =>
    rw [selectBy] at h
    split at h
    · nomatch h
    · rename_i hp
      rw [← Option.some.inj (Option.some.inj h)]
      exact ⟨List.mem_cons_self, hp⟩
    · exact ⟨List.mem_cons_of_mem _ (ih h).1, (ih h).2⟩

/-- Where none is selected all have answered no. -/
theorem selectBy_eq_none {clauses : List Word} (h : selectBy p clauses = some none) : ∀ c ∈ clauses, p c = some false := by
  induction clauses with
  | nil => exact fun c hc => nomatch hc
  | cons x rest ih =>
    rw [selectBy] at h
    split at h
    · nomatch h
    · nomatch h
    · rename_i hp
      intro c hc
      rcases List.mem_cons.mp hc with rfl | hc
      · exact hp
      · exact ih h c hc

/-- The code finds the first clause that catches exactly if it is right about the clauses up to it. -/
theorem selectBy_eq_find?_iff {clauses : List Word} : selectBy p clauses = some (clauses.find? q) ↔
    ∀ before c after, clauses = before ++ c :: after → (∀ b ∈ before, q b = false) → p c = some (q c) := by
  induction clauses with
  | nil => exact iff_of_true rfl fun before c after h => absurd h.symm (List.append_ne_nil_of_right_ne_nil before (List.cons_ne_nil c after))
  | cons x rest ih =>
    rw [selectBy, List.find?_cons]
    have hhead : (∀ before c after, x :: rest = before ++ c :: after → (∀ b ∈ before, q b = false) → p c = some (q c)) → p x = some (q x) :=
      fun h => h [] x rest rfl fun _ hb => nomatch hb
    cases hq : q x with
    | true =>
      dsimp only
      refine ⟨fun h before c after hsplit hbefore => ?_, fun h => by rw [hhead h, hq]⟩
      have hx : p x = some true := by
        split at h
        · nomatch h
        · assumption
        · exact (selectBy_eq_some h).2
      rcases before with _ | ⟨y, before⟩
      · obtain ⟨rfl, -⟩ := List.cons.inj hsplit
        rw [hx, hq]
      · obtain ⟨rfl, -⟩ := List.cons.inj hsplit
        exact absurd ((hbefore _ List.mem_cons_self).symm.trans hq) Bool.false_ne_true
    | false =>
      dsimp only
      by_cases hx : p x = some false
      · rw [hx]
        dsimp only
        refine ih.trans ⟨fun h before c after hsplit hbefore => ?_, fun h before c after hrest hbefore => ?_⟩
        · rcases before with _ | ⟨y, before⟩
          · obtain ⟨rfl, -⟩ := List.cons.inj hsplit
            rw [hx, hq]
          · obtain ⟨-, hrest⟩ := List.cons.inj hsplit
            exact h before c after hrest fun b hb => hbefore b (List.mem_cons_of_mem _ hb)
        · refine h (x :: before) c after (by rw [hrest]; rfl) fun b hb => ?_
          rcases List.mem_cons.mp hb with rfl | hb
          · exact hq
          · exact hbefore b hb
      · refine iff_of_false (fun h => ?_) fun h => hx ((hhead h).trans (congrArg some hq))
        split at h
        · nomatch h
        · have hfound := List.find?_some (Option.some.inj h).symm
          rw [hq] at hfound
          nomatch hfound
        · exact hx ‹_›

/-- The code stops at a frame where it should exactly if it finds the clause it should. -/
theorem stopsAt_eq_iff {addr : Word} {clauses : List Word} {cleanup : Bool} (hp : p 0#32 = some true) (hq : q 0#32 = true) :
    stopsAt p ⟨addr, some ⟨clauses, cleanup⟩⟩ = some (stopBy q ⟨addr, some ⟨clauses, cleanup⟩⟩) ↔
      selectBy p clauses = some (clauses.find? q) := by
  unfold stopsAt stopBy
  dsimp only
  cases hselect : selectBy p clauses with
  | none => exact iff_of_false (fun h => nomatch h) fun h => nomatch h
  | some found =>
    cases found with
    | some c =>
      cases hfind : clauses.find? q with
      | some c' => exact Iff.rfl
      | none =>
        refine iff_of_false (fun h => ?_) fun h => nomatch h
        dsimp only at h
        split at h
        · -- a clause for everything is one
          have hc : c = 0#32 := Option.some.inj (Option.some.inj h)
          exact List.find?_eq_none.mp hfind c (selectBy_eq_some hselect).1 (hc ▸ hq)
        · nomatch h
    | none =>
      cases hfind : clauses.find? q with
      | some c' =>
        refine iff_of_false (fun h => ?_) fun h => nomatch h
        dsimp only at h
        split at h
        · have hc : 0#32 = c' := Option.some.inj (Option.some.inj h)
          have hfalse := selectBy_eq_none hselect c' (List.mem_of_find?_eq_some hfind)
          rw [← hc, hp] at hfalse
          nomatch hfalse
        · nomatch h
      | none => exact iff_of_true rfl rfl

/-- A landing leaves fewer frames. -/
theorem walkBy_rest_lt {top : List EhFrame} {l : Landing} (h : walkBy q top = some l) : l.rest.length < top.length := by
  induction top with
  | nil => nomatch h
  | cons f rest ih =>
    rw [walkBy] at h
    split at h
    · rw [← Option.some.inj h]
      exact Nat.lt_succ_self _
    · exact Nat.lt_succ_of_lt (ih h)

/-- So does the walk of the runtime. -/
theorem ehWalk_rest_lt {m : Mem} {dummy : Word} {t : TypeInfo} {top : List EhFrame} {l : Landing} (h : ehWalk m dummy t top = .ok l) :
    l.rest.length < top.length := by
  induction top with
  | nil => nomatch h
  | cons f rest ih =>
    rw [ehWalk_cons] at h
    split at h
    · nomatch h
    · rw [← Except.ok.inj h]
      exact Nat.lt_succ_self _
    · exact Nat.lt_succ_of_lt (ih h)

/-- The code's walk ends as it should exactly if it stops at the frames, down to the end of the right walk, as it should. -/
theorem ehWalk_eq_iff {m : Mem} {dummy : Word} {t : TypeInfo} {top : List EhFrame} : ehWalk m dummy t top = endOf (walkBy q top) ↔
    ∀ above f below, top = above ++ f :: below → (∀ g ∈ above, stopBy q g = none) → stopsAt (catchesBy m dummy t) f = some (stopBy q f) := by
  induction top with
  | nil => exact iff_of_true rfl fun above f below h => absurd h.symm (List.append_ne_nil_of_right_ne_nil above (List.cons_ne_nil f below))
  | cons g rest ih =>
    rw [ehWalk_cons, walkBy]
    by_cases hstop : stopsAt (catchesBy m dummy t) g = some (stopBy q g)
    · rw [hstop]
      cases hq : stopBy q g with
      | some sel =>
        refine iff_of_true rfl fun above f below hsplit habove => ?_
        rcases above with _ | ⟨g', above⟩
        · obtain ⟨rfl, -⟩ := List.cons.inj hsplit
          exact hstop
        · obtain ⟨rfl, -⟩ := List.cons.inj hsplit
          have hnone := habove g List.mem_cons_self
          rw [hq] at hnone
          cases hnone
      | none =>
        refine ih.trans ⟨fun h above f below hsplit habove => ?_, fun h above f below hrest habove => ?_⟩
        · rcases above with _ | ⟨g', above⟩
          · obtain ⟨rfl, -⟩ := List.cons.inj hsplit
            exact hstop
          · obtain ⟨-, hrest⟩ := List.cons.inj hsplit
            exact h above f below hrest fun g' hg => habove g' (List.mem_cons_of_mem _ hg)
        · refine h (g :: above) f below (by rw [hrest]; rfl) fun g' hg => ?_
          rcases List.mem_cons.mp hg with rfl | hg
          · exact hq
          · exact habove g' hg
    · refine iff_of_false (fun h => ?_) fun h => hstop (h [] g rest rfl fun _ hg => absurd hg List.not_mem_nil)
      cases hcode : stopsAt (catchesBy m dummy t) g with
      | none =>
        rw [hcode] at h
        cases hright : stopBy q g with
        | some sel =>
          rw [hright] at h
          cases h
        | none =>
          rw [hright] at h
          dsimp only at h
          cases hrest : walkBy q rest with
          | none =>
            rw [hrest] at h
            cases h
          | some l =>
            rw [hrest] at h
            cases h
      | some found =>
        cases found with
        | some sel =>
          cases hright : stopBy q g with
          | some sel' =>
            rw [hcode, hright] at h
            have hl := congrArg Landing.sel (Except.ok.inj h)
            exact hstop (by rw [hcode, hright]; exact congrArg (fun x => some (some x)) hl)
          | none =>
            rw [hcode, hright] at h
            dsimp only at h
            cases hdeeper : walkBy q rest with
            | none =>
              rw [hdeeper] at h
              cases h
            | some l =>
              rw [hdeeper] at h
              have hlt := walkBy_rest_lt hdeeper
              rw [← Except.ok.inj h] at hlt
              exact Nat.lt_irrefl _ hlt
        | none =>
          cases hright : stopBy q g with
          | some sel' =>
            rw [hcode, hright] at h
            have hdeeper : ehWalk m dummy t rest = .ok ⟨g, sel', rest⟩ := h
            have hlt : rest.length < rest.length := ehWalk_rest_lt hdeeper
            exact Nat.lt_irrefl _ hlt
          | none => exact hstop (by rw [hcode, hright])

end walk

/-! ## The right walk -/

section right

variable {Matches : Word → Prop}

open Classical in
/-- The clauses that should catch. -/
noncomputable def catchesOf (Matches : Word → Prop) (c : Word) : Bool := decide (Catches Matches c)

open Classical in
/-- The test for a clause that catches. -/
theorem catchesOf_iff {c : Word} : catchesOf Matches c = true ↔ Catches Matches c := decide_eq_true_iff

/-- And for one that does not. -/
theorem catchesOf_eq_false {c : Word} : catchesOf Matches c = false ↔ ¬Catches Matches c := by
  rw [← catchesOf_iff, Bool.not_eq_true]

/-- A frame stops the walk with the selectors with which it qualifies. -/
theorem stopBy_eq_some_iff {f : EhFrame} {sel : Word} : stopBy (catchesOf Matches) f = some sel ↔ Qualifies Matches f sel := by
  refine ⟨fun h => ?_, fun h => ?_⟩
  · obtain ⟨addr, _ | ⟨clauses, cleanup⟩⟩ := f
    · nomatch h
    · unfold stopBy at h
      dsimp only at h
      cases hfind : clauses.find? (catchesOf Matches) with
      | some c =>
        rw [hfind] at h
        obtain ⟨hcatch, before, after, rfl, hbefore⟩ := List.find?_eq_some_iff_append.mp hfind
        rw [← Option.some.inj h]
        refine .clause (fun b hb => catchesOf_eq_false.mp ?_) (catchesOf_iff.mp hcatch)
        simpa using hbefore b hb
      | none =>
        rw [hfind] at h
        dsimp only at h
        cases cleanup with
        | true =>
          rw [if_pos rfl] at h
          rw [← Option.some.inj h]
          exact .cleanup fun c hc hcatch => List.find?_eq_none.mp hfind c hc (catchesOf_iff.mpr hcatch)
        | false => nomatch h
  · cases h with
    | @clause addr c before after cleanup hbefore hcatch =>
      have hfind : (before ++ sel :: after).find? (catchesOf Matches) = some sel := by
        refine List.find?_eq_some_iff_append.mpr ⟨catchesOf_iff.mpr hcatch, before, after, rfl, fun b hb => ?_⟩
        rw [catchesOf_eq_false.mpr (hbefore b hb)]
        rfl
      unfold stopBy
      dsimp only
      rw [hfind]
    | @cleanup addr clauses hclauses =>
      have hfind : clauses.find? (catchesOf Matches) = none :=
        List.find?_eq_none.mpr fun c hc hcatch => hclauses c hc (catchesOf_iff.mp hcatch)
      unfold stopBy
      dsimp only
      rw [hfind]
      rfl

/-- It does not stop the walk if it qualifies with none. -/
theorem stopBy_eq_none_iff {f : EhFrame} : stopBy (catchesOf Matches) f = none ↔ ∀ sel, ¬Qualifies Matches f sel := by
  rw [Option.eq_none_iff_forall_ne_some]
  exact forall_congr' fun sel => not_congr stopBy_eq_some_iff

/-- Frames none of which stops the walk. -/
theorem noneQualifies_iff {frames : List EhFrame} : NoneQualifies Matches frames ↔ ∀ f ∈ frames, stopBy (catchesOf Matches) f = none :=
  forall_congr' fun _ => imp_congr_right fun _ => stopBy_eq_none_iff.symm

/-- The walk ends without a landing exactly if no frame qualifies. -/
theorem walkBy_eq_none_iff {top : List EhFrame} : walkBy (catchesOf Matches) top = none ↔ NoneQualifies Matches top := by
  rw [noneQualifies_iff]
  induction top with
  | nil => exact iff_of_true rfl fun f hf => absurd hf List.not_mem_nil
  | cons f rest ih =>
    rw [walkBy, List.forall_mem_cons]
    cases hstop : stopBy (catchesOf Matches) f with
    | some sel => exact iff_of_false (Option.some_ne_none _) fun h => Option.some_ne_none _ h.1
    | none => exact ih.trans ⟨fun h => ⟨rfl, h⟩, fun h => h.2⟩

/-- It lands at the nearest frame that qualifies. -/
theorem walkBy_eq_some_iff {top : List EhFrame} {l : Landing} : walkBy (catchesOf Matches) top = some l ↔ Nearest Matches top l := by
  induction top with
  | nil =>
    refine iff_of_false (fun h => nomatch h) fun ⟨⟨above, htop, _⟩, _⟩ => ?_
    exact absurd htop.symm (List.append_ne_nil_of_right_ne_nil above (List.cons_ne_nil l.frame l.rest))
  | cons f rest ih =>
    rw [walkBy]
    cases hstop : stopBy (catchesOf Matches) f with
    | some sel =>
      refine ⟨fun h => ?_, fun ⟨⟨above, htop, habove⟩, hqualifies⟩ => ?_⟩
      · rw [← Option.some.inj h]
        exact ⟨⟨[], rfl, fun _ hf => nomatch hf⟩, stopBy_eq_some_iff.mp hstop⟩
      · rcases above with _ | ⟨g, above⟩
        · obtain ⟨rfl, rfl⟩ := List.cons.inj htop
          rw [stopBy_eq_some_iff.mpr hqualifies] at hstop
          rw [← Option.some.inj hstop]
        · obtain ⟨rfl, -⟩ := List.cons.inj htop
          exact absurd (stopBy_eq_some_iff.mp hstop) (habove f List.mem_cons_self sel)
    | none =>
      refine ih.trans ⟨fun ⟨⟨above, htop, habove⟩, hqualifies⟩ => ?_, fun ⟨⟨above, htop, habove⟩, hqualifies⟩ => ?_⟩
      · refine ⟨⟨f :: above, by rw [htop]; rfl, fun g hg => ?_⟩, hqualifies⟩
        rcases List.mem_cons.mp hg with rfl | hg
        · exact stopBy_eq_none_iff.mp hstop
        · exact habove g hg
      · rcases above with _ | ⟨g, above⟩
        · obtain ⟨rfl, -⟩ := List.cons.inj htop
          exact absurd hqualifies (stopBy_eq_none_iff.mp hstop l.sel)
        · obtain ⟨-, hrest⟩ := List.cons.inj htop
          exact ⟨⟨above, hrest, fun g hg => habove g (List.mem_cons_of_mem _ hg)⟩, hqualifies⟩

/-- The unwinder is right exactly if its walk is the right one. -/
theorem unwindOk_iff_walk (dummy : Word) (s : EhState) : UnwindOk Matches dummy s ↔
    ehWalk s.mem dummy s.ti s.top = endOf (walkBy (catchesOf Matches) s.top) := by
  refine ⟨fun ⟨hlands, hterminates⟩ => ?_, fun h => ⟨fun f s' hf => ?_, fun e he => ?_⟩⟩
  · cases hwalk : ehWalk s.mem dummy s.ti s.top with
    | error e =>
      obtain ⟨rfl, hnone⟩ := hterminates e (by rw [ehUnwind, hwalk]; rfl)
      rw [walkBy_eq_none_iff.mpr hnone]
      rfl
    | ok l =>
      have hunwind : ehUnwind dummy s = .ok (l.frame, { s with top := l.rest, sel := l.sel }) := by
        rw [ehUnwind, hwalk]
        rfl
      obtain ⟨l', hnearest, hframe, hstate⟩ := hlands _ _ hunwind
      obtain ⟨frame, sel, rest⟩ := l
      obtain ⟨frame', sel', rest'⟩ := l'
      have hrest : rest = rest' := congrArg EhState.top hstate
      have hsel : sel = sel' := congrArg EhState.sel hstate
      dsimp only at hframe
      subst hframe hrest hsel
      rw [walkBy_eq_some_iff.mpr hnearest]
      rfl
  · obtain ⟨l, hwalk, hl⟩ := Except.map_eq_ok_iff.mp hf
    obtain ⟨rfl, rfl⟩ := Prod.mk.inj hl
    rw [h] at hwalk
    cases hright : walkBy (catchesOf Matches) s.top with
    | none =>
      rw [hright] at hwalk
      nomatch hwalk
    | some l' =>
      rw [hright] at hwalk
      obtain rfl := Except.ok.inj hwalk
      exact ⟨l', walkBy_eq_some_iff.mp hright, rfl, rfl⟩
  · rw [ehUnwind, h] at he
    cases hright : walkBy (catchesOf Matches) s.top with
    | none =>
      rw [hright] at he
      exact ⟨(Except.error.inj he).symm, walkBy_eq_none_iff.mp hright⟩
    | some l =>
      rw [hright] at he
      nomatch he

/-- The unwinder is right exactly if the search stays in memory and agrees on the clauses examined. -/
theorem unwindOk_iff (dummy : Word) (s : EhState) : UnwindOk Matches dummy s ↔
    ∀ c, Examined Matches s.top c → c ≠ 0#32 → ¬ClauseTraps s.mem dummy c s.ti ∧ (FoundBase s.mem dummy c s.ti ↔ Matches c) := by
  have hagree : ∀ c, c ≠ 0#32 → (catchesBy s.mem dummy s.ti c = some (catchesOf Matches c) ↔
      ¬ClauseTraps s.mem dummy c s.ti ∧ (FoundBase s.mem dummy c s.ti ↔ Matches c)) := by
    intro c hc
    have hcatch : catchesOf Matches c = true ↔ Matches c := by rw [catchesOf_iff, Catches, or_iff_right hc]
    rw [catchesBy, if_neg hc, ← hcatch]
    cases catchesOf Matches c with
    | true =>
      rw [(ehTypeMatches_ok s.mem dummy s.ti c).2]
      exact and_congr_right fun _ => (iff_true_right rfl).symm
    | false =>
      rw [ehTypeMatches_eq_false]
      exact and_congr_right fun _ => (iff_false_right Bool.false_ne_true).symm
  have hzero : catchesBy s.mem dummy s.ti 0#32 = some true := rfl
  have hzero' : catchesOf Matches 0#32 = true := catchesOf_iff.mpr (Or.inl rfl)
  rw [unwindOk_iff_walk, ehWalk_eq_iff]
  refine ⟨fun h c hexamined hc => ?_, fun h above f below htop habove => ?_⟩
  · obtain ⟨above, addr, before, after, cleanup, below, htop, habove, hbefore⟩ := hexamined
    have hstop := h above _ below htop (noneQualifies_iff.mp habove)
    rw [stopsAt_eq_iff hzero hzero', selectBy_eq_find?_iff] at hstop
    exact (hagree c hc).mp (hstop before c after rfl fun b hb => catchesOf_eq_false.mpr (hbefore b hb))
  · obtain ⟨addr, _ | ⟨clauses, cleanup⟩⟩ := f
    · rfl
    · rw [stopsAt_eq_iff hzero hzero', selectBy_eq_find?_iff]
      intro before c after hclauses hbefore
      by_cases hc : c = 0#32
      · rw [hc, hzero, hzero']
      · subst hclauses
        refine (hagree c hc).mpr (h c ⟨above, addr, before, after, cleanup, below, htop, noneQualifies_iff.mpr habove, fun b hb => ?_⟩ hc)
        exact catchesOf_eq_false.mp (hbefore b hb)

end right

/-- Without virtual bases the search agrees with the object, whose subobjects lie behind its beginning. -/
theorem foundBase_iff_derives {m : Mem} {t : TypeInfo} (dummy obj c : Word) (hno : t.NoVirtual)
    (hpos : ∀ off, HasBase m obj c t 0#32 true off → (0#32).sle off = true) : FoundBase m dummy c t ↔ Derives m obj t c :=
  ⟨fun ⟨off, hbase, _⟩ => ⟨off, hbase.of_noVirtual hno⟩, fun ⟨off, hbase⟩ => ⟨off, hbase.of_noVirtual hno, hpos off hbase⟩⟩

end HandlerAux

open HandlerAux

/-- A cast gives the public subobject of an object whose vtables, as far as the search needs them, are in memory. The unwinder goes to the nearest
frame that qualifies exactly if the search for each clause that is examined on the way, in the memory at its own variable, stays in memory and
agrees with the object; without virtual bases it does. -/
theorem casts_and_handlers (m : Mem) (record : Word → TypeInfo) (sub dst most : Word) (t : TypeInfo) (dummy : Word) (s : EhState) :
    (PartOf m record sub most t → ¬Traps m most dst t 0#32 → CastOk m record sub dst most t) ∧
      (UnwindOk (Derives s.mem s.exc s.ti) dummy s ↔ ∀ c, Examined (Derives s.mem s.exc s.ti) s.top c → c ≠ 0#32 →
        ¬ClauseTraps s.mem dummy c s.ti ∧ (FoundBase s.mem dummy c s.ti ↔ Derives s.mem s.exc s.ti c)) ∧
      (s.ti.NoVirtual → dummy.toNat < s.mem.size → (∀ c off, HasBase s.mem s.exc c s.ti 0#32 true off → (0#32).sle off = true) →
        UnwindOk (Derives s.mem s.exc s.ti) dummy s) := by
  refine ⟨castOk dst, unwindOk_iff dummy s, fun hno hlocal hpos => ?_⟩
  exact (unwindOk_iff dummy s).mpr fun c _ _ => ⟨CatchAux.not_clauseTraps hno hlocal, foundBase_iff_derives dummy s.exc c hno (hpos c)⟩

/-! ## A cast, and a virtual base -/

/-- An object of two bases at 48; the vtable of the second is at 88. -/
def castMem : Mem := (((⟨128, fun _ => 0⟩ : Mem).setWord 52 88#32).setWord 80 (-4#32)).setWord 84 16#32

/-- A throw of such an object into a frame that catches the second base. -/
def castState : EhState := ⟨castMem, [⟨0#32, some ⟨[32#32], false⟩⟩], 48#32, twoBases, 0#32, fun _ => ⟨.null, 0#32, 0⟩, []⟩

/-- The second base is the only one that is not at offset 0. -/
theorem twoBases_offset {m : Mem} {most c off : Word} (h : HasBase m most c twoBases 0#32 true off) : off = 0#32 ∨ off = 4#32 := by
  obtain ⟨pub, -, h⟩ : ∃ pub, pub = true ∧ HasBase m most c twoBases 0#32 pub off := ⟨true, rfl, h⟩
  cases h with
  | self _ => exact Or.inl rfl
  | vmi _ hmem hsome hbase =>
    rcases List.mem_cons.mp hmem with heq | hmem
    · obtain ⟨rfl, rfl⟩ := Prod.mk.inj heq
      obtain rfl := Option.some.inj hsome
      cases hbase
      exact Or.inl rfl
    · obtain ⟨rfl, rfl⟩ := Prod.mk.inj (List.mem_singleton.mp hmem)
      obtain rfl := Option.some.inj hsome
      cases hbase
      exact Or.inr rfl

/-- None of the two is virtual. -/
theorem twoBases_noVirtual : twoBases.NoVirtual := ⟨by decide, trivial, by decide, trivial, trivial⟩

/-- The object is cast to its second base, and the frame catches it. -/
theorem casts_and_handlers_twoBases : dynamicCast castMem (fun _ => twoBases) 52#32 32#32 = some (48#32 + 4#32) ∧
    UnwindOk (Derives castMem 48#32 twoBases) 0#32 castState := by
  have hpart : PartOf castMem (fun _ => twoBases) 52#32 48#32 twoBases :=
    ⟨by decide, 88#32, -4#32, 16#32, by decide, by decide, by decide, by decide, rfl⟩
  obtain ⟨hcast, -, hunwind⟩ := casts_and_handlers castMem (fun _ => twoBases) 52#32 32#32 48#32 twoBases 0#32 castState
  refine ⟨(hcast hpart fun h => h.not_noVirtual twoBases_noVirtual).found 4#32 (fun off' => ⟨fun h => ?_, fun h => ?_⟩) (by decide),
    hunwind twoBases_noVirtual (by decide) fun c off hbase => ?_⟩
  · exact (twoBases_second _ _).2 true off' h
  · rw [h]
    exact (twoBases_second _ _).1
  · rcases twoBases_offset hbase with rfl | rfl
    · decide
    · decide

/-- A class of one virtual base, whose offset is in the vtable at -12. -/
def virtualBase : TypeInfo := .vmi 16#32 (.cons 0xFFFFF403#32 (.leaf 24#32) .nil)

/-- An object of it at 48 with the base at 4. The bytes behind the variable of the search, at 64, make with its 0 a pointer to the end of a table
whose number is negative. -/
def virtualMem : Mem := (((⟨512, fun _ => 0⟩ : Mem).setWord 48 96#32).setWord 84 4#32 |>.setWord 64 0x17F#32).setWord 244 0x80000000#32

/-- A throw of the object into a frame that catches the base. -/
def virtualState : EhState := ⟨virtualMem, [⟨0#32, some ⟨[24#32], false⟩⟩], 48#32, virtualBase, 0#32, fun _ => ⟨.null, 0#32, 0⟩, []⟩

/-- The program is terminated, although the frame catches the object. -/
theorem virtualBase_not_caught : ¬UnwindOk (Derives virtualMem 48#32 virtualBase) 64#32 virtualState := by
  intro hok
  have hterminate : ehUnwind 64#32 virtualState = .error .terminate := by
    have hmatch : ehTypeMatches virtualMem 64#32 virtualBase 24#32 = some false := by decide
    have hselect : ehSelect virtualMem 64#32 virtualBase [24#32] = some none := by
      rw [ehSelect, if_neg (by decide), hmatch]
      rfl
    unfold ehUnwind virtualState
    dsimp only
    rw [ehWalk]
    dsimp only
    rw [hselect]
    rfl
  have hpath : HasBase virtualMem 48#32 24#32 (.leaf 24#32) (0#32 + 4#32) true 4#32 := .self rfl
  have hoffset : baseOffset virtualMem 48#32 0#32 0xFFFFF403#32 = some 4#32 := by decide
  have hderives : Derives virtualMem 48#32 virtualBase 24#32 :=
    ⟨4#32, .vmi (by decide : (16#32 : Word) ≠ 24#32) List.mem_cons_self hoffset hpath⟩
  have hqualifies : Qualifies (Derives virtualMem 48#32 virtualBase) ⟨0#32, some ⟨[] ++ 24#32 :: [], false⟩⟩ 24#32 :=
    .clause (fun _ hb => by cases hb) (Or.inr hderives)
  exact (hok.terminates _ hterminate).2 _ List.mem_cons_self 24#32 hqualifies

end CronoVM
