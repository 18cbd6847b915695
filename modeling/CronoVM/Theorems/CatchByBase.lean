import CronoVM.Runtime.Exceptions

/-!
# Catching by a base class

The subobjects of an object by its `type_info`, and what of them the search for a clause and the pointer of the handler get right: the
search looks virtual bases up through a variable of its own and not in the object, and the pointer is that of the object and not of its
base.
-/

namespace CronoVM

variable {m : Mem} {most most' c : Word} {t : TypeInfo} {bases : Bases} {off : Word}

/-! ## Subobjects -/

/-- The bases of a record with their flags. -/
def Bases.toList : Bases → List (Word × TypeInfo)
  | .nil => []
  | .cons offsetFlags base rest => (offsetFlags, base) :: rest.toList

def isPublic (offsetFlags : Word) : Bool := offsetFlags &&& publicMask ≠ 0#32

/-- In the object at `most`, the subobject of a type at an offset has one of the type `c` at another offset, on a path that is public or
not. A class is no base of itself. -/
inductive HasBase (m : Mem) (most c : Word) : TypeInfo → Word → Bool → Word → Prop
  | self {t : TypeInfo} {off : Word} : t.addr = c → HasBase m most c t off true off
  | si {p off off' : Word} {base : TypeInfo} {pub : Bool} : p ≠ c → HasBase m most c base off pub off' →
      HasBase m most c (.si p base) off pub off'
  | vmi {p off off' boff offsetFlags : Word} {base : TypeInfo} {bases : Bases} {pub : Bool} : p ≠ c → (offsetFlags, base) ∈ bases.toList →
      baseOffset m most off offsetFlags = some boff → HasBase m most c base (off + boff) pub off' →
      HasBase m most c (.vmi p bases) off (isPublic offsetFlags && pub) off'

/-- `c` is the type of the object or a public and unambiguous base of it, at an offset. -/
def PublicBase (m : Mem) (obj c : Word) (t : TypeInfo) (off : Word) : Prop :=
  HasBase m obj c t 0#32 true off ∧ ∀ pub off', HasBase m obj c t 0#32 pub off' → off' = off

/-! ## The search -/

/-- A public path leads from the subobject to a base at an offset that is not negative. -/
def Reaches (m : Mem) (most c : Word) (t : TypeInfo) (off : Word) : Prop := ∃ off', HasBase m most c t off true off' ∧ (0#32).sle off' = true

/-- One of the bases of the subobject at `off` is public and leads there. -/
def BaseReaches (m : Mem) (most c off : Word) (b : Word × TypeInfo) : Prop :=
  isPublic b.1 = true ∧ ∃ boff, baseOffset m most off b.1 = some boff ∧ Reaches m most c b.2 (off + boff)

/-- On its way the search needs a word outside of memory: the offset of a public base when none of the bases before it has led to the type, or a
word in the search of such a base. -/
inductive Traps (m : Mem) (most c : Word) : TypeInfo → Word → Prop
  | si {p off : Word} {base : TypeInfo} : p ≠ c → Traps m most c base off → Traps m most c (.si p base) off
  | offset {p off flags : Word} {base : TypeInfo} {bases : Bases} {before after : List (Word × TypeInfo)} : p ≠ c →
      bases.toList = before ++ (flags, base) :: after → (∀ b ∈ before, ¬BaseReaches m most c off b) → isPublic flags = true →
      baseOffset m most off flags = none → Traps m most c (.vmi p bases) off
  | base {p off flags boff : Word} {base : TypeInfo} {bases : Bases} {before after : List (Word × TypeInfo)} : p ≠ c →
      bases.toList = before ++ (flags, base) :: after → (∀ b ∈ before, ¬BaseReaches m most c off b) → isPublic flags = true →
      baseOffset m most off flags = some boff → Traps m most c base (off + boff) → Traps m most c (.vmi p bases) off

/-- The same for the loop over the bases. -/
def LoopTraps (m : Mem) (most c off : Word) (bases : List (Word × TypeInfo)) : Prop :=
  ∃ before flags base after, bases = before ++ (flags, base) :: after ∧ (∀ b ∈ before, ¬BaseReaches m most c off b) ∧ isPublic flags = true ∧
    (baseOffset m most off flags = none ∨ ∃ boff, baseOffset m most off flags = some boff ∧ Traps m most c base (off + boff))

/-- What a search gives: nothing when it leaves memory; else the offset of a public path, or a negative number when there is none. -/
def SearchOk (result : Option Word) (traps : Prop) (path : Word → Prop) : Prop :=
  match result with
  | none => traps
  | some r => ¬traps ∧ ((0#32).sle r = true → path r) ∧ (¬(0#32).sle r = true → ∀ off', path off' → ¬(0#32).sle off' = true)

/-- The result for `not found` is negative. -/
theorem neg_one_not_sle : ¬(0#32).sle (-1#32) = true := by decide

section search

variable {flags boff : Word} {base : TypeInfo} {rest : List (Word × TypeInfo)}

/-- A loop over no bases needs no word. -/
theorem loopTraps_nil : ¬LoopTraps m most c off [] := fun ⟨before, _, _, _, h, _⟩ =>
  absurd h.symm (List.append_ne_nil_of_right_ne_nil before (List.cons_ne_nil _ _))

/-- The loop leaves memory at the first base, or at a later one if the first has not led to the type. -/
theorem loopTraps_cons : LoopTraps m most c off ((flags, base) :: rest) ↔
    isPublic flags = true ∧ (baseOffset m most off flags = none ∨ ∃ boff, baseOffset m most off flags = some boff ∧
      Traps m most c base (off + boff)) ∨ ¬BaseReaches m most c off (flags, base) ∧ LoopTraps m most c off rest := by
  refine ⟨fun ⟨before, flags', base', after, hsplit, hbefore, htraps⟩ => ?_, fun h => ?_⟩
  · rcases before with _ | ⟨b, before⟩
    · obtain ⟨heq, -⟩ := List.cons.inj hsplit
      obtain ⟨rfl, rfl⟩ := Prod.mk.inj heq
      exact Or.inl htraps
    · obtain ⟨rfl, hrest⟩ := List.cons.inj hsplit
      exact Or.inr ⟨hbefore _ List.mem_cons_self, before, flags', base', after, hrest,
        fun b hb => hbefore b (List.mem_cons_of_mem _ hb), htraps⟩
  · rcases h with htraps | ⟨hpassed, before, flags', base', after, hrest, hbefore, htraps⟩
    · exact ⟨[], flags, base, rest, rfl, fun b hb => (nomatch hb), htraps⟩
    · refine ⟨(flags, base) :: before, flags', base', after, by rw [hrest, List.cons_append], fun b hb => ?_, htraps⟩
      rcases List.mem_cons.mp hb with rfl | hb
      · exact hpassed
      · exact hbefore b hb

/-- A class with bases that is not the type itself is searched by the loop over its bases. -/
theorem traps_vmi {p : Word} (hp : p ≠ c) : Traps m most c (.vmi p bases) off ↔ LoopTraps m most c off bases.toList := by
  refine ⟨fun h => ?_, fun ⟨before, flags, base, after, hsplit, hbefore, hpublic, htraps⟩ => ?_⟩
  · cases h with
    | offset _ hsplit hbefore hpublic hnone => exact ⟨_, _, _, _, hsplit, hbefore, hpublic, Or.inl hnone⟩
    | base _ hsplit hbefore hpublic hsome htraps => exact ⟨_, _, _, _, hsplit, hbefore, hpublic, Or.inr ⟨_, hsome, htraps⟩⟩
  · rcases htraps with hnone | ⟨boff, hsome, htraps⟩
    · exact .offset hp hsplit hbefore hpublic hnone
    · exact .base hp hsplit hbefore hpublic hsome htraps

/-- The paths of a class with several bases go through one of them. -/
theorem hasBase_vmi {p off' : Word} (hp : p ≠ c) : HasBase m most c (.vmi p bases) off true off' ↔
    ∃ b ∈ bases.toList, isPublic b.1 = true ∧ ∃ boff, baseOffset m most off b.1 = some boff ∧ HasBase m most c b.2 (off + boff) true off' := by
  refine ⟨fun h => ?_, fun ⟨b, hb, hpublic, boff, hsome, h⟩ => ?_⟩
  · obtain ⟨pub, hpub, h⟩ : ∃ pub, pub = true ∧ HasBase m most c (.vmi p bases) off pub off' := ⟨true, rfl, h⟩
    cases h with
    | self haddr => exact absurd haddr hp
    | vmi _ hmem hsome h =>
      obtain ⟨hpublic, hrest⟩ := Bool.and_eq_true_iff.mp hpub
      rw [hrest] at h
      exact ⟨_, hmem, hpublic, _, hsome, h⟩
  · have hvmi := HasBase.vmi hp hb hsome h
    rw [hpublic] at hvmi
    exact hvmi

/-- At the type that is looked for, the search ends. -/
theorem searchOk_self (haddr : t.addr = c) (off : Word) : SearchOk (some off) (Traps m most c t off) (HasBase m most c t off true) := by
  have honly : ∀ off', HasBase m most c t off true off' → off' = off := by
    intro off' h
    obtain ⟨pub, -, h⟩ : ∃ pub, pub = true ∧ HasBase m most c t off pub off' := ⟨true, rfl, h⟩
    cases h with
    | self _ => rfl
    | si hne _ => exact absurd haddr hne
    | vmi hne _ _ _ => exact absurd haddr hne
  refine ⟨fun h => ?_, fun _ => .self haddr, fun hneg off' h => (honly off' h).symm ▸ hneg⟩
  cases h with
  | si hne _ => exact hne haddr
  | offset hne _ _ _ _ => exact hne haddr
  | base hne _ _ _ _ _ => exact hne haddr

mutual

/-- The search gives what the paths say. -/
theorem tiSearch_ok (m : Mem) (most c : Word) : ∀ (t : TypeInfo) (off : Word),
    SearchOk (tiSearch m c most t off) (Traps m most c t off) (HasBase m most c t off true)
  | .other p, off => by
    rw [tiSearch]
    by_cases hp : p = c
    · rw [if_pos hp]
      exact searchOk_self (t := .other p) hp off
    · rw [if_neg hp]
      refine ⟨fun h => (nomatch h), fun h => absurd h neg_one_not_sle, fun _ off' h => ?_⟩
      cases h with
      | self haddr => exact absurd haddr hp
  | .leaf p, off => by
    rw [tiSearch]
    by_cases hp : p = c
    · rw [if_pos hp]
      exact searchOk_self (t := .leaf p) hp off
    · rw [if_neg hp]
      refine ⟨fun h => (nomatch h), fun h => absurd h neg_one_not_sle, fun _ off' h => ?_⟩
      cases h with
      | self haddr => exact absurd haddr hp
  | .si p base, off => by
    rw [tiSearch]
    by_cases hp : p = c
    · rw [if_pos hp]
      exact searchOk_self (t := .si p base) hp off
    · rw [if_neg hp]
      have htraps : Traps m most c (.si p base) off ↔ Traps m most c base off :=
        ⟨fun h => by cases h with | si _ h => exact h, .si hp⟩
      have hpath : HasBase m most c (.si p base) off true = HasBase m most c base off true := by
        funext off'
        refine propext ⟨fun h => ?_, .si hp⟩
        cases h with
        | self haddr => exact absurd haddr hp
        | si _ h => exact h
      rw [htraps, hpath]
      exact tiSearch_ok m most c base off
  | .vmi p bases, off => by
    rw [tiSearch]
    by_cases hp : p = c
    · rw [if_pos hp]
      exact searchOk_self (t := .vmi p bases) hp off
    · rw [if_neg hp]
      have hpath : HasBase m most c (.vmi p bases) off true = fun off' => ∃ b ∈ bases.toList, isPublic b.1 = true ∧
          ∃ boff, baseOffset m most off b.1 = some boff ∧ HasBase m most c b.2 (off + boff) true off' :=
        funext fun off' => propext (hasBase_vmi hp)
      rw [traps_vmi hp, hpath]
      exact tiSearchBases_ok m most c bases off

/-- The loop gives what the paths through the bases say. -/
theorem tiSearchBases_ok (m : Mem) (most c : Word) : ∀ (bases : Bases) (off : Word),
    SearchOk (tiSearchBases m c most bases off) (LoopTraps m most c off bases.toList) fun off' => ∃ b ∈ bases.toList, isPublic b.1 = true ∧
      ∃ boff, baseOffset m most off b.1 = some boff ∧ HasBase m most c b.2 (off + boff) true off'
  | .nil, off => ⟨loopTraps_nil, fun h => absurd h neg_one_not_sle, fun _ _ ⟨_, hb, _⟩ => nomatch hb⟩
  | .cons flags base rest, off => by
    have hrest := tiSearchBases_ok m most c rest off
    rw [tiSearchBases, Bases.toList, loopTraps_cons]
    -- a base that does not lead there leaves the rest
    have hpass : ∀ {head : Prop}, ¬head → ¬BaseReaches m most c off (flags, base) →
        SearchOk (tiSearchBases m c most rest off) (head ∨ ¬BaseReaches m most c off (flags, base) ∧ LoopTraps m most c off rest.toList)
          fun off' => ∃ b ∈ (flags, base) :: rest.toList, isPublic b.1 = true ∧
            ∃ boff, baseOffset m most off b.1 = some boff ∧ HasBase m most c b.2 (off + boff) true off' := by
      intro head hhead hnot
      rw [or_iff_right hhead, and_iff_right hnot]
      cases hresult : tiSearchBases m c most rest off with
      | none =>
        rw [hresult] at hrest
        exact hrest
      | some r =>
        rw [hresult] at hrest
        obtain ⟨htraps, hfound, hmissing⟩ := hrest
        refine ⟨htraps, fun h => ?_, fun h off' ⟨b, hb, hpublic, boff, hsome, hpath⟩ hpos => ?_⟩
        · obtain ⟨b, hb, hpath⟩ := hfound h
          exact ⟨b, List.mem_cons_of_mem _ hb, hpath⟩
        · rcases List.mem_cons.mp hb with rfl | hb
          · exact hnot ⟨hpublic, boff, hsome, off', hpath, hpos⟩
          · exact hmissing h off' ⟨b, hb, hpublic, boff, hsome, hpath⟩ hpos
    by_cases hprivate : flags &&& publicMask = 0#32
    · rw [if_pos hprivate]
      have hnot : ¬isPublic flags = true := fun h => of_decide_eq_true h hprivate
      exact hpass (fun h => hnot h.1) fun h => hnot h.1
    · rw [if_neg hprivate]
      have hpublic : isPublic flags = true := decide_eq_true hprivate
      cases hoffset : baseOffset m most off flags with
      | none => exact Or.inl ⟨hpublic, Or.inl rfl⟩
      | some boff =>
        have hbase := tiSearch_ok m most c base (off + boff)
        have hhead : (isPublic flags = true ∧ (some boff = none ∨ ∃ boff', some boff = some boff' ∧ Traps m most c base (off + boff'))) ↔
            Traps m most c base (off + boff) :=
          ⟨fun ⟨_, h⟩ => by
            obtain ⟨boff', heq, h⟩ := h.resolve_left nofun
            exact Option.some.inj heq ▸ h, fun h => ⟨hpublic, Or.inr ⟨boff, rfl, h⟩⟩⟩
        rw [hhead]
        dsimp only
        cases hresult : tiSearch m c most base (off + boff) with
        | none =>
          rw [hresult] at hbase
          exact Or.inl hbase
        | some r =>
          rw [hresult] at hbase
          obtain ⟨htraps, hfound, hmissing⟩ := hbase
          dsimp only
          by_cases hpos : (0#32).sle r = true
          · rw [if_pos hpos]
            have hreaches : BaseReaches m most c off (flags, base) := ⟨hpublic, boff, hoffset, r, hfound hpos, hpos⟩
            exact ⟨fun h => h.elim htraps fun h => h.1 hreaches,
              fun _ => ⟨(flags, base), List.mem_cons_self, hpublic, boff, hoffset, hfound hpos⟩, fun h => absurd hpos h⟩
          · rw [if_neg hpos]
            refine hpass htraps fun ⟨_, boff', hsome, off', hpath, hpos'⟩ => ?_
            obtain rfl := Option.some.inj (hoffset.symm.trans hsome)
            exact hmissing hpos off' hpath hpos'

end

end search

/-- Virtual bases are the only ones whose offsets are not in the record. -/
theorem baseOffset_of_not_virtual {flags : Word} (h : flags &&& virtualMask = 0#32) (m : Mem) (most off : Word) :
    baseOffset m most off flags = some (flags.sshiftRight offsetShift) := by
  unfold baseOffset
  rw [if_neg (not_not.mpr h)]

mutual

/-- No base on the way down is virtual. -/
def TypeInfo.NoVirtual : TypeInfo → Prop
  | .other _ | .leaf _ => True
  | .si _ base => base.NoVirtual
  | .vmi _ bases => bases.NoVirtual

def Bases.NoVirtual : Bases → Prop
  | .nil => True
  | .cons offsetFlags base rest => offsetFlags &&& virtualMask = 0#32 ∧ base.NoVirtual ∧ rest.NoVirtual

end

/-- No base in the list is virtual or has a virtual one. -/
theorem Bases.NoVirtual.mem {flags : Word} {base : TypeInfo} : ∀ {bases : Bases}, bases.NoVirtual → (flags, base) ∈ bases.toList →
    flags &&& virtualMask = 0#32 ∧ base.NoVirtual
  | .nil, _, hmem => nomatch hmem
  | .cons _ _ _, ⟨hflags, hbase, hrest⟩, hmem => by
    rcases List.mem_cons.mp hmem with heq | hmem
    · obtain ⟨rfl, rfl⟩ := Prod.mk.inj heq
      exact ⟨hflags, hbase⟩
    · exact Bases.NoVirtual.mem hrest hmem

/-- Without virtual bases the subobjects do not depend on where the vtables are looked up. -/
theorem HasBase.of_noVirtual {m' : Mem} {pub : Bool} {off' : Word} (h : HasBase m most c t off pub off') (hno : t.NoVirtual) :
    HasBase m' most' c t off pub off' := by
  induction h with
  | self haddr => exact .self haddr
  | si hne _ ih => exact .si hne (ih hno)
  | @vmi p off off' boff flags base bases pub hne hmem hsome _ ih =>
    obtain ⟨hflags, hbase⟩ := Bases.NoVirtual.mem hno hmem
    refine .vmi hne hmem ?_ (ih hbase)
    rw [baseOffset_of_not_virtual hflags] at hsome ⊢
    exact hsome

/-- Nor does the search read memory. -/
theorem Traps.not_noVirtual (h : Traps m most c t off) : ¬t.NoVirtual := by
  induction h with
  | si _ _ ih => exact ih
  | offset _ hsplit _ _ hnone =>
    intro hno
    rw [baseOffset_of_not_virtual (Bases.NoVirtual.mem hno (hsplit ▸ List.mem_append_right _ List.mem_cons_self)).1] at hnone
    nomatch hnone
  | base _ hsplit _ _ _ _ ih => exact fun hno => ih (Bases.NoVirtual.mem hno (hsplit ▸ List.mem_append_right _ List.mem_cons_self)).2

/-! ## A clause -/

/-- The search for a clause ends the program: its local variable, or a word that it needs, is outside of memory. -/
def ClauseTraps (m : Mem) (dummy c : Word) (t : TypeInfo) : Prop :=
  m.size ≤ dummy.toNat ∨ Traps (m.setByte dummy.toNat 0#8) dummy c t 0#32

/-- The type is on a public path, with virtual bases looked up in the memory at the local variable of the search, which starts with a 0. -/
def FoundBase (m : Mem) (dummy c : Word) (t : TypeInfo) : Prop := Reaches (m.setByte dummy.toNat 0#8) dummy c t 0#32

/-- What is right about a clause of type `c` for an object of type `t` at `obj`: the search for it does not end the program; the pointer that
`__cxa_begin_catch` returns, after a throw from any chain of frames that has reached the clause, is that of the base subobject; and a clause
that is no public unambiguous base does not match. -/
structure CatchOk (dummy : Word) (s : EhState) (obj : Word) (t : TypeInfo) (c : Word) : Prop where
  ends : ehTypeMatches s.mem dummy t c ≠ none
  pointer : ∀ off, PublicBase s.mem obj c t off → ∀ top dtor f s', cxaThrow dummy obj t dtor { s with top := top } = .ok (f, s') →
    s'.sel = c → (cxaBeginCatch (cvmEhExc s') s').1 = obj + off
  rejects : (∀ off, ¬PublicBase s.mem obj c t off) → ehTypeMatches s.mem dummy t c = some false

/-- What `eh_type_matches` gives. -/
theorem ehTypeMatches_ok (m : Mem) (dummy : Word) (t : TypeInfo) (c : Word) :
    (ehTypeMatches m dummy t c = none ↔ ClauseTraps m dummy c t) ∧
      (ehTypeMatches m dummy t c = some true ↔ ¬ClauseTraps m dummy c t ∧ FoundBase m dummy c t) := by
  unfold ehTypeMatches Mem.stb ClauseTraps FoundBase
  by_cases hlocal : dummy.toNat < m.size
  · rw [if_pos hlocal, or_iff_right (Nat.not_le.mpr hlocal)]
    have hok := tiSearch_ok (m.setByte dummy.toNat 0#8) dummy c t 0#32
    show (((tiSearch (m.setByte dummy.toNat 0#8) c dummy t 0#32).bind fun r => some ((0#32).sle r)) = none ↔ _) ∧
      (((tiSearch (m.setByte dummy.toNat 0#8) c dummy t 0#32).bind fun r => some ((0#32).sle r)) = some true ↔ _)
    cases hresult : tiSearch (m.setByte dummy.toNat 0#8) c dummy t 0#32 with
    | none =>
      rw [hresult] at hok
      exact ⟨iff_of_true rfl hok, iff_of_false (fun h => nomatch h) fun h => h.1 hok⟩
    | some r =>
      rw [hresult] at hok
      obtain ⟨htraps, hfound, hmissing⟩ := hok
      refine ⟨iff_of_false (fun h => nomatch h) htraps, ⟨fun h => ?_, fun h => ?_⟩⟩
      · have hpos : (0#32).sle r = true := Option.some.inj h
        exact ⟨htraps, r, hfound hpos, hpos⟩
      · obtain ⟨-, off', hpath, hpos⟩ := h
        by_contra hneg
        exact hmissing (fun hpos' => hneg (congrArg some hpos')) off' hpath hpos
  · rw [if_neg hlocal]
    exact ⟨iff_of_true rfl (Or.inl (Nat.not_lt.mp hlocal)), iff_of_false (fun h => nomatch h) fun h => h.1 (Or.inl (Nat.not_lt.mp hlocal))⟩

/-- A clause is rejected if the search stays in memory and finds nothing. -/
theorem ehTypeMatches_eq_false {m : Mem} {dummy : Word} {t : TypeInfo} {c : Word} :
    ehTypeMatches m dummy t c = some false ↔ ¬ClauseTraps m dummy c t ∧ ¬FoundBase m dummy c t := by
  obtain ⟨hnone, htrue⟩ := ehTypeMatches_ok m dummy t c
  refine ⟨fun h => ?_, fun ⟨htraps, hfound⟩ => ?_⟩
  · rw [h] at hnone htrue
    have htraps : ¬ClauseTraps m dummy c t := fun htraps => nomatch hnone.mpr htraps
    exact ⟨htraps, fun hfound => nomatch htrue.mpr ⟨htraps, hfound⟩⟩
  · cases hresult : ehTypeMatches m dummy t c with
    | none => exact absurd (hnone.mp hresult) htraps
    | some found =>
      cases found with
      | true => exact absurd (htrue.mp hresult).2 hfound
      | false => rfl

section clause

variable {dummy obj dtor : Word} {s s' : EhState} {f : EhFrame}

/-- The handler gets the object. -/
theorem handlerPointer_eq (h : cxaThrow dummy obj t dtor s = .ok (f, s')) : (cxaBeginCatch (cvmEhExc s') s').1 = obj := by
  have hexc : s'.exc = obj := by
    unfold cxaThrow ehUnwind at h
    obtain ⟨l, -, hl⟩ := Except.map_eq_ok_iff.mp h
    obtain ⟨-, rfl⟩ := Prod.mk.inj hl
    rfl
  unfold cxaBeginCatch
  by_cases hnull : s'.exc ≠ 0#32
  · rw [if_pos hnull]
    exact hexc
  · rw [if_neg hnull]
    exact hexc

/-- A clause that is reached has matched. -/
theorem ehSelect_eq {m : Mem} {clauses : List Word} (hc : c ≠ 0#32) (h : ehSelect m dummy t clauses = some (some c)) :
    ehTypeMatches m dummy t c = some true := by
  induction clauses with
  | nil => nomatch h
  | cons cti rest ih =>
    rw [ehSelect] at h
    by_cases hall : cti = 0#32
    · rw [if_pos hall] at h
      exact absurd (Option.some.inj (Option.some.inj h)).symm hc
    · rw [if_neg hall] at h
      split at h
      · nomatch h
      · rename_i hmatch
        rw [← Option.some.inj (Option.some.inj h)]
        exact hmatch
      · exact ih h

/-- A landing with the type of a clause as its selector is one where the clause has matched. -/
theorem ehWalk_eq {m : Mem} {top : List EhFrame} {l : Landing} (hc : c ≠ 0#32) (h : ehWalk m dummy t top = .ok l) (hsel : l.sel = c) :
    ehTypeMatches m dummy t c = some true := by
  induction top with
  | nil => nomatch h
  | cons f top ih =>
    rw [ehWalk] at h
    split at h
    · exact ih h
    · rename_i d _
      split at h
      · nomatch h
      · rename_i sel hselect
        have hl := Except.ok.inj h
        rw [← hl] at hsel
        rw [← hsel] at hc ⊢
        exact ehSelect_eq hc hselect
      · split at h
        · have hl := Except.ok.inj h
          rw [← hl] at hsel
          exact absurd hsel.symm hc
        · exact ih h

/-- A throw that reaches a handler for a type has matched it. -/
theorem matches_of_throw (hc : c ≠ 0#32) (h : cxaThrow dummy obj t dtor s = .ok (f, s')) (hsel : s'.sel = c) :
    ehTypeMatches s.mem dummy t c = some true := by
  unfold cxaThrow ehUnwind at h
  obtain ⟨l, hwalk, hl⟩ := Except.map_eq_ok_iff.mp h
  obtain ⟨-, rfl⟩ := Prod.mk.inj hl
  exact ehWalk_eq hc hwalk hsel

/-- A clause alone is reached if it matches. -/
theorem throw_single (obj dtor : Word) (hc : c ≠ 0#32) (hmatch : ehTypeMatches s.mem dummy t c = some true) :
    ∃ f s', cxaThrow dummy obj t dtor { s with top := [⟨0#32, some ⟨[c], false⟩⟩] } = .ok (f, s') ∧ s'.sel = c := by
  have hwalk : ehWalk s.mem dummy t [⟨0#32, some ⟨[c], false⟩⟩] = .ok ⟨⟨0#32, some ⟨[c], false⟩⟩, c, []⟩ := by
    have hselect : ehSelect s.mem dummy t [c] = some (some c) := by
      rw [ehSelect, if_neg hc, hmatch]
    rw [ehWalk]
    dsimp only
    rw [hselect]
  unfold cxaThrow ehUnwind
  dsimp only [EhState.setHeader]
  rw [hwalk]
  exact ⟨_, _, rfl, rfl⟩

end clause

namespace CatchAux

/-- The right pointer and the right answer depend on the search alone. -/
theorem catchOk_iff_found (dummy : Word) (s : EhState) (obj : Word) (t : TypeInfo) (c : Word) (hc : c ≠ 0#32) : CatchOk dummy s obj t c ↔
    ¬ClauseTraps s.mem dummy c t ∧ (∀ off, PublicBase s.mem obj c t off → off = 0#32 ∨ ¬FoundBase s.mem dummy c t) ∧
      ((∀ off, ¬PublicBase s.mem obj c t off) → ¬FoundBase s.mem dummy c t) := by
  obtain ⟨hnone, htrue⟩ := ehTypeMatches_ok s.mem dummy t c
  refine ⟨fun h => ?_, fun ⟨htraps, hpointer, hrejects⟩ => ⟨fun h => htraps (hnone.mp h), fun off hbase top dtor f s' hthrow hsel => ?_,
    fun hall => ehTypeMatches_eq_false.mpr ⟨htraps, hrejects hall⟩⟩⟩
  · have htraps : ¬ClauseTraps s.mem dummy c t := fun htraps => h.ends (hnone.mpr htraps)
    refine ⟨htraps, fun off hbase => ?_, fun hall => (ehTypeMatches_eq_false.mp (h.rejects hall)).2⟩
    by_cases hfound : FoundBase s.mem dummy c t
    · obtain ⟨f, s', hthrow, hsel⟩ := throw_single obj 0#32 hc (htrue.mpr ⟨htraps, hfound⟩)
      have hoff := h.pointer off hbase _ _ f s' hthrow hsel
      rw [handlerPointer_eq hthrow] at hoff
      exact Or.inl (BitVec.add_right_eq_self.mp hoff.symm)
    · exact Or.inr hfound
  · have hmatch : ehTypeMatches s.mem dummy t c = some true := matches_of_throw (s := { s with top := top }) hc hthrow hsel
    have hfound := (htrue.mp hmatch).2
    rw [handlerPointer_eq hthrow, (hpointer off hbase).resolve_right (not_not.mpr hfound), BitVec.add_zero]

/-- Without virtual bases the search reads no vtable. -/
theorem not_clauseTraps {m : Mem} {dummy c : Word} {t : TypeInfo} (hno : t.NoVirtual) (hlocal : dummy.toNat < m.size) :
    ¬ClauseTraps m dummy c t := fun h => h.elim (Nat.not_le.mpr hlocal) fun h => h.not_noVirtual hno

/-- Without virtual bases the search finds what a public path leads to. -/
theorem catchOk_iff_public (dummy : Word) (s : EhState) (obj : Word) (t : TypeInfo) (c : Word) (hc : c ≠ 0#32) (hno : t.NoVirtual)
    (hlocal : dummy.toNat < s.mem.size) (hpos : ∀ off, HasBase s.mem obj c t 0#32 true off → (0#32).sle off = true) :
    CatchOk dummy s obj t c ↔ ∀ off, HasBase s.mem obj c t 0#32 true off → PublicBase s.mem obj c t 0#32 := by
  have hfound : ∀ off, HasBase s.mem obj c t 0#32 true off → FoundBase s.mem dummy c t :=
    fun off hbase => ⟨off, hbase.of_noVirtual hno, hpos off hbase⟩
  rw [catchOk_iff_found dummy s obj t c hc, and_iff_right (not_clauseTraps hno hlocal)]
  refine ⟨fun ⟨hpointer, hrejects⟩ off hbase => ?_, fun h => ⟨fun off hbase => Or.inl ?_, fun hnone hfound => ?_⟩⟩
  · by_cases hpublic : ∃ off', PublicBase s.mem obj c t off'
    · obtain ⟨off', hpublic⟩ := hpublic
      rw [← (hpointer off' hpublic).resolve_right (not_not.mpr (hfound off hbase))]
      exact hpublic
    · exact absurd (hfound off hbase) (hrejects fun off' hpublic' => hpublic ⟨off', hpublic'⟩)
  · exact (h off hbase.1).2 true off hbase.1
  · obtain ⟨off, hbase, -⟩ := hfound
    exact hnone 0#32 (h off (hbase.of_noVirtual hno))

end CatchAux

open CatchAux

/-- A clause is handled right exactly if the search for it stays in memory, and its type is a public unambiguous base at the beginning of the
object, or the search does not find it. Without virtual bases that is: every public path to the type leads to a public unambiguous base at the
beginning of the object. -/
theorem catch_by_base (dummy : Word) (s : EhState) (obj : Word) (t : TypeInfo) (c : Word) (hc : c ≠ 0#32) :
    (CatchOk dummy s obj t c ↔ ¬ClauseTraps s.mem dummy c t ∧
      (∀ off, PublicBase s.mem obj c t off → off = 0#32 ∨ ¬FoundBase s.mem dummy c t) ∧
      ((∀ off, ¬PublicBase s.mem obj c t off) → ¬FoundBase s.mem dummy c t)) ∧
    (t.NoVirtual → dummy.toNat < s.mem.size → (∀ off, HasBase s.mem obj c t 0#32 true off → (0#32).sle off = true) →
      (CatchOk dummy s obj t c ↔ ∀ off, HasBase s.mem obj c t 0#32 true off → PublicBase s.mem obj c t 0#32)) :=
  ⟨catchOk_iff_found dummy s obj t c hc, catchOk_iff_public dummy s obj t c hc⟩

/-! ## The second of two bases -/

/-- A class of two public bases, the second one at 4. -/
def twoBases : TypeInfo := .vmi 16#32 (.cons 0x002#32 (.leaf 24#32) (.cons 0x402#32 (.leaf 32#32) .nil))

/-- The first base is at offset 0. -/
theorem twoBases_first (m : Mem) (most : Word) : PublicBase m most 24#32 twoBases 0#32 := by
  have hpath : HasBase m most 24#32 (.leaf 24#32) (0#32 + 0#32) true 0#32 := .self rfl
  have hoffset : baseOffset m most 0#32 0x002#32 = some 0#32 := baseOffset_of_not_virtual (by decide) m most 0#32
  refine ⟨.vmi (by decide : (16#32 : Word) ≠ 24#32) List.mem_cons_self hoffset hpath, fun pub off' h => ?_⟩
  cases h with
  | self haddr => exact absurd haddr (by decide)
  | vmi _ hmem hsome hbase =>
    rcases List.mem_cons.mp hmem with heq | hmem
    · obtain ⟨rfl, rfl⟩ := Prod.mk.inj heq
      obtain rfl := Option.some.inj hsome
      cases hbase
      rfl
    · obtain ⟨rfl, rfl⟩ := Prod.mk.inj (List.mem_singleton.mp hmem)
      cases hbase with
      | self haddr => exact absurd haddr (by decide)

/-- The second base is at offset 4. -/
theorem twoBases_second (m : Mem) (most : Word) : PublicBase m most 32#32 twoBases 4#32 := by
  have hpath : HasBase m most 32#32 (.leaf 32#32) (0#32 + 4#32) true 4#32 := .self rfl
  have hoffset : baseOffset m most 0#32 0x402#32 = some 4#32 := baseOffset_of_not_virtual (by decide) m most 0#32
  refine ⟨.vmi (by decide : (16#32 : Word) ≠ 32#32) (List.mem_cons_of_mem _ List.mem_cons_self) hoffset hpath, fun pub off' h => ?_⟩
  cases h with
  | self haddr => exact absurd haddr (by decide)
  | vmi _ hmem hsome hbase =>
    rcases List.mem_cons.mp hmem with heq | hmem
    · obtain ⟨rfl, rfl⟩ := Prod.mk.inj heq
      cases hbase with
      | self haddr => exact absurd haddr (by decide)
    · obtain ⟨rfl, rfl⟩ := Prod.mk.inj (List.mem_singleton.mp hmem)
      obtain rfl := Option.some.inj hsome
      cases hbase
      rfl

/-- A state before the throw. -/
def twoBasesState : EhState := ⟨⟨64, fun _ => 0⟩, [], 0#32, .null, 0#32, fun _ => ⟨.null, 0#32, 0⟩, []⟩

/-- The handler of the second base gets the object and not the base. -/
theorem twoBases_second_not_ok : PublicBase twoBasesState.mem 48#32 32#32 twoBases 4#32 ∧
    ¬CatchOk 0#32 twoBasesState 48#32 twoBases 32#32 := by
  refine ⟨twoBases_second _ _, fun hok => ?_⟩
  have hoff := ((catchOk_iff_found _ _ _ _ _ (by decide)).mp hok).2.1 4#32 (twoBases_second _ _)
  have hfound : FoundBase twoBasesState.mem 0#32 32#32 twoBases := ⟨4#32, (twoBases_second _ _).1, by decide⟩
  exact absurd (hoff.resolve_right (not_not.mpr hfound)) (by decide)

/-- The first base is caught with the right pointer. -/
theorem catch_by_base_first : CatchOk 0#32 twoBasesState 48#32 twoBases 24#32 := by
  have hpublic := twoBases_first twoBasesState.mem 48#32
  refine ((catch_by_base 0#32 twoBasesState 48#32 twoBases 24#32 (by decide)).2 ⟨by decide, trivial, by decide, trivial, trivial⟩ (by decide)
    fun off hbase => ?_).mpr fun _ _ => hpublic
  rw [hpublic.2 true off hbase]
  decide

end CronoVM
