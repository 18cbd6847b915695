import CronoVM.Format
import CronoVM.Loader

/-!
# The section table of a file

What a file's section table says, apart from how the loader reads it: its entries, and the entry of a type. `loadSection` is then one
statement: a turn of the loop accepts its entry exactly when `Accepts` holds, and leaves the locals as the entries read so far say.
-/

namespace CronoVM

open Checked

/-! ## Entries -/

/-- One entry of a section table. -/
structure SectionEntry where
  type : Word
  fileOff : Word
  size : Word
  flags : Word
  deriving DecidableEq

/-- Entry `i` of a table that starts at `tableOff`. -/
def entryAt (base : List Byte) (tableOff : Word) (i : Nat) : SectionEntry :=
  let sec := tableOff.toNat + i * sectionSize
  { type := u32At base sec, fileOff := u32At base (sec + 4), size := u32At base (sec + 8), flags := u32At base (sec + 12) }

/-- The first of the first `n` entries that has the given type. -/
def findEntry (base : List Byte) (tableOff : Word) (n : Nat) (type : SectionType) : Option SectionEntry :=
  ((List.range n).map (entryAt base tableOff)).find? fun e => e.type == type.num

/-- The entry of a type in the table of a file. -/
def fileEntry (base : List Byte) (type : SectionType) : Option SectionEntry :=
  findEntry base (u32At base 16) (u32At base 12).toNat type

/-- The size a file gives for the section of a type; 0 when it has none. -/
def fileSize (base : List Byte) (type : SectionType) : Word := ((fileEntry base type).map SectionEntry.size).getD 0

/-- Where the section of a type starts in the file. -/
def fileOff (base : List Byte) (type : SectionType) : Word := ((fileEntry base type).map SectionEntry.fileOff).getD 0

namespace LoadAux

/-- What the loader asks of entry `i`, given the entries before it. -/
structure Accepts (base : List Byte) (tableOff : Word) (i : Nat) (type : SectionType) : Prop where
  type_eq : SectionType.ofNum? (entryAt base tableOff i).type = some type
  flags : (entryAt base tableOff i).flags = 0
  fresh : type ≠ .debug → findEntry base tableOff i type = none
  payload : type.hasPayload = true →
    (entryAt base tableOff i).fileOff.toNat + (entryAt base tableOff i).size.toNat ≤ base.length
  noPayload : type.hasPayload = false → (entryAt base tableOff i).fileOff = 0
  whole : type = .code ∨ type = .funcs →
    (entryAt base tableOff i).size ≠ 0 ∧ (entryAt base tableOff i).size % 4 = 0

/-- The types whose place and size the loader keeps. -/
def Kept (type : SectionType) : Prop := type ≠ .metadata ∧ type ≠ .integritySeal ∧ type ≠ .debug

/-- The locals of the loop after the first `n` entries. -/
structure SectionsAt (base : List Byte) (tableOff : Word) (n : Nat) (t : Sections) : Prop where
  accepted : ∀ i, i < n → ∃ type, Accepts base tableOff i type
  seen : ∀ type, type ≠ .debug → t.seen type = (findEntry base tableOff n type).isSome
  size : ∀ type, Kept type → t.size type = ((findEntry base tableOff n type).map SectionEntry.size).getD 0
  off : ∀ type, Kept type → type.hasPayload = true → t.off type = ((findEntry base tableOff n type).map SectionEntry.fileOff).getD 0
  hasCode : t.hasCode = (findEntry base tableOff n .code).isSome

variable {A : Type} {base : List Byte} {tableOff : Word}

theorem sectionsAt_empty : SectionsAt base tableOff 0 Sections.empty :=
  ⟨fun _ h => absurd h (Nat.not_lt_zero _), fun _ _ => rfl, fun _ _ => rfl, fun _ _ _ => rfl, rfl⟩

theorem findEntry_succ (n : Nat) (type : SectionType) : findEntry base tableOff (n + 1) type =
    (findEntry base tableOff n type).or
      (if (entryAt base tableOff n).type = type.num then some (entryAt base tableOff n) else none) := by
  unfold findEntry
  rw [List.range_succ, List.map_append, List.find?_append]
  by_cases h : (entryAt base tableOff n).type = type.num <;> simp [h]

/-- The new entry is the one of its type. -/
theorem findEntry_succ_same {i : Nat} {type : SectionType} (h : Accepts base tableOff i type) (hd : type ≠ .debug) :
    findEntry base tableOff (i + 1) type = some (entryAt base tableOff i) := by
  rw [findEntry_succ, h.fresh hd, Option.none_or, if_pos (SectionType.num_of_ofNum? h.type_eq).symm]

/-- The entries of the other types are as before. -/
theorem findEntry_succ_other {i : Nat} {type u : SectionType} (h : Accepts base tableOff i type) (hu : u ≠ type) :
    findEntry base tableOff (i + 1) u = findEntry base tableOff i u := by
  have hne : (entryAt base tableOff i).type ≠ u.num := fun he =>
    hu (SectionType.num_injective (he.symm.trans (SectionType.num_of_ofNum? h.type_eq).symm))
  rw [findEntry_succ, if_neg hne, Option.or_none]

/-- What the switch does to the locals for an entry of the given type. -/
structure Stores (type : SectionType) (fileOff size : Word) (t t' : Sections) : Prop where
  seen : t'.seen = t.seen
  size : ∀ u, Kept u → t'.size u = if u = type then size else t.size u
  off : ∀ u, Kept u → u.hasPayload = true → t'.off u = if u = type then fileOff else t.off u
  hasCode : t'.hasCode = (t.hasCode || decide (.code = type))

/-- The switch stores the entry, and stops only at a code or function section that is empty or not made of words. -/
theorem wp_storeSection {Q : Sections → LoadState A → Prop} {E : CvmResult → LoadState A → Prop} {s : LoadState A} {t : Sections}
    {type : SectionType} {fileOff size : Word}
    (hok : (type = .code ∨ type = .funcs → size ≠ 0 ∧ size % 4 = 0) → ∀ t', Stores type fileOff size t t' → Q t' s)
    (hbad : ¬(type = .code ∨ type = .funcs → size ≠ 0 ∧ size % 4 = 0) → ∀ e, E e s) :
    Exec.wp (storeSection t type fileOff size) Q E s := by
  have hplace : ∀ b, Stores type fileOff size t { t.place type fileOff size with hasCode := b } ↔
      b = (t.hasCode || decide (.code = type)) := fun b =>
    ⟨fun h => h.hasCode, fun h => ⟨rfl, fun u _ => Function.update_apply _ _ _ _, fun u _ _ => Function.update_apply _ _ _ _, h⟩⟩
  have hsized : type.hasPayload = false → .code ≠ type → Stores type fileOff size t (t.sized type size) := fun hp hc =>
    ⟨rfl, fun u _ => Function.update_apply _ _ _ _,
      fun u _ hu => by rw [if_neg (fun h => by simp [h, hp] at hu)]; rfl, by simp [Sections.sized, hc]⟩
  have hskip : ¬Kept type → .code ≠ type → Stores type fileOff size t t := fun hk hc =>
    have hne : ∀ u, Kept u → u ≠ type := fun u hu h => hk (h ▸ hu)
    ⟨rfl, fun u hu => by rw [if_neg (hne u hu)], fun u hu _ => by rw [if_neg (hne u hu)], by simp [hc]⟩
  have hwhole : type = .code ∨ type = .funcs → ∀ e, (size = 0 ∨ size % 4 ≠ 0) → E e s := fun ht e h =>
    hbad (fun hw => by rcases h with h | h <;> simp_all) e
  cases type with
  | code =>
    simp only [storeSection, Exec.wp_bind, Exec.wp_stopIf, Exec.wp_pure]
    exact ⟨hwhole (Or.inl rfl) _, fun h => hok (fun _ => by simpa using h) _ ((hplace true).mpr (by simp))⟩
  | funcs =>
    simp only [storeSection, Exec.wp_bind, Exec.wp_stopIf, Exec.wp_pure]
    exact ⟨hwhole (Or.inr rfl) _, fun h => hok (fun _ => by simpa using h) _ ((hplace t.hasCode).mpr (by simp))⟩
  | data | imports | hostRegion | rom => exact hok (by simp) _ ((hplace t.hasCode).mpr (by simp))
  | bss | heapReserve | stackReserve => exact hok (by simp) _ (hsized rfl (by decide))
  | metadata | integritySeal | debug => exact hok (by simp) _ (hskip (by simp [Kept]) (by decide))

/-- What a turn that accepts its entry does to the locals. -/
theorem sectionsAt_succ {i : Nat} {type : SectionType} {t t₁ t' : Sections} (ht : SectionsAt base tableOff i t)
    (h : Accepts base tableOff i type)
    (ht₁ : t₁ = if type ≠ .debug then { t with seen := Function.update t.seen type true } else t)
    (hst : Stores type (entryAt base tableOff i).fileOff (entryAt base tableOff i).size t₁ t') :
    SectionsAt base tableOff (i + 1) t' := by
  have hsize : t₁.size = t.size := by subst ht₁; split <;> rfl
  have hoff : t₁.off = t.off := by subst ht₁; split <;> rfl
  have hcode : t₁.hasCode = t.hasCode := by subst ht₁; split <;> rfl
  have hseen : ∀ u, u ≠ .debug → t₁.seen u = (t.seen u || decide (u = type)) := by
    intro u hu
    subst ht₁
    by_cases hut : u = type
    · subst hut; simp [hu]
    · split <;> simp [hut]
  refine ⟨fun j hj => ?_, fun u hu => ?_, fun u hu => ?_, fun u hu hp => ?_, ?_⟩
  · rcases Nat.lt_succ_iff_lt_or_eq.mp hj with hlt | rfl
    · exact ht.accepted j hlt
    · exact ⟨type, h⟩
  · rw [hst.seen, hseen u hu, ht.seen u hu]
    by_cases hut : u = type
    · subst hut
      simp [findEntry_succ_same h hu]
    · simp [findEntry_succ_other h hut, hut]
  · rw [hst.size u hu, hsize, ht.size u hu]
    by_cases hut : u = type
    · subst hut
      simp [findEntry_succ_same h hu.2.2]
    · simp [findEntry_succ_other h hut, hut]
  · rw [hst.off u hu hp, hoff, ht.off u hu hp]
    by_cases hut : u = type
    · subst hut
      simp [findEntry_succ_same h hu.2.2]
    · simp [findEntry_succ_other h hut, hut]
  · rw [hst.hasCode, hcode, ht.hasCode]
    by_cases hut : SectionType.code = type
    · subst hut
      simp [findEntry_succ_same h (by decide)]
    · simp [findEntry_succ_other h hut, hut]

/-- One turn of the section loop: an accepted entry is added to the locals, and only an entry that is not acceptable stops the
load. -/
theorem wp_loadSection {Q : Sections → LoadState A → Prop} {E : CvmResult → LoadState A → Prop} {s : LoadState A} {i : Nat}
    {t : Sections} (hread : tableOff.toNat + (i + 1) * sectionSize ≤ base.length) (ht : SectionsAt base tableOff i t)
    (hok : ∀ type t', Accepts base tableOff i type → SectionsAt base tableOff (i + 1) t' → Q t' s)
    (hbad : (∀ type, ¬Accepts base tableOff i type) → ∀ e, E e s) :
    Exec.wp (loadSection base tableOff i t) Q E s := by
  simp only [sectionSize] at hread
  simp only [loadSection, Exec.wp_bind, wp_readU32Le, Exec.wp_stopIf, sectionSize]
  refine ⟨by omega, by omega, by omega, by omega, fun hflags => hbad (fun u hu => hflags hu.flags) _, fun hflags => ?_⟩
  have hflags : (entryAt base tableOff i).flags = 0 := not_not.mp hflags
  cases htype : SectionType.ofNum? (entryAt base tableOff i).type with
  | none =>
    simp only [entryAt, sectionSize] at htype
    simp only [htype, Exec.wp_stop]
    exact hbad (fun u hu => by have := hu.type_eq; simp [entryAt, sectionSize, htype] at this) _
  | some type =>
    have hsame : ∀ {u}, Accepts base tableOff i u → u = type := fun hu => Option.some.inj (hu.type_eq.symm.trans htype)
    have htype' := htype
    simp only [entryAt, sectionSize] at htype'
    simp only [htype', Exec.wp_bind, Exec.wp_stopIf]
    refine ⟨fun hdup => hbad (fun u hu => ?_) _, fun hdup => ?_⟩
    · obtain rfl := hsame hu
      have := ht.seen u hdup.1
      simp [hdup.2, hu.fresh hdup.1] at this
    have hfresh : type ≠ .debug → findEntry base tableOff i type = none := fun hd => by
      have := ht.seen type hd
      simp only [not_and, Bool.not_eq_true] at hdup
      simpa [hdup hd] using this
    -- The switch, once the payload of the entry has passed its check.
    have hstore : (type.hasPayload = true → (entryAt base tableOff i).fileOff.toNat + (entryAt base tableOff i).size.toNat
          ≤ base.length) → (type.hasPayload = false → (entryAt base tableOff i).fileOff = 0) →
        Exec.wp (storeSection (if type ≠ .debug then { t with seen := Function.update t.seen type true } else t) type
          (entryAt base tableOff i).fileOff (entryAt base tableOff i).size) Q E s := fun hp hn =>
      wp_storeSection
        (fun hw t' hst => have hacc : Accepts base tableOff i type := ⟨htype, hflags, hfresh, hp, hn, hw⟩
          hok type t' hacc (sectionsAt_succ ht hacc rfl hst))
        (fun hw e => hbad (fun u hu => by obtain rfl := hsame hu; exact hw hu.whole) e)
    simp only [Exec.wp_ite, Exec.wp_bind, Exec.wp_stopIf]
    refine ⟨fun hp => ⟨fun hlen => ?_, fun hlen => ?_⟩, fun hp => ⟨fun hz => ?_, fun hz => ?_⟩⟩
    · exact hbad (fun u hu => by obtain rfl := hsame hu; exact Nat.not_le.mpr hlen (hu.payload hp)) _
    · exact hstore (fun _ => Nat.le_of_not_lt hlen) (fun h => by simp [hp] at h)
    · exact hbad (fun u hu => by obtain rfl := hsame hu; exact hz (hu.noPayload (by simpa using hp))) _
    · exact hstore (fun h => absurd h hp) (fun _ => not_not.mp hz)

/-- An accepted table has the payloads of its sections inside the file. -/
theorem payload_le {n : Nat} {type : SectionType} (h : ∀ i, i < n → ∃ type, Accepts base tableOff i type)
    (hp : type.hasPayload = true) : (((findEntry base tableOff n type).map SectionEntry.fileOff).getD 0).toNat +
      (((findEntry base tableOff n type).map SectionEntry.size).getD 0).toNat ≤ base.length := by
  cases hfind : findEntry base tableOff n type with
  | none => simp
  | some e =>
    have hmem := List.mem_of_find?_eq_some hfind
    have htype : e.type = type.num := by simpa using List.find?_some hfind
    obtain ⟨i, hi, rfl⟩ := List.mem_map.mp hmem
    obtain ⟨u, hu⟩ := h i (List.mem_range.mp hi)
    have hut : u = type := SectionType.num_injective ((SectionType.num_of_ofNum? hu.type_eq).trans htype)
    subst hut
    simpa using hu.payload hp

/-- An accepted table has whole words in its code and function sections. -/
theorem whole_of_find {n : Nat} {type : SectionType} (h : ∀ i, i < n → ∃ type, Accepts base tableOff i type)
    (ht : type = .code ∨ type = .funcs) {e : SectionEntry} (hfind : findEntry base tableOff n type = some e) :
    e.size ≠ 0 ∧ e.size % 4 = 0 := by
  have hmem := List.mem_of_find?_eq_some hfind
  have htype : e.type = type.num := by simpa using List.find?_some hfind
  obtain ⟨i, hi, rfl⟩ := List.mem_map.mp hmem
  obtain ⟨u, hu⟩ := h i (List.mem_range.mp hi)
  have hut : u = type := SectionType.num_injective ((SectionType.num_of_ofNum? hu.type_eq).trans htype)
  subst hut
  exact hu.whole ht

end LoadAux

/-! ## The section that is found

The loop of `cvm_peek_section` stops at the first entry of its type, and asks only of this entry that its range is in the file. -/

section peek

variable {base : List Byte}

/-- What `cvm_peek_section` makes of the entry it stops at. -/
def peekEntry (base : List Byte) : Option SectionEntry → PeekResult
  | none => .absent
  | some e => if e.fileOff.toNat + e.size.toNat > base.length then .malformed else .found e.fileOff.toNat e.size

theorem peekFrom_eq (tableOff : Word) (type : SectionType) (n i : Nat) : peekFrom base tableOff type.num n i =
    peekEntry base (((List.range' i n).map (entryAt base tableOff)).find? fun e => e.type == type.num) := by
  induction n generalizing i with
  | zero => rfl
  | succ n ih =>
    rw [peekFrom, List.range'_succ, List.map_cons]
    by_cases htype : (entryAt base tableOff i).type = type.num
    · rw [List.find?_cons_of_pos (by simpa using htype)]
      exact if_neg (not_not.mpr htype)
    · rw [List.find?_cons_of_neg (by simpa using htype), ← ih]
      exact if_pos htype

theorem cvmPeekSection_eq (hlen : headerSize ≤ base.length) (hmagic : magicOk base = true)
    (htable : (u32At base 16).toNat + (u32At base 12).toNat * sectionSize ≤ base.length) (type : SectionType) :
    cvmPeekSection base type = peekEntry base (fileEntry base type) := by
  unfold cvmPeekSection
  rw [if_neg (Nat.not_lt.mpr hlen), if_neg (by simp [hmagic])]
  dsimp only
  rw [if_neg (Nat.not_lt.mpr htable), peekFrom_eq, ← List.range_eq_range']
  rfl

end peek

end CronoVM
