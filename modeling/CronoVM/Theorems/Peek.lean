import CronoVM.Lemmas.SectionTable
import CronoVM.Theorems.Load

/-!
# Peeking into a loaded file

`cvm_peek_section` asks the range in the file of every section, the loader only of those that have a payload.
-/

namespace CronoVM

open Checked

/-- What a host may expect of `cvm_peek_section` for a type in a loaded file: the section is found, with its payload if it has one, or it
is absent, and the file is not malformed. -/
structure PeekAgrees (base : List Byte) (type : SectionType) : Prop where
  present : ∀ e, fileEntry base type = some e → ∃ off size, cvmPeekSection base type = .found off size ∧
    (type.hasPayload = true → off = e.fileOff.toNat ∧ size = e.size)
  absent : fileEntry base type = none → cvmPeekSection base type = .absent
  well_formed : cvmPeekSection base type ≠ .malformed

namespace PeekAux

variable {base : List Byte} {type : SectionType}

/-- The entry of a type in a loadable file. -/
theorem accepts_of_fileEntry (hload : Loadable base) {e : SectionEntry} (he : fileEntry base type = some e) :
    ∃ i, e = entryAt base (u32At base 16) i ∧ LoadAux.Accepts base (u32At base 16) i type := by
  have htype : e.type = type.num := by simpa using List.find?_some he
  obtain ⟨i, hi, rfl⟩ := List.mem_map.mp (List.mem_of_find?_eq_some he)
  obtain ⟨type', haccepts⟩ := hload.sections i (List.mem_range.mp hi)
  have heq : type' = type := SectionType.num_injective ((SectionType.num_of_ofNum? haccepts.type_eq).trans htype)
  exact ⟨i, rfl, heq ▸ haccepts⟩

/-- The size of a section is that of its entry. -/
theorem fileSize_of_fileEntry {e : SectionEntry} (he : fileEntry base type = some e) : fileSize base type = e.size := by
  rw [fileSize, he]
  rfl

/-- The range of an entry is in the file if its section has a payload, or its size is at most that of the file. -/
theorem range_iff (hload : Loadable base) {e : SectionEntry} (he : fileEntry base type = some e) :
    e.fileOff.toNat + e.size.toNat ≤ base.length ↔ type.hasPayload = true ∨ (fileSize base type).toNat ≤ base.length := by
  obtain ⟨i, rfl, haccepts⟩ := accepts_of_fileEntry hload he
  rw [fileSize_of_fileEntry he]
  by_cases hpayload : type.hasPayload = true
  · exact iff_of_true (haccepts.payload hpayload) (Or.inl hpayload)
  · rw [haccepts.noPayload (eq_false_of_ne_true hpayload), or_iff_right hpayload]
    exact iff_of_eq (congrArg (· ≤ base.length) (Nat.zero_add _))

end PeekAux

open PeekAux

/-- The file is not malformed to `cvm_peek_section` exactly if the section of the type has a payload, or its size is at most that of the
file. -/
theorem peek_agrees_iff {κ A : Type} (al : Allocator A) (base : List Byte) (world : A) (img : Image κ) (t : LoadState A)
    (h : cvmLoadEx al base (LoadState.start world) = .val img t) (type : SectionType) :
    PeekAgrees base type ↔ type.hasPayload = true ∨ (fileSize base type).toNat ≤ base.length := by
  obtain ⟨hload, -, -⟩ := imageOf_of_load h
  have hpeek := cvmPeekSection_eq hload.length hload.magic hload.table type
  constructor
  · intro hagrees
    cases he : fileEntry base type with
    | none =>
      have hsize : fileSize base type = 0 := by
        rw [fileSize, he]
        rfl
      rw [hsize]
      exact Or.inr (Nat.zero_le _)
    | some e =>
      rw [← range_iff hload he]
      by_contra hout
      rw [he, peekEntry, if_pos (Nat.lt_of_not_le hout)] at hpeek
      exact hagrees.well_formed hpeek
  · intro hfits
    cases he : fileEntry base type with
    | none =>
      rw [he] at hpeek
      refine ⟨fun e he' => ?_, fun _ => hpeek, fun hbad => ?_⟩
      · rw [he] at he'
        cases he'
      · rw [hpeek] at hbad
        cases hbad
    | some e =>
      have hin := (range_iff hload he).mpr hfits
      rw [he, peekEntry, if_neg (Nat.not_lt.mpr hin)] at hpeek
      refine ⟨fun e' he' => ?_, fun hnone => ?_, fun hbad => ?_⟩
      · rw [he] at he'
        rw [← Option.some.inj he']
        exact ⟨_, _, hpeek, fun _ => ⟨rfl, rfl⟩⟩
      · rw [he] at hnone
        cases hnone
      · rw [hpeek] at hbad
        cases hbad

/-- The loader and the peek agree on the BSS of the sample. -/
theorem peek_agrees_iff_sampleFile : PeekAgrees sampleFile .bss := by
  obtain ⟨img, t, h⟩ := sampleFile_loads
  exact (peek_agrees_iff bumpAllocator sampleFile 0 img t h .bss).mpr (Or.inr (by decide +kernel))

/-- A file of 60 bytes with a word of CODE and 4096 bytes of BSS. -/
def largeBssFile : List Byte := wordFile [0x314D5643, 0x00010000, 0, 2, 24, 0, 1, 56, 4, 0, 3, 0, 4096, 0, 0]

theorem largeBssFile_malformed : (∃ (img : Image Unit) (t : LoadState Nat),
    cvmLoadEx bumpAllocator largeBssFile (LoadState.start 0) = .val img t) ∧ ¬PeekAgrees largeBssFile .bss :=
  ⟨Outcome.exists_of_isVal (by decide +kernel), fun hagrees => hagrees.well_formed (by decide +kernel)⟩

end CronoVM
