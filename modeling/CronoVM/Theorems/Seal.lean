import CronoVM.Lemmas.SectionTable
import CronoVM.Lib.HasAt
import CronoVM.Lib.Lfsr
import CronoVM.Theorems.Load

/-!
# The seal

`cvm_crc32` is a shift register with linear feedback that takes the bits of each byte from the lowest on. So it tells strings apart that
differ within 32 consecutive bits, and `cvm_seal_check` tells a burst in front of the seal.
-/

namespace CronoVM

open Lfsr

/-- Bit `n` of a string in the order of the CRC: the lowest bit of the first byte is bit 0. -/
def bitOf (bytes : List Byte) (n : Nat) : Bool := (bytes.getD (n / 8) 0).getLsbD (n % 8)

/-- Byte `i` of a file is neither of the header nor of the section table. -/
def OutsideTables (base : List Byte) (i : Nat) : Prop :=
  headerSize ≤ i ∧ ¬((u32At base 16).toNat ≤ i ∧ i < (u32At base 16).toNat + (u32At base 12).toNat * sectionSize)

/-- Byte `i` of a file lies before the payload of the seal. -/
def BeforeSeal (base : List Byte) (i : Nat) : Prop := ∀ off size, cvmPeekSection base .integritySeal = .found off size → i < off

namespace SealAux

/-! ## The register of the CRC -/

def poly : Word := 0xEDB88320

/-- The bits of a byte, the lowest first. -/
def byteBits (b : Byte) : List Bool := (List.range 8).map b.getLsbD

/-- One bit is a step of the shift register. -/
theorem crc32Bit_eq (x : Word) : crc32Bit x = step poly x := by
  have hmask : 0xEDB88320 &&& -(x &&& 1) = if x.getLsbD 0 then poly else 0#32 := by
    have hone : x &&& 1 = (BitVec.ofBool (x.getLsbD 0)).setWidth 32 := BitVec.and_one_eq_setWidth_ofBool_getLsbD
    rw [hone]
    cases x.getLsbD 0 with
    | false => rfl
    | true => rfl
  rw [crc32Bit, hmask]
  rfl

/-- One byte is eight of them. -/
theorem crc32Byte_eq (x : Word) (b : Byte) : crc32Byte x b = feed poly x (byteBits b) := by
  have hbits : ofBits 32 (byteBits b) = b.setWidth 32 := by
    apply BitVec.eq_of_getLsbD_eq
    intro i hi
    rw [getLsbD_ofBits, BitVec.getLsbD_setWidth, decide_eq_true hi, Bool.true_and, Bool.true_and, byteBits, List.getD_eq_getElem?_getD]
    by_cases hlow : i < 8
    · simp [hlow]
    · simp [hlow, BitVec.getLsbD_of_ge b i (by omega)]
  have hlen : (byteBits b).length = 8 := by
    rw [byteBits, List.length_map, List.length_range]
  rw [feed_eq x (by omega), hbits, hlen]
  simp only [crc32Byte, crc32Bit_eq]
  rfl

/-- All bytes, one behind the other. -/
theorem foldl_crc32Byte (x : Word) (data : List Byte) : data.foldl crc32Byte x = feed poly x (data.flatMap byteBits) := by
  induction data generalizing x with
  | nil => rfl
  | cons b data ih => rw [List.foldl_cons, ih, crc32Byte_eq, List.flatMap_cons, feed_append]

/-- The bits of the data by their numbers. -/
theorem getElem?_bits (data : List Byte) (n : Nat) :
    (data.flatMap byteBits)[n]? = if n < 8 * data.length then some (bitOf data n) else none := by
  induction data generalizing n with
  | nil => simp
  | cons b data ih =>
    have hlen : (byteBits b).length = 8 := by
      rw [byteBits, List.length_map, List.length_range]
    rw [List.flatMap_cons, List.length_cons]
    by_cases hlow : n < 8
    · have hbit : bitOf (b :: data) n = b.getLsbD n := by
        rw [bitOf, Nat.div_eq_of_lt hlow, Nat.mod_eq_of_lt hlow]
        rfl
      rw [List.getElem?_append_left (by omega), if_pos (by omega), hbit]
      simp [byteBits, hlow]
    · have hbit : bitOf (b :: data) n = bitOf data (n - 8) := by
        obtain ⟨m, rfl⟩ := Nat.exists_eq_add_of_le (Nat.not_lt.mp hlow)
        rw [bitOf, bitOf, Nat.add_sub_cancel_left, Nat.add_div_left m (by decide), Nat.add_mod_left]
        rfl
      rw [List.getElem?_append_right (by omega), hlen, ih, hbit]
      by_cases hlt : n < 8 * (data.length + 1)
      · rw [if_pos hlt, if_pos (by omega)]
      · rw [if_neg hlt, if_neg (by omega)]

/-- Eight bits for each byte. -/
theorem length_bits (data : List Byte) : (data.flatMap byteBits).length = data.length * 8 :=
  length_flatMap_const fun _ _ => by rw [byteBits, List.length_map, List.length_range]

/-- A string is told by its bits. -/
theorem bits_injective {p q : List Byte} (hlen : p.length = q.length) (h : p.flatMap byteBits = q.flatMap byteBits) : p = q := by
  refine List.ext_getElem hlen fun i hi hi' => BitVec.eq_of_getLsbD_eq fun j hj => ?_
  have hbit : ∀ {data : List Byte} (hd : i < data.length), bitOf data (8 * i + j) = data[i].getLsbD j := by
    intro data hd
    have hdiv : (8 * i + j) / 8 = i := by omega
    have hmod : (8 * i + j) % 8 = j := by omega
    rw [bitOf, hdiv, hmod, List.getD_eq_getElem?_getD, List.getElem?_eq_getElem hd, Option.getD_some]
  have hget : (p.flatMap byteBits)[8 * i + j]? = (q.flatMap byteBits)[8 * i + j]? := by rw [h]
  rw [getElem?_bits, getElem?_bits, if_pos (by omega), if_pos (by omega), hbit hi, hbit hi'] at hget
  exact Option.some.inj hget

/-- Strings of one length that differ within 32 consecutive bits have different checksums. -/
theorem cvmCrc32_ne {p q : List Byte} (hlen : p.length = q.length) (hne : p ≠ q) {k : Nat}
    (hwindow : ∀ n, bitOf p n ≠ bitOf q n → k ≤ n ∧ n < k + 32) : cvmCrc32 p ≠ cvmCrc32 q := by
  have hfeed : feed poly 0xFFFFFFFF (p.flatMap byteBits) ≠ feed poly 0xFFFFFFFF (q.flatMap byteBits) := by
    refine feed_ne rfl _ ?_ (fun h => hne (bits_injective hlen h)) fun i hi => hwindow i fun hbit => hi ?_
    · rw [length_bits, length_bits, hlen]
    · rw [getElem?_bits, getElem?_bits, hlen, hbit]
  intro heq
  rw [cvmCrc32, cvmCrc32, foldl_crc32Byte, foldl_crc32Byte] at heq
  exact hfeed ((BitVec.xor_left_inj _).mp heq)

/-! ## The check -/

/-- Files of one length that agree at a place agree there as lists. -/
theorem getElem?_of_getD {base base' : List Byte} (hlen : base'.length = base.length) {i : Nat} (h : base'.getD i 0 = base.getD i 0) :
    base'[i]? = base[i]? := by
  by_cases hi : i < base.length
  · rw [List.getD_eq_getElem?_getD, List.getD_eq_getElem?_getD, List.getElem?_eq_getElem hi, List.getElem?_eq_getElem (hlen ▸ hi)] at h
    rw [List.getElem?_eq_getElem hi, List.getElem?_eq_getElem (hlen ▸ hi)]
    exact congrArg some h
  · rw [List.getElem?_eq_none (by omega), List.getElem?_eq_none (by omega)]

section check

variable {base base' : List Byte} (hlen : base'.length = base.length)
  (houtside : ∀ i, base'.getD i 0 ≠ base.getD i 0 → OutsideTables base i)
include houtside

/-- A burst behind the header leaves it as it is. -/
theorem header_byte {i : Nat} (hi : i < headerSize) : base'.getD i 0 = base.getD i 0 := by
  by_contra hne
  exact Nat.not_le.mpr hi (houtside i hne).1

/-- So it leaves its words. -/
theorem header_word {p : Nat} (hp : p + 4 ≤ headerSize) : u32At base' p = u32At base p :=
  leWord_congr fun k hk => header_byte houtside (by omega)

/-- And the entries of the section table. -/
theorem table_entry {i : Nat} (hi : i < (u32At base 12).toNat) : entryAt base' (u32At base 16) i = entryAt base (u32At base 16) i := by
  have hbyte : ∀ k, k < sectionSize → base'.getD ((u32At base 16).toNat + i * sectionSize + k) 0 =
      base.getD ((u32At base 16).toNat + i * sectionSize + k) 0 := by
    intro k hk
    by_contra hne
    have hmul : (i + 1) * sectionSize ≤ (u32At base 12).toNat * sectionSize := Nat.mul_le_mul_right _ hi
    rw [Nat.add_mul, Nat.one_mul] at hmul
    exact (houtside _ hne).2 ⟨by omega, by omega⟩
  have hword : ∀ k, k + 4 ≤ sectionSize → u32At base' ((u32At base 16).toNat + i * sectionSize + k) =
      u32At base ((u32At base 16).toNat + i * sectionSize + k) := by
    intro k hk
    refine leWord_congr fun j hj => ?_
    rw [Nat.add_assoc]
    exact hbyte (k + j) (by omega)
  unfold entryAt
  dsimp only
  rw [hword 4 (by decide), hword 8 (by decide), hword 12 (by decide), ← Nat.add_zero (_ + i * sectionSize), hword 0 (by decide)]

include hlen in
/-- What is outside the header and the table does not move the seal. -/
theorem cvmPeekSection_congr (type : SectionType) : cvmPeekSection base' type = cvmPeekSection base type := by
  have hmagic : magicOk base' = magicOk base := by
    have htake : base'.take 4 = base.take 4 := by
      refine List.ext_getElem? fun i => ?_
      rw [List.getElem?_take, List.getElem?_take]
      split
      · exact getElem?_of_getD hlen (header_byte houtside (by unfold headerSize; omega))
      · rfl
    rw [magicOk, magicOk, htake]
  have hentry : ∀ e, peekEntry base' e = peekEntry base e := by
    intro e
    cases e with
    | none => rfl
    | some e => rw [peekEntry, peekEntry, hlen]
  have hentries : (List.range' 0 (u32At base 12).toNat).map (entryAt base' (u32At base 16)) =
      (List.range' 0 (u32At base 12).toNat).map (entryAt base (u32At base 16)) := by
    refine List.map_congr_left fun i hi => table_entry houtside ?_
    rw [List.mem_range'_1] at hi
    omega
  unfold cvmPeekSection
  dsimp only
  rw [header_word houtside (by decide : 12 + 4 ≤ headerSize), header_word houtside (by decide : 16 + 4 ≤ headerSize), peekFrom_eq,
    peekFrom_eq, hentries, hentry, hmagic, hlen]

end check

/-- The strings in front of the seal differ as the files do. -/
theorem bitOf_take {base : List Byte} {off n : Nat} (h : n / 8 < off) : bitOf (base.take off) n = bitOf base n := by
  rw [bitOf, bitOf, List.getD_eq_getElem?_getD, List.getD_eq_getElem?_getD, List.getElem?_take_of_lt h]

/-- Behind the end there are no bits. -/
theorem bitOf_take_of_le {base : List Byte} {off n : Nat} (h : off ≤ n / 8) : bitOf (base.take off) n = false := by
  rw [bitOf, List.getD_eq_getElem?_getD, List.getElem?_eq_none (Nat.le_trans (List.length_take_le _ _) h), Option.getD_none]
  exact BitVec.getLsbD_zero

end SealAux

open SealAux

/-- Strings of one length that differ within 32 consecutive bits have different checksums. A file whose seal is good fails the check when
any bits are changed in 4 consecutive bytes before the payload of the seal, outside the header and the section table. -/
theorem seal_detects_bursts :
    (∀ p q : List Byte, p.length = q.length → p ≠ q → ∀ k, (∀ n, bitOf p n ≠ bitOf q n → k ≤ n ∧ n < k + 32) → cvmCrc32 p ≠ cvmCrc32 q) ∧
      ∀ base base' : List Byte, cvmSealCheck base = 1 → base'.length = base.length → base' ≠ base → ∀ k,
        (∀ i, base'.getD i 0 ≠ base.getD i 0 → OutsideTables base i ∧ BeforeSeal base i ∧ k ≤ i ∧ i < k + 4) →
        cvmSealCheck base' = -1 := by
  refine ⟨fun p q hlen hne k hwindow => cvmCrc32_ne hlen hne hwindow, fun base base' hgood hlen hne k hburst => ?_⟩
  have hpeek := cvmPeekSection_congr hlen (fun i hi => (hburst i hi).1) .integritySeal
  unfold cvmSealCheck at hgood ⊢
  rw [hpeek]
  cases hfound : cvmPeekSection base .integritySeal with
  | malformed => rfl
  | absent =>
    rw [hfound] at hgood
    nomatch hgood
  | found off size =>
    rw [hfound] at hgood
    dsimp only at hgood ⊢
    have hbefore : ∀ i, base'.getD i 0 ≠ base.getD i 0 → i < off := fun i hi => (hburst i hi).2.1 off size hfound
    have hword : ∀ p, off ≤ p → u32At base' p = u32At base p := by
      intro p hp
      refine leWord_congr fun j _ => ?_
      by_contra hdiff
      exact Nat.not_le.mpr (hbefore _ hdiff) (Nat.le_add_right_of_le hp)
    have hcrc : cvmCrc32 (base'.take off) ≠ cvmCrc32 (base.take off) := by
      refine cvmCrc32_ne (by rw [List.length_take, List.length_take, hlen]) (fun heq => hne ?_) (k := 8 * k) fun n hn => ?_
      · refine List.ext_getElem? fun i => getElem?_of_getD hlen ?_
        by_contra hdiff
        have hget : (base'.take off)[i]? = (base.take off)[i]? := by rw [heq]
        rw [List.getElem?_take_of_lt (hbefore i hdiff), List.getElem?_take_of_lt (hbefore i hdiff)] at hget
        rw [List.getD_eq_getElem?_getD, List.getD_eq_getElem?_getD, hget] at hdiff
        exact hdiff rfl
      · have hlow : n / 8 < off := by
          by_contra hhigh
          rw [bitOf_take_of_le (Nat.not_lt.mp hhigh), bitOf_take_of_le (Nat.not_lt.mp hhigh)] at hn
          exact hn rfl
        rw [bitOf_take hlow, bitOf_take hlow] at hn
        have hbyte := hburst (n / 8) fun heq => hn (by rw [bitOf, bitOf, heq])
        omega
    rw [hword off (Nat.le_refl off), hword (off + 8) (Nat.le_add_right off 8)]
    by_cases hmagic : size < 12 ∨ u32At base off ≠ sealMagic
    · rw [if_pos hmagic]
    · rw [if_neg hmagic] at hgood ⊢
      have hstored : cvmCrc32 (base.take off) = u32At base (off + 8) := by
        by_contra hbad
        rw [if_neg hbad] at hgood
        nomatch hgood
      rw [if_neg (fun h => hcrc (h.trans hstored.symm))]

/-- A file of one instruction and its seal. -/
def sealedFile : List Byte := wordFile
  [0x314D5643, 0x00010000, 0, 2, 24, 0, 1, 56, 4, 0, 12, 60, 12, 0, 0x2A, sealMagic, 0, 0xA1337740]

theorem seal_detects_bursts_sealedFile : cvmCrc32 [0] ≠ cvmCrc32 [1] ∧ cvmSealCheck (sealedFile.set 57 1) = -1 := by
  refine ⟨seal_detects_bursts.1 [0] [1] rfl (by decide) 0 fun n hn => ⟨Nat.zero_le n, ?_⟩,
    seal_detects_bursts.2 sealedFile (sealedFile.set 57 1) (by decide +kernel) (List.length_set ..) (by decide +kernel) 56 fun i hi => ?_⟩
  · by_contra hlarge
    have hzero : ∀ b : Byte, bitOf [b] n = false := by
      intro b
      rw [bitOf, List.getD_eq_getElem?_getD, List.getElem?_eq_none (by rw [List.length_singleton]; omega), Option.getD_none]
      exact BitVec.getLsbD_zero
    exact hn ((hzero 0).trans (hzero 1).symm)
  · have h57 : 57 = i := by
      by_contra hne
      exact hi (by rw [List.getD_eq_getElem?_getD, List.getD_eq_getElem?_getD, List.getElem?_set_ne hne])
    subst h57
    refine ⟨⟨by decide, by decide +kernel⟩, fun off size hfound => ?_, by decide, by decide⟩
    have hseal : cvmPeekSection sealedFile .integritySeal = .found 60 12 := by decide +kernel
    cases hseal.symm.trans hfound
    decide

end CronoVM
