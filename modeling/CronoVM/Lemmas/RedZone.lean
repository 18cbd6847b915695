import CronoVM.Interp.RedZone

/-!
# Red zone lemmas

The map of the red zone is a table with linear probing; `MapTracks` and `ShadowTracks` say that the map and the shadow agree with the live
blocks of an allocator. One lemma for each operation of the map and for marking.
-/

namespace CronoVM

open LinearProbing

/-- The live blocks of an allocator: the size of each block by its address. -/
abbrev LiveBlocks : Type := Word → Option Nat

namespace LiveBlocks

variable {L : LiveBlocks} {p q : Word} {s a : Nat}

/-- Byte `a` belongs to a live block. -/
def Covers (L : LiveBlocks) (a : Nat) : Prop := ∃ p s, L p = some s ∧ p.toNat ≤ a ∧ a < p.toNat + s

def insert (L : LiveBlocks) (p : Word) (s : Nat) : LiveBlocks := Function.update L p (some s)

def erase (L : LiveBlocks) (p : Word) : LiveBlocks := Function.update L p none

/-- There are fewer than `n` live blocks. -/
def FewerThan (L : LiveBlocks) (n : Nat) : Prop := ∃ ps : Finset Word, ps.card < n ∧ ∀ p, L p ≠ none → p ∈ ps

@[simp] theorem insert_self : L.insert p s p = some s := Function.update_self ..

theorem insert_of_ne (h : q ≠ p) : L.insert p s q = L q := Function.update_of_ne h ..

@[simp] theorem erase_self : L.erase p p = none := Function.update_self ..

theorem erase_of_ne (h : q ≠ p) : L.erase p q = L q := Function.update_of_ne h ..

/-- A block that is put back with another size. -/
@[simp] theorem insert_erase : (L.erase p).insert p s = L.insert p s := Function.update_idem ..

theorem erase_of_none (h : L p = none) : L.erase p = L := by
  funext q
  by_cases hq : q = p
  · rw [hq, erase_self, h]
  · rw [erase_of_ne hq]

/-- A byte of the blocks or of the new one. -/
theorem covers_insert (h : L p = none) : (L.insert p s).Covers a ↔ L.Covers a ∨ (p.toNat ≤ a ∧ a < p.toNat + s) := by
  constructor
  · rintro ⟨q, t, hq, hle, hlt⟩
    by_cases hqp : q = p
    · subst hqp
      rw [insert_self, Option.some.injEq] at hq
      exact Or.inr ⟨hle, by omega⟩
    · rw [insert_of_ne hqp] at hq
      exact Or.inl ⟨q, t, hq, hle, hlt⟩
  · rintro (⟨q, t, hq, hle, hlt⟩ | ⟨hle, hlt⟩)
    · have hqp : q ≠ p := by
        rintro rfl
        rw [h] at hq
        nomatch hq
      exact ⟨q, t, by rw [insert_of_ne hqp]; exact hq, hle, hlt⟩
    · exact ⟨p, s, insert_self, hle, hlt⟩

/-- What a correct allocator has: blocks at addresses other than null, inside the heap, no two with a byte in common. -/
structure Sound (L : LiveBlocks) (hs he : Word) : Prop where
  ne_zero : ∀ p s, L p = some s → p ≠ 0
  inHeap : ∀ p s, L p = some s → hs.toNat ≤ p.toNat ∧ p.toNat + s ≤ he.toNat
  apart : ∀ p s q t, L p = some s → L q = some t → ∀ a, p.toNat ≤ a → a < p.toNat + s → q.toNat ≤ a → a < q.toNat + t → p = q

/-- A new block of `s` bytes at `p`. -/
structure Fresh (L : LiveBlocks) (hs he p : Word) (s : Nat) : Prop where
  ne_zero : p ≠ 0
  unused : L p = none
  inHeap : hs.toNat ≤ p.toNat ∧ p.toNat + s ≤ he.toNat
  apart : ∀ a, p.toNat ≤ a → a < p.toNat + s → ¬ L.Covers a

variable {hs he : Word}

/-- Blocks stay apart when one is taken away. -/
theorem Sound.erase (h : L.Sound hs he) (p : Word) : (L.erase p).Sound hs he := by
  have hkeep : ∀ q s, L.erase p q = some s → L q = some s := by
    intro q s hq
    by_cases hqp : q = p
    · rw [hqp, erase_self] at hq
      nomatch hq
    · rwa [erase_of_ne hqp] at hq
  refine ⟨fun q s hq => h.ne_zero q s (hkeep q s hq), fun q s hq => h.inHeap q s (hkeep q s hq), ?_⟩
  intro q s r t hq hr
  exact h.apart q s r t (hkeep q s hq) (hkeep r t hr)

/-- And when a fresh one is added. -/
theorem Sound.insert (h : L.Sound hs he) (hf : L.Fresh hs he p s) : (L.insert p s).Sound hs he := by
  have hcases : ∀ q t, L.insert p s q = some t → (q = p ∧ t = s) ∨ L q = some t := by
    intro q t hq
    by_cases hqp : q = p
    · subst hqp
      rw [insert_self, Option.some.injEq] at hq
      exact Or.inl ⟨rfl, hq.symm⟩
    · rw [insert_of_ne hqp] at hq
      exact Or.inr hq
  refine ⟨?_, ?_, ?_⟩
  · intro q t hq
    rcases hcases q t hq with ⟨rfl, -⟩ | hold
    · exact hf.ne_zero
    · exact h.ne_zero q t hold
  · intro q t hq
    rcases hcases q t hq with ⟨rfl, rfl⟩ | hold
    · exact hf.inHeap
    · exact h.inHeap q t hold
  · intro q t r u hq hr a hqa haq hra har
    rcases hcases q t hq with ⟨rfl, rfl⟩ | hq'
    · rcases hcases r u hr with ⟨rfl, -⟩ | hr'
      · rfl
      · exact absurd ⟨r, u, hr', hra, har⟩ (hf.apart a hqa haq)
    · rcases hcases r u hr with ⟨rfl, rfl⟩ | hr'
      · exact absurd ⟨q, t, hq', hqa, haq⟩ (hf.apart a hra har)
      · exact h.apart q t r u hq' hr' a hqa haq hra har

/-- The bytes of the other blocks. -/
theorem Sound.covers_erase (h : L.Sound hs he) (hp : L p = some s) : (L.erase p).Covers a ↔ L.Covers a ∧ ¬ (p.toNat ≤ a ∧ a < p.toNat + s) := by
  constructor
  · rintro ⟨q, t, hq, hle, hlt⟩
    by_cases hqp : q = p
    · rw [hqp, erase_self] at hq
      nomatch hq
    · rw [erase_of_ne hqp] at hq
      refine ⟨⟨q, t, hq, hle, hlt⟩, fun hboth => hqp ?_⟩
      exact h.apart q t p s hq hp a hle hlt hboth.1 hboth.2
  · rintro ⟨⟨q, t, hq, hle, hlt⟩, hout⟩
    have hqp : q ≠ p := by
      rintro rfl
      rw [hp, Option.some.injEq] at hq
      exact hout ⟨hle, by omega⟩
    exact ⟨q, t, by rw [erase_of_ne hqp]; exact hq, hle, hlt⟩

end LiveBlocks

/-! ## The map -/

theorem rzMapN_toNat : rzMapN.toNat = 1048576 := rfl

/-- The slots of a pointer, in the order of the search. -/
theorem rzSlot_eq (p : Word) (i : Nat) : rzSlot p i = (p.toNat / 8 + i) % 1048576 := by
  have hmask : (rzMapN - 1).toNat = 2 ^ 20 - 1 := rfl
  unfold rzSlot
  dsimp only
  rw [BitVec.toNat_and, BitVec.toNat_add, BitVec.toNat_and, hmask, Nat.and_two_pow_sub_one_eq_mod, Nat.and_two_pow_sub_one_eq_mod,
    BitVec.toNat_ushiftRight, Nat.shiftRight_eq_div_pow, BitVec.toNat_ofNat]
  omega

/-- A path goes through every slot. -/
theorem exists_rzSlot (p : Word) : ∀ j < rzMapN.toNat, ∃ i < rzMapN.toNat, rzSlot p i = j := by
  intro j hj
  simp only [rzSlot_eq, rzMapN_toNat] at hj ⊢
  exact exists_offset _ hj

/-- The slots of the map as a table: 0 is an empty slot. -/
def rzTable (key : Nat → Word) (j : Nat) : Option Word := if key j = 0 then none else some (key j)

variable {key val : Nat → Word} {L : LiveBlocks} {p q : Word} {j : Nat}

/-- A slot is empty if it holds 0. -/
theorem rzTable_eq_none_iff : rzTable key j = none ↔ key j = 0 := by
  unfold rzTable
  split <;> simp_all

theorem rzTable_eq_some_iff : rzTable key j = some p ↔ key j = p ∧ p ≠ 0 := by
  unfold rzTable
  by_cases h : key j = 0
  · rw [if_pos h]
    refine ⟨fun hn => (nomatch hn), fun hp => absurd (hp.1.symm.trans h) hp.2⟩
  · rw [if_neg h, Option.some.injEq]
    exact ⟨fun hp => ⟨hp, hp ▸ h⟩, fun hp => hp.1⟩

/-- Writing a key fills its slot. -/
theorem rzTable_write (hp : p ≠ 0) : rzTable (Function.update key j p) = Function.update (rzTable key) j (some p) := by
  funext i
  by_cases hi : i = j
  · rw [hi, Function.update_self]
    exact rzTable_eq_some_iff.mpr ⟨Function.update_self .., hp⟩
  · rw [Function.update_of_ne hi]
    unfold rzTable
    rw [Function.update_of_ne hi]

/-- Writing 0 empties it. -/
theorem rzTable_clear : rzTable (Function.update key j 0) = Function.update (rzTable key) j none := by
  funext i
  by_cases hi : i = j
  · rw [hi, Function.update_self]
    exact rzTable_eq_none_iff.mpr (Function.update_self ..)
  · rw [Function.update_of_ne hi]
    unfold rzTable
    rw [Function.update_of_ne hi]

/-- The search of the map is one with linear probing. -/
theorem rzProbe_eq (key : Nat → Word) (p : Word) : rzProbe key p = find rzMapN.toNat rzSlot (rzTable key) p := by
  have hstop : (fun j => decide (key j = 0 ∨ key j = p)) = fun j => decide (rzTable key j = none ∨ rzTable key j = some p) := by
    funext j
    rw [decide_eq_decide, rzTable_eq_none_iff, rzTable_eq_some_iff]
    by_cases hj : key j = 0
    · simp [hj]
    · constructor
      · rintro (hzero | hp)
        · exact absurd hzero hj
        · exact Or.inr ⟨hp, hp ▸ hj⟩
      · rintro (hzero | ⟨hp, -⟩)
        · exact absurd hzero hj
        · exact Or.inr hp
  unfold rzProbe find
  rw [hstop]

/-- The map has the live blocks with their sizes. -/
structure MapTracks (key val : Nat → Word) (L : LiveBlocks) : Prop where
  placed : WellPlaced rzMapN.toNat rzSlot (rzTable key)
  entry : ∀ p s, L p = some s ↔ ∃ j, rzTable key j = some p ∧ (val j).toNat = s

/-- An empty map tracks an empty heap. -/
theorem mapTracks_empty : MapTracks (fun _ => 0) val fun _ => none where
  placed := wellPlaced_empty
  entry p s := by
    constructor
    · intro hp
      nomatch hp
    · rintro ⟨j, hj, -⟩
      have hkey := rzTable_eq_some_iff.mp hj
      exact absurd hkey.1.symm hkey.2

/-- The pointers in the map are the live ones. -/
theorem MapTracks.ne_none_iff (h : MapTracks key val L) : L p ≠ none ↔ ∃ j, rzTable key j = some p := by
  constructor
  · intro hp
    obtain ⟨s, hs⟩ := Option.ne_none_iff_exists'.mp hp
    obtain ⟨j, hj, -⟩ := (h.entry p s).mp hs
    exact ⟨j, hj⟩
  · rintro ⟨j, hj⟩
    rw [(h.entry p _).mpr ⟨j, hj, rfl⟩]
    exact Option.some_ne_none _

/-- For a live pointer the map gives its size. -/
theorem MapTracks.rzGet_of_live {z : RedZone} (h : MapTracks z.key z.val L) {s : Nat} (hp : L p = some s) : (rzGet z p).toNat = s := by
  obtain ⟨j, hj, hval⟩ := (h.entry p s).mp hp
  have hkey := rzTable_eq_some_iff.mp hj
  have hne : z.key j ≠ 0 := by
    rw [hkey.1]
    exact hkey.2
  unfold rzGet
  rw [rzProbe_eq, h.placed j p hj]
  dsimp only
  rw [if_neg hne]
  exact hval

/-- For another one it gives 0. -/
theorem MapTracks.rzGet_of_dead {z : RedZone} (h : MapTracks z.key z.val L) (hp : L p = none) : rzGet z p = 0 := by
  have habsent : ∀ j, rzTable z.key j ≠ some p := fun j hj => h.ne_none_iff.mpr ⟨j, hj⟩ hp
  unfold rzGet
  rw [rzProbe_eq]
  cases hfind : find rzMapN.toNat rzSlot (rzTable z.key) p with
  | none => rfl
  | some j =>
    dsimp only
    rw [if_pos (rzTable_eq_none_iff.mp (WellPlaced.find_of_not_mem habsent hfind))]

/-- The size of a block, and 0 for every other address. -/
theorem MapTracks.rzGet_toNat {z : RedZone} (h : MapTracks z.key z.val L) (p : Word) : (rzGet z p).toNat = (L p).getD 0 := by
  cases hp : L p with
  | some s => exact h.rzGet_of_live hp
  | none =>
    rw [h.rzGet_of_dead hp]
    rfl

/-- `rz_put` with room in the map. -/
theorem MapTracks.rzPut {z : RedZone} (h : MapTracks z.key z.val L) (hp : p ≠ 0) (hroom : L p ≠ none ∨ L.FewerThan rzMapN.toNat) (s : Word) :
    MapTracks (rzPut z p s).key (rzPut z p s).val (L.insert p s.toNat) := by
  have hfind : ∃ j, find rzMapN.toNat rzSlot (rzTable z.key) p = some j := by
    rcases hroom with hlive | ⟨ps, hcard, hps⟩
    · obtain ⟨j, hj⟩ := h.ne_none_iff.mp hlive
      exact ⟨j, h.placed j p hj⟩
    · refine exists_find (exists_rzSlot p) (h.placed.exists_empty (s := ps) ?_ hcard)
      intro j q hj
      exact hps q (h.ne_none_iff.mpr ⟨j, hj⟩)
  obtain ⟨j, hj⟩ := hfind
  have hput : CronoVM.rzPut z p s = { z with key := Function.update z.key j p, val := Function.update z.val j s } := by
    unfold CronoVM.rzPut
    rw [if_neg hp, rzProbe_eq, hj]
  rw [hput]
  refine ⟨?_, ?_⟩
  · dsimp only
    rw [rzTable_write hp]
    exact h.placed.write hj
  · intro q t
    dsimp only
    rw [rzTable_write hp]
    by_cases hqp : q = p
    · subst hqp
      rw [LiveBlocks.insert_self, Option.some.injEq]
      constructor
      · rintro rfl
        exact ⟨j, Function.update_self .., by rw [Function.update_self]⟩
      · rintro ⟨i, hi, hval⟩
        by_cases hij : i = j
        · rw [hij, Function.update_self] at hval
          exact hval
        · rw [Function.update_of_ne hij] at hi
          exact absurd (Option.some.inj ((h.placed i q hi).symm.trans hj)) hij
    · rw [LiveBlocks.insert_of_ne hqp, h.entry]
      refine exists_congr fun i => ?_
      rw [write_eq_some_iff hj hqp]
      refine and_congr_right fun hi => ?_
      have hij : i ≠ j := by
        rintro rfl
        have hsame := (write_eq_some_iff hj hqp).mpr hi
        rw [Function.update_self, Option.some.injEq] at hsame
        exact hqp hsame.symm
      rw [Function.update_of_ne hij]

/-- No other pointer of the map has the slot of `p` on its way. -/
def ClearPath (key : Nat → Word) (p : Word) : Prop :=
  ∀ j, rzTable key j = some p → ∀ q, q ≠ p → ¬ Passes rzSlot (rzTable key) q j

/-- `rz_del` of a pointer that no other one goes over. -/
theorem MapTracks.rzDel {z : RedZone} (h : MapTracks z.key z.val L) (hclear : ClearPath z.key p) :
    MapTracks (rzDel z p).key (rzDel z p).val (L.erase p) := by
  cases hp : L p with
  | none =>
    have habsent : ∀ j, rzTable z.key j ≠ some p := fun j hj => h.ne_none_iff.mpr ⟨j, hj⟩ hp
    have hdel : CronoVM.rzDel z p = z := by
      unfold CronoVM.rzDel
      rw [rzProbe_eq]
      cases hfind : find rzMapN.toNat rzSlot (rzTable z.key) p with
      | none => rfl
      | some j =>
        dsimp only
        rw [if_pos (rzTable_eq_none_iff.mp (WellPlaced.find_of_not_mem habsent hfind))]
    rw [hdel, LiveBlocks.erase_of_none hp]
    exact h
  | some s =>
    obtain ⟨j, hj, -⟩ := (h.entry p s).mp hp
    have hkey := rzTable_eq_some_iff.mp hj
    have hne : z.key j ≠ 0 := by
      rw [hkey.1]
      exact hkey.2
    have hdel : CronoVM.rzDel z p = { z with key := Function.update z.key j 0, val := Function.update z.val j 0 } := by
      unfold CronoVM.rzDel
      rw [rzProbe_eq, h.placed j p hj]
      dsimp only
      rw [if_neg hne]
    rw [hdel]
    refine ⟨?_, ?_⟩
    · dsimp only
      rw [rzTable_clear]
      exact h.placed.clear hj (hclear j hj)
    · intro q t
      dsimp only
      rw [rzTable_clear]
      by_cases hqp : q = p
      · subst hqp
        rw [LiveBlocks.erase_self]
        refine ⟨fun hn => (nomatch hn), ?_⟩
        rintro ⟨i, hi, -⟩
        by_cases hij : i = j
        · rw [hij, Function.update_self] at hi
          nomatch hi
        · rw [Function.update_of_ne hij] at hi
          exact absurd (h.placed.slot_unique hi hj) hij
      · rw [LiveBlocks.erase_of_ne hqp, h.entry]
        refine exists_congr fun i => ?_
        rw [clear_eq_some_iff hj hqp]
        refine and_congr_right fun hi => ?_
        have hij : i ≠ j := by
          rintro rfl
          exact hqp (Option.some.inj (hi.symm.trans hj))
        rw [Function.update_of_ne hij]

/-- The map and the shadow are apart. -/
@[simp] theorem rzPut_shadow (z : RedZone) (p s : Word) : (rzPut z p s).shadow = z.shadow := by
  unfold rzPut
  split
  · rfl
  · split <;> rfl

@[simp] theorem rzPut_heap (z : RedZone) (p s : Word) : (rzPut z p s).hs = z.hs ∧ (rzPut z p s).he = z.he := by
  unfold rzPut
  split
  · exact ⟨rfl, rfl⟩
  · split <;> exact ⟨rfl, rfl⟩

@[simp] theorem rzDel_shadow (z : RedZone) (p : Word) : (rzDel z p).shadow = z.shadow := by
  unfold rzDel
  split
  · split <;> rfl
  · rfl

@[simp] theorem rzDel_heap (z : RedZone) (p : Word) : (rzDel z p).hs = z.hs ∧ (rzDel z p).he = z.he := by
  unfold rzDel
  split
  · split <;> exact ⟨rfl, rfl⟩
  · exact ⟨rfl, rfl⟩

/-! ## The shadow -/

/-- Marking changes the shadow alone. -/
theorem rzMark_eq (z : RedZone) (a s : Word) (v : Byte) : rzMark z a s v = { z with shadow := (rzMark z a s v).shadow } := by
  unfold rzMark
  split
  · rfl
  · dsimp only
    generalize (if a + s > z.he then z.he else a + s) = stop
    split <;> rfl

/-- No bytes are marked, wherever they are. -/
theorem rzMark_zero (z : RedZone) (a : Word) (v : Byte) : rzMark z a 0 v = z := by
  have hadd : a + 0 = a := BitVec.add_zero a
  unfold rzMark
  rw [hadd]
  dsimp only
  split
  · rfl
  · by_cases habove : a > z.he
    · rw [if_pos habove, if_pos (BitVec.le_of_lt habove)]
    · rw [if_neg habove, if_pos (BitVec.le_refl a)]

/-- The shadow is 1 on the bytes of live blocks and 0 on the other bytes of the heap. -/
structure ShadowTracks (shadow : Nat → Byte) (hs he : Word) (L : LiveBlocks) : Prop where
  live : ∀ a, hs.toNat ≤ a → a < he.toNat → L.Covers a → shadow (a - hs.toNat) = 1
  dead : ∀ a, hs.toNat ≤ a → a < he.toNat → ¬ L.Covers a → shadow (a - hs.toNat) = 0

/-- Marking a range sets its bytes and no others. -/
theorem rzMark_shadow {z : RedZone} {a s : Word} (hin : z.hs.toNat ≤ a.toNat ∧ a.toNat + s.toNat ≤ z.he.toNat) (v : Byte) {b : Nat}
    (hb : z.hs.toNat ≤ b) :
    (rzMark z a s v).shadow (b - z.hs.toNat) = if a.toNat ≤ b ∧ b < a.toNat + s.toNat then v else z.shadow (b - z.hs.toNat) := by
  have hbound := z.he.isLt
  have hadd : (a + s).toNat = a.toNat + s.toNat := by
    rw [BitVec.toNat_add]
    exact Nat.mod_eq_of_lt (by omega)
  have hoffset : (a - z.hs).toNat = a.toNat - z.hs.toNat := BitVec.toNat_sub_of_le (BitVec.le_def.mpr hin.1)
  have hlow : ¬ a < z.hs := by
    rw [BitVec.lt_def]
    omega
  have hhigh : ¬ a + s > z.he := by
    rw [gt_iff_lt, BitVec.lt_def]
    omega
  unfold rzMark
  dsimp only
  rw [if_neg hlow, if_neg hhigh]
  by_cases hzero : a ≥ a + s
  · rw [if_pos hzero]
    rw [ge_iff_le, BitVec.le_def] at hzero
    rw [if_neg (by omega)]
  · have hlen : (a + s - a).toNat = s.toNat := by
      rw [BitVec.toNat_sub_of_le (BitVec.le_of_lt (BitVec.not_le.mp hzero)), hadd]
      omega
    rw [if_neg hzero]
    dsimp only
    rw [hoffset, hlen]
    refine if_congr ?_ rfl rfl
    omega

/-- Marking the bytes whose state changes. -/
theorem ShadowTracks.mark {z : RedZone} {L' : LiveBlocks} {a s : Word} {v : Byte} (h : ShadowTracks z.shadow z.hs z.he L)
    (hheap : z.hs.toNat ≤ a.toNat ∧ a.toNat + s.toNat ≤ z.he.toNat)
    (hin : ∀ b, a.toNat ≤ b → b < a.toNat + s.toNat → (L'.Covers b ∧ v = 1) ∨ (¬ L'.Covers b ∧ v = 0))
    (hout : ∀ b, ¬ (a.toNat ≤ b ∧ b < a.toNat + s.toNat) → (L'.Covers b ↔ L.Covers b)) :
    ShadowTracks (rzMark z a s v).shadow z.hs z.he L' := by
  constructor
  · intro b hlow hhigh hlive
    rw [rzMark_shadow hheap v hlow]
    split
    · rename_i hmid
      rcases hin b hmid.1 hmid.2 with ⟨-, hv⟩ | ⟨hdead, -⟩
      · exact hv
      · exact absurd hlive hdead
    · rename_i hmid
      exact h.live b hlow hhigh ((hout b hmid).mp hlive)
  · intro b hlow hhigh hdead
    rw [rzMark_shadow hheap v hlow]
    split
    · rename_i hmid
      rcases hin b hmid.1 hmid.2 with ⟨hlive, -⟩ | ⟨-, hv⟩
      · exact absurd hlive hdead
      · exact hv
    · rename_i hmid
      exact h.dead b hlow hhigh fun hlive => hdead ((hout b hmid).mpr hlive)

end CronoVM
