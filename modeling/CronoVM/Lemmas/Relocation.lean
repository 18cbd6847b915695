import CronoVM.Lemmas.Jumps
import CronoVM.Lemmas.Relaxation

/-!
# Relocation

What `cg_relax_branches` and `cg_resolve_fixups` make of a function: the instructions in their order, a word more behind each widened
branch, and each branch with the displacement of its block.
-/

namespace CronoVM

open Checked Ir Finset

/-! ## Branches that wait for their blocks -/

/-- The word of a branch before its displacement is known. -/
inductive BranchWord (fx : Fixup) : Word → Prop where
  | cond (op : Opcode) (a b : Byte) : op = .bne ∨ op = .beq → fx.bits = 8 → fx.shift = 24 → BranchWord fx (encBr op a b 0)
  | jump : fx.bits = 24 → fx.shift = 8 → BranchWord fx (encI24 .jmp 0)

/-- The branches and blocks of a function as the emit phase leaves them. -/
structure CgFn.BranchesWf (cg : CgFn) : Prop where
  code_lt : cg.code.length < 2 ^ 31
  distinct : (cg.fixups.map Fixup.instIndex).Nodup
  pos_lt : ∀ fx ∈ cg.fixups, fx.instIndex < cg.code.length
  target_mem : ∀ fx ∈ cg.fixups, fx.target ∈ cg.blocks
  offsets_length : cg.blockOffsets.length = cg.blocks.length
  offsets_le : ∀ off ∈ cg.blockOffsets, off ≤ cg.code.length
  word : ∀ fx ∈ cg.fixups, ∃ w, cg.code[fx.instIndex]? = some w ∧ BranchWord fx w

/-- The same of a function whose code is so short that jumps reach all of it. -/
structure CgFn.BranchesOk (cg : CgFn) : Prop extends cg.BranchesWf where
  code_small : cg.code.length < 2 ^ 22

/-- The place of position `x` when the branches at the positions in `ins` are widened. -/
def placeOf (ins : Nat → Bool) (x : Nat) : Nat := x + (List.range x).countP ins

/-- The fixup of a branch at its new place. -/
def placeFixup (ins : Nat → Bool) (fx : Fixup) : Fixup :=
  if ins fx.instIndex = true then { fx with instIndex := placeOf ins fx.instIndex + 1, shift := 8, bits := 24 }
  else { fx with instIndex := placeOf ins fx.instIndex }

section placeOf

variable {ins : Nat → Bool} {x y : Nat}

/-- Each instruction moves the next one up by one or two words. -/
theorem placeOf_succ (x : Nat) : placeOf ins (x + 1) = placeOf ins x + 1 + if ins x = true then 1 else 0 := by
  rw [placeOf, placeOf, List.range_succ, List.countP_append, List.countP_singleton]
  omega

/-- Distances only grow. -/
theorem placeOf_add_le (h : x ≤ y) : placeOf ins x + (y - x) ≤ placeOf ins y := by
  induction y, h using Nat.le_induction with
  | base => omega
  | succ y h ih =>
    rw [placeOf_succ]
    omega

/-- The code at most doubles. -/
theorem placeOf_le_double (x : Nat) : placeOf ins x ≤ 2 * x := by
  have hle := List.countP_le_length (p := ins) (l := List.range x)
  rw [List.length_range] at hle
  rw [placeOf]
  omega

/-- The order of the instructions stays. -/
theorem placeOf_lt (h : x < y) : placeOf ins x < placeOf ins y := by
  have hle : placeOf ins x + (y - x) ≤ placeOf ins y := placeOf_add_le (Nat.le_of_lt h)
  omega

/-- What is inserted behind a widened branch comes before the next instruction. -/
theorem placeOf_wide_lt (h : x < y) (hx : ins x = true) : placeOf ins x + 1 < placeOf ins y := by
  have hnext : placeOf ins (x + 1) = _ := placeOf_succ x
  rw [if_pos hx] at hnext
  have hle : placeOf ins (x + 1) + (y - (x + 1)) ≤ placeOf ins y := placeOf_add_le h
  omega

/-- Without a widened branch in between, the distance stays. -/
theorem placeOf_eq_add (h : x ≤ y) (hnone : ∀ p, x ≤ p → p < y → ins p = false) : placeOf ins y = placeOf ins x + (y - x) := by
  induction y, h using Nat.le_induction with
  | base => omega
  | succ y h ih =>
    rw [placeOf_succ, ih fun p hp hlt => hnone p hp (Nat.lt_succ_of_lt hlt), hnone y h (Nat.lt_succ_self y), if_neg (by decide)]
    omega

/-- No two instructions get one place. -/
theorem placeOf_injective (h : placeOf ins x = placeOf ins y) : x = y := by
  rcases Nat.lt_trichotomy x y with hlt | heq | hgt
  · exact absurd h (Nat.ne_of_lt (placeOf_lt hlt))
  · exact heq
  · exact absurd h.symm (Nat.ne_of_lt (placeOf_lt hgt))

end placeOf

/-! ## The relaxed function -/

/-- There is a relaxed branch at position `p`. -/
def widened (cg : CgFn) (relaxed : Nat → Bool) (p : Nat) : Bool := decide (0 < extraAt cg relaxed p)

section relaxed

variable {cg : CgFn} {relaxed : Nat → Bool}

/-- A fixup by its number. -/
theorem fixup_mem {i : Nat} (hi : i < cg.fixups.length) : cg.fixup i ∈ cg.fixups := by
  rw [CgFn.fixup, List.getD_eq_getElem?_getD, List.getElem?_eq_getElem hi, Option.getD_some]
  exact List.getElem_mem hi

/-- All fixups by their numbers. -/
theorem map_fixup : (List.range cg.fixups.length).map cg.fixup = cg.fixups := by
  apply List.ext_getElem?
  intro i
  rw [List.getElem?_map]
  by_cases hi : i < cg.fixups.length
  · rw [List.getElem?_range hi, Option.map_some, CgFn.fixup, List.getD_eq_getElem?_getD, List.getElem?_eq_getElem hi, Option.getD_some]
  · rw [List.getElem?_eq_none (by simpa using hi), List.getElem?_eq_none (by omega), Option.map_none]

variable (hok : cg.BranchesWf)
include hok

/-- No two fixups are for one instruction. -/
theorem fixup_injective {i j : Nat} (hi : i < cg.fixups.length) (hj : j < cg.fixups.length)
    (h : (cg.fixup i).instIndex = (cg.fixup j).instIndex) : i = j := by
  have hnodup := hok.distinct
  rw [← map_fixup, List.map_map] at hnodup
  exact List.inj_on_of_nodup_map hnodup (List.mem_range.mpr hi) (List.mem_range.mpr hj) h

/-- Fixups are at different places, so a position gets one word more at most. -/
theorem extraAt_eq (p : Nat) : extraAt cg relaxed p = if widened cg relaxed p = true then 1 else 0 := by
  have hle : extraAt cg relaxed p ≤ 1 := by
    have hcount : extraAt cg relaxed p ≤ (cg.fixups.map Fixup.instIndex).count p := by
      rw [← map_fixup, List.map_map, List.count, List.countP_map]
      refine List.countP_mono_left fun f _ hf => ?_
      rw [Bool.and_eq_true] at hf
      exact hf.2
    exact Nat.le_trans hcount (List.nodup_iff_count_le_one.mp hok.distinct p)
  unfold widened
  split <;> rename_i h
  · have hpos := of_decide_eq_true h
    omega
  · have hpos : ¬0 < extraAt cg relaxed p := by simpa using h
    omega

/-- The instruction of a fixup is widened as the flags say. -/
theorem widened_fixup {i : Nat} (hi : i < cg.fixups.length) : widened cg relaxed (cg.fixup i).instIndex = relaxed i := by
  rw [Bool.eq_iff_iff, widened, decide_eq_true_eq, extraAt, List.countP_pos_iff]
  constructor
  · rintro ⟨j, hj, hb⟩
    rw [Bool.and_eq_true, beq_iff_eq] at hb
    obtain rfl := fixup_injective hok (List.mem_range.mp hj) hi hb.2
    exact hb.1
  · intro h
    exact ⟨i, List.mem_range.mpr hi, by simp [h]⟩

omit hok in
/-- A widened position is that of a relaxed branch. -/
theorem exists_of_widened {p : Nat} (h : widened cg relaxed p = true) :
    ∃ i < cg.fixups.length, relaxed i = true ∧ (cg.fixup i).instIndex = p := by
  have hpos := of_decide_eq_true h
  obtain ⟨i, hi, hb⟩ := List.countP_pos_iff.mp hpos
  rw [Bool.and_eq_true, beq_iff_eq] at hb
  exact ⟨i, List.mem_range.mp hi, hb⟩

/-- The position table of the rewrite is the place of each instruction. -/
theorem newPos_eq (x : Nat) : newPos cg relaxed x = placeOf (widened cg relaxed) x := by
  induction x with
  | zero => rfl
  | succ x ih =>
    have hstep : newPos cg relaxed (x + 1) = newPos cg relaxed x + 1 + extraAt cg relaxed x := by
      rw [newPos, newPos, insertedBefore, sum_range_succ, ← insertedBefore]
      omega
    rw [hstep, placeOf_succ, ih, extraAt_eq hok]

/-- The places of the rebuilt code. -/
theorem newPosOf_getD {p : Nat} (hp : p < cg.code.length) :
    (rebuild cg.code (extraAt cg relaxed)).newPosOf.getD p 0 = placeOf (widened cg relaxed) p := by
  obtain ⟨_, _, hpos, _⟩ := rebuild_foldl cg.code (extraAt cg relaxed) (Nat.le_refl cg.code.length)
  rw [List.getD_eq_getElem?_getD, rebuild, hpos p hp, Option.getD_some, ← newPos_eq hok]
  rfl

/-- The new code ends at the place of the old end. -/
theorem length_newCode : (rebuild cg.code (extraAt cg relaxed)).newCode.length = placeOf (widened cg relaxed) cg.code.length := by
  obtain ⟨hlen, _⟩ := rebuild_foldl cg.code (extraAt cg relaxed) (Nat.le_refl cg.code.length)
  rw [rebuild, hlen, ← newPos_eq hok]
  rfl

/-- The fixups move with their instructions. -/
theorem rewriteRelaxed_fixups : (rewriteRelaxed cg relaxed).fixups = cg.fixups.map (placeFixup (widened cg relaxed)) := by
  have hfix : cg.fixups.map (placeFixup (widened cg relaxed)) =
      (List.range cg.fixups.length).map (placeFixup (widened cg relaxed) ∘ cg.fixup) := by
    rw [← List.map_map, map_fixup]
  rw [hfix]
  refine List.map_congr_left fun i hi => ?_
  have hi := List.mem_range.mp hi
  have hp := hok.pos_lt _ (fixup_mem hi)
  rw [Function.comp_apply, moveFixup, placeFixup, widened_fixup hok hi, newPosOf_getD hok hp]

/-- The blocks move with their code. -/
theorem rewriteRelaxed_offsets : (rewriteRelaxed cg relaxed).blockOffsets = cg.blockOffsets.map (placeOf (widened cg relaxed)) := by
  refine List.map_congr_left fun orig horig => ?_
  have hle := hok.offsets_le orig horig
  by_cases hlt : orig < cg.code.length
  · rw [if_pos hlt, newPosOf_getD hok hlt]
  · obtain rfl : orig = cg.code.length := by omega
    rw [if_neg hlt, length_newCode hok]

/-- The words of the new code: the old ones, those of widened branches turned round, and a jump behind each of these. -/
theorem rewriteRelaxed_code {p : Nat} (hp : p < cg.code.length) :
    (rewriteRelaxed cg relaxed).code[placeOf (widened cg relaxed) p]? =
        (if widened cg relaxed p = true then cg.code[p]?.map flipBranch else cg.code[p]?) ∧
      (widened cg relaxed p = true → (rewriteRelaxed cg relaxed).code[placeOf (widened cg relaxed) p + 1]? = some (encI24 .jmp 0)) := by
  obtain ⟨_, _, _, hold, hjmp⟩ := rebuild_foldl cg.code (extraAt cg relaxed) (Nat.le_refl cg.code.length)
  have hplace : ∀ op, op + ∑ q ∈ range op, extraAt cg relaxed q = placeOf (widened cg relaxed) op := fun op => newPos_eq hok op
  have hold := hold p hp
  rw [hplace] at hold
  -- The widened branches are at different places, and no place of theirs is one of an inserted jump.
  have hflip : ∀ f ∈ (List.range cg.fixups.length).filter relaxed, f < cg.fixups.length ∧ relaxed f = true ∧
      (rebuild cg.code (extraAt cg relaxed)).newPosOf.getD (cg.fixup f).instIndex 0 =
        placeOf (widened cg relaxed) (cg.fixup f).instIndex := by
    intro f hf
    obtain ⟨hf, hr⟩ := List.mem_filter.mp hf
    have hf := List.mem_range.mp hf
    exact ⟨hf, hr, newPosOf_getD hok (hok.pos_lt _ (fixup_mem hf))⟩
  have hnodup : (((List.range cg.fixups.length).filter relaxed).map fun f =>
      (rebuild cg.code (extraAt cg relaxed)).newPosOf.getD (cg.fixup f).instIndex 0).Nodup := by
    refine List.Nodup.map_on ?_ (List.nodup_range.filter _)
    intro f hf g hg h
    obtain ⟨hf, _, hpf⟩ := hflip f hf
    obtain ⟨hg, _, hpg⟩ := hflip g hg
    rw [hpf, hpg] at h
    exact fixup_injective hok hf hg (placeOf_injective h)
  obtain ⟨hat, hoff⟩ := getElem?_foldl_modify (fun f => (rebuild cg.code (extraAt cg relaxed)).newPosOf.getD (cg.fixup f).instIndex 0)
    (fun _ => flipBranch) _ hnodup (rebuild cg.code (extraAt cg relaxed)).newCode (placeOf (widened cg relaxed) p)
  constructor
  · by_cases hw : widened cg relaxed p = true
    · obtain ⟨i, hi, hr, rfl⟩ := exists_of_widened hw
      have hmem : i ∈ (List.range cg.fixups.length).filter relaxed := List.mem_filter.mpr ⟨List.mem_range.mpr hi, hr⟩
      rw [if_pos hw]
      refine (hat i hmem (hflip i hmem).2.2).trans ?_
      rw [rebuild, hold]
    · rw [if_neg hw]
      refine (hoff fun f hf h => ?_).trans hold
      obtain ⟨hfl, hr, hpf⟩ := hflip f hf
      rw [hpf] at h
      refine hw ?_
      rw [← placeOf_injective h, widened_fixup hok hfl]
      exact hr
  · intro hw
    have hextra : 0 < extraAt cg relaxed p := of_decide_eq_true hw
    have hjmp := hjmp p hp 0 hextra
    rw [hplace, Nat.add_zero] at hjmp
    obtain ⟨_, hoff⟩ := getElem?_foldl_modify (fun f => (rebuild cg.code (extraAt cg relaxed)).newPosOf.getD (cg.fixup f).instIndex 0)
      (fun _ => flipBranch) _ hnodup (rebuild cg.code (extraAt cg relaxed)).newCode (placeOf (widened cg relaxed) p + 1)
    refine (hoff fun f hf h => ?_).trans hjmp
    obtain ⟨_, _, hpf⟩ := hflip f hf
    rw [hpf] at h
    rcases Nat.lt_trichotomy p (cg.fixup f).instIndex with hlt | heq | hgt
    · have hlt' : placeOf (widened cg relaxed) p + 1 < placeOf (widened cg relaxed) (cg.fixup f).instIndex := placeOf_wide_lt hlt hw
      omega
    · rw [← heq] at h
      omega
    · have hgt' : placeOf (widened cg relaxed) (cg.fixup f).instIndex < placeOf (widened cg relaxed) p := placeOf_lt hgt
      omega

/-- The length of the code after the rewrite. -/
theorem length_rewriteRelaxed : (rewriteRelaxed cg relaxed).code.length = placeOf (widened cg relaxed) cg.code.length := by
  have hfold : ∀ (l : List Nat) (pos : Nat → Nat) (code : List Word),
      (l.foldl (fun code f => code.modify (pos f) flipBranch) code).length = code.length := by
    intro l pos
    induction l with
    | nil => exact fun _ => rfl
    | cons f l ih =>
      intro code
      rw [List.foldl_cons, ih, List.length_modify]
  rw [rewriteRelaxed, ← length_newCode hok]
  exact hfold _ _ _

end relaxed

/-! ## The places of fixups -/

section fixups

variable {ins : Nat → Bool}

/-- A fixup keeps its target. -/
theorem placeFixup_target (fx : Fixup) : (placeFixup ins fx).target = fx.target := by
  unfold placeFixup
  split <;> rfl

/-- The moved fixup of a branch is at the place of no other instruction. -/
theorem placeFixup_ne {fx : Fixup} {p : Nat} (h : fx.instIndex ≠ p) : (placeFixup ins fx).instIndex ≠ placeOf ins p := by
  unfold placeFixup
  by_cases hw : ins fx.instIndex = true
  · rw [if_pos hw]
    show placeOf ins fx.instIndex + 1 ≠ _
    rcases Nat.lt_or_gt_of_ne h with hlt | hgt
    · exact Nat.ne_of_lt (placeOf_wide_lt hlt hw)
    · have hlt : placeOf ins p < placeOf ins fx.instIndex := placeOf_lt hgt
      omega
  · rw [if_neg hw]
    exact fun heq => h (placeOf_injective heq)

/-- Moved fixups are at different places. -/
theorem placeFixup_injective {fx gx : Fixup} (h : (placeFixup ins fx).instIndex = (placeFixup ins gx).instIndex) :
    fx.instIndex = gx.instIndex := by
  by_contra hne
  have hplace : ∀ {fx gx : Fixup}, fx.instIndex < gx.instIndex → (placeFixup ins fx).instIndex < (placeFixup ins gx).instIndex := by
    intro fx gx hlt
    have hle : placeOf ins gx.instIndex ≤ (placeFixup ins gx).instIndex := by
      unfold placeFixup
      split
      · exact Nat.le_succ _
      · exact Nat.le_refl _
    have hlt' : (placeFixup ins fx).instIndex < placeOf ins gx.instIndex := by
      unfold placeFixup
      split
      case isTrue hw => exact placeOf_wide_lt hlt hw
      case isFalse => exact placeOf_lt hlt
    omega
  rcases Nat.lt_or_gt_of_ne hne with hlt | hgt
  · exact absurd h (Nat.ne_of_lt (hplace hlt))
  · exact absurd h.symm (Nat.ne_of_lt (hplace hgt))

/-- The fixups stay for different instructions. -/
theorem nodup_placeFixup {l : List Fixup} (h : (l.map Fixup.instIndex).Nodup) :
    ((l.map (placeFixup ins)).map Fixup.instIndex).Nodup := by
  rw [List.map_map]
  refine List.Nodup.map_on ?_ (List.Nodup.of_map _ h)
  intro fx hfx gx hgx heq
  exact List.inj_on_of_nodup_map h hfx hgx (placeFixup_injective heq)

end fixups

section relaxed

variable {cg : CgFn} {relaxed : Nat → Bool} (hok : cg.BranchesWf)
include hok

/-- The place of a block. -/
theorem rewriteRelaxed_offsetOf {bb : Nat} (hbb : bb ∈ cg.blocks) :
    (rewriteRelaxed cg relaxed).offsetOf bb = placeOf (widened cg relaxed) (cg.offsetOf bb) := by
  obtain ⟨b, hb⟩ := Option.isSome_iff_exists.mp (List.isSome_idxOf?.mpr hbb)
  have hfind : cg.cgFindBlock bb = some b := hb
  have hfind' : (rewriteRelaxed cg relaxed).cgFindBlock bb = some b := hb
  have hlt : b < cg.blockOffsets.length := by
    rw [hok.offsets_length]
    exact (List.idxOf?_eq_some_iff.mp hb).1
  rw [CgFn.offsetOf, CgFn.offsetOf, hfind, hfind', rewriteRelaxed_offsets hok, Option.getD_some, List.getD_eq_getElem?_getD,
    List.getD_eq_getElem?_getD, List.getElem?_map, List.getElem?_eq_getElem hlt, Option.map_some, Option.getD_some, Option.getD_some]

/-- Every block starts in the code or at its end. -/
theorem offsetOf_le {bb : Nat} (hbb : bb ∈ cg.blocks) : cg.offsetOf bb ≤ cg.code.length := by
  obtain ⟨b, hb⟩ := Option.isSome_iff_exists.mp (List.isSome_idxOf?.mpr hbb)
  have hfind : cg.cgFindBlock bb = some b := hb
  have hlt : b < cg.blockOffsets.length := by
    rw [hok.offsets_length]
    exact (List.idxOf?_eq_some_iff.mp hb).1
  rw [CgFn.offsetOf, hfind, Option.getD_some, List.getD_eq_getElem?_getD, List.getElem?_eq_getElem hlt, Option.getD_some]
  exact hok.offsets_le _ (List.getElem_mem hlt)

/-- Where nothing is relaxed, nothing changes. -/
theorem rewriteRelaxed_none (hnone : ∀ i < cg.fixups.length, relaxed i = false) : rewriteRelaxed cg relaxed = cg := by
  have hins : ∀ p, widened cg relaxed p = false := by
    intro p
    rw [Bool.eq_false_iff]
    intro hw
    obtain ⟨i, hi, hr, _⟩ := exists_of_widened hw
    rw [hnone i hi] at hr
    exact Bool.noConfusion hr
  have hplace : ∀ x, placeOf (widened cg relaxed) x = x := by
    intro x
    have heq := placeOf_eq_add (Nat.zero_le x) fun p _ _ => hins p
    rw [heq, Nat.sub_zero, placeOf]
    simp
  have hcode : (rewriteRelaxed cg relaxed).code = cg.code := by
    apply List.ext_getElem?
    intro p
    by_cases hp : p < cg.code.length
    · have hold : (rewriteRelaxed cg relaxed).code[placeOf (widened cg relaxed) p]? = _ := (rewriteRelaxed_code hok hp).1
      rw [hplace, hins p, if_neg (by decide)] at hold
      exact hold
    · have hlen : (rewriteRelaxed cg relaxed).code.length = _ := length_rewriteRelaxed hok
      rw [hplace] at hlen
      rw [List.getElem?_eq_none (by omega), List.getElem?_eq_none (by omega)]
  have hfixups : (rewriteRelaxed cg relaxed).fixups = cg.fixups := by
    rw [rewriteRelaxed_fixups hok]
    refine (List.map_congr_left fun fx _ => ?_).trans (List.map_id _)
    rw [placeFixup, if_neg (by simp [hins]), hplace]
    rfl
  have hoffsets : (rewriteRelaxed cg relaxed).blockOffsets = cg.blockOffsets := by
    rw [rewriteRelaxed_offsets hok]
    exact (List.map_congr_left fun x _ => hplace x).trans (List.map_id _)
  show { cg with
    code := (rewriteRelaxed cg relaxed).code, fixups := (rewriteRelaxed cg relaxed).fixups,
    blockOffsets := (rewriteRelaxed cg relaxed).blockOffsets } = cg
  rw [hcode, hfixups, hoffsets]

end relaxed

/-! ## The resolved function -/

section words

variable {op : Opcode} {a b : Byte} {rel : Int}

/-- A conditional branch gets its displacement. -/
theorem encBr_or_rel : (encBr op a b 0 ||| ((BitVec.ofInt 32 rel &&& (((1 : Word) <<< 8) - 1)) <<< 24)) = encBr op a b (BitVec.ofInt 8 rel) := by
  have hmask : ((1 : Word) <<< 8) - 1 = 0xFF := by decide
  have hbyte : BitVec.ofInt 8 rel = (BitVec.ofInt 32 rel).setWidth 8 := by
    apply BitVec.eq_of_toInt_eq
    rw [BitVec.toInt_setWidth, BitVec.toInt_ofInt]
    have hnat : ((BitVec.ofInt 32 rel).toNat : Int) = rel % 2 ^ 32 := by
      rw [BitVec.toNat_ofInt]
      omega
    rw [hnat]
    simp only [Int.bmod]
    omega
  rw [hmask, hbyte]
  generalize BitVec.ofInt 32 rel = r
  apply BitVec.eq_of_getLsbD_eq
  intro i hi
  have hff : ∀ j, (0xFF : Word).getLsbD j = decide (j < 8) := by
    intro j
    rw [show (0xFF : Word) = BitVec.ofNat 32 (2 ^ 8 - 1) from rfl, BitVec.getLsbD_ofNat, Nat.testBit_two_pow_sub_one]
    grind
  simp only [encBr, BitVec.getLsbD_or, BitVec.getLsbD_and, BitVec.getLsbD_shiftLeft, BitVec.getLsbD_setWidth, hff]
  grind

/-- A jump gets its displacement. -/
theorem encJmp_or_rel : (encI24 .jmp 0 ||| ((BitVec.ofInt 32 rel &&& (((1 : Word) <<< 24) - 1)) <<< 8)) = encI24 .jmp (BitVec.ofInt 32 rel) := by
  have hmask : ((1 : Word) <<< 24) - 1 = 0xFFFFFF := by decide
  rw [hmask, encI24, encI24]
  have hzero : ((0 : Word) &&& 0xFFFFFF) <<< 8 = 0 := by decide
  rw [hzero]
  have hor : (Opcode.jmp.code.setWidth 32 ||| (0 : Word)) = Opcode.jmp.code.setWidth 32 := by decide
  rw [hor]

/-- The opposite branch. -/
def Opcode.opposite : Opcode → Opcode
  | .bne => .beq
  | .beq => .bne
  | op => op

/-- The opposite branch jumps over one word. -/
theorem flipBranch_encBr (hop : op = .bne ∨ op = .beq) : flipBranch (encBr op a b 0) = encBr op.opposite a b 1 := by
  rw [encBr_eq_encR]
  unfold flipBranch
  simp only [instOp_encR, instA_encR, instB_encR]
  rcases hop with rfl | rfl
  · rw [if_pos rfl]
    rfl
  · rw [if_neg (by decide), if_pos rfl]
    rfl

end words

/-- What a fixup is given, with the place of its block. -/
def patchOf (cg : CgFn) (fx : Fixup) (w : Word) : Word :=
  w ||| ((BitVec.ofInt 32 ((cg.offsetOf fx.target : Int) - ((fx.instIndex + 1 : Nat) : Int)) &&& (((1 : Word) <<< fx.bits) - 1)) <<< fx.shift)

/-- A fixup whose displacement fits its field. -/
structure Fits (cg : CgFn) (fx : Fixup) : Prop where
  target_mem : fx.target ∈ cg.blocks
  bits : fx.bits = 8 ∨ fx.bits = 24
  lo : -2 ^ (fx.bits - 1) ≤ (cg.offsetOf fx.target : Int) - ((fx.instIndex + 1 : Nat) : Int)
  hi : (cg.offsetOf fx.target : Int) - ((fx.instIndex + 1 : Nat) : Int) ≤ 2 ^ (fx.bits - 1) - 1

/-- A fixup that fits is patched in. -/
theorem resolveFixup_of_fits {cg : CgFn} {fx : Fixup} (h : Fits cg fx) (code : List Word) :
    resolveFixup cg code fx = .ok (code.modify fx.instIndex (patchOf cg fx)) := by
  obtain ⟨b, hb⟩ := Option.isSome_iff_exists.mp (List.isSome_idxOf?.mpr h.target_mem)
  have hfind : cg.cgFindBlock fx.target = some b := hb
  have hoff : cg.offsetOf fx.target = cg.blockOffsets.getD b 0 := by rw [CgFn.offsetOf, hfind, Option.getD_some]
  have hrel : fixupRel cg fx b = (cg.offsetOf fx.target : Int) - ((fx.instIndex + 1 : Nat) : Int) := by rw [fixupRel, hoff]
  have hlo := h.lo
  have hhi := h.hi
  have h32 : fx.bits ≠ 32 := by
    rcases h.bits with hbits | hbits <;> omega
  unfold resolveFixup
  simp only [hfind, hrel, h32, if_false]
  rw [if_neg (by omega)]
  rfl

/-- All fixups fit, and each is written once. -/
theorem cgResolveFixups_of_fits {cg : CgFn} (h : ∀ fx ∈ cg.fixups, Fits cg fx) : cgResolveFixups cg =
    .ok { cg with code := cg.fixups.foldl (fun code fx => code.modify fx.instIndex (patchOf cg fx)) cg.code } := by
  have hfold : ∀ (l : List Fixup) (code : List Word), (∀ fx ∈ l, Fits cg fx) →
      l.foldlM (resolveFixup cg) code = .ok (l.foldl (fun code fx => code.modify fx.instIndex (patchOf cg fx)) code) := by
    intro l
    induction l with
    | nil => exact fun _ _ => rfl
    | cons fx l ih =>
      intro code hl
      rw [List.foldlM_cons, resolveFixup_of_fits (hl fx List.mem_cons_self), List.foldl_cons]
      exact ih _ fun fx' hfx' => hl fx' (List.mem_cons_of_mem fx hfx')
  rw [cgResolveFixups, hfold cg.fixups cg.code h]
  rfl

end CronoVM
