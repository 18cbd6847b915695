import CronoVM.Lemmas.GlobalImage

/-!
# The layout of global variables

The offsets as numbers, without the words they are computed in, and what `cg_collect_globals` makes of a module whose global variables
end below 2³¹.
-/

namespace CronoVM.Globals

/-! ## Alignment -/

/-- A number, rounded up to a multiple. -/
def alignUp (n a : Nat) : Nat := (n + a - 1) / a * a

theorem le_alignUp (n : Nat) {a : Nat} (ha : 0 < a) : n ≤ alignUp n a := by
  have hmod := Nat.div_add_mod (n + a - 1) a
  have hlt := Nat.mod_lt (n + a - 1) ha
  rw [Nat.mul_comm] at hmod
  unfold alignUp
  omega

theorem dvd_alignUp (n a : Nat) : a ∣ alignUp n a := Nat.dvd_mul_left _ _

/-- A mask of the low bits, taken out of a word. -/
theorem toNat_and_not_mask (w : Word) {k : Nat} (hk : k < 32) :
    (w &&& ~~~(BitVec.ofNat 32 (2 ^ k) - 1#32)).toNat = w.toNat / 2 ^ k * 2 ^ k := by
  have hpos := Nat.two_pow_pos k
  have hpow : 2 ^ k < 2 ^ 32 := Nat.pow_lt_pow_right Nat.one_lt_two hk
  have hmask : BitVec.ofNat 32 (2 ^ k) - 1#32 = BitVec.ofNat 32 (2 ^ k - 1) := by
    apply BitVec.eq_of_toNat_eq
    rw [BitVec.toNat_sub, BitVec.toNat_ofNat, BitVec.toNat_ofNat, BitVec.toNat_ofNat]
    omega
  rw [hmask]
  exact NarrowInt.toNat_and_not_lowMask w

/-- The cursor is rounded up. -/
theorem toNat_align {c : Word} {k : Nat} (hk : k < 32) (hc : c.toNat ≤ 2 ^ 31) :
    ((c + BitVec.ofNat 32 (2 ^ k) - 1#32) &&& ~~~(BitVec.ofNat 32 (2 ^ k) - 1#32)).toNat = alignUp c.toNat (2 ^ k) := by
  have hpos := Nat.two_pow_pos k
  have hpow : 2 ^ k ≤ 2 ^ 31 := Nat.pow_le_pow_right Nat.two_pos (by omega)
  have hsum : (c + BitVec.ofNat 32 (2 ^ k) - 1#32).toNat = c.toNat + 2 ^ k - 1 := by
    rw [BitVec.toNat_sub, BitVec.toNat_add, BitVec.toNat_ofNat, BitVec.toNat_ofNat]
    omega
  rw [toNat_and_not_mask _ hk, hsum, alignUp]

/-! ## Capacity -/

/-- The capacity grows until it is enough, for up to 2³¹ bytes. -/
theorem growCap_eq {need : Word} (hneed : need.toNat ≤ 2 ^ 31) {fuel k : Nat} (hk : k ≤ 31) (hfuel : 32 ≤ fuel + k) :
    ∃ j, k ≤ j ∧ j ≤ 31 ∧ need.toNat ≤ 2 ^ j ∧ growCap fuel (BitVec.ofNat 32 (2 ^ k)) need = some (BitVec.ofNat 32 (2 ^ j)) := by
  induction fuel generalizing k with
  | zero => omega
  | succ fuel ih =>
    have hpow : 2 ^ k < 2 ^ 32 := Nat.pow_lt_pow_right Nat.one_lt_two (by omega)
    have htoNat : (BitVec.ofNat 32 (2 ^ k)).toNat = 2 ^ k := Nat.mod_eq_of_lt hpow
    rw [growCap]
    by_cases hlt : BitVec.ofNat 32 (2 ^ k) < need
    · have hlt' : 2 ^ k < 2 ^ 31 := Nat.lt_of_lt_of_le (htoNat ▸ BitVec.lt_def.mp hlt) hneed
      have hk' : k < 31 := (Nat.pow_lt_pow_iff_right Nat.one_lt_two).mp hlt'
      have hdouble : BitVec.ofNat 32 (2 ^ k) * 2#32 = BitVec.ofNat 32 (2 ^ (k + 1)) := by rw [Nat.pow_succ, BitVec.ofNat_mul]
      rw [if_pos hlt, hdouble]
      obtain ⟨j, hkj, hj, hneed', heq⟩ := ih (k := k + 1) (by omega) (by omega)
      exact ⟨j, by omega, hj, hneed', heq⟩
    · rw [if_neg hlt]
      exact ⟨k, Nat.le_refl k, hk, htoNat ▸ Nat.not_lt.mp fun h => hlt (BitVec.lt_def.mpr h), rfl⟩

/-- Zeros throughout, in a capacity that is nothing or a power of two. -/
structure Cleared (m : Mem) : Prop where
  zero : m.ZeroOn 0 m.size
  cap : m.size = 0 ∨ ∃ k, 6 ≤ k ∧ k ≤ 31 ∧ m.size = 2 ^ k

theorem cgDataReserve_eq {fuel : Nat} {m : Mem} {need : Word} (hneed : need.toNat ≤ 2 ^ 31) (hfuel : 32 ≤ fuel) (h : Cleared m) :
    ∃ m', cgDataReserve fuel m need = some m' ∧ Cleared m' ∧ need.toNat ≤ m'.size ∧ m.size ≤ m'.size := by
  unfold cgDataReserve
  by_cases hge : m.size ≥ need.toNat
  · exact ⟨m, if_pos hge, h, hge, Nat.le_refl _⟩
  · obtain ⟨k, hk6, hk, hcap⟩ : ∃ k, 6 ≤ k ∧ k ≤ 31 ∧ (if m.size = 0 then 64#32 else BitVec.ofNat 32 m.size) = BitVec.ofNat 32 (2 ^ k) := by
      rcases h.cap with hzero | ⟨k, hk6, hk, hsize⟩
      · exact ⟨6, Nat.le_refl 6, by decide, if_pos hzero⟩
      · have hpos := Nat.two_pow_pos k
        rw [hsize, if_neg (by omega)]
        exact ⟨k, hk6, hk, rfl⟩
    have hbound : 32 ≤ fuel + k := by omega
    obtain ⟨j, hkj, hj, hle, heq⟩ := growCap_eq hneed hk hbound
    have hpow : 2 ^ j < 2 ^ 32 := Nat.pow_lt_pow_right Nat.one_lt_two (by omega)
    have htoNat : (BitVec.ofNat 32 (2 ^ j)).toNat = 2 ^ j := Nat.mod_eq_of_lt hpow
    rw [if_neg hge, hcap, heq]
    refine ⟨_, rfl, ⟨fun i _ hi => ?_, Or.inr ⟨j, by omega, hj, htoNat⟩⟩, hle.trans htoNat.ge, ?_⟩
    · change i < 0 + (BitVec.ofNat 32 (2 ^ j)).toNat at hi
      change (if m.size ≤ i ∧ i < m.size + ((BitVec.ofNat 32 (2 ^ j)).toNat - m.size) then 0#8 else m.byte i) = 0#8
      split
      · rfl
      · exact h.zero i (Nat.zero_le _) (by omega)
    · change m.size ≤ (BitVec.ofNat 32 (2 ^ j)).toNat
      omega

/-! ## Layout -/

section layout

variable (td : TargetData)

/-- The alignment a global variable is given. -/
def GlobalVar.alignment (gv : GlobalVar) : Nat := max (td.abiAlign gv.ty) gv.align

/-- The global variables from the number `i` on, laid out from `n` on. -/
def layoutItems : List GlobalVar → Nat → Nat → List CgGlobal
  | [], _, _ => []
  | gv :: gvs, i, n =>
    { value := i, offset := BitVec.ofNat 32 (alignUp n (gv.alignment td)), size := sizeOf td gv.ty } ::
      layoutItems gvs (i + 1) (alignUp n (gv.alignment td) + td.abiSize gv.ty)

/-- Where they end. -/
def layoutEnd : List GlobalVar → Nat → Nat
  | [], n => n
  | gv :: gvs, n => layoutEnd gvs (alignUp n (gv.alignment td) + td.abiSize gv.ty)

theorem alignment_pow (gv : GlobalVar) : ∃ k, k < 32 ∧ gv.alignment td = 2 ^ k := by
  obtain ⟨k, hk, habi⟩ := td.abiAlign_pow gv.ty
  rcases Nat.le_total gv.align (td.abiAlign gv.ty) with hle | hle
  · exact ⟨k, hk, (Nat.max_eq_left hle).trans habi⟩
  · rcases gv.align_pow with hzero | ⟨j, hj, halign⟩
    · have hpos := Nat.two_pow_pos k
      omega
    · exact ⟨j, hj, (Nat.max_eq_right hle).trans halign⟩

theorem alignment_pos (gv : GlobalVar) : 0 < gv.alignment td := by
  obtain ⟨k, -, hk⟩ := alignment_pow td gv
  exact hk ▸ Nat.two_pow_pos k

/-- Both alignments divide it. -/
theorem alignment_dvd (gv : GlobalVar) : td.abiAlign gv.ty ∣ gv.alignment td ∧ (gv.align ≠ 0 → gv.align ∣ gv.alignment td) := by
  obtain ⟨k, -, hk⟩ := alignment_pow td gv
  obtain ⟨j, -, habi⟩ := td.abiAlign_pow gv.ty
  have hdvd : ∀ i, 2 ^ i ≤ gv.alignment td → 2 ^ i ∣ gv.alignment td := by
    intro i hle
    rw [hk] at hle ⊢
    exact Nat.pow_dvd_pow 2 ((Nat.pow_le_pow_iff_right Nat.one_lt_two).mp hle)
  constructor
  · have hle : td.abiAlign gv.ty ≤ gv.alignment td := Nat.le_max_left _ _
    rw [habi] at hle ⊢
    exact hdvd j hle
  · intro hne
    obtain ⟨i, -, halign⟩ := gv.align_pow.resolve_left hne
    have hle : gv.align ≤ gv.alignment td := Nat.le_max_right _ _
    rw [halign] at hle ⊢
    exact hdvd i hle

variable {td}

theorem alignOf_eq (gv : GlobalVar) : alignOf td gv = BitVec.ofNat 32 (gv.alignment td) := by
  obtain ⟨j, hj, habi⟩ := td.abiAlign_pow gv.ty
  have hpow : 2 ^ j < 2 ^ 32 := Nat.pow_lt_pow_right Nat.one_lt_two hj
  have hpos := Nat.two_pow_pos j
  have halign : gv.align < 2 ^ 32 := by
    rcases gv.align_pow with hzero | ⟨i, hi, h⟩
    · omega
    · exact h ▸ Nat.pow_lt_pow_right Nat.one_lt_two hi
  have hmax : (if BitVec.ofNat 32 gv.align > BitVec.ofNat 32 (td.abiAlign gv.ty) then BitVec.ofNat 32 gv.align
      else BitVec.ofNat 32 (td.abiAlign gv.ty)) = BitVec.ofNat 32 (gv.alignment td) := by
    unfold GlobalVar.alignment
    rcases Nat.lt_or_ge (td.abiAlign gv.ty) gv.align with hlt | hge
    · rw [Nat.max_eq_right (Nat.le_of_lt hlt), if_pos]
      change (BitVec.ofNat 32 (td.abiAlign gv.ty)).toNat < (BitVec.ofNat 32 gv.align).toNat
      rw [BitVec.toNat_ofNat, BitVec.toNat_ofNat, Nat.mod_eq_of_lt (by omega), Nat.mod_eq_of_lt (by omega)]
      exact hlt
    · rw [Nat.max_eq_left hge, if_neg]
      change ¬(BitVec.ofNat 32 (td.abiAlign gv.ty)).toNat < (BitVec.ofNat 32 gv.align).toNat
      rw [BitVec.toNat_ofNat, BitVec.toNat_ofNat, Nat.mod_eq_of_lt (by omega), Nat.mod_eq_of_lt (by omega)]
      exact Nat.not_lt.mpr hge
  obtain ⟨k, hk, hpowk⟩ := alignment_pow td gv
  have hne : BitVec.ofNat 32 (gv.alignment td) ≠ 0#32 := by
    intro h
    have hnat := congrArg BitVec.toNat h
    have hlt : 2 ^ k < 2 ^ 32 := Nat.pow_lt_pow_right Nat.one_lt_two hk
    have hkpos := Nat.two_pow_pos k
    rw [hpowk, BitVec.toNat_ofNat, Nat.mod_eq_of_lt hlt, BitVec.toNat_ofNat] at hnat
    omega
  unfold alignOf
  dsimp only
  rw [hmax, if_neg hne]

theorem le_layoutEnd (gvs : List GlobalVar) (n : Nat) : n ≤ layoutEnd td gvs n := by
  induction gvs generalizing n with
  | nil => exact Nat.le_refl n
  | cons gv gvs ih =>
    have hle := le_alignUp n (alignment_pos td gv)
    exact Nat.le_trans (by omega) (ih (alignUp n (gv.alignment td) + td.abiSize gv.ty))

/-- The state of the first pass with the cursor at `n`. -/
structure LaidOut (g : CgGlobals) (n : Nat) : Prop where
  cleared : Cleared g.data
  size : n ≤ g.data.size
  dataSize : g.dataSize.toNat = n

/-- The first pass lays the global variables out as numbers say, or rejects one. -/
theorem layoutGlobals_spec {fuel : Nat} (hfuel : 32 ≤ fuel) {gvs : List GlobalVar} {i : Nat} {cursor : Word} {g : CgGlobals}
    (hend : layoutEnd td gvs cursor.toNat ≤ 2 ^ 31) (hg : LaidOut g cursor.toNat) :
    layoutGlobals td fuel gvs i cursor g ≠ .error .outOfFuel ∧ ∀ g', layoutGlobals td fuel gvs i cursor g = .ok g' →
      g'.items = g.items ++ layoutItems td gvs i cursor.toNat ∧ LaidOut g' (layoutEnd td gvs cursor.toNat) ∧
      ∀ gv ∈ gvs, gv.init ≠ none := by
  induction gvs generalizing i cursor g with
  | nil =>
    refine ⟨nofun, fun g' h => ?_⟩
    obtain rfl : g = g' := Except.ok.inj h
    exact ⟨(List.append_nil _).symm, hg, fun _ h => nomatch h⟩
  | cons gv gvs ih =>
    rw [layoutGlobals]
    by_cases hinit : gv.init = none
    · rw [if_pos hinit]
      exact ⟨nofun, nofun⟩
    rw [if_neg hinit]
    by_cases hty : typeInSubset gv.ty = false
    · rw [if_pos hty]
      exact ⟨nofun, nofun⟩
    rw [if_neg hty]
    dsimp only
    obtain ⟨k, hk, hpow⟩ := alignment_pow td gv
    have hup := le_alignUp cursor.toNat (alignment_pos td gv)
    have hrest : alignUp cursor.toNat (gv.alignment td) + td.abiSize gv.ty ≤ 2 ^ 31 := Nat.le_trans (le_layoutEnd gvs _) hend
    have haligned : ((cursor + alignOf td gv - 1#32) &&& ~~~(alignOf td gv - 1#32)).toNat = alignUp cursor.toNat (gv.alignment td) := by
      rw [alignOf_eq, hpow]
      exact toNat_align hk (by omega)
    rw [layoutEnd] at hend
    rw [layoutItems, layoutEnd]
    generalize (cursor + alignOf td gv - 1#32) &&& ~~~(alignOf td gv - 1#32) = offset at haligned ⊢
    rw [← haligned] at hrest hend ⊢
    have hnext : (offset + sizeOf td gv.ty).toNat = offset.toNat + td.abiSize gv.ty := by
      rw [BitVec.toNat_add, sizeOf, BitVec.toNat_ofNat]
      omega
    rw [← hnext] at hend hrest ⊢
    obtain ⟨data, hdata, hcleared, hneed, -⟩ := cgDataReserve_eq hrest hfuel hg.cleared
    rw [hdata]
    have hgrow : (if offset + sizeOf td gv.ty > g.dataSize then offset + sizeOf td gv.ty else g.dataSize).toNat =
        (offset + sizeOf td gv.ty).toNat := by
      have hsize := hg.dataSize
      split
      case isTrue => rfl
      case isFalse hle =>
        have hle' := mt BitVec.lt_def.mpr hle
        omega
    have hlaid : LaidOut (CgGlobals.mk (g.items ++ [{ value := i, offset := offset, size := sizeOf td gv.ty }]) data
        (if offset + sizeOf td gv.ty > g.dataSize then offset + sizeOf td gv.ty else g.dataSize)) (offset + sizeOf td gv.ty).toNat :=
      ⟨hcleared, hneed, hgrow⟩
    obtain ⟨hfuel', hok⟩ := ih (i := i + 1) hend hlaid
    refine ⟨hfuel', fun g' h => ?_⟩
    obtain ⟨hitems, hlaid', hdefined⟩ := hok g' h
    refine ⟨?_, hlaid', fun gv' hmem => ?_⟩
    · rw [hitems, List.append_assoc, BitVec.ofNat_toNat, BitVec.setWidth_eq]
      rfl
    · rcases List.mem_cons.mp hmem with rfl | hmem
      · exact hinit
      · exact hdefined gv' hmem

end layout

end CronoVM.Globals
