import CronoVM.Lib.Regions
import CronoVM.Translator.Emit
import CronoVM.Translator.Globals
import Mathlib.Algebra.Ring.Int.Defs

/-!
# The images of initialisers

What the memory of the target holds of a constant: numbers and addresses with the low byte first, the parts of an array and of a struct
at the offsets the target lays them out at. `serialize_constant` writes it if no number is wider than its place.
-/

namespace CronoVM.Globals

open Checked

/-! ## Images -/

/-- What the constants of a module refer to: the addresses of its global variables and the table of its functions. -/
structure Refs where
  address : Nat → Option Word
  funcs : List Nat

/-- The word that code loads for the address of a function. -/
def FunctionWord (funcs : List Nat) (fn : Nat) (w : Word) : Prop :=
  ∀ cg : Cg, cg.funcs = funcs → cgRegForConst (.func fn) cg = cgConstReg w cg

section image

variable (td : TargetData)

/-- The bits of a value of a type. -/
def bits (t : Ty) : Nat := t.bits (8 * td.abiSize .pointer)

/-- What the indices of a GEP add to the address, unless one of them is no constant. -/
def GepPath.offset : {t : Ty} → GepPath t → Option Int
  | _, .nil => some 0
  | _, .elem (t := t) ci rest => rest.offset.map fun off => ci * td.abiSize t + off
  | _, @GepPath.field p n fs fi rest => rest.offset.map fun off => td.offsetOfElement p n fs fi + off
  | _, .stop => none

variable (refs : Refs)

/-- The value of a constant that is neither an array nor a struct. An address has 32 bits; `undef` has any value. -/
def HasValue : {t : Ty} → Const t → Nat → Prop
  | _, .int _ v, n => n = v.toNat
  | _, .float b, n => n = b.toNat
  | _, .double b, n => n = b.toNat
  | _, .null, n => n = 0
  | _, .zero _, n => n = 0
  | _, .undef _, _ => True
  | _, .global id, n => ∃ w, refs.address id = some w ∧ n = w.toNat
  | _, .func id, n => ∃ w, FunctionWord refs.funcs id w ∧ n = w.toNat
  | _, .aliasOf c, n => HasValue c n
  | _, .cast op t c _ _, n => op ≠ .other ∧ ∃ m, HasValue c m ∧ n = m % 2 ^ bits td t
  | _, .gep source first path base, n => ∃ m ci off, HasValue base m ∧ first = some ci ∧ path.offset td = some off ∧
      (n : Int) = ((m : Int) + (ci * td.abiSize source + off)) % 2 ^ 32
  | _, .array _, _ | _, .struct _, _ | _, .other _, _ => False

/-- The image of a constant lies in memory. What a struct has between its fields is not said. -/
def ImageAt (m : Mem) : {t : Ty} → Const t → Nat → Prop
  | _, .array (t := t) elems, off => ∀ i, ImageAt m (elems i) (off + i * td.abiSize t)
  | _, @Const.struct p n fs elems, off => ∀ i, ImageAt m (elems i) (off + td.offsetOfElement p n fs i)
  | _, .zero t, off => ∀ k, k < td.abiSize t → m.byte (off + k) = 0#8
  | _, .undef _, _ => True
  | t, c, off => ∃ n, HasValue td refs c n ∧ ∀ k, k < (bits td t + 7) / 8 → m.byte (off + k) = byteOf n k

/-! ## Constants that fit -/

/-- The bits a value can have, from its constant. -/
def valueBits : {t : Ty} → Const t → Nat
  | _, .int (w := w) _ _ => w
  | _, .double _ => 64
  | _, .float _ | _, .global _ | _, .func _ | _, .gep _ _ _ _ => 32
  | _, .aliasOf c | _, .cast _ _ c _ _ => valueBits c
  | _, .null | _, .zero _ | _, .undef _ | _, .array _ | _, .struct _ | _, .other _ => 0

/-- The bytes that are written of a value. -/
def writtenBytes : {t : Ty} → Const t → Nat
  | _, .int (w := w) _ _ => min (td.abiSize (.int w)) 8
  | _, .double _ => 8
  | _, .float _ | _, .global _ | _, .func _ | _, .gep _ _ _ _ => 4
  | _, .aliasOf c | _, .cast _ _ c _ _ => writtenBytes c
  | _, .null | _, .zero _ | _, .undef _ | _, .array _ | _, .struct _ | _, .other _ => 0

/-- No integer has more than 64 bits, no `float` is a signaling NaN, and no cast is to a type that is too small for what is cast. -/
def Fits : {t : Ty} → Const t → Prop
  | _, .int _ v => v.toNat < 2 ^ 64
  | _, .float b => isSignaling b = false
  | _, .aliasOf c => Fits c
  | _, .cast _ t c _ _ => Fits c ∧ valueBits c ≤ bits td t ∧ writtenBytes td c ≤ td.abiSize t
  | _, .array elems => ∀ i, Fits (elems i)
  | _, .struct elems => ∀ i, Fits (elems i)
  | _, _ => True

end image

/-! ## Values -/

theorem functionWord_of_idxOf {funcs : List Nat} {fn fidx : Nat} (h : funcs.idxOf? fn = some fidx) :
    FunctionWord funcs fn (BitVec.ofNat 32 (cvmFnSlot fidx)) := by
  intro cg hcg
  have hidx : cg.funcs.idxOf? fn = some fidx := hcg ▸ h
  simp only [cgRegForConst, Exec.run_bind, Exec.run_get, hidx, cvmFnSlot]

/-- A byte above a number is zero. -/
theorem byteOf_of_lt {n k : Nat} (h : n < 256 ^ k) : byteOf n k = 0#8 := by
  have hpow : 2 ^ (8 * k) = 256 ^ k := by rw [Nat.pow_mul]
  rw [byteOf, Nat.shiftRight_eq_div_pow, hpow, Nat.div_eq_of_lt h]

section values

variable {td : TargetData} {items : List CgGlobal} {funcs : List Nat}

/-- What the constants of a module refer to once its global variables are laid out. -/
def refsOf (items : List CgGlobal) (funcs : List Nat) : Refs where
  address id := (items.find? fun it => it.value = id).map CgGlobal.offset
  funcs := funcs

theorem gepWalk_eq {t : Ty} (path : GepPath t) (off : Int) : gepWalk td path off = (path.offset td).map (off + ·) := by
  induction path generalizing off with
  | nil => exact congrArg some (Int.add_zero off).symm
  | elem ci rest ih =>
    rw [gepWalk, ih, GepPath.offset, Option.map_map]
    congr 1
    funext k
    exact Int.add_assoc _ _ _
  | field fi rest ih =>
    rw [gepWalk, ih, GepPath.offset, Option.map_map]
    congr 1
    funext k
    exact Int.add_assoc _ _ _
  | stop => rfl

/-- A value whose bytes are written, and no others. -/
structure Writes (td : TargetData) (refs : Refs) {t : Ty} (c : Const t) (out out' : Mem) (off : Word) (n : Nat) : Prop where
  value : HasValue td refs c n
  bits : n < 2 ^ valueBits c
  bytes : n < 256 ^ writtenBytes td c
  eq : out' = out.blit off.toNat (writtenBytes td c) (byteOf n)

/-- The address of a global variable, with an offset. -/
theorem putGlobalAddr_eq (funcs : List Nat) {id : Nat} {extra : Int} {out out' : Mem} {off : Word} (h : putGlobalAddr items id extra out off = some out') :
    ∃ (w : Word) (n : Nat), (refsOf items funcs).address id = some w ∧ (n : Int) = ((w.toNat : Int) + extra) % 2 ^ 32 ∧ n < 2 ^ 32 ∧
      out' = out.blit off.toNat 4 (byteOf n) := by
  unfold putGlobalAddr at h
  split at h
  case h_1 it hfind =>
    obtain rfl := Option.some.inj h
    refine ⟨it.offset, (it.offset + BitVec.ofInt 32 extra).toNat, ?_, ?_, BitVec.isLt _, rfl⟩
    · exact congrArg (Option.map CgGlobal.offset) hfind
    · rw [BitVec.toNat_add, BitVec.toNat_ofInt]
      omega
  case h_2 => nomatch h

/-- A cast of a value that fits keeps it. -/
theorem Writes.cast {s t : Ty} {c : Const s} {op : CastOp} {hs : s.isScalar = true} {ht : t.isScalar = true} {refs : Refs} {out out' : Mem}
    {off : Word} {n : Nat} (hop : op ≠ .other) (hbits : valueBits c ≤ Globals.bits td t) (h : Writes td refs c out out' off n) :
    Writes td refs (.cast op t c hs ht) out out' off n where
  value := ⟨hop, n, h.value, (Nat.mod_eq_of_lt (Nat.lt_of_lt_of_le h.bits (Nat.pow_le_pow_right Nat.two_pos hbits))).symm⟩
  bits := h.bits
  bytes := h.bytes
  eq := h.eq

theorem serializeGlobalPtr_writes {t : Ty} {c : Const t} (hfit : Fits td c) {sz : Word} {out out' : Mem} {off : Word}
    (h : serializeGlobalPtr td items sz out off c = some out') :
    ¬sz < 4#32 ∧ writtenBytes td c = 4 ∧ ∃ n, Writes td (refsOf items funcs) c out out' off n := by
  induction c with
  | cast op t c hs ht ih =>
    rw [serializeGlobalPtr] at h
    split at h
    case isTrue => nomatch h
    case isFalse hop =>
      obtain ⟨hop, hother⟩ := not_or.mp hop
      obtain ⟨hsz, hbytes, n, hwrites⟩ := ih hfit.1 h
      exact ⟨hsz, hbytes, n, hwrites.cast hother hfit.2.1⟩
  | global id =>
    rw [serializeGlobalPtr] at h
    split at h
    case isTrue => nomatch h
    case isFalse hsz =>
      obtain ⟨w, n, haddr, hn, hlt, heq⟩ := putGlobalAddr_eq funcs h
      have hw := w.isLt
      exact ⟨hsz, rfl, n, ⟨w, haddr, by omega⟩, hlt, hlt, heq⟩
  | gep source first path base =>
    cases base with
    | global id =>
      rw [serializeGlobalPtr] at h
      split at h
      case isTrue => nomatch h
      case isFalse hsz =>
        split at h
        case h_1 extra hextra =>
          obtain ⟨w, n, haddr, hn, hlt, heq⟩ := putGlobalAddr_eq funcs h
          unfold cgConstGepOffset at hextra
          split at hextra
          case h_1 ci =>
            rw [gepWalk_eq] at hextra
            obtain ⟨o, hoff, rfl⟩ := Option.map_eq_some_iff.mp hextra
            exact ⟨hsz, rfl, n, ⟨w.toNat, ci, o, ⟨w, haddr, rfl⟩, rfl, hoff, hn⟩, hlt, hlt, heq⟩
          case h_2 => nomatch hextra
        case h_2 => nomatch h
    | _ => simp only [serializeGlobalPtr, reduceCtorEq] at h
  | _ => simp only [serializeGlobalPtr, reduceCtorEq] at h

variable {cap : Word}

theorem of_belowCap {t : Ty} {off : Word} {rest : Option Mem} {out : Mem} (h : belowCap td cap t off rest = some out) : rest = some out := by
  unfold belowCap at h
  split at h
  · nomatch h
  · exact h

theorem pointer_size (h : ¬sizeOf td .pointer < 4#32) : 4 ≤ td.abiSize .pointer :=
  Nat.le_trans (Nat.not_lt.mp fun hlt => h (BitVec.lt_def.mpr hlt)) (Nat.mod_le _ _)

theorem serializeConstant_writes {t : Ty} {c : Const t} (ht : t.isScalar = true) (hfit : Fits td c) {out out' : Mem} {off : Word}
    (h : serializeConstant td items funcs cap c out off = some out') :
    writtenBytes td c ≤ td.abiSize t ∧ ∃ n, Writes td (refsOf items funcs) c out out' off n := by
  induction c with
  | @int w hw v =>
    rw [serializeConstant] at h
    replace h := of_belowCap h
    have hsize := td.int_size w hw
    have hlt : v.toNat < 2 ^ 64 := hfit
    have hbits : w ≤ 8 * td.abiSize (.int w) := td.bits_le (.int w)
    have hword : (sizeOf td (.int w)).toNat = td.abiSize (.int w) := Nat.mod_eq_of_lt hsize
    rw [hword, Nat.mod_eq_of_lt hlt] at h
    refine ⟨Nat.min_le_left _ _, v.toNat, rfl, v.isLt, ?_, (Option.some.inj h).symm⟩
    change v.toNat < 256 ^ min (td.abiSize (.int w)) 8
    rcases Nat.le_total (td.abiSize (.int w)) 8 with hle | hle
    · rw [Nat.min_eq_left hle, show 256 = 2 ^ 8 from rfl, ← Nat.pow_mul]
      exact Nat.lt_of_lt_of_le v.isLt (Nat.pow_le_pow_right Nat.two_pos hbits)
    · rw [Nat.min_eq_right hle]
      exact hlt
  | float b =>
    have hquiet : isSignaling b = false := hfit
    rw [serializeConstant] at h
    replace h := of_belowCap h
    rw [td.float_roundtrip, hquiet, if_neg Bool.false_ne_true] at h
    exact ⟨td.float_size.ge, b.toNat, rfl, b.isLt, b.isLt, (Option.some.inj h).symm⟩
  | double b =>
    rw [serializeConstant] at h
    replace h := of_belowCap h
    exact ⟨td.double_size.ge, b.toNat, rfl, b.isLt, b.isLt, (Option.some.inj h).symm⟩
  | null =>
    rw [serializeConstant] at h
    replace h := of_belowCap h
    exact ⟨Nat.zero_le _, 0, rfl, Nat.one_pos, Nat.one_pos, ((out.blit_zero _ _).trans (Option.some.inj h)).symm⟩
  | zero t =>
    rw [serializeConstant] at h
    replace h := of_belowCap h
    exact ⟨Nat.zero_le _, 0, rfl, Nat.one_pos, Nat.one_pos, ((out.blit_zero _ _).trans (Option.some.inj h)).symm⟩
  | undef t =>
    rw [serializeConstant] at h
    replace h := of_belowCap h
    exact ⟨Nat.zero_le _, 0, trivial, Nat.one_pos, Nat.one_pos, ((out.blit_zero _ _).trans (Option.some.inj h)).symm⟩
  | array elems => nomatch ht
  | struct elems => nomatch ht
  | global id =>
    rw [serializeConstant] at h
    replace h := of_belowCap h
    obtain ⟨hsz, hbytes, hwrites⟩ := serializeGlobalPtr_writes hfit h
    exact ⟨hbytes ▸ pointer_size hsz, hwrites⟩
  | func id =>
    rw [serializeConstant] at h
    replace h := of_belowCap h
    split at h
    case isTrue => nomatch h
    case isFalse hsz =>
      unfold serializeFunctionIndex at h
      split at h
      case h_1 fidx hfidx =>
        exact ⟨pointer_size hsz, _, ⟨_, functionWord_of_idxOf hfidx, rfl⟩, BitVec.isLt _, BitVec.isLt _, (Option.some.inj h).symm⟩
      case h_2 => nomatch h
  | aliasOf c ih =>
    rw [serializeConstant] at h
    replace h := of_belowCap h
    obtain ⟨hle, n, hwrites⟩ := ih rfl hfit h
    exact ⟨hle, n, hwrites.value, hwrites.bits, hwrites.bytes, hwrites.eq⟩
  | cast op t c hs ht' ih =>
    obtain ⟨hfit', hbits, hbytes⟩ := hfit
    refine ⟨hbytes, ?_⟩
    cases op with
    | ptrToInt | intToPtr | bitCast =>
      rw [serializeConstant] at h
      replace h := of_belowCap h
      obtain ⟨-, n, hwrites⟩ := ih hs hfit' h
      exact ⟨n, hwrites.cast (by decide) hbits⟩
    | addrSpaceCast =>
      rw [serializeConstant] at h
      replace h := of_belowCap h
      have hfit : Fits td (.cast .addrSpaceCast t c hs ht') := ⟨hfit', hbits, hbytes⟩
      split at h
      · exact (serializeGlobalPtr_writes hfit h).2.2
      · nomatch h
    | other =>
      rw [serializeConstant] at h
      replace h := of_belowCap h
      nomatch h
  | gep source first path base =>
    rw [serializeConstant] at h
    replace h := of_belowCap h
    obtain ⟨hsz, hbytes, hwrites⟩ := serializeGlobalPtr_writes hfit h
    exact ⟨hbytes ▸ pointer_size hsz, hwrites⟩
  | other t =>
    rw [serializeConstant] at h
    replace h := of_belowCap h
    nomatch h

/-! ## Constants -/

theorem store_le (t : Ty) : (bits td t + 7) / 8 ≤ td.abiSize t := by
  have hbits : bits td t ≤ 8 * td.abiSize t := td.bits_le t
  omega

theorem elem_le {n : Nat} (t : Ty) (i : Fin n) : (i : Nat) * td.abiSize t + td.abiSize t ≤ td.abiSize (.array n t) := by
  rw [td.array_size, ← Nat.succ_mul]
  exact Nat.mul_le_mul_right _ i.isLt

/-- The image of a constant is in the bytes of its type. -/
theorem imageAt_congr {refs : Refs} {t : Ty} {c : Const t} {m m' : Mem} {off : Nat} (hsame : m.SameOn m' off (td.abiSize t))
    (h : ImageAt td refs m c off) : ImageAt td refs m' c off := by
  induction c generalizing off with
  | @array n t elems ih =>
    intro i
    have hle : (i : Nat) * td.abiSize t + td.abiSize t ≤ td.abiSize (.array n t) := elem_le t i
    exact ih i (hsame.mono (Nat.le_add_right _ _) (by omega)) (h i)
  | @struct p n fs elems ih =>
    intro i
    have hle := td.field_le p n fs i
    exact ih i (hsame.mono (Nat.le_add_right _ _) (by omega)) (h i)
  | zero t =>
    intro k hk
    rw [hsame (off + k) (by omega) (by omega)]
    exact h k hk
  | undef t => trivial
  | _ =>
    obtain ⟨n, hvalue, hbytes⟩ := h
    refine ⟨n, hvalue, fun k hk => ?_⟩
    rw [hsame (off + k) (by omega) (Nat.add_lt_add_left (Nat.lt_of_lt_of_le hk (store_le _)) _)]
    exact hbytes k hk

/-- The image of a value is what is written of it, on zeros. -/
theorem Writes.image {refs : Refs} {t : Ty} {c : Const t} {out out' : Mem} {off : Word} {n : Nat} (h : Writes td refs c out out' off n)
    (hzero : out.ZeroOn off.toNat (td.abiSize t)) {k : Nat} (hk : k < td.abiSize t) : out'.byte (off.toNat + k) = byteOf n k := by
  rw [h.eq]
  rcases Nat.lt_or_ge k (writtenBytes td c) with hlt | hge
  · exact out.blit_byte_add _ hlt
  · have hbyte : n < 256 ^ k := Nat.lt_of_lt_of_le h.bytes (Nat.pow_le_pow_right (by decide) hge)
    rw [out.blit_byte_of_ge _ (by omega), hzero _ (by omega) (by omega), byteOf_of_lt hbyte]

/-- Parts in order and inside a region, each filled by a step of its own. -/
theorem fill_parts {n : Nat} {R : Fin n → Mem → Mem → Prop} {P : Fin n → Mem → Prop} {m m' : Mem} {off size : Nat} (lo len : Fin n → Nat)
    (h : Chain R (List.finRange n) m m') (hzero : m.ZeroOn off size) (hin : ∀ i, off ≤ lo i ∧ lo i + len i ≤ off + size)
    (hdisj : ∀ i j, i < j → lo i + len i ≤ lo j)
    (hstep : ∀ i m m', m.ZeroOn (lo i) (len i) → R i m m' → m.Within m' (lo i) (len i) ∧ P i m')
    (hsame : ∀ i m m', m.SameOn m' (lo i) (len i) → P i m → P i m') : m.Within m' off size ∧ ∀ i, P i m' := by
  obtain ⟨hsize, hframe, hparts⟩ := h.fill lo len (fun i _ => hsame i) ((List.pairwise_lt_finRange n).imp fun hij => Or.inl (hdisj _ _ hij))
    (fun i _ => hstep i) fun i _ => hzero.mono (hin i).1 (hin i).2
  refine ⟨⟨hsize, fun k hk => hframe k fun i _ => ?_⟩, fun i => hparts i (List.mem_finRange i)⟩
  have hbounds := hin i
  omega

/-- What `serialize_constant` leaves: the image, in the bytes of the type and nowhere else. -/
theorem serializeConstant_image {t : Ty} {c : Const t} (hfit : Fits td c) {out out' : Mem} {off : Word}
    (hroom : off.toNat + td.abiSize t < 2 ^ 32) (hzero : out.ZeroOn off.toNat (td.abiSize t))
    (h : serializeConstant td items funcs cap c out off = some out') :
    out.Within out' off.toNat (td.abiSize t) ∧ ImageAt td (refsOf items funcs) out' c off.toNat := by
  induction c generalizing out out' off with
  | @array n t elems ih =>
    rw [serializeConstant] at h
    have hle : ∀ i : Fin n, (i : Nat) * td.abiSize t + td.abiSize t ≤ td.abiSize (.array n t) := elem_le t
    refine fill_parts (P := fun i m => ImageAt td (refsOf items funcs) m (elems i) (off.toNat + i * td.abiSize t))
      (fun i => off.toNat + i * td.abiSize t) (fun _ => td.abiSize t) (Chain.of_foldlM (of_belowCap h)) hzero
      (fun i => ?_) (fun i j hij => ?_) (fun i m m' hm hstep => ?_) fun i m m' hm => imageAt_congr hm
    · have hlast := hle i
      omega
    · have hnext : ((i : Nat) + 1) * td.abiSize t ≤ j * td.abiSize t := Nat.mul_le_mul_right _ hij
      rw [Nat.succ_mul] at hnext
      omega
    · have hlast := hle i
      have hoff : (off + BitVec.ofNat 32 i * sizeOf td t).toNat = off.toNat + i * td.abiSize t := by
        have hmul : (BitVec.ofNat 32 i * sizeOf td t).toNat = i * td.abiSize t := by
          rw [sizeOf, ← BitVec.ofNat_mul, BitVec.toNat_ofNat, Nat.mod_eq_of_lt (by omega)]
        rw [BitVec.toNat_add, hmul, Nat.mod_eq_of_lt (by omega)]
      rw [← hoff] at hm ⊢
      exact ih i (hfit i) (by omega) hm hstep
  | @struct p n fs elems ih =>
    rw [serializeConstant] at h
    have hle := td.field_le p n fs
    refine fill_parts (P := fun i m => ImageAt td (refsOf items funcs) m (elems i) (off.toNat + td.offsetOfElement p n fs i))
      (fun i => off.toNat + td.offsetOfElement p n fs i) (fun i => td.abiSize (fs i)) (Chain.of_foldlM (of_belowCap h)) hzero
      (fun i => ?_) (fun i j hij => ?_) (fun i m m' hm hstep => ?_) fun i m m' hm => imageAt_congr hm
    · have hlast := hle i
      omega
    · have hnext := td.field_lt p n fs i j hij
      omega
    · have hlast := hle i
      have hoff : (off + BitVec.ofNat 32 (td.offsetOfElement p n fs i)).toNat = off.toNat + td.offsetOfElement p n fs i := by
        rw [BitVec.toNat_add, BitVec.toNat_ofNat]
        omega
      rw [← hoff] at hm ⊢
      exact ih i (hfit i) (by omega) hm hstep
  | zero t =>
    rw [serializeConstant] at h
    obtain rfl := Option.some.inj (of_belowCap h)
    exact ⟨out.within_refl _ _, fun k hk => hzero _ (by omega) (by omega)⟩
  | undef t =>
    rw [serializeConstant] at h
    obtain rfl := Option.some.inj (of_belowCap h)
    exact ⟨out.within_refl _ _, trivial⟩
  | other t =>
    rw [serializeConstant] at h
    nomatch of_belowCap h
  | cast op t c hs ht ih =>
    obtain ⟨hle, n, hwrites⟩ := serializeConstant_writes ht hfit h
    refine ⟨?_, n, hwrites.value, fun k hk => hwrites.image hzero (Nat.lt_of_lt_of_le hk (store_le t))⟩
    rw [hwrites.eq]
    exact out.within_blit _ (Nat.le_refl _) (Nat.add_le_add_left hle _)
  | _ =>
    obtain ⟨hle, n, hwrites⟩ := serializeConstant_writes rfl hfit h
    refine ⟨?_, n, hwrites.value, fun k hk => hwrites.image hzero (Nat.lt_of_lt_of_le hk (store_le _))⟩
    rw [hwrites.eq]
    exact out.within_blit _ (Nat.le_refl _) (Nat.add_le_add_left hle _)

end values

end CronoVM.Globals
