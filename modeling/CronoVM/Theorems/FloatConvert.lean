import CronoVM.Lemmas.FloatConvert
import CronoVM.Theorems.FunnelShifts

/-!
# Integers to floating point

What `sitofp` and `uitofp` hand to the instruction or the helper that converts. With a sign it is the extended operand; without, it is the
register as it is, with whatever a wrapping operation left above the operand.
-/

namespace CronoVM

open Checked Ir NarrowInt

variable {κ W : Type}

namespace FloatConvertAux

variable {cg : Cg} {f : Frame κ W} {fn : Func} {v : Val} {w : Nat}

/-- An argument has the low bits of the operand. -/
theorem setWidth_scalarWord (hty : fn.typeOf v = .int w) (hw : w ≤ 32) : (scalarWord cg f v).setWidth w = (operandWord cg f v).setWidth w := by
  unfold scalarWord
  split
  case h_1 width bits =>
    obtain rfl : width = w := Ty.int.inj hty
    have hconst : operandWord cg f (.const (.int width bits)) = BitVec.ofInt 32 (constIntImm width bits) := rfl
    rw [hconst, setWidth_constInt hw]
    apply BitVec.eq_of_toNat_eq
    have hlt : bits % 2 ^ width < 2 ^ width := Nat.mod_lt bits (Nat.two_pow_pos width)
    have hle : 2 ^ width ≤ 2 ^ 32 := Nat.pow_le_pow_right (by decide) hw
    rw [BitVec.toNat_setWidth, BitVec.toNat_ofNat, BitVec.toNat_ofNat, Nat.mod_eq_of_lt (Nat.lt_of_lt_of_le hlt hle), Nat.mod_mod]
  case h_2 => rfl

/-- An extension reads the low bits only. -/
theorem extendLow_congr (signed : Bool) {x y : Word} (h : x.setWidth w = y.setWidth w) : extendLow signed w x = extendLow signed w y := by
  rw [extendLow, extendLow, h]

/-- An integer constant is passed with zeros above its bits. -/
theorem scalarWord_const (hty : fn.typeOf v = .int w) (hw : w ≤ 32) (hconst : v.isConstInt = true) :
    scalarWord cg f v = extendLow false w (scalarWord cg f v) := by
  unfold Val.isConstInt at hconst
  split at hconst
  case h_1 width bits =>
    obtain rfl : width = w := Ty.int.inj hty
    have hword : scalarWord cg f (.const (.int width bits)) = BitVec.ofNat 32 (bits % 2 ^ width) := rfl
    have hlt : bits % 2 ^ width < 2 ^ width := Nat.mod_lt bits (Nat.two_pow_pos width)
    have hle : 2 ^ width ≤ 2 ^ 32 := Nat.pow_le_pow_right (by decide) hw
    rw [hword, extendLow, if_neg Bool.false_ne_true]
    apply BitVec.eq_of_toNat_eq
    rw [BitVec.toNat_setWidth, BitVec.toNat_setWidth, BitVec.toNat_ofNat, Nat.mod_eq_of_lt (Nat.lt_of_lt_of_le hlt hle), Nat.mod_eq_of_lt hlt,
      Nat.mod_eq_of_lt (Nat.lt_of_lt_of_le hlt hle)]
  case h_2 => cases hconst

/-- Any other operand is passed as it is. -/
theorem scalarWord_other (hconst : ¬v.isConstInt = true) : scalarWord cg f v = operandWord cg f v := by
  unfold scalarWord
  split
  case h_1 => exact absurd rfl hconst
  case h_2 => rfl

end FloatConvertAux

/-- With a sign the conversion gets the operand extended from its width. Without a sign it gets it exactly if the register has zeros above
the operand, or, with a double as result, if the operand is an integer constant. -/
theorem conversion_arguments_iff (img : Image κ) (host : Host κ W) (hcode : img.code.length = img.codeCount.toNat) (signed : Bool) (fn : Func)
    (i : Inst) (w : Nat) (hpos : 1 ≤ w) (hw : w ≤ 32) (hty : fn.typeOf (i.operand 0) = .int w) (cg : Cg) (f : Frame κ W) (hok : cg.Ok)
    (hin : InFrame cg img f) :
    (∀ dst : Byte, dst.toNat < cg.nextReg → Exec.wp (cgIntToF32 signed fn i dst) (fun _ cg' => ∃ r v,
      Passes img host cg f (encR (if signed = true then .i2fS else .i2fU) dst r 0) r v cg' ∧
      (v = extendLow signed w (operandWord cg f (i.operand 0)) ↔
        signed = true ∨ operandWord cg f (i.operand 0) = extendLow false w (operandWord cg f (i.operand 0)))) (fun e _ => e.OfOperand) cg) ∧
    ∀ info : CallInfo, cg.spillBytes = info.spillSlotCount cg.ssaRegHigh * 4 → HighHome cg (i.operand 0) →
      Exec.wp (cgIntToF64 signed fn info i) (fun _ cg' => ∃ k v, info.funcByName (fromWordHelper signed) = some k ∧
        Passes img host cg f (encI24 .call (BitVec.ofNat 32 ((k + 1) * 2))) 1 v cg' ∧
        (v = extendLow signed w (operandWord cg f (i.operand 0)) ↔ signed = true ∨ (i.operand 0).isConstInt = true ∨
          operandWord cg f (i.operand 0) = extendLow false w (operandWord cg f (i.operand 0)))) (fun e _ => e.OfOperand) cg := by
  have hwidth : (fn.typeOf (i.operand 0)).regWidth = w := by rw [hty]; rfl
  constructor
  · intro dst hdst
    have hne : dst ≠ cgRegScratch := Held.ne_r254 (Or.inl hdst) hok.next_le
    have hpass := wp_cgIntToF32 host hcode hok hin signed fn i (by omega) (by omega) hne
    rw [hwidth] at hpass
    refine Exec.wp_mono ?_ (fun _ _ he => he) hpass
    rintro _ cg' ⟨r, hpass⟩
    refine ⟨r, _, hpass, ?_⟩
    cases signed with
    | true =>
      rw [if_pos rfl]
      exact ⟨fun _ => Or.inl rfl, fun _ => rfl⟩
    | false =>
      rw [if_neg nofun]
      exact ⟨Or.inr, fun h => h.resolve_left nofun⟩
  · intro info hspill hhigh
    have hi64 : (fn.typeOf (i.operand 0)).isI64 = false := by
      rw [hty]
      exact decide_eq_false fun h => absurd (Ty.int.inj h) (by omega)
    have hwide : (fn.typeOf (i.operand 0)).isWideInt = false := by
      rw [hty]
      exact decide_eq_false (by omega)
    unfold cgIntToF64
    rw [Exec.wp_bind, Exec.wp_get]
    split
    case h_1 => exact trivial
    case h_2 slot hslot =>
      dsimp only
      rw [hi64, hwide, if_neg Bool.false_ne_true, if_neg Bool.false_ne_true, hwidth]
      refine Exec.wp_mono ?_ (fun _ _ he => he) (wp_cgEmitRuntimeCall_scalar host hcode hok hin info i hspill _ hhigh slot _)
      rintro _ cg' ⟨k, hname, hpass⟩
      refine ⟨k, _, hname, hpass, ?_⟩
      have hlow : (scalarWord cg f (i.operand 0)).setWidth w = (operandWord cg f (i.operand 0)).setWidth w :=
        FloatConvertAux.setWidth_scalarWord hty hw
      cases signed with
      | true =>
        refine ⟨fun _ => Or.inl rfl, fun _ => ?_⟩
        by_cases hlt : w < 32
        · have hsext : convertSextW true w = w := if_pos ⟨rfl, hlt⟩
          rw [hsext, if_pos ⟨hpos, hlt⟩]
          exact FloatConvertAux.extendLow_congr true hlow
        · obtain rfl : w = 32 := by omega
          have hsext : convertSextW true 32 = 0 := rfl
          rw [hsext, if_neg (by decide), extendLow_self]
          rwa [BitVec.setWidth_eq, BitVec.setWidth_eq] at hlow
      | false =>
        have hsext : convertSextW false w = 0 := rfl
        rw [hsext, if_neg (by decide)]
        by_cases hconst : (i.operand 0).isConstInt = true
        · refine ⟨fun _ => Or.inr (Or.inl hconst), fun _ => ?_⟩
          rw [FloatConvertAux.scalarWord_const hty hw hconst]
          exact FloatConvertAux.extendLow_congr false hlow
        · rw [FloatConvertAux.scalarWord_other hconst]
          exact ⟨fun h => Or.inr (Or.inr h), fun h => (h.resolve_left nofun).resolve_left hconst⟩

/-- A function of a byte. -/
def convertFunc : Func where
  name := "f"
  params := [.int 8]
  vararg := false
  blocks := []

/-- A conversion of the argument. -/
def convertInst (id : Nat) : Inst where
  id := id
  op := .uiToFp
  ty := .float
  operands := [.loc (.arg 0)]

/-- The argument in R8, a `float` in R9, a `double` in slots. -/
def convertCg : Cg where
  code := []
  map := [(.arg 0, { reg := 8 }), (.inst 1, { reg := 9 }), (.inst 2, { reg := 0, i64Slot := some 0 })]
  nextReg := 10
  freeList := []
  zeroReg := cgRegZero
  allocaBytes := 0
  spillBytes := 0
  valSpillCount := 2
  frameBytes := 8
  ssaRegHigh := 10
  globals := []
  funcs := []

theorem convertCg_ok : convertCg.Ok := .of_map rfl rfl (by decide) (by decide) (by decide) (by decide)

theorem convertCg_high : HighHome convertCg (.loc (.arg 0)) := by
  intro home hhome _
  cases hhome
  decide

/-- 300 is in R8, as an addition of bytes may leave it. -/
def convertFrame : Frame Unit Unit where
  regs r := if r = 8 then 300 else 0
  heap := { size := 64, byte := fun _ => 0 }
  importFns := []
  world := ()
  pc := 0

/-- All helpers are function 0, and no call saves registers. -/
def convertInfo : CallInfo where
  funcByName _ := some 0
  everSpilled _ := false
  callSpillSet _ _ := false

/-- The code generator after `m`. -/
def convertDone (m : Emit Unit) : Cg :=
  match m convertCg with
  | .val _ cg => cg
  | _ => convertCg

/-- `uitofp i8` of a byte 44 in a register with 300 converts 300, to `float` and to `double`. -/
theorem conversion_upper_bits :
    (∃ r, Passes (codeImage (convertDone (cgIntToF32 false convertFunc (convertInst 1) 9)).code) quietHost convertCg convertFrame
      (encR .i2fU 9 r 0) r 300 (convertDone (cgIntToF32 false convertFunc (convertInst 1) 9))) ∧
    Passes (codeImage (convertDone (cgIntToF64 false convertFunc convertInfo (convertInst 2))).code) quietHost convertCg convertFrame
      (encI24 .call 2) 1 300 (convertDone (cgIntToF64 false convertFunc convertInfo (convertInst 2))) ∧
    extendLow false 8 (300 : Word) = 44 := by
  refine ⟨?_, ?_, by decide⟩
  · have hin : InFrame convertCg (codeImage (convertDone (cgIntToF32 false convertFunc (convertInst 1) 9)).code) convertFrame := ⟨rfl, by decide⟩
    have hpass := wp_cgIntToF32 quietHost rfl convertCg_ok hin false convertFunc (convertInst 1) (by decide) (by decide) (by decide : (9 : Byte) ≠ _)
    have hrun : cgIntToF32 false convertFunc (convertInst 1) 9 convertCg = .val () (convertDone (cgIntToF32 false convertFunc (convertInst 1) 9)) := rfl
    obtain ⟨r, h⟩ := Exec.of_wp hpass hrun
    exact ⟨r, h⟩
  · have hin : InFrame convertCg (codeImage (convertDone (cgIntToF64 false convertFunc convertInfo (convertInst 2))).code) convertFrame :=
      ⟨rfl, by decide⟩
    have hpass := wp_cgEmitRuntimeCall_scalar quietHost rfl convertCg_ok hin convertInfo (convertInst 2) rfl "__cvm_f_from_u32" convertCg_high 0 0
    have hrun : cgEmitRuntimeCall convertInfo (convertInst 2) "__cvm_f_from_u32" [] (some (.loc (.arg 0))) (some 0) 0 0 convertCg =
        .val () (convertDone (cgIntToF64 false convertFunc convertInfo (convertInst 2))) := rfl
    obtain ⟨k, hname, h⟩ := Exec.of_wp hpass hrun
    cases hname
    exact h

/-- `sitofp i8` of the same register converts 44. -/
theorem conversion_arguments_iff_signed :
    (∃ r v, Passes (codeImage (convertDone (cgIntToF32 true convertFunc (convertInst 1) 9)).code) quietHost convertCg convertFrame
      (encR .i2fS 9 r 0) r v (convertDone (cgIntToF32 true convertFunc (convertInst 1) 9)) ∧ v = 44) ∧
    ∃ v, Passes (codeImage (convertDone (cgIntToF64 true convertFunc convertInfo (convertInst 2))).code) quietHost convertCg convertFrame
      (encI24 .call 2) 1 v (convertDone (cgIntToF64 true convertFunc convertInfo (convertInst 2))) ∧ v = 44 := by
  constructor
  · have hrun : cgIntToF32 true convertFunc (convertInst 1) 9 convertCg = .val () (convertDone (cgIntToF32 true convertFunc (convertInst 1) 9)) := rfl
    have hwp := (conversion_arguments_iff (codeImage (convertDone (cgIntToF32 true convertFunc (convertInst 1) 9)).code) quietHost rfl true
      convertFunc (convertInst 1) 8 (by decide) (by decide) rfl convertCg convertFrame convertCg_ok ⟨rfl, by decide⟩).1 9 (by decide)
    obtain ⟨r, v, hpass, hiff⟩ := Exec.of_wp hwp hrun
    exact ⟨r, v, hpass, (hiff.mpr (Or.inl rfl)).trans (by decide)⟩
  · have hrun : cgIntToF64 true convertFunc convertInfo (convertInst 2) convertCg =
        .val () (convertDone (cgIntToF64 true convertFunc convertInfo (convertInst 2))) := rfl
    have hwp := (conversion_arguments_iff (codeImage (convertDone (cgIntToF64 true convertFunc convertInfo (convertInst 2))).code) quietHost rfl
      true convertFunc (convertInst 2) 8 (by decide) (by decide) rfl convertCg convertFrame convertCg_ok ⟨rfl, by decide⟩).2 convertInfo rfl
      convertCg_high
    obtain ⟨k, v, hname, hpass, hiff⟩ := Exec.of_wp hwp hrun
    cases hname
    exact ⟨v, hpass, (hiff.mpr (Or.inl rfl)).trans (by decide)⟩

end CronoVM
