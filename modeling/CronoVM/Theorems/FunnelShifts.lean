import CronoVM.Lemmas.Funnel
import CronoVM.Theorems.NarrowIntrinsics

/-!
# Funnel shifts

`llvm.fshl` and `llvm.fshr` against the half of the two operands they shift out. A right shift at a narrow width lets bits above the second
operand slide into the result. At 32 bits the amount is tested before it is reduced, so that of a whole turn both operands come through.
-/

namespace CronoVM

open Checked Ir NarrowInt NarrowIntrinsicsAux

variable {κ W : Type}

/-- The intrinsics at a width up to 32 are the ones open-coded. -/
theorem cgFunnelShift_eq (info : CallInfo) {i : Inst} (isFshr : Bool) {w : Nat} (hpos : 0 < w) (hw : w ≤ 32) (dst : Byte)
    (harity : i.operands.length = 3) :
    cgFunnelShift info i isFshr w dst = cgFunnelWord isFshr w (i.operand 0) (i.operand 1) (i.operand 2) dst := by
  have h64 : w ≠ 64 := by omega
  have hno : ¬(w = 0 ∨ w > 32) := by omega
  rw [cgFunnelShift, if_neg (not_not_intro harity), if_neg h64, if_neg hno]

/-- The word `cgFunnelWord` leaves has the bits of the shift where `FunnelAgrees` holds, and only there. -/
theorem setWidth_funnelWord_iff (isFshr : Bool) {w : Nat} (hw : w = 8 ∨ w = 16 ∨ w = 32) (x y c : Word) :
    (funnelWord isFshr w x y c).setWidth w = funnelEval isFshr (x.setWidth w) (y.setWidth w) (c.setWidth w) ↔ FunnelAgrees isFshr w x y c := by
  rcases hw with rfl | rfl | rfl
  · exact FunnelAux.setWidth_funnelWord_narrow isFshr (j := 3) (by decide) x y c
  · exact FunnelAux.setWidth_funnelWord_narrow isFshr (j := 4) (by decide) x y c
  · exact FunnelAux.setWidth_funnelWord_word isFshr x y c

/-- The code of a funnel shift leaves the low bits of the shift exactly where the bits above the second operand do not come down on clear
bits (to the right, at 8 and 16 bits), and where the amount is no whole turn other than 0 or both operands together are the result (at 32
bits). The register of the result is not one of an operand: the allocator frees those after it has taken it. -/
theorem funnel_shifts_iff (img : Image κ) (host : Host κ W) (hcode : img.code.length = img.codeCount.toNat) (info : CallInfo) (i : Inst)
    (isFshr : Bool) (w : Nat) (hw : w = 8 ∨ w = 16 ∨ w = 32) (dst : Byte) (cg : Cg) (f : Frame κ W) (hok : cg.Ok) (hin : InFrame cg img f)
    (hzero : f.regs cgRegZero = 0) (hdst : dst.toNat < cg.nextReg) (hapart : ∀ k < 3, ApartFrom cg dst (i.operand k)) :
    Exec.wp (cgFunnelShift info i isFshr w dst)
      (fun _ cg' => ∃ f', Emitted img host cg cg' f f' ∧
        ((f'.regs dst).setWidth w = funnelEval isFshr ((operandWord cg f (i.operand 0)).setWidth w)
          ((operandWord cg f (i.operand 1)).setWidth w) ((operandWord cg f (i.operand 2)).setWidth w) ↔
          FunnelAgrees isFshr w (operandWord cg f (i.operand 0)) (operandWord cg f (i.operand 1)) (operandWord cg f (i.operand 2))))
      (fun e _ => i.operands.length = 3 → e.OfOperand) cg := by
  by_cases harity : i.operands.length = 3
  · rw [cgFunnelShift_eq info isFshr (by omega) (by omega) dst harity]
    refine Exec.wp_mono ?_ (fun _ _ he _ => he) (wp_cgFunnelWord host hcode hok hin hzero isFshr hdst (hapart 0 (by decide))
      (hapart 1 (by decide)) (hapart 2 (by decide)))
    intro _ cg' hdef
    obtain ⟨f', hem, hword⟩ := regs_of_defines hok hdst hdef
    refine ⟨f', hem, ?_⟩
    rw [hword]
    exact setWidth_funnelWord_iff isFshr hw _ _ _
  · rw [cgFunnelShift, if_pos harity]
    exact fun h => absurd h harity

/-- Three arguments in registers, the result in a fourth. -/
def threeArgsCg : Cg where
  code := []
  map := [(.arg 0, { reg := 0 }), (.arg 1, { reg := 1 }), (.arg 2, { reg := 2 }), (.inst 1, { reg := 3 })]
  nextReg := 4
  freeList := []
  zeroReg := cgRegZero
  allocaBytes := 0
  spillBytes := 0
  valSpillCount := 0
  frameBytes := 0
  ssaRegHigh := 4
  globals := []
  funcs := []

theorem threeArgsCg_ok : threeArgsCg.Ok := .of_map rfl rfl (by decide) (by decide) (by decide) (by decide)

/-- The value is not in R3. -/
theorem threeArgs_apart {k : Nat} (hk : k < 3) : ApartFrom threeArgsCg 3 (.loc (.arg k)) := by
  intro home hhome _
  rcases (by omega : k = 0 ∨ k = 1 ∨ k = 2) with rfl | rfl | rfl <;> cases hhome <;> decide

/-- The arguments are in R0, R1 and R2. -/
def threeArgsFrame (a b c : Word) : Frame Unit Unit where
  regs r := if r = 0 then a else if r = 1 then b else if r = 2 then c else 0
  heap := { size := 64, byte := fun _ => 0 }
  importFns := []
  world := ()
  pc := 0

/-- A call of an intrinsic with three operands. -/
def threeArgsInst : Inst where
  id := 1
  op := .call
  ty := .int 32
  operands := [.loc (.arg 0), .loc (.arg 1), .loc (.arg 2)]

/-- A function with no other function and no call that spills. -/
def quietInfo : CallInfo where
  funcByName _ := none
  everSpilled _ := false
  callSpillSet _ _ := false

/-- The code generator after a funnel shift. -/
def funnelDone (isFshr : Bool) (w : Nat) : Cg :=
  match cgFunnelShift quietInfo threeArgsInst isFshr w 3 threeArgsCg with
  | .val _ cg => cg
  | _ => threeArgsCg

/-- The code generator gets through both shifts of each width. -/
theorem funnelDone_eq (isFshr : Bool) {w : Nat} (hw : w = 8 ∨ w = 16 ∨ w = 32) :
    cgFunnelShift quietInfo threeArgsInst isFshr w 3 threeArgsCg = .val () (funnelDone isFshr w) := by
  rcases hw with rfl | rfl | rfl <;> cases isFshr <;> rfl

/-- `fshl.i32` of 1 and 2 by a whole turn leaves 3; `fshr.i8` by 1 of the bytes 0 and 0, with an `add i8` that left 0x100 as the second,
leaves 0x80. -/
theorem funnel_whole_turn : (∃ f', Emitted (codeImage (funnelDone false 32).code) quietHost threeArgsCg (funnelDone false 32) (threeArgsFrame 1 2 32) f' ∧
      f'.regs 3 ≠ funnelEval false (1 : Word) 2 32) ∧
    ∃ f', Emitted (codeImage (funnelDone true 8).code) quietHost threeArgsCg (funnelDone true 8) (threeArgsFrame 0 0x100 1) f' ∧
      (f'.regs 3).setWidth 8 ≠ funnelEval true (0 : BitVec 8) 0 1 := by
  have hrun : ∀ (isFshr : Bool) (w : Nat) (a b c : Word), w = 8 ∨ w = 16 ∨ w = 32 → ∃ f',
      Emitted (codeImage (funnelDone isFshr w).code) quietHost threeArgsCg (funnelDone isFshr w) (threeArgsFrame a b c) f' ∧
        f'.regs 3 = funnelWord isFshr w a b c := by
    intro isFshr w a b c hw
    have hcode : (codeImage (funnelDone isFshr w).code).code.length = (codeImage (funnelDone isFshr w).code).codeCount.toNat := by
      rcases hw with rfl | rfl | rfl <;> cases isFshr <;> rfl
    have hin : InFrame threeArgsCg (codeImage (funnelDone isFshr w).code) (threeArgsFrame a b c) := ⟨rfl, Nat.zero_le _⟩
    have hapart : ∀ k < 3, ApartFrom threeArgsCg 3 (threeArgsInst.operand k) := by
      intro k hk
      rcases (by omega : k = 0 ∨ k = 1 ∨ k = 2) with rfl | rfl | rfl <;> exact threeArgs_apart (by decide)
    have hwp := wp_cgFunnelWord (w := w) quietHost hcode threeArgsCg_ok hin rfl isFshr (by decide) (hapart 0 (by decide)) (hapart 1 (by decide))
      (hapart 2 (by decide))
    have hrun := funnelDone_eq isFshr hw
    rw [cgFunnelShift_eq quietInfo isFshr (by omega) (by omega) 3 rfl] at hrun
    have hdef := Exec.of_wp hwp hrun
    exact regs_of_defines threeArgsCg_ok (by decide) hdef
  constructor
  · obtain ⟨f', hem, hword⟩ := hrun false 32 1 2 32 (by decide)
    refine ⟨f', hem, ?_⟩
    rw [hword]
    decide
  · obtain ⟨f', hem, hword⟩ := hrun true 8 0 0x100 1 (by decide)
    refine ⟨f', hem, ?_⟩
    rw [hword]
    decide

/-- A rotate by 33 is one by 1. -/
theorem funnel_shifts_iff_rotate : ∃ f', Emitted (codeImage (funnelDone false 32).code) quietHost threeArgsCg (funnelDone false 32)
    (threeArgsFrame 0x80000001 0x80000001 33) f' ∧ (f'.regs 3).setWidth 32 = (3 : BitVec 32) := by
  have hwp := funnel_shifts_iff (codeImage (funnelDone false 32).code) quietHost rfl quietInfo threeArgsInst false 32 (by decide) 3 threeArgsCg
    (threeArgsFrame 0x80000001 0x80000001 33) threeArgsCg_ok ⟨rfl, by decide⟩ rfl (by decide) (by
      intro k hk
      rcases (by omega : k = 0 ∨ k = 1 ∨ k = 2) with rfl | rfl | rfl <;> exact threeArgs_apart (by decide))
  obtain ⟨f', hem, hiff⟩ := Exec.of_wp hwp (funnelDone_eq false (by decide))
  exact ⟨f', hem, (hiff.mpr fun _ hmul => absurd hmul (by decide)).trans (by decide)⟩

end CronoVM
