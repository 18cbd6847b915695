import CronoVM.Lemmas.Calls
import CronoVM.Lemmas.Float64Order
import CronoVM.Lemmas.RuntimeCall

/-!
# Comparisons of doubles

An `fcmp` of doubles is a call of one of eight helpers, whose result is negated for half of the predicates. It compares the extended real
numbers, and a NaN is unordered.
-/

namespace CronoVM

open Checked Ir CvmF64

variable {κ W : Type}

namespace Ir.RealPred

/-- The predicate for two numbers that are no NaNs. -/
def ordered {α : Type} [LT α] [LE α] : RealPred → α → α → Prop
  | .predicateFalse, _, _ | .uno, _, _ => False
  | .oeq, x, y | .ueq, x, y => x = y
  | .ogt, x, y | .ugt, x, y => y < x
  | .oge, x, y | .uge, x, y => y ≤ x
  | .olt, x, y | .ult, x, y => x < y
  | .ole, x, y | .ule, x, y => x ≤ y
  | .one, x, y | .une, x, y => x ≠ y
  | .ord, _, _ | .predicateTrue, _, _ => True

/-- The predicate when one of the numbers is a NaN. -/
def unordered : RealPred → Bool
  | .uno | .ueq | .ugt | .uge | .ult | .ule | .une | .predicateTrue => true
  | .predicateFalse | .oeq | .ogt | .oge | .olt | .ole | .one | .ord => false

/-- An `fcmp`, of numbers that may be NaNs. -/
def holds {α : Type} [LT α] [LE α] (p : RealPred) : Option α → Option α → Prop
  | some x, some y => p.ordered x y
  | _, _ => p.unordered = true

end Ir.RealPred

namespace FloatCompareAux

variable {p : RealPred} {fn : FloatHelper} {negate : Bool} {a b : CvmF64}

/-- A helper and its negation test the predicate of numbers. -/
theorem eval_ordered (h : fcmpHelper p = some (fn, negate)) (ha : cvmDIsnan a = false) (hb : cvmDIsnan b = false) :
    (fn.eval a b ^^ negate) = true ↔ p.ordered a.ereal b.ereal := by
  have heval := fn.eval_iff ha hb
  cases p with
  | predicateFalse | predicateTrue => nomatch h
  | oeq | une | olt | ole | ogt | oge | ord | one =>
    cases h
    rw [Bool.xor_false]
    exact heval
  | uge | ugt =>
    cases h
    rw [Bool.xor_true, Bool.not_eq_true', ← Bool.not_eq_true, heval]
    first
    | exact not_lt
    | exact not_le
  | ult | ule =>
    cases h
    rw [Bool.xor_true, Bool.not_eq_true', ← Bool.not_eq_true, heval]
    first
    | exact not_le
    | exact not_lt
  | uno =>
    cases h
    rw [Bool.xor_true, Bool.not_eq_true', ← Bool.not_eq_true, heval]
    exact not_true
  | ueq =>
    cases h
    rw [Bool.xor_true, Bool.not_eq_true', ← Bool.not_eq_true, heval]
    exact not_not

/-- With a NaN they are what the predicate is without an order. -/
theorem eval_unordered (h : fcmpHelper p = some (fn, negate)) (hnan : (cvmDIsnan a || cvmDIsnan b) = true) :
    (fn.eval a b ^^ negate) = p.unordered := by
  rw [fn.eval_of_nan hnan]
  cases p with
  | predicateFalse | predicateTrue => nomatch h
  | _ =>
    cases h
    rfl

/-- With a NaN the unordered predicates hold and the others do not. -/
theorem holds_of_nan (p : RealPred) (hnan : (cvmDIsnan a || cvmDIsnan b) = true) : p.holds a.real b.real ↔ p.unordered = true := by
  rcases Bool.or_eq_true_iff.mp hnan with ha | hb
  · rw [real, if_pos ha]
    exact Iff.rfl
  · have hb' : b.real = none := if_pos hb
    rw [hb']
    cases a.real <;> exact Iff.rfl

/-- A helper and its negation test the predicate. -/
theorem eval_fcmpHelper (h : fcmpHelper p = some (fn, negate)) (a b : CvmF64) :
    (fn.eval a b ^^ negate) = true ↔ p.holds a.real b.real := by
  by_cases hnan : (cvmDIsnan a || cvmDIsnan b) = true
  · rw [eval_unordered h hnan, holds_of_nan p hnan]
  · obtain ⟨ha, hb⟩ := Bool.or_eq_false_iff.mp (Bool.not_eq_true _ ▸ hnan)
    have ha' : a.real = some a.ereal := if_neg (by rw [ha]; decide)
    have hb' : b.real = some b.ereal := if_neg (by rw [hb]; decide)
    rw [eval_ordered h ha hb, ha', hb']
    rfl

/-- The two predicates without a helper. -/
theorem holds_of_constant (h : fcmpHelper p = none) (x y : Option EReal) : p.holds x y ↔ p = .predicateTrue := by
  cases p with
  | predicateTrue => cases x <;> cases y <;> exact iff_of_true (by trivial) rfl
  | predicateFalse => cases x <;> cases y <;> exact iff_of_false (by rintro ⟨⟩) (by decide)
  | _ => nomatch h

end FloatCompareAux

open FloatCompareAux

/-- An `fcmp` of doubles leaves 1 in the register of its result where the predicate holds of the numbers its operands stand for, and 0 where
it does not, if the helper that is called returns what the runtime computes. -/
theorem fcmp64_exact {κ W : Type} (img : Image κ) (host : Host κ W) (hcode : img.code.length = img.codeCount.toNat) (info : CallInfo)
    (p : RealPred) (i : Inst) (dst : Byte) (cg : Cg) (f : Frame κ W) (hok : cg.Ok) (hin : InFrame cg img f)
    (hspill : cg.spillBytes = info.spillSlotCount cg.ssaRegHigh * 4) (hdst : dst.toNat < cg.nextReg)
    (hcall : ∀ fn negate k, fcmpHelper p = some (fn, negate) → info.funcByName fn.name = some k →
      ReturnsWord img host (BitVec.ofNat 32 ((k + 1) * 2)) (f.regs regSp) (floatVal cg f (i.operand 0)) (floatVal cg f (i.operand 1))
        (if fn.eval (floatVal cg f (i.operand 0)) (floatVal cg f (i.operand 1)) = true then 1 else 0)) :
    Exec.wp (cgFCmp64 info p i dst)
      (fun _ cg' => ∃ ws n, cg' = { cg with code := cg.code ++ ws, nextReg := n } ∧ RunsInto img host ws f fun f' =>
        (p.holds (floatVal cg f (i.operand 0)).real (floatVal cg f (i.operand 1)).real → f'.regs dst = 1) ∧
        (¬p.holds (floatVal cg f (i.operand 0)).real (floatVal cg f (i.operand 1)).real → f'.regs dst = 0))
      (fun e _ => e = .noF64Slot ∨ e = .helperNotFound ∨ e = .scratchExhausted) cg := by
  have hnext := hok.next_le
  have hmax : cgMaxEmitReg = 252 := rfl
  unfold cgFCmp64
  split
  case h_1 hconst =>
    have hrun := runs_movi (f := f) host hcode dst (if p = .predicateTrue then 1 else 0)
    refine ⟨_, cg.nextReg, rfl, .of_runs hrun ⟨fun hholds => ?_, fun hno => ?_⟩⟩
    · rw [Frame.setReg_same, if_pos ((holds_of_constant hconst _ _).mp hholds)]
      rfl
    · rw [Frame.setReg_same, if_neg fun htrue => hno ((holds_of_constant hconst _ _).mpr htrue)]
      rfl
  case h_2 fn negate hfn =>
    have heval := eval_fcmpHelper hfn (floatVal cg f (i.operand 0)) (floatVal cg f (i.operand 1))
    rw [Exec.wp_bind]
    refine Exec.wp_mono ?_ ?_ (wp_cgEmitRuntimeCall host hcode hok hin info hspill i fn.name (i.operand 0) (i.operand 1) dst
      fun k hk => hcall fn negate k hfn hk)
    · rintro - cg' ⟨ws, rfl, hrun⟩
      rw [Exec.wp_when]
      refine ⟨fun hneg => ?_, fun hplain => ?_⟩
      · rw [Exec.wp_bind, wp_cgAllocReg (show (cg.emit ws).freeList = [] from hok.pool)]
        refine ⟨fun _ => Or.inr (Or.inr rfl), fun (hroom : ¬cg.nextReg > cgMaxEmitReg) => ?_⟩
        have hne : dst ≠ BitVec.ofNat 8 cg.nextReg := fun h => by
          have hnat := congrArg BitVec.toNat h
          rw [toNat_nextReg hroom] at hnat
          omega
        simp only [Exec.wp_bind, wp_cgEmit, Cg.emit_emit]
        refine ⟨ws ++ ([encI16 .movi (BitVec.ofNat 8 cg.nextReg) 1] ++ [encR .sub dst (BitVec.ofNat 8 cg.nextReg) dst]), cg.nextReg + 1, ?_,
          hrun.append hcode fun g hval => ?_⟩
        · simp only [Cg.emit, List.append_assoc]
        · have hone := runs_movi (f := g) host hcode (BitVec.ofNat 8 cg.nextReg) 1
          have hsub := runs_sub (f := g.setReg (BitVec.ofNat 8 cg.nextReg) ((1 : BitVec 16).signExtend 32)) host hcode dst
            (BitVec.ofNat 8 cg.nextReg) dst
          rw [Frame.setReg_same, Frame.setReg_of_ne _ _ hne, hval] at hsub
          refine .of_runs (hone.append hcode hsub) ?_
          rw [Frame.setReg_same, ← heval, hneg, Bool.xor_true]
          cases fn.eval (floatVal cg f (i.operand 0)) (floatVal cg f (i.operand 1)) with
          | true => exact ⟨fun h => absurd h (by decide), fun _ => rfl⟩
          | false => exact ⟨fun _ => rfl, fun h => absurd rfl h⟩
      · refine ⟨ws, cg.nextReg, rfl, hrun.mono fun g hval => ?_⟩
        rw [Bool.not_eq_true] at hplain
        rw [hval, ← heval, hplain, Bool.xor_false]
        exact ⟨fun h => if_pos h, fun h => if_neg h⟩
    · rintro e - (he | he)
      · exact Or.inl he
      · exact Or.inr (Or.inl he)

/-! ## A comparison with a NaN -/

/-- `x < NaN`, or unordered. -/
def compareInst : Inst where
  id := 1
  op := .fcmp
  ty := .int 1
  operands := [.loc (.arg 0), .const (.double 0 0x7FF80000)]

/-- The argument is in the slots 0 and 1, the result in R9. -/
def compareCg : Cg where
  code := []
  map := [(.arg 0, { reg := 0, i64Slot := some 0 }), (.inst 1, { reg := 9 })]
  nextReg := 10
  freeList := []
  zeroReg := cgRegZero
  allocaBytes := 0
  spillBytes := 4
  valSpillCount := 2
  frameBytes := 12
  ssaRegHigh := 10
  globals := []
  funcs := []

/-- The one function is `__cvm_fge`; R8 lives across its call. -/
def compareInfo : CallInfo where
  funcByName _ := some 0
  everSpilled k := k == 0
  callSpillSet _ k := k == 0

/-- The code of the comparison. -/
def compareCode : List Word :=
  match cgFCmp64 compareInfo .ult compareInst 9 compareCg with
  | .val _ cg => cg.code
  | _ => []

/-- Behind the comparison stands a helper that returns 0. -/
def compareImage : Image Unit :=
  { codeImage (compareCode ++ [encI16 .movi 0 0, encR .ret 0 0 0]) with
    heap := { size := 64, byte := fun k => BitVec.ofNat 8 (k + 0xA1) }, funcOffsets := some [0, 0, 19], funcCount := 3 }

/-- SP is 16. -/
def compareFrame : Frame Unit Unit where
  regs := Function.update (fun _ => 0) regSp 16
  heap := compareImage.heap
  importFns := []
  world := ()
  pc := 0

theorem compareImage_wf : compareImage.Wf where
  code_length := by decide +kernel
  heap_size := rfl
  funcs_length := rfl
  imports_length := rfl
  entry_lt := by decide
  func_lt := by
    intro off hoff
    have hmem : off ∈ ([0, 0, 19] : List Word) := hoff
    simp only [List.mem_cons, List.not_mem_nil, or_false] at hmem
    rcases hmem with rfl | rfl | rfl <;> decide
  stack_le := by decide

/-- The call pushes its return address and goes to the helper. -/
theorem compareImage_call {g : Frame Unit Unit} {pc : Word} (hsize : g.heap.size = 64) (hsp : g.regs regSp = 16)
    (hat : HasAt compareImage.code pc.toNat [encI24 .call 2]) : ∃ g₁ : Frame Unit Unit,
      Threaded.step compareImage quietHost { g with pc := pc } = .val () { g₁ with pc := 19 } ∧ g₁.heap.size = 64 ∧
        g₁.regs regSp = 12 ∧ g₁.heap.word 12 = pc + 1 ∧ ∀ p, 16 ≤ p → g₁.heap.byte p = g.heap.byte p := by
  have hcall : NextCall compareImage { g with pc := pc } 2 :=
    ⟨encI24 .call 2, Or.inl ⟨⟨hat.getD (k := 0) Nat.zero_lt_one 0, instOp_encI24 Opcode.call 2⟩, by rw [instImm24_encI24]; rfl⟩⟩
  have hsp' : ({ g with pc := pc + 1 } : Frame Unit Unit).regs regSp = 16 := hsp
  have htaken : CallTaken compareImage 2 { g with pc := pc + 1 } :=
    ⟨by decide, by decide, by rw [hsp']; decide, by rw [hsp']; decide⟩
  refine ⟨afterCall compareImage 2 { g with pc := pc + 1 }, ?_, hsize, ?_, ?_, fun p hp => ?_⟩
  · have hstep : Build.threaded.step compareImage quietHost { g with pc := pc } = _ := CallsAux.step_nextCall compareImage_wf hcall
    exact hstep.trans (CallsAux.callTo_of_taken compareImage_wf hsize htaken)
  · rw [afterCall_sp, hsp']
    rfl
  · simp only [afterCall, hsp]
    exact Mem.word_setWord _ _ _
  · simp only [afterCall, hsp]
    exact Mem.blit_byte_of_ge _ _ hp

/-- The helper of the sample returns 0. -/
theorem compareImage_returns (a b : CvmF64) : ReturnsWord compareImage quietHost 2 16 a b 0 := by
  intro g hsize hsp _ _ _ _ pc hat
  have hcode : compareImage.code.length = compareImage.codeCount.toNat := compareImage_wf.code_length
  have hlen : compareCode.length = 19 := by decide +kernel
  have hbody : HasAt compareImage.code 19 [encI16 .movi 0 0, encR .ret 0 0 0] := hlen ▸ HasAt.suffix_part compareCode _
  obtain ⟨g₁, hcall, hsize₁, hsp₁, hword, hbytes⟩ := compareImage_call hsize hsp hat
  have hmovi := runs_movi (f := g₁) quietHost hcode 0 0 19 (hbody.left (x := [_]))
  have hsp₂ : (g₁.setReg 0 0).regs regSp = 12 := (Frame.setReg_of_ne _ _ (by decide)).trans hsp₁
  have hpc : pc + 1 ≠ retSentinel := by
    have hle := hat.length_le
    rw [hcode] at hle
    have hcount : compareImage.codeCount.toNat = 21 := rfl
    have hone : ([encI24 .call 2] : List Word).length = 1 := rfl
    have hone' : (1 : Word).toNat = 1 := rfl
    have hsentinel : retSentinel.toNat = 0xFFFFFFFF := rfl
    intro h
    have hnat := congrArg BitVec.toNat h
    rw [BitVec.toNat_add, hsentinel, hone'] at hnat
    omega
  have hret : Threaded.step compareImage quietHost { g₁.setReg 0 0 with pc := 20 } =
      .val () { (g₁.setReg 0 0).setReg regSp 16 with pc := pc + 1 } := by
    have hword' : (g₁.setReg 0 0).heap.word (12 : Word).toNat = pc + 1 := hword
    have hstep : Build.threaded.step compareImage quietHost { g₁.setReg 0 0 with pc := 20 } = _ :=
      CallsAux.step_ret compareImage_wf (w := encR .ret 0 0 0) ⟨hbody.getD (k := 1) (by decide) 0, instOp_encR ..⟩
        ⟨hsize₁, by rw [hsp₂]; change 12 + 4 ≤ g₁.heap.size; omega⟩ (by rw [hsp₂, hword']; exact hpc)
    simp only [hsp₂, hword'] at hstep
    exact hstep
  refine ⟨(g₁.setReg 0 0).setReg regSp 16, (Exec.Reaches.step .refl hcall).trans (hmovi.trans (.step .refl hret)), ?_, ?_, ?_, ?_⟩
  · rw [Frame.setReg_of_ne _ _ (by decide), Frame.setReg_same]
  · exact Frame.setReg_same ..
  · exact hsize₁.trans hsize.symm
  · exact hbytes

theorem fcmp64_exact_ult : ∃ f', Exec.Reaches (Threaded.step compareImage quietHost) compareFrame f' ∧
    f'.pc = 19 ∧ f'.regs 9 = 1 := by
  have hok : compareCg.Ok := .of_map rfl rfl (by decide) (by decide) (by decide) (by decide)
  have hin : InFrame compareCg compareImage compareFrame := ⟨rfl, by decide⟩
  have hcompare := fcmp64_exact compareImage quietHost compareImage_wf.code_length compareInfo .ult compareInst 9 compareCg compareFrame hok hin
    rfl (by decide) (by
      rintro fn negate k ⟨⟩ ⟨⟩
      exact compareImage_returns _ _)
  obtain ⟨_, cg', hrun⟩ := Outcome.exists_of_isVal (show (cgFCmp64 compareInfo .ult compareInst 9 compareCg).isVal = true by decide +kernel)
  obtain ⟨ws, n, rfl, hruns⟩ := Exec.of_wp hcompare hrun
  have hcode : compareCode = ws := by
    unfold compareCode
    rw [hrun]
    rfl
  have hlen : ws.length = 19 := hcode ▸ (by decide +kernel : compareCode.length = 19)
  obtain ⟨f', hreach, hone, -⟩ := hruns 0 (hcode ▸ HasAt.prefix_part compareCode _)
  refine ⟨_, hreach, ?_, hone ((holds_of_nan .ult (by decide +kernel)).mpr rfl)⟩
  rw [hlen]
  rfl

end CronoVM
