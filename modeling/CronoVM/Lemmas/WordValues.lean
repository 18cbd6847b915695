import CronoVM.Lemmas.FunctionCode
import CronoVM.Lemmas.Intrinsics
import CronoVM.Lemmas.Vectors
import CronoVM.Theorems.Gep

/-!
# Instructions on words

The code of an instruction on words, where each operand stands for its value: it leaves a word that stands for the value of the instruction
in the home of the result.
-/

namespace CronoVM

open Checked Ir NarrowInt

variable {κ W : Type}

/-! ## Values that are held -/

/-- The home of a value of one word holds a word that stands for it. -/
def HoldsWord (fn : Func) (cg : Cg) (f : Frame κ W) (env : Env) (l : Local) : Prop :=
  (fn.typeOf (.loc l)).isWord = true → ∀ x, env l = some x → (fn.typeOf (.loc l)).Repr x (operandWord cg f (.loc l))

/-- The operand of an instruction stands for its value. -/
def HoldsOperand (P : Program) (fn : Func) (cg : Cg) (f : Frame κ W) (env : Env) (v : Val) : Prop :=
  (fn.typeOf v).isWord = true → ∀ x, P.val env v = some x → (fn.typeOf v).Repr x (operandWord cg f v)

/-- All operands of the instruction do. -/
def HoldsOperands (P : Program) (fn : Func) (cg : Cg) (f : Frame κ W) (env : Env) (i : Inst) : Prop :=
  ∀ v ∈ i.operands, HoldsOperand P fn cg f env v

section held

variable {P : Program} {fn : Func} {cg : Cg} {f f' : Frame κ W} {env : Env} {v : Val}

theorem holdsOperand_of (hglobals : cg.globals = P.globals) (hfuncs : cg.funcs = P.funcs) (hheld : ∀ l, v = .loc l → HoldsWord fn cg f env l) :
    HoldsOperand P fn cg f env v := by
  intro hword x hx
  cases v with
  | loc l => exact hheld l rfl hword x hx
  | const c => exact constWord_repr P cg hglobals hfuncs _ (Ty.regWidth_le hword).2 hx
  | block => cases hx

theorem HoldsOperands.operand {i : Inst} (h : HoldsOperands P fn cg f env i) (k : Nat) : HoldsOperand P fn cg f env (i.operand k) := by
  rw [Inst.operand, List.getD_eq_getElem?_getD]
  cases hk : i.operands[k]? with
  | none =>
    intro _ x hx
    cases hx
  | some v => exact h v (List.mem_of_getElem? hk)

/-- The bits of an operand of this width. -/
theorem HoldsOperand.bits (h : HoldsOperand P fn cg f env v) (hword : (fn.typeOf v).isWord = true) {w : Nat} (hw : (fn.typeOf v).regWidth = w)
    {x : BitVec w} (hx : P.bits env w v = some x) : (operandWord cg f v).setWidth w = x := by
  obtain ⟨n, hn, rfl⟩ := Option.map_eq_some_iff.mp hx
  subst hw
  exact (h hword n hn).low

/-- After a result is computed, its home holds it and those apart from it hold what they held. -/
theorem holdsWord_after {i : Inst} {home : Home} {w : Word} (hok : cg.Ok) (hhome : cg.home? i.result = some home)
    (hag : (f.setLoc cg (cgPhiDstLoc home) w).AgreesOff (Scratch cg.ssaRegHigh) f') {x : Option Nat}
    (hval : ∀ n, x = some n → (fn.typeOf (.loc i.result)).Repr n w) {l : Local}
    (hl : l ≠ i.result → HoldsWord fn cg f env l ∧ Apart cg l i.result) : HoldsWord fn cg f' (Function.update env i.result x) l := by
  have hhigh : cg.ssaRegHigh ≤ cgMaxEmitReg + 1 := Nat.le_trans hok.high_le hok.next_le
  intro hword n hn
  by_cases heq : l = i.result
  · subst heq
    rw [Function.update_self] at hn
    rw [operandWord_loc hhome, locWord_agrees hhigh hag (hok.home_low hhome), locWord_setLoc_same]
    exact hval n hn
  · obtain ⟨hheld, hapart⟩ := hl heq
    rw [Function.update_of_ne heq] at hn
    have hold := hheld hword n hn
    cases hhomeL : cg.home? l with
    | none =>
      simp only [operandWord, hhomeL, Option.map_none] at hold ⊢
      exact hold
    | some homeL =>
      rw [operandWord_loc hhomeL] at hold ⊢
      rwa [locWord_agrees hhigh hag (hok.home_low hhomeL),
        locWord_setLoc_of_ne hhigh (hok.home_low hhome) (hapart homeL home hhomeL hhome)]

end held

/-! ## Handlers -/

section handlers

variable {img : Image κ} (host : Host κ W) {cg : Cg} {f : Frame κ W} {i : Inst}

/-- The handler leaves `v` in the register it is given, one of those in use. -/
def Yields (img : Image κ) (host : Host κ W) (cg : Cg) (f : Frame κ W) (handler : Byte → EmitInst Unit) (v : Word) : Prop :=
  ∀ n dst cg', cg.ssaRegHigh ≤ n → n ≤ cgMaxEmitReg + 1 → dst.toNat < n → handler dst { cg with nextReg := n } = .val () cg' →
    Defines img host { cg with nextReg := n } f dst v cg'

/-- The handler sees the values as they are, whatever registers are in use. -/
theorem Yields.of_wp (hok : cg.Ok) (hin : InFrame cg img f) {handler : Byte → EmitInst Unit} {m : Byte → Emit Unit} {v : Word}
    (hm : ∀ dst, handler dst = Emit.inst (m dst))
    (h : ∀ cg₁ : Cg, cg₁.Ok → InFrame cg₁ img f → (∀ x, operandWord cg₁ f x = operandWord cg f x) → ∀ dst : Byte, dst ≠ cgRegScratch →
      Exec.wlp (m dst) (fun _ => Defines img host cg₁ f dst v) cg₁) : Yields img host cg f handler v := by
  intro n dst cg' hge hle hdst hrun
  have hok₁ : Cg.Ok { cg with nextReg := n } :=
    { hok with
      high_le := hge
      next_le := hle }
  have hne : dst ≠ cgRegScratch := by
    rintro rfl
    exact not_scratch_of_lt hle hdst (Or.inl rfl)
  rw [hm] at hrun
  obtain ⟨c, hrun, heq⟩ := Exec.of_zoom hrun
  obtain rfl : cg' = c := heq
  exact h _ hok₁ ⟨hin.size, hin.fits⟩ (operandWord_emit cg cg.code n f) dst hne () cg' hrun

/-- The turn of the loop computes the result into the home. -/
theorem computes_of_cgWithResult (hcode : img.code.length = img.codeCount.toNat) (hok : cg.Ok) (hin : InFrame cg img f)
    (hnext : cg.nextReg = cg.ssaRegHigh) {home : Home} (hhome : cg.home? i.result = some home) {handler : Byte → EmitInst Unit} {v : Word}
    (hyields : Yields img host cg f handler v) {cg' : Cg} (hrun : cgWithResult i handler cg = .val () cg') :
    Computes img host cg f (cgPhiDstLoc home) v cg' := by
  have hnextLe := hok.next_le
  unfold cgWithResult at hrun
  rw [Exec.run_bind, Exec.run_get] at hrun
  simp only [hhome] at hrun
  rw [cgPhiDstLoc]
  have hsame : ({ cg with nextReg := cg.ssaRegHigh } : Cg) = cg := congrArg (fun n => ({ cg with nextReg := n } : Cg)) hnext.symm
  cases hslot : home.valSlot with
  | none =>
    simp only [hslot] at hrun
    have hlt := hok.reg_lt _ home hhome
    rw [← hsame] at hrun
    obtain ⟨f', ⟨ws, n, rfl, hruns⟩, hag, hge, hle⟩ := hyields cg.ssaRegHigh home.reg _ (Nat.le_refl _) (by omega) hlt hrun
    have hem : Emitted img host cg { cg with code := cg.code ++ ws, nextReg := n } f f' := ⟨ws, n, rfl, hruns⟩
    exact ⟨hem.ok hok hge hle, f', hem, hag⟩
  | some slot =>
    simp only [hslot] at hrun
    have hk := hok.slot_lt _ home slot hhome hslot
    obtain ⟨r, cg₁, halloc, hrun⟩ := Exec.of_bind hrun
    obtain ⟨_, halloc, rfl⟩ := Exec.of_zoom halloc
    have hroomAlloc := Exec.of_wp ((wp_cgAllocReg (E := fun _ _ => True) (Q := fun r cg₁ => ¬cg.nextReg > cgMaxEmitReg ∧
      r = BitVec.ofNat 8 cg.nextReg ∧ cg₁ = { cg with nextReg := cg.nextReg + 1 }) hok.pool).mpr
        ⟨fun _ => trivial, fun hroom => ⟨hroom, rfl, rfl⟩⟩) halloc
    obtain ⟨hroom, rfl, rfl⟩ := hroomAlloc
    rw [hnext] at hroom hrun
    have hnat := toNat_nextReg hroom
    have hdst : (BitVec.ofNat 8 cg.ssaRegHigh).toNat < cg.ssaRegHigh + 1 := by omega
    obtain ⟨_, cg₂, hdef, hrun⟩ := Exec.of_bind hrun
    obtain ⟨f₂, ⟨ws, n, rfl, hruns⟩, hag, hge, hle⟩ := hyields (cg.ssaRegHigh + 1) _ _ (Nat.le_succ _) (by omega) hdst hdef
    have hge : cg.ssaRegHigh + 1 ≤ n := hge
    have hle : n ≤ cgMaxEmitReg + 1 := hle
    have hem : Emitted img host cg { cg with code := cg.code ++ ws, nextReg := n } f f₂ := ⟨ws, n, rfl, hruns⟩
    have hag₂ : f.AgreesOff (Scratch cg.ssaRegHigh) f₂ :=
      (Frame.AgreesOff.setReg v (scratch_nextReg (Nat.le_refl _) hroom)).trans (hag.mono fun r hr => hr.mono (Nat.le_succ _))
    have hok₂ := hem.ok hok (Nat.le_trans (Nat.le_succ _) hge) hle
    have hsp : ¬Scratch cg.ssaRegHigh regSp := not_scratch_of_gt (Or.inr rfl)
    have hin₂ := (hin.of_agrees hag₂ hsp).of_emitted hem
    have hval : f₂.regs (BitVec.ofNat 8 cg.ssaRegHigh) = v := (hag.regs _ (not_scratch_of_lt (by omega) hdst)).trans (Frame.setReg_same ..)
    obtain ⟨_, hstore, rfl⟩ := Exec.of_zoom hrun
    obtain ⟨hnext₃, f₃, hem₃, hag₃⟩ := Exec.of_wp (wp_stwSlot host hcode hok₂ hin₂ hk (nextReg_ne_scratch hroom)) hstore
    rw [hval] at hag₃
    have hset : (f.setLoc cg (.slot slot) v).AgreesOff (Scratch cg.ssaRegHigh) (f₂.setLoc cg (.slot slot) v) := hag₂.setLoc hsp _ v
    have hnext₃ := hnext₃
    dsimp only at hnext₃
    exact ⟨hem₃.ok hok₂ (show cg.ssaRegHigh ≤ _ by omega) (by omega), f₃, hem.trans hcode hem₃, hset.trans (hag₃.mono fun r hr => hr.scratch _)⟩

end handlers

/-! ## Scalar instructions -/

section scalars

variable {P : Program} {img : Image κ} (host : Host κ W) {cg : Cg} {f : Frame κ W} {fn : Func} {env : Env} {i : Inst} {fi : FnInfo}
variable (hcode : img.code.length = img.codeCount.toNat) (hok : cg.Ok) (hin : InFrame cg img f)
variable (hheld : HoldsOperands P fn cg f env i)
include hcode hok hin hheld

/-- Code for a word that stands for the value, if it has one. -/
def Gives (img : Image κ) (host : Host κ W) (cg : Cg) (f : Frame κ W) (ty : Ty) (handler : Byte → EmitInst Unit) (x : Option Nat) : Prop :=
  ∃ v, Yields img host cg f handler v ∧ ∀ n, x = some n → ty.Repr n v

theorem gives_binary {b : IntBinOp} (hop : i.op.intBinOp? = some b) (hword : i.ty.isWord = true) (hx : fn.typeOf (i.operand 0) = i.ty)
    (hy : fn.typeOf (i.operand 1) = i.ty) (hshift : b.isShift = true → 5 ≤ i.ty.regWidth)
    (hbit : i.ty = .int 1 → b = .and ∨ b = .or ∨ b = .xor) (hfault : P.faults env i = false) :
    Gives img host cg f i.ty (cgCase fn fi i) (P.scalarValue fn env i) := by
  obtain ⟨hpos, hw⟩ := Ty.regWidth_le hword
  have hwordX : (fn.typeOf (i.operand 0)).isWord = true := by rw [hx]; exact hword
  have hwordY : (fn.typeOf (i.operand 1)).isWord = true := by rw [hy]; exact hword
  have hbitsX : ∀ {x}, P.bits env i.ty.regWidth (i.operand 0) = some x → (operandWord cg f (i.operand 0)).setWidth i.ty.regWidth = x :=
    fun h => (hheld.operand 0).bits hwordX (by rw [hx]) h
  have hbitsY : ∀ {y}, P.bits env i.ty.regWidth (i.operand 1) = some y → (operandWord cg f (i.operand 1)).setWidth i.ty.regWidth = y :=
    fun h => (hheld.operand 1).bits hwordY (by rw [hy]) h
  -- A division has a divisor, which is not zero.
  have hdiv : b.isDiv = true → rightWord b i.ty.regWidth (operandWord cg f (i.operand 1)) ≠ 0 := by
    intro hisDiv hzero
    simp only [Program.faults, hop, Option.any_some, hisDiv, Bool.true_and] at hfault
    cases hbits : P.bits env i.ty.regWidth (i.operand 1) with
    | none =>
      rw [hbits] at hfault
      cases hfault
    | some y =>
      rw [hbits, Option.all_some] at hfault
      have hlow := setWidth_rightWord b hw (operandWord cg f (i.operand 1))
      rw [hzero, hbitsY hbits] at hlow
      rw [← hlow] at hfault
      simp at hfault
  refine ⟨_, Yields.of_wp host hok hin (v := regOp b (leftWord b i.ty.regWidth (operandWord cg f (i.operand 0)))
    (rightWord b i.ty.regWidth (operandWord cg f (i.operand 1)))) (fun dst => cgCase_binary fi dst hop)
    fun cg₁ hok₁ hin₁ hwords dst hne => ?_, fun n hn => ?_⟩
  · rw [← hwords, ← hwords]
    exact Exec.wlp_of_wp (wp_cgBinary host hcode hok₁ hin₁ b hpos hw (hwords _ ▸ hdiv))
  · have hvalue : P.scalarValue fn env i = (do
        let b ← i.op.intBinOp?
        let x ← P.bits env i.ty.regWidth (i.operand 0)
        let y ← P.bits env i.ty.regWidth (i.operand 1)
        (b.eval x y).map BitVec.toNat) := by
      unfold Program.scalarValue
      dsimp only
      split <;> simp_all [Op.intBinOp?]
    rw [hvalue, hop] at hn
    obtain ⟨b', hb', hn⟩ := Option.bind_eq_some_iff.mp hn
    obtain rfl := Option.some.inj hb'
    obtain ⟨x, hx', hn⟩ := Option.bind_eq_some_iff.mp hn
    obtain ⟨y, hy', hn⟩ := Option.bind_eq_some_iff.mp hn
    obtain ⟨z, hz, rfl⟩ := Option.map_eq_some_iff.mp hn
    refine ⟨?_, fun hone => ?_⟩
    · rw [← hbitsX hx', ← hbitsY hy'] at hz
      rw [setWidth_regOp b hw hshift hz, BitVec.ofNat_toNat, BitVec.setWidth_eq]
    · obtain ⟨m, hm, -⟩ := Option.map_eq_some_iff.mp hx'
      obtain ⟨k, hk, -⟩ := Option.map_eq_some_iff.mp hy'
      have hle := (hheld.operand 0 hwordX m hm).bit (hx.trans hone)
      have hle' := (hheld.operand 1 hwordY k hk).bit (hy.trans hone)
      have hcases : ∀ {w : Word}, w.toNat ≤ 1 → w = 0 ∨ w = 1 := by
        intro w hw
        rcases Nat.le_one_iff_eq_zero_or_eq_one.mp hw with h | h
        · exact Or.inl (BitVec.eq_of_toNat_eq h)
        · exact Or.inr (BitVec.eq_of_toNat_eq h)
      rcases hbit hone with rfl | rfl | rfl <;> rw [leftWord_of_plain rfl, rightWord_of_plain rfl] <;>
        rcases hcases hle with h | h <;> rcases hcases hle' with h' | h' <;> rw [h, h'] <;> decide

theorem gives_icmp {p : IntPred} (hop : i.op = .icmp) (hp : i.predicate = some p) (hty : i.ty = .int 1)
    (hword : (fn.typeOf (i.operand 0)).isWord = true) (hy : fn.typeOf (i.operand 1) = fn.typeOf (i.operand 0)) :
    Gives img host cg f i.ty (cgCase fn fi i) (P.scalarValue fn env i) := by
  obtain ⟨hpos, hw⟩ := Ty.regWidth_le hword
  obtain ⟨hwide, hi65, -⟩ := Ty.not_wide hword
  refine ⟨_, Yields.of_wp host hok hin (m := cgIcmpWord p (fn.typeOf (i.operand 0)).regWidth (i.operand 0) (i.operand 1))
    (v := boolWord (p.eval ((operandWord cg f (i.operand 0)).setWidth (fn.typeOf (i.operand 0)).regWidth)
      ((operandWord cg f (i.operand 1)).setWidth (fn.typeOf (i.operand 0)).regWidth)))
    (fun dst => ?_) fun cg₁ hok₁ hin₁ hwords dst _ => ?_, fun n hn => ?_⟩
  · simp only [cgCase, hop, cgScalarDef, cgIcmp, hp, hi65, hwide, Bool.false_eq_true, if_false]
  · rw [← hwords, ← hwords]
    exact Exec.wlp_of_wp (wp_cgIcmpWord host hcode hok₁ hin₁ p hpos hw _ _)
  · simp only [Program.scalarValue, hop, hp] at hn
    obtain ⟨p', hp', hn⟩ := Option.bind_eq_some_iff.mp hn
    obtain rfl := Option.some.inj hp'
    obtain ⟨x, hx', hn⟩ := Option.bind_eq_some_iff.mp hn
    obtain ⟨y, hy', hn⟩ := Option.bind_eq_some_iff.mp hn
    rw [(hheld.operand 0).bits hword rfl hx', (hheld.operand 1).bits (by rw [hy]; exact hword) (by rw [hy]) hy', ← Option.some.inj hn, hty]
    constructor
    · cases p.eval x y <;> decide
    · intro _
      cases p.eval x y <;> decide

theorem gives_extend (hop : i.op = .zext ∨ i.op = .sext) (hints : i.ty.areInts (fn.typeOf (i.operand 0)) = true)
    (hlt : (fn.typeOf (i.operand 0)).regWidth < i.ty.regWidth) : Gives img host cg f i.ty (cgCase fn fi i) (P.scalarValue fn env i) := by
  obtain ⟨-, -, -, hword⟩ := of_decide_eq_true hints
  obtain ⟨hpos, hw⟩ := Ty.regWidth_le hword
  have hbit : i.ty ≠ .int 1 := by
    intro hone
    rw [hone] at hlt
    exact absurd hlt (Nat.not_lt.mpr hpos)
  rcases hop with hop | hop
  · refine ⟨_, Yields.of_wp host hok hin (m := cgZExt fn i) (v := extendLow false (fn.typeOf (i.operand 0)).regWidth (operandWord cg f (i.operand 0)))
      (fun dst => by simp only [cgCase, hop, cgScalarDef]) fun cg₁ hok₁ hin₁ hwords dst _ => ?_, fun n hn => ⟨?_, fun h => absurd h hbit⟩⟩
    · rw [← hwords]
      exact Exec.wlp_of_wp (wp_cgZExt host hcode hok₁ hin₁ hw)
    · simp only [Program.scalarValue, hop] at hn
      obtain ⟨x, hx', rfl⟩ := Option.map_eq_some_iff.mp hn
      rw [BitVec.ofNat_toNat, BitVec.setWidth_eq, ← (hheld.operand 0).bits hword rfl hx']
      exact BitVec.setWidth_setWidth_of_le _ (Ty.regWidth_le (of_decide_eq_true hints).2.1).2
  · refine ⟨_, Yields.of_wp host hok hin (m := cgSExt fn i) (v := extendLow true (fn.typeOf (i.operand 0)).regWidth (operandWord cg f (i.operand 0)))
      (fun dst => by simp only [cgCase, hop, cgScalarDef]) fun cg₁ hok₁ hin₁ hwords dst hne => ?_, fun n hn => ⟨?_, fun h => absurd h hbit⟩⟩
    · rw [← hwords]
      exact Exec.wlp_of_wp (wp_cgSExt host hcode hok₁ hin₁ hpos hw hne)
    · simp only [Program.scalarValue, hop] at hn
      obtain ⟨x, hx', rfl⟩ := Option.map_eq_some_iff.mp hn
      rw [BitVec.ofNat_toNat, BitVec.setWidth_eq, ← (hheld.operand 0).bits hword rfl hx']
      exact setWidth_signExtend_of_le (Ty.regWidth_le (of_decide_eq_true hints).2.1).2 _

theorem gives_trunc (hop : i.op = .trunc) (hints : i.ty.areInts (fn.typeOf (i.operand 0)) = true)
    (hlt : i.ty.regWidth < (fn.typeOf (i.operand 0)).regWidth) : Gives img host cg f i.ty (cgCase fn fi i) (P.scalarValue fn env i) := by
  obtain ⟨-, hwordD, -, hword⟩ := of_decide_eq_true hints
  obtain ⟨-, hw⟩ := Ty.regWidth_le hwordD
  obtain ⟨hwide, -⟩ := Ty.not_wide hword
  refine ⟨_, Yields.of_wp host hok hin (m := cgTrunc fn i) (v := extendLow false i.ty.regWidth (operandWord cg f (i.operand 0)))
    (fun dst => by simp only [cgCase, hop, cgScalarDef]) fun cg₁ hok₁ hin₁ hwords dst _ => ?_, fun n hn => ⟨?_, fun hone => ?_⟩⟩
  · rw [← hwords]
    exact Exec.wlp_of_wp (wp_cgTrunc host hcode hok₁ hin₁ hwide hw)
  · simp only [Program.scalarValue, hop] at hn
    obtain ⟨x, hx', rfl⟩ := Option.map_eq_some_iff.mp hn
    rw [BitVec.ofNat_toNat, BitVec.setWidth_eq, ← (hheld.operand 0).bits hword rfl hx', setWidth_extendLow hw]
    exact (BitVec.setWidth_setWidth_of_le _ (Nat.le_of_lt hlt)).symm
  · rw [hone]
    have hext : extendLow false (Ty.regWidth (.int 1)) (operandWord cg f (i.operand 0)) =
        ((operandWord cg f (i.operand 0)).setWidth 1).setWidth 32 := rfl
    have hlt' := ((operandWord cg f (i.operand 0)).setWidth 1).isLt
    rw [hext, BitVec.toNat_setWidth]
    omega

/-- A copy of the operand. -/
theorem gives_copy (hop : i.op = .ptrToInt ∨ i.op = .intToPtr ∨ i.op = .bitCast ∨ i.op = .freeze)
    (hsrc : (fn.typeOf (i.operand 0)).isWord = true) (hle : i.ty.regWidth ≤ (fn.typeOf (i.operand 0)).regWidth)
    (hbit : i.ty = .int 1 → fn.typeOf (i.operand 0) = .int 1) :
    Gives img host cg f i.ty (cgCase fn fi i) (P.val env (i.operand 0)) := by
  have hvector : (fn.typeOf (i.operand 0)).kind ≠ .vector := by
    intro hkind
    cases hty : fn.typeOf (i.operand 0) with
    | vector => rw [hty] at hsrc; cases hsrc
    | void | int | pointer | float | double | struct | other => rw [hty] at hkind; cases hkind
  refine ⟨_, Yields.of_wp host hok hin (m := cgCopy fn i) (v := operandWord cg f (i.operand 0)) (fun dst => ?_)
    fun cg₁ hok₁ hin₁ hwords dst _ => ?_, fun n hn => ⟨?_, fun hone => ?_⟩⟩
  · rcases hop with h | h | h | h <;> simp only [cgCase, h]
  · rw [← hwords]
    unfold cgCopy
    rw [if_neg hvector]
    refine Exec.wlp_of_wp (E := fun e _ => e.OfOperand) ?_
    refine wp_operand (wp_cgRegFor host hcode hok₁ hin₁ _) fun r cg₂ f₂ hprep hr hheld₂ => ?_
    rw [← hr]
    exact Exec.wp_mono (fun _ _ h => h.after hcode hprep) (fun _ _ h => h) (wp_movInto host hcode hprep.next_le)
  · have hlow := (hheld.operand 0 hsrc n hn).low
    have hcut := congrArg (fun x : BitVec (fn.typeOf (i.operand 0)).regWidth => x.setWidth i.ty.regWidth) hlow
    rw [BitVec.setWidth_setWidth_of_le _ hle] at hcut
    rw [hcut]
    exact BitVec.setWidth_ofNat_of_le hle n
  · exact (hheld.operand 0 hsrc n hn).bit (hbit hone)

/-- One of two operands. -/
theorem gives_select (hop : i.op = .select) (hword : i.ty.isWord = true) (hcond : fn.typeOf (i.operand 0) = .int 1)
    (hx : fn.typeOf (i.operand 1) = i.ty) (hy : fn.typeOf (i.operand 2) = i.ty) (hzero : f.regs cgRegZero = 0) :
    Gives img host cg f i.ty (cgCase fn fi i)
      ((P.val env (i.operand 0)).bind fun c => P.val env (i.operand (if c % 2 = 1 then 1 else 2))) := by
  refine ⟨_, Yields.of_wp host hok hin (m := cgSelect i)
    (v := if operandWord cg f (i.operand 0) = 0 then operandWord cg f (i.operand 2) else operandWord cg f (i.operand 1))
    (fun dst => by simp only [cgCase, hop]) fun cg₁ hok₁ hin₁ hwords dst _ => ?_, fun n hn => ?_⟩
  · rw [← hwords, ← hwords, ← hwords]
    refine Exec.wlp_of_wp (E := fun e _ => e.OfOperand) ?_
    refine wp_operand (wp_cgRegFor host hcode hok₁ hin₁ _) fun c cg₂ f₂ hprep₂ hc hheld₂ => ?_
    refine wp_operand (wp_cgRegFor host hcode (hprep₂.ok hok₁) (hprep₂.inFrame hin₁) _) fun t cg₃ f₃ hprep₃ ht hheld₃ => ?_
    have hprep := hprep₂.trans hcode hprep₃
    refine wp_operand (wp_cgRegFor host hcode (hprep.ok hok₁) (hprep.inFrame hin₁) _) fun e cg₄ f₄ hprep₄ he hheld₄ => ?_
    have hall := hprep.trans hcode hprep₄
    have hcw : f₄.regs c = operandWord cg₁ f (i.operand 0) := by
      rw [hprep₄.regs (hprep₃.held hheld₂), hprep₃.regs hheld₂, hc]
    have htw : f₄.regs t = operandWord cg₁ f (i.operand 1) := by
      rw [hprep₄.regs hheld₃, ht, hprep₂.operandWord_eq hok₁]
    have hew : f₄.regs e = operandWord cg₁ f (i.operand 2) := by
      rw [he, hprep.operandWord_eq hok₁]
    have hz : f₄.regs cg₄.zeroReg = 0 := by rw [(hall.ok hok₁).zero, hall.regs (Or.inr rfl), hzero]
    have hbranch : RunsTo img host (ifEq c cg₄.zeroReg [encR .mov dst t 0] [encR .mov dst e 0]) f₄ (f₄.setReg dst
        (if operandWord cg₁ f (i.operand 0) = 0 then operandWord cg₁ f (i.operand 2) else operandWord cg₁ f (i.operand 1))) := by
      refine runs_ifEq hcode (Nat.le_of_ble_eq_true rfl) (Nat.le_of_ble_eq_true rfl) (fun hne => ?_) (fun heq => ?_)
      · rw [hz, hcw] at hne
        rw [if_neg hne, ← htw]
        exact runs_mov host hcode dst t 0
      · rw [hz, hcw] at heq
        rw [if_pos heq, ← hew]
        exact runs_mov host hcode dst e 0
    simp only [cgSelectMove, Exec.wp_bind, Exec.wp_get, wp_cgEmit, Cg.emit_emit]
    exact (Defines.of_runs hall.next_le hbranch).after hcode hall
  · obtain ⟨c, hc, hn⟩ := Option.bind_eq_some_iff.mp hn
    have hbool := (hheld.operand 0 (by rw [hcond]; rfl) c hc).boolWord_eq hcond
    rw [hbool]
    by_cases hodd : c % 2 = 1
    · rw [if_pos hodd] at hn
      rw [if_neg (by simp [boolWord, hodd]), ← hx]
      exact hheld.operand 1 (by rw [hx]; exact hword) n hn
    · rw [if_neg hodd] at hn
      rw [if_pos (by simp [boolWord, hodd]), ← hy]
      exact hheld.operand 2 (by rw [hy]; exact hword) n hn

end scalars

/-! ## Addresses -/

section addresses

open Globals (GepPath TargetData)

variable {P : Program} {img : Image κ} (host : Host κ W) {cg : Cg} {f : Frame κ W} {src : FnSource} {env : Env} {i : Inst} {fi : FnInfo}

/-- The indices of a GEP have words of their own, unless the emission ends with them. -/
theorem exists_path (td : TargetData) (word : Val → Word) {t : Globals.Ty} (idx : GepIndices t) :
    (∃ path off, SameIndices word path idx ∧ path.offset td = some off) ∨ ∀ s cg a cg', cgGepWalk td idx s cg ≠ .val a cg' := by
  induction idx with
  | nil => exact Or.inl ⟨.nil, 0, .nil, rfl⟩
  | @elem n t idx rest ih =>
    rcases ih with ⟨path, off, hsame, hoff⟩ | hnever
    · refine Or.inl ⟨.elem (word idx).toInt path, (word idx).toInt * td.abiSize t + off, .elem (BitVec.ofInt_toInt).symm hsame, ?_⟩
      rw [GepPath.offset, hoff, Option.map_some]
    · refine Or.inr fun s cg a cg' hrun => ?_
      obtain ⟨s₁, cg₁, -, hrest⟩ := Exec.of_bind hrun
      exact hnever s₁ cg₁ a cg' hrest
  | @field p n fs fi rest ih =>
    rcases ih with ⟨path, off, hsame, hoff⟩ | hnever
    · refine Or.inl ⟨.field fi path, td.offsetOfElement p n fs fi + off, .field hsame, ?_⟩
      rw [GepPath.offset, hoff, Option.map_some]
    · exact Or.inr fun s cg a cg' hrun => hnever _ cg a cg' hrun
  | stop => exact Or.inr fun s cg a cg' hrun => by cases hrun

theorem indexWord_of (v : Val) (h : HoldsOperand P src.fn cg f env v) {n : Int} (hn : P.index src.fn env v = some n) :
    indexWord cg f v = BitVec.ofInt 32 n := by
  have hword : (∀ width bits, v ≠ .const (.int width bits)) → operandWord cg f v = BitVec.ofInt 32 n := by
    intro hne
    have hindex : P.index src.fn env v = if src.fn.typeOf v = .int 32 then (P.bits env 32 v).map BitVec.toInt else none := by
      unfold Program.index
      split
      · exact absurd rfl (hne _ _)
      · rfl
    rw [hindex] at hn
    obtain ⟨hty, hn⟩ := Option.ite_none_right_eq_some.mp hn
    obtain ⟨x, hx, rfl⟩ := Option.map_eq_some_iff.mp hn
    have hbits := h.bits (by rw [hty]; rfl) (by rw [hty]; rfl) hx
    rw [BitVec.setWidth_eq] at hbits
    rw [hbits, BitVec.ofInt_toInt]
  cases v with
  | const c =>
    cases c with
    | int width bits =>
      obtain rfl := Option.some.inj hn
      rfl
    | float | double | null | undef | «global» | func | aliasOf | cast | gep | expr | other => exact hword fun _ _ heq => by cases heq
  | loc | block => exact hword fun _ _ heq => by cases heq

theorem sameIndices_of {t : Globals.Ty} (idx : GepIndices t) (h : ∀ v ∈ indexVals idx, HoldsOperand P src.fn cg f env v) {path : GepPath t}
    (hpath : P.path src.fn env idx = some path) : SameIndices (indexWord cg f) path idx := by
  induction idx with
  | nil =>
    obtain rfl := Option.some.inj hpath
    exact .nil
  | elem idx rest ih =>
    obtain ⟨n, hn, hpath⟩ := Option.bind_eq_some_iff.mp hpath
    obtain ⟨path', hpath', hpath⟩ := Option.bind_eq_some_iff.mp hpath
    obtain rfl := Option.some.inj hpath
    exact .elem (indexWord_of idx (h idx List.mem_cons_self) hn) (ih (fun v hv => h v (List.mem_cons_of_mem idx hv)) hpath')
  | field fi rest ih =>
    obtain ⟨path', hpath', rfl⟩ := Option.map_eq_some_iff.mp hpath
    exact .field (ih h hpath')
  | stop => cases hpath

theorem sameGep_of {source : Globals.Ty} (indices : Option (Val × GepIndices source))
    (h : ∀ v ∈ gepVals indices, HoldsOperand P src.fn cg f env v) {values : Option (Int × GepPath source)}
    (hvalues : P.indices src.fn env indices = some values) : SameGep (indexWord cg f) values indices := by
  cases indices with
  | none =>
    obtain rfl := Option.some.inj hvalues
    trivial
  | some e =>
    obtain ⟨n, hn, hvalues⟩ := Option.bind_eq_some_iff.mp hvalues
    obtain ⟨path, hpath, hvalues⟩ := Option.bind_eq_some_iff.mp hvalues
    obtain rfl := Option.some.inj hvalues
    exact ⟨indexWord_of e.1 (h e.1 List.mem_cons_self) hn, sameIndices_of e.2 (fun v hv => h v (List.mem_cons_of_mem e.1 hv)) hpath⟩

/-- The address of a GEP. -/
theorem gives_gep (hcode : img.code.length = img.codeCount.toNat) (hok : cg.Ok) (hin : InFrame cg img f)
    (hheld : HoldsOperands P src.fn cg f env i) (hop : i.op = .getElementPtr) (hptr : src.fn.typeOf (i.operand 0) = .pointer) (hty : i.ty = .pointer)
    (htd : fi.td = P.td) (hgep : fi.gep = src.gep) (hindices : ∀ g, src.gep i.id = some g → ∀ v ∈ gepVals g.2, v ∈ i.operands) :
    Gives img host cg f i.ty (cgCase src.fn fi i) (P.gepValue src env i) := by
  have hcase : ∀ dst, cgCase src.fn fi i dst = Emit.inst (cgGepCase fi i dst) := fun dst => by simp only [cgCase, hop]
  cases hg : src.gep i.id with
  | none =>
    refine ⟨0, Yields.of_wp host hok hin hcase fun cg₁ _ _ _ dst _ a cg' hrun => ?_, fun n hn => ?_⟩
    · simp only [cgGepCase, hgep, hg] at hrun
      cases hrun
    · simp only [Program.gepValue, hg] at hn
      cases hn
  | some g =>
    have hrun : ∀ dst, cgGepCase fi i dst = cgGetElementPtr P.td g.1 (i.operand 0) g.2 dst := fun dst => by
      simp only [cgGepCase, hgep, hg, htd]
    -- The code for indices with these values.
    have hyields : ∀ values off, SameGep (indexWord cg f) values g.2 → llvmOffset P.td g.1 values = some off →
        Yields img host cg f (cgCase src.fn fi i) (operandWord cg f (i.operand 0) + BitVec.ofInt 32 off) := by
      intro values off hsame hoff
      refine Yields.of_wp host hok hin hcase fun cg₁ hok₁ hin₁ hwords dst _ => ?_
      have hsame₁ : SameGep (indexWord cg₁ f) values g.2 := by
        have heq : indexWord cg₁ f = indexWord cg f := by
          funext v
          unfold indexWord
          split
          · rfl
          · exact hwords v
        rw [heq]
        exact hsame
      rw [hrun, ← hwords]
      exact Exec.wlp_of_wp (GepAux.wp_cgGetElementPtr host hcode hok₁ hin₁ hsame₁ hoff _ dst)
    by_cases hvalue : ∃ n, P.gepValue src env i = some n
    · obtain ⟨n, hn⟩ := hvalue
      have hn' := hn
      simp only [Program.gepValue, hg] at hn'
      obtain ⟨base, hbase, hn'⟩ := Option.bind_eq_some_iff.mp hn'
      obtain ⟨values, hvalues, hn'⟩ := Option.bind_eq_some_iff.mp hn'
      obtain ⟨off, hoff, hn'⟩ := Option.bind_eq_some_iff.mp hn'
      refine ⟨_, hyields values off (sameGep_of g.2 (fun v hv => hheld v (hindices g hg v hv)) hvalues) hoff, fun m hm => ?_⟩
      obtain rfl := Option.some.inj (hn'.trans (hn.symm.trans hm))
      have hrepr := hheld.operand 0 (by rw [hptr]; rfl) base hbase
      rw [hptr] at hrepr
      rw [hty, Ty.repr_word rfl, hrepr.eq rfl, BitVec.ofNat_toNat, BitVec.setWidth_eq]
    · -- The result is poison, but there is code for it.
      have hnone : ∀ v : Word, ∀ n, P.gepValue src env i = some n → i.ty.Repr n v := fun v n hn => absurd ⟨n, hn⟩ hvalue
      cases hindex : g.2 with
      | none => exact ⟨_, hyields none 0 (by rw [hindex]; trivial) rfl, hnone _⟩
      | some e =>
        rcases exists_path P.td (indexWord cg f) e.2 with ⟨path, off, hsame, hoff⟩ | hnever
        · refine ⟨_, hyields (some ((indexWord cg f e.1).toInt, path)) ((indexWord cg f e.1).toInt * P.td.abiSize g.1 + off) ?_ ?_, hnone _⟩
          · rw [hindex]
            exact ⟨(BitVec.ofInt_toInt).symm, hsame⟩
          · rw [llvmOffset, hoff, Option.map_some]
        · refine ⟨0, Yields.of_wp host hok hin hcase fun cg₁ _ _ _ dst _ a cg' hrun' => ?_, hnone _⟩
          rw [hrun, hindex] at hrun'
          obtain ⟨_, cg₂, -, hrun'⟩ := Exec.of_bind hrun'
          obtain ⟨s, cg₃, hsum, -⟩ := Exec.of_bind hrun'
          obtain ⟨s₁, cg₄, -, hwalk⟩ := Exec.of_bind hsum
          exact absurd hwalk (hnever s₁ cg₄ s cg₃)

end addresses

/-! ## Memory -/

/-- The heap has the bytes of the memory that the program may look at, as far as they are known. -/
structure Shows (img : Image κ) (own : Nat → Bool) (mem : Contents) (heap : Mem) : Prop where
  fits : ∀ p, own p = true → p < img.memSize.toNat
  bytes : ∀ p b, own p = true → mem p = some b → heap.byte p = b

/-- The three widths of an access, and how much of a value each takes. -/
theorem memOps_cases {ty : Ty} {ops : Opcode × Opcode} (h : memOps ty = some ops) :
    (ops = (.ldb, .stb) ∧ ty.accessBytes = 1 ∨ ops = (.ldh, .sth) ∧ ty.accessBytes = 2 ∨ ops = (.ldw, .stw) ∧ ty.accessBytes = 4) ∧
      (ty = .int 1 ∨ ty.regWidth = 8 * ty.accessBytes) := by
  cases ty with
  | pointer | float =>
    obtain rfl := Option.some.inj h
    exact ⟨Or.inr (Or.inr ⟨rfl, rfl⟩), Or.inr rfl⟩
  | int w =>
    rw [memOps] at h
    split at h
    case isTrue hw =>
      obtain rfl := Option.some.inj h
      rcases hw with rfl | rfl
      · exact ⟨Or.inl ⟨rfl, rfl⟩, Or.inl rfl⟩
      · exact ⟨Or.inl ⟨rfl, rfl⟩, Or.inr rfl⟩
    case isFalse =>
      split at h
      case isTrue hw =>
        obtain rfl := Option.some.inj h
        subst hw
        exact ⟨Or.inr (Or.inl ⟨rfl, rfl⟩), Or.inr rfl⟩
      case isFalse =>
        split at h
        case isTrue hw =>
          obtain rfl := Option.some.inj h
          subst hw
          exact ⟨Or.inr (Or.inr ⟨rfl, rfl⟩), Or.inr rfl⟩
        case isFalse => cases h
  | void | double | vector | struct | other => cases h

section memory

variable {P : Program} {img : Image κ} {host : Host κ W} {cg : Cg} {f : Frame κ W} {fn : Func} {env : Env} {i : Inst} {fi : FnInfo}
variable {own : Nat → Bool} {mem : Contents}

/-- The bytes that are read are those of the heap. -/
theorem Shows.read_eq (h : Shows img own mem f.heap) {p n : Nat} (howns : ∀ k < n, own (p + k) = true) {w : Word} (hread : mem.read p n = some w) :
    f.heap.lowBytes p n = w := by
  obtain ⟨hall, heq⟩ := Option.ite_none_right_eq_some.mp hread
  rw [Mem.lowBytes, ← Option.some.inj heq]
  refine leWord_congr fun k _ => ?_
  split
  case isTrue hk =>
    obtain ⟨b, hb⟩ := Option.isSome_iff_exists.mp (List.all_eq_true.mp hall k (List.mem_range.mpr hk))
    rw [h.bytes _ b (howns k hk) hb, hb, Option.getD_some]
  case isFalse => rfl

/-- A store of the bytes of a value. -/
theorem Shows.write (h : Shows img own mem f.heap) {p n : Nat} {w : Word} {x : Option Nat}
    (hbytes : ∀ m, x = some m → ∀ k < n, leByte w k = leByte (BitVec.ofNat 32 m) k) : Shows img own (mem.write p n x) (f.setLow p n w).heap := by
  refine ⟨h.fits, fun q b hq hb => ?_⟩
  rw [Frame.setLow, Mem.blit_byte]
  rw [Contents.write] at hb
  split at hb
  case isTrue hin =>
    rw [if_pos hin]
    obtain ⟨m, hm, rfl⟩ := Option.map_eq_some_iff.mp hb
    exact hbytes m hm (q - p) (by omega)
  case isFalse hout =>
    rw [if_neg hout]
    exact h.bytes q b hq hb

/-- The low bytes of a word that stands for the value. -/
theorem leByte_of_repr {ty : Ty} {ops : Opcode × Opcode} (hops : memOps ty = some ops) {x : Nat} {w : Word} (h : ty.Repr x w) {k : Nat}
    (hk : k < ty.accessBytes) : leByte w k = leByte (BitVec.ofNat 32 (x % 2 ^ ty.regWidth)) k := by
  obtain ⟨hcases, hwidth⟩ := memOps_cases hops
  have hle : ty.accessBytes ≤ 4 := by
    rcases hcases with ⟨-, h⟩ | ⟨-, h⟩ | ⟨-, h⟩ <;> rw [h] <;> decide
  rcases hwidth with rfl | hwidth
  · have hk : k < 1 := hk
    obtain rfl : k = 0 := by omega
    have hbool := h.boolWord_eq rfl
    have hpow : (2 : Nat) ^ Ty.regWidth (.int 1) = 2 := rfl
    rw [hbool, hpow]
    rcases Nat.mod_two_eq_zero_or_one x with hx | hx
    · rw [hx]
      decide
    · rw [hx]
      decide
  · have hlow := h.low
    have hmod : BitVec.ofNat ty.regWidth x = (BitVec.ofNat 32 (x % 2 ^ ty.regWidth)).setWidth ty.regWidth := by
      rw [BitVec.setWidth_ofNat_of_le (by omega)]
      apply BitVec.eq_of_toNat_eq
      rw [BitVec.toNat_ofNat, BitVec.toNat_ofNat, Nat.mod_mod]
    rw [hmod] at hlow
    apply BitVec.eq_of_getLsbD_eq
    intro j hj
    have hbit := congrArg (fun b : BitVec ty.regWidth => b.getLsbD (8 * k + j)) hlow
    simp only [BitVec.getLsbD_setWidth, hwidth] at hbit
    have hlt : 8 * k + j < 8 * ty.accessBytes := by omega
    rw [decide_eq_true hlt, Bool.true_and, Bool.true_and] at hbit
    simp only [leByte, BitVec.getLsbD_extractLsb', hbit, hwidth]

/-- The low bytes that a load gives. -/
theorem lowBytes_widths (m : Mem) (p : Nat) :
    m.lowBytes p 1 = (m.byte p).setWidth 32 ∧ m.lowBytes p 2 = (m.half p).setWidth 32 ∧ m.lowBytes p 4 = m.word p := by
  refine ⟨?_, ?_, ?_⟩
  · apply BitVec.eq_of_getLsbD_eq
    intro j hj
    simp [Mem.lowBytes, leWord]
  · apply BitVec.eq_of_getLsbD_eq
    intro j hj
    simp [Mem.lowBytes, Mem.half, leWord, leHalf]
    grind
  · exact leWord_congr fun k hk => if_pos hk

variable (host)

/-- A load of any width. -/
theorem steps_load (hcode : img.code.length = img.codeCount.toNat) {ty : Ty} {ops : Opcode × Opcode} (hops : memOps ty = some ops) (a b c : Byte)
    (hsize : f.heap.size = img.memSize.toNat) (hin : (f.regs b).toNat + ty.accessBytes ≤ img.memSize.toNat) :
    Steps img host (encR ops.1 a b c) f (f.setReg a (f.heap.lowBytes (f.regs b).toNat ty.accessBytes)) := by
  obtain ⟨hcases, -⟩ := memOps_cases hops
  obtain ⟨hbyte, hhalf, hword⟩ := lowBytes_widths f.heap (f.regs b).toNat
  rcases hcases with ⟨rfl, hn⟩ | ⟨rfl, hn⟩ | ⟨rfl, hn⟩
  · rw [hn] at hin ⊢
    refine Steps.one hcode (l := .lLdb) (by rw [instOp_encR]; rfl) fun pc => ?_
    have hcheck : ¬f.regs b ≥ img.memSize := by
      rw [ge_iff_le, BitVec.le_def]
      omega
    have hbound : (f.regs b).toNat < f.heap.size := by omega
    simp only [instA_encR, instB_encR, Threaded.handler, Exec.run_bind, run_reg, Vm.failIf, Exec.run_stopIf_of_not _ hcheck, Vm.load8,
      Exec.run_get, Exec.run_demand_of _ hbound, Exec.run_pure, run_setReg, hbyte]
    rfl
  · rw [hn] at hin ⊢
    refine Steps.one hcode (l := .lLdh) (by rw [instOp_encR]; rfl) fun pc => ?_
    have hcheck : ¬(f.regs b > img.memSize ∨ img.memSize - f.regs b < 2) := by
      have hle : f.regs b ≤ img.memSize := by
        rw [BitVec.le_def]
        omega
      have hsub := BitVec.toNat_sub_of_le hle
      have htwo : (2 : Word).toNat = 2 := rfl
      simp only [gt_iff_lt, BitVec.lt_def, not_or, hsub]
      omega
    have hbound : (f.regs b).toNat + 2 ≤ f.heap.size := by omega
    simp only [instA_encR, instB_encR, Threaded.handler, Exec.run_bind, run_reg, Vm.failIf, Exec.run_stopIf_of_not _ hcheck, Vm.load16,
      Exec.run_get, Exec.run_demand_of _ hbound, Exec.run_pure, run_setReg, hhalf]
    rfl
  · rw [hn] at hin ⊢
    refine Steps.one hcode (l := .lLdw) (by rw [instOp_encR]; rfl) fun pc => ?_
    have hmem : InMemory img f (f.regs b) := ⟨hsize, hsize ▸ hin⟩
    have hpc : InMemory img { f with pc := pc } (f.regs b) := hmem
    simp only [instA_encR, instB_encR, Threaded.handler, Exec.run_bind, run_reg, Vm.failIf, Exec.run_stopIf_of_not _ hmem.check,
      run_load32 hpc, run_setReg, hword]
    rfl

/-- A store of any width. -/
theorem steps_store (hcode : img.code.length = img.codeCount.toNat) {ty : Ty} {ops : Opcode × Opcode} (hops : memOps ty = some ops) (a b c : Byte)
    (hsize : f.heap.size = img.memSize.toNat) (hin : (f.regs b).toNat + ty.accessBytes ≤ img.memSize.toNat) :
    Steps img host (encR ops.2 a b c) f (f.setLow (f.regs b).toNat ty.accessBytes (f.regs c)) := by
  obtain ⟨hcases, -⟩ := memOps_cases hops
  rcases hcases with ⟨rfl, hn⟩ | ⟨rfl, hn⟩ | ⟨rfl, hn⟩
  · rw [hn] at hin ⊢
    exact steps_stb host hcode a b c hsize hin
  · rw [hn] at hin ⊢
    exact steps_sth host hcode a b c hsize hin
  · rw [hn] at hin ⊢
    exact steps_stw host hcode a b c ⟨hsize, hsize ▸ hin⟩

/-- The address of an access, in the memory. -/
theorem address_of (hshows : Shows img own mem f.heap) {v : Val} (hv : HoldsOperand P fn cg f env v) (hptr : fn.typeOf v = .pointer) {p n : Nat}
    (hp : P.val env v = some p) (hpos : 0 < n) (howns : ∀ k < n, own (p + k) = true) :
    (operandWord cg f v).toNat = p ∧ p + n ≤ img.memSize.toNat := by
  have hend := hshows.fits _ (howns (n - 1) (by omega))
  have hword := hv (by rw [hptr]; rfl) p hp
  rw [hptr, Ty.repr_word rfl] at hword
  have hlt := img.memSize.isLt
  rw [hword, BitVec.toNat_ofNat, Nat.mod_eq_of_lt (by omega)]
  exact ⟨rfl, by omega⟩

variable (hcode : img.code.length = img.codeCount.toNat) (hok : cg.Ok) (hin : InFrame cg img f) (hheld : HoldsOperands P fn cg f env i)
include hcode hok hin hheld

theorem gives_load (hshows : Shows img own mem f.heap) {ops : Opcode × Opcode} (hop : i.op = .load) (hops : memOps i.ty = some ops)
    (hptr : fn.typeOf (i.operand 0) = .pointer) {p : Nat} (hp : P.val env (i.operand 0) = some p)
    (howns : ∀ k < i.ty.accessBytes, own (p + k) = true) :
    Gives img host cg f i.ty (cgCase fn fi i) (i.ty.loaded (mem.read p i.ty.accessBytes)) := by
  have hpos : 0 < i.ty.accessBytes := by
    obtain ⟨hcases, -⟩ := memOps_cases hops
    rcases hcases with ⟨-, h⟩ | ⟨-, h⟩ | ⟨-, h⟩ <;> rw [h] <;> decide
  obtain ⟨haddr, hend⟩ := address_of hshows (hheld.operand 0) hptr hp hpos howns
  have hkind : ¬(fn.typeOf (i.operand 0)).kind ≠ .pointer := by rw [hptr]; exact not_not.mpr rfl
  refine ⟨_, Yields.of_wp host hok hin (m := fun dst => (do
    let addr ← cgRegFor (i.operand 0)
    cgEmit (encR ops.1 dst addr 0))) (v := f.heap.lowBytes p i.ty.accessBytes) (fun dst => ?_) fun cg₁ hok₁ hin₁ hwords dst _ => ?_, fun n hn => ?_⟩
  · simp only [cgCase, hop, cgLoad, hops]
    funext cg₁
    rw [Exec.run_bind, Exec.run_stopIf_of_not _ hkind]
  · refine Exec.wlp_of_wp (E := fun e _ => e.OfOperand) ?_
    refine wp_operand (wp_cgRegFor host hcode hok₁ hin₁ _) fun r cg₂ f₂ hprep hr hheld₂ => ?_
    have hr : (f₂.regs r).toNat = p := by rw [hr, hwords, haddr]
    have hload := steps_load host hcode hops dst r 0 (f := f₂) (by rw [hprep.agrees.heap, hin.size]) (by rw [hr]; exact hend)
    rw [hr, hprep.agrees.heap] at hload
    rw [wp_cgEmit]
    exact (Defines.of_runs hprep.next_le hload.runsTo).after hcode hprep
  · obtain ⟨w, hw, hn⟩ := Option.bind_eq_some_iff.mp hn
    rw [hshows.read_eq howns hw]
    obtain ⟨hbit, hn⟩ := Option.ite_none_left_eq_some.mp hn
    obtain rfl := Option.some.inj hn
    refine ⟨?_, fun hty => ?_⟩
    · apply BitVec.eq_of_toNat_eq
      rw [BitVec.toNat_setWidth, BitVec.toNat_ofNat]
    · exact Nat.le_of_not_lt fun hlt => hbit ⟨hty, hlt⟩

/-- A store writes the low bytes of the word that stands for the value. -/
theorem stores_of_cgStore (hshows : Shows img own mem f.heap) {ops : Opcode × Opcode} (hop : i.op = .store)
    (hword : (fn.typeOf (i.operand 0)).isWord = true) (hops : memOps (fn.typeOf (i.operand 0)) = some ops)
    (hptr : fn.typeOf (i.operand 1) = .pointer) {p : Nat} (hp : P.val env (i.operand 1) = some p)
    (howns : ∀ k < (fn.typeOf (i.operand 0)).accessBytes, own (p + k) = true) {dst : Byte} {cg' : Cg}
    (hrun : cgCase fn fi i dst cg = .val () cg') : ∃ f' w, Emitted img host cg cg' f f' ∧ cg.nextReg ≤ cg'.nextReg ∧
      cg'.nextReg ≤ cgMaxEmitReg + 1 ∧ (f.setLow p (fn.typeOf (i.operand 0)).accessBytes w).AgreesOff (Scratch cg.nextReg) f' ∧
        ∀ x, P.val env (i.operand 0) = some x → (fn.typeOf (i.operand 0)).Repr x w := by
  have hpos : 0 < (fn.typeOf (i.operand 0)).accessBytes := by
    obtain ⟨hcases, -⟩ := memOps_cases hops
    rcases hcases with ⟨-, h⟩ | ⟨-, h⟩ | ⟨-, h⟩ <;> rw [h] <;> decide
  obtain ⟨haddr, hend⟩ := address_of hshows (hheld.operand 1) hptr hp hpos howns
  obtain ⟨hint, -, hf64, hvector, -⟩ := Ty.not_wide hword
  have hrun : Emit.inst (do
      let val ← cgRegFor (i.operand 0)
      let addr ← cgRegFor (i.operand 1)
      cgEmit (encR ops.2 0 addr val) : Emit Unit) cg = .val () cg' := by
    simpa only [cgCase, hop, cgStore, hvector, Ty.isWide, hint, hf64, hops, Bool.or_self, Bool.false_eq_true, if_false] using hrun
  obtain ⟨c, hrun, heq⟩ := Exec.of_zoom hrun
  obtain rfl : cg' = c := heq
  rw [id_eq] at hrun
  refine Exec.of_wp (Q := fun _ cg' => ∃ f' w, Emitted img host cg cg' f f' ∧ cg.nextReg ≤ cg'.nextReg ∧
      cg'.nextReg ≤ cgMaxEmitReg + 1 ∧ (f.setLow p (fn.typeOf (i.operand 0)).accessBytes w).AgreesOff (Scratch cg.nextReg) f' ∧
        ∀ x, P.val env (i.operand 0) = some x → (fn.typeOf (i.operand 0)).Repr x w) (E := fun e _ => e.OfOperand) ?_ hrun
  refine wp_operand (wp_cgRegFor host hcode hok hin _) fun r cg₁ f₁ hprep₁ hr hheld₁ => ?_
  refine wp_operand (wp_cgRegFor host hcode (hprep₁.ok hok) (hprep₁.inFrame hin) _) fun a cg₂ f₂ hprep₂ ha _ => ?_
  have hprep := hprep₁.trans hcode hprep₂
  have ha : (f₂.regs a).toNat = p := by rw [ha, hprep₁.operandWord_eq hok, haddr]
  have hr : f₂.regs r = operandWord cg f (i.operand 0) := by rw [hprep₂.regs hheld₁, hr]
  have hstore := steps_store host hcode hops 0 a r (f := f₂) (by rw [hprep.agrees.heap, hin.size]) (by rw [ha]; exact hend)
  rw [ha, hr] at hstore
  rw [wp_cgEmit]
  refine ⟨_, operandWord cg f (i.operand 0), hprep.emitted.trans hcode (.of_runs hstore.runsTo), hprep.next_ge, hprep.next_le, ?_,
    fun x hx => hheld.operand 0 hword x hx⟩
  refine ⟨?_, hprep.agrees.imports, hprep.agrees.world, hprep.agrees.regs⟩
  rw [Frame.setLow, Frame.setLow, hprep.agrees.heap]

end memory

end CronoVM
