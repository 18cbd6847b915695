import CronoVM.IrRun
import CronoVM.Lemmas.Narrow
import CronoVM.Theorems.CallerSaves

/-!
# Values and their homes

In a function of words each value has one register or one slot. The word there stands for the value; what is live at a point, and what the
instruction there computes, have different homes.
-/

namespace CronoVM

open Checked Ir NarrowInt

variable {κ W : Type}

/-! ## Words for values -/

/-- The word stands for the value `x` of the type. Only its low bits count, but for a value of one bit. -/
structure Ir.Ty.Repr (ty : Ty) (x : Nat) (w : Word) : Prop where
  low : w.setWidth ty.regWidth = BitVec.ofNat ty.regWidth x
  bit : ty = .int 1 → w.toNat ≤ 1

section repr

variable {ty : Ty} {x : Nat} {w : Word}

/-- A whole word holds just the value. -/
theorem Ir.Ty.Repr.eq (h : ty.Repr x w) (hty : ty.regWidth = 32) : w = BitVec.ofNat 32 x := by
  have hlow := h.low
  rw [hty, BitVec.setWidth_eq] at hlow
  exact hlow

/-- A word of 32 bits holds a value just when it is its bits. -/
theorem Ir.Ty.repr_word (hty : ty.regWidth = 32) : ty.Repr x w ↔ w = BitVec.ofNat 32 x := by
  constructor
  · exact fun h => h.eq hty
  · rintro rfl
    refine ⟨?_, fun hbit => ?_⟩
    · rw [hty, BitVec.setWidth_eq]
    · rw [hbit] at hty
      exact absurd hty (by decide)

/-- A bit is tested against zero. -/
theorem Ir.Ty.Repr.boolWord_eq (h : ty.Repr x w) (hty : ty = .int 1) : w = boolWord (x % 2 = 1) := by
  have hle := h.bit hty
  have hlow := congrArg BitVec.toNat h.low
  rw [hty, BitVec.toNat_setWidth, BitVec.toNat_ofNat] at hlow
  have hval : w.toNat = x % 2 := by
    have hpow : (2 : Nat) ^ Ty.regWidth (.int 1) = 2 := rfl
    rw [hpow] at hlow
    omega
  apply BitVec.eq_of_toNat_eq
  rw [hval, boolWord]
  by_cases hodd : x % 2 = 1
  · simp [hodd]
  · have hzero : x % 2 = 0 := by omega
    simp [hzero]

/-- A type of one word has between 1 and 32 bits. -/
theorem Ir.Ty.regWidth_le (hty : ty.isWord = true) : 0 < ty.regWidth ∧ ty.regWidth ≤ 32 := by
  cases ty with
  | int w => exact of_decide_eq_true hty
  | pointer | float => decide
  | void | double | vector | struct | other => cases hty

/-- A type of one word is none of the wide ones. -/
theorem Ir.Ty.not_wide (hty : ty.isWord = true) : ty.isWideInt = false ∧ ty.isI65 = false ∧ ty.isF64 = false ∧ ty.isVector = false ∧ ty.kind ≠ .void := by
  cases ty with
  | int w =>
    obtain ⟨-, hw⟩ := of_decide_eq_true hty
    exact ⟨isWideInt_of_le hw, isI65_of_le hw, rfl, rfl, fun h => by cases h⟩
  | pointer | float => decide
  | void | double | vector | struct | other => cases hty

end repr

/-! ## Constants -/

/-- The word of a constant stands for its value. -/
theorem constWord_repr (P : Program) (cg : Cg) (hglobals : cg.globals = P.globals) (hfuncs : cg.funcs = P.funcs) (zero : Word) {c : Const}
    (hty : c.typeOf.regWidth ≤ 32) {x : Nat} (hx : P.constVal c = some x) : c.typeOf.Repr x (constWord cg zero c) := by
  induction c generalizing x with
  | aliasOf aliasee ih =>
    obtain ⟨hwidth, hval⟩ := Option.ite_none_right_eq_some.mp hx
    exact (Ty.repr_word rfl).mpr ((ih (Nat.le_of_eq hwidth) hval).eq hwidth)
  | int width bits =>
    obtain rfl := Option.some.inj hx
    refine ⟨?_, fun hbit => ?_⟩
    · rw [constWord]
      refine (setWidth_constInt hty bits).trans (BitVec.eq_of_toNat_eq ?_)
      simp [Const.typeOf, Ty.regWidth]
    · cases hbit
      simp only [constWord, constIntImm, if_true, BitVec.toNat_ofNat, Nat.pow_one]
      rcases Nat.mod_two_eq_zero_or_one bits with h | h
      · rw [h]
        decide
      · rw [h]
        decide
  | float bits =>
    obtain rfl := Option.some.inj hx
    exact (Ty.repr_word rfl).mpr (BitVec.ofNat_toNat 32 bits).symm
  | null =>
    obtain rfl := Option.some.inj hx
    exact (Ty.repr_word rfl).mpr rfl
  | global id =>
    obtain ⟨e, hfind, rfl⟩ := Option.map_eq_some_iff.mp hx
    refine (Ty.repr_word rfl).mpr ?_
    rw [constWord, hglobals, hfind]
    exact (BitVec.ofNat_toNat 32 e.2).symm
  | func id =>
    obtain ⟨k, hk, rfl⟩ := Option.map_eq_some_iff.mp hx
    refine (Ty.repr_word rfl).mpr ?_
    rw [constWord, hfuncs, hk]
    rfl
  | cast c ty ih =>
    obtain ⟨⟨hwidth, hcast⟩, hval⟩ := Option.ite_none_right_eq_some.mp hx
    exact (Ty.repr_word hcast).mpr ((ih (Nat.le_of_eq hwidth) hval).eq hwidth)
  | gep base off ih =>
    cases off with
    | none => cases hx
    | some off =>
      obtain ⟨hwidth, hval⟩ := Option.ite_none_right_eq_some.mp hx
      obtain ⟨b, hb, rfl⟩ := Option.map_eq_some_iff.mp hval
      refine (Ty.repr_word rfl).mpr ?_
      rw [constWord, (ih (Nat.le_of_eq hwidth) hb).eq hwidth, BitVec.ofNat_toNat, BitVec.setWidth_eq]
      rfl
  | double | undef | expr | other => cases hx

/-! ## Homes -/

/-- The homes of the values of a function of words. -/
structure Homes (fn : Func) (cg : Cg) : Prop where
  inst : ∀ i ∈ fn.insts, i.ty.kind ≠ .void → ∃ home, cg.home? i.result = some home
  void : ∀ i ∈ fn.insts, i.ty.kind = .void → cg.home? i.result = none
  arg : ∀ k < fn.params.length, ∃ r, cg.home? (.arg k) = some { reg := r } ∧ 8 ≤ r.toNat
  args : ∀ j k r, cg.home? (.arg j) = some { reg := r } → cg.home? (.arg k) = some { reg := r } → j = k
  plain : ∀ l home, cg.home? l = some home → (∃ r, home = { reg := r } ∧ 8 ≤ r.toNat ∧ r.toNat < cg.ssaRegHigh) ∨
    ∃ k, home = { reg := cgRegSpilled, valSlot := some k } ∧ k < cg.valSpillCount
  slots : ∀ l l' home home' k, cg.home? l = some home → cg.home? l' = some home' → home.valSlot = some k → home'.valSlot = some k → l = l'

/-! ## Instructions on words -/

/-- The instructions on words, by what is emitted for them. -/
inductive Ir.Func.Covered (fn : Func) (i : Inst) : Prop where
  | binary (b : IntBinOp) (hop : i.op.intBinOp? = some b) (hkind : i.ty.kind = .integer) (hword : i.ty.isWord = true)
      (hx : fn.typeOf (i.operand 0) = i.ty) (hy : fn.typeOf (i.operand 1) = i.ty) (hshift : b.isShift = true → 5 ≤ i.ty.regWidth)
      (hbit : i.ty = .int 1 → b = .and ∨ b = .or ∨ b = .xor)
  | icmp (p : IntPred) (hop : i.op = .icmp) (hp : i.predicate = some p) (hty : i.ty = .int 1)
      (hword : (fn.typeOf (i.operand 0)).isWord = true) (hy : fn.typeOf (i.operand 1) = fn.typeOf (i.operand 0))
  | extend (hop : i.op = .zext ∨ i.op = .sext) (hints : i.ty.areInts (fn.typeOf (i.operand 0)) = true)
      (hlt : (fn.typeOf (i.operand 0)).regWidth < i.ty.regWidth)
  | trunc (hop : i.op = .trunc) (hints : i.ty.areInts (fn.typeOf (i.operand 0)) = true)
      (hlt : i.ty.regWidth < (fn.typeOf (i.operand 0)).regWidth)
  | load (ops : Opcode × Opcode) (hop : i.op = .load) (hword : i.ty.isWord = true) (hops : memOps i.ty = some ops)
      (hptr : fn.typeOf (i.operand 0) = .pointer)
  | store (ops : Opcode × Opcode) (hop : i.op = .store) (hty : i.ty = .void) (hword : (fn.typeOf (i.operand 0)).isWord = true)
      (hops : memOps (fn.typeOf (i.operand 0)) = some ops) (hptr : fn.typeOf (i.operand 1) = .pointer)
  | fence (hop : i.op = .fence) (hty : i.ty = .void)
  | copy (hop : i.op = .ptrToInt ∨ i.op = .intToPtr ∨ i.op = .bitCast ∨ i.op = .freeze) (hword : i.ty.isWord = true)
      (hsrc : (fn.typeOf (i.operand 0)).isWord = true) (hle : i.ty.regWidth ≤ (fn.typeOf (i.operand 0)).regWidth)
      (hbit : i.ty = .int 1 → fn.typeOf (i.operand 0) = .int 1)
  | select (hop : i.op = .select) (hword : i.ty.isWord = true) (hcond : fn.typeOf (i.operand 0) = .int 1)
      (hx : fn.typeOf (i.operand 1) = i.ty) (hy : fn.typeOf (i.operand 2) = i.ty)
  | gep (hop : i.op = .getElementPtr) (hty : i.ty = .pointer) (hptr : fn.typeOf (i.operand 0) = .pointer)
  | alloca (hop : i.op = .alloca) (hty : i.ty = .pointer)
  | phi (hop : i.op = .phi) (hword : i.ty.isWord = true) (hincoming : ∀ v ∈ i.operands, fn.typeOf v = i.ty)
  | call (hop : i.op = .call) (hty : i.ty = .void ∨ i.ty.isWord = true) (hargs : ∀ v ∈ i.operands.dropLast, (fn.typeOf v).isWord = true)
      (hoverflow : overflowCall? i = none) (hsetjmp : isSetjmp i = false) (hlongjmp : isLongjmp i = false)
      (hcallee : fn.coversCallee (calleeOf i) = true)
  | br (hop : i.op = .br) (hty : i.ty = .void)
      (hsuccs : i.successors.length = 1 ∨ i.successors.length = 2 ∧ fn.typeOf (i.operand 0) = .int 1)
  | ret (hop : i.op = .ret) (hty : i.ty = .void) (hword : ∀ v ∈ i.operands, (fn.typeOf v).isWord = true)
  | unreachable (hop : i.op = .unreachable) (hty : i.ty = .void)

/-- The check of an instruction, as a proposition. -/
theorem covered_of {fn : Func} {i : Inst} (h : fn.covers i = true) : fn.Covered i := by
  unfold Func.covers at h
  split at h
  case h_1 hop =>
    obtain ⟨hty, hp, hword, hy⟩ := of_decide_eq_true h
    obtain ⟨p, hp⟩ := Option.isSome_iff_exists.mp hp
    exact .icmp p hop hp hty hword hy
  case h_2 hop =>
    obtain ⟨hints, hlt⟩ := of_decide_eq_true h
    exact .extend (Or.inl hop) hints hlt
  case h_3 hop =>
    obtain ⟨hints, hlt⟩ := of_decide_eq_true h
    exact .extend (Or.inr hop) hints hlt
  case h_4 hop =>
    obtain ⟨hints, hlt⟩ := of_decide_eq_true h
    exact .trunc hop hints hlt
  case h_5 hop =>
    obtain ⟨hword, hops, hptr⟩ := of_decide_eq_true h
    obtain ⟨ops, hops⟩ := Option.isSome_iff_exists.mp hops
    exact .load ops hop hword hops hptr
  case h_6 hop =>
    obtain ⟨hty, hword, hops, hptr⟩ := of_decide_eq_true h
    obtain ⟨ops, hops⟩ := Option.isSome_iff_exists.mp hops
    exact .store ops hop hty hword hops hptr
  case h_7 hop => exact .fence hop (of_decide_eq_true h)
  case h_8 hop => exact .unreachable hop (of_decide_eq_true h)
  case h_9 hop | h_10 hop | h_11 hop | h_12 hop =>
    obtain ⟨hword, hsrc, hle, hbit⟩ := of_decide_eq_true h
    exact .copy (by simp [hop]) hword hsrc hle hbit
  case h_13 hop =>
    obtain ⟨hword, hcond, hx, hy⟩ := of_decide_eq_true h
    exact .select hop hword hcond hx hy
  case h_14 hop =>
    obtain ⟨hty, hptr⟩ := of_decide_eq_true h
    exact .gep hop hty hptr
  case h_15 hop => exact .alloca hop (of_decide_eq_true h)
  case h_16 hop =>
    obtain ⟨hword, hincoming⟩ := of_decide_eq_true h
    exact .phi hop hword fun v hv => of_decide_eq_true (List.all_eq_true.mp hincoming v hv)
  case h_17 hop =>
    obtain ⟨hty, hargs, hoverflow, hsetjmp, hlongjmp, hcallee⟩ := of_decide_eq_true h
    exact .call hop hty (List.all_eq_true.mp hargs) hoverflow hsetjmp hlongjmp hcallee
  case h_18 hop =>
    obtain ⟨hty, hsuccs⟩ := of_decide_eq_true h
    exact .br hop hty hsuccs
  case h_19 hop =>
    obtain ⟨hty, hword⟩ := of_decide_eq_true h
    exact .ret hop hty (List.all_eq_true.mp hword)
  case h_20 =>
    split at h
    · cases h
    · obtain ⟨hints, hx, hy, hshift, hbit⟩ := of_decide_eq_true h
      obtain ⟨hkind, hword, -, -⟩ := of_decide_eq_true hints
      exact .binary _ ‹_› hkind hword hx hy hshift hbit

section covers

variable {fn : Func} {i : Inst}

/-- An instruction on words gives a word or nothing. -/
theorem covers_ty (h : fn.covers i = true) : i.ty = .void ∨ i.ty.isWord = true := by
  cases covered_of h with
  | icmp p hop hp hty hword hy => exact Or.inr (by rw [hty]; rfl)
  | gep hop hty hptr => exact Or.inr (by rw [hty]; rfl)
  | alloca hop hty => exact Or.inr (by rw [hty]; rfl)
  | extend hop hints hlt => exact Or.inr (of_decide_eq_true hints).2.1
  | trunc hop hints hlt => exact Or.inr (of_decide_eq_true hints).2.1
  | store ops hop hty hword hops hptr => exact Or.inl hty
  | fence hop hty | unreachable hop hty => exact Or.inl hty
  | br hop hty hsuccs => exact Or.inl hty
  | ret hop hty hword => exact Or.inl hty
  | call hop hty hargs hoverflow hsetjmp hlongjmp hcallee => exact hty
  | _ => exact Or.inr ‹_›

/-- Instructions that are covered have none of these opcodes. -/
theorem covers_op (h : fn.covers i = true) :
    i.op ≠ .atomicCmpXchg ∧ i.op ≠ .extractValue ∧ i.op ≠ .landingPad ∧ i.op ≠ .invoke ∧ i.op ≠ .switch ∧ i.op ≠ .resume := by
  refine ⟨?_, ?_, ?_, ?_, ?_, ?_⟩ <;> intro hop <;> simp [Func.covers, hop, Op.intBinOp?] at h

/-- No call that is covered is an overflow intrinsic. -/
theorem covers_overflow (h : fn.covers i = true) : overflowCall? i = none := by
  by_cases hop : i.op = .call
  · cases covered_of h with
    | call hop hty hargs hoverflow hsetjmp hlongjmp hcallee => exact hoverflow
    | _ => simp_all [Op.intBinOp?]
  · exact Func.overflowCall?_eq_none hop

/-- Its result has one word of the frame, or a register. -/
theorem preAllocResult_words {cg : Cg} (hcovers : fn.covers i = true) (hi : fn.inst? (.loc i.result) = some i) :
    cg.preAllocResult fn i = if i.ty.kind = .void then (none, cg) else (some (cg.preAllocDef i.result).1, (cg.preAllocDef i.result).2) := by
  obtain ⟨hcmp, hextract, hpad, -⟩ := covers_op hcovers
  have hcmpxchg : fn.isCmpxchg i = false := by
    by_contra hno
    exact hcmp (Func.isCmpxchg_op (Bool.not_eq_false _ ▸ hno))
  have halias : fn.isAlias i = false := by
    by_contra hno
    exact hextract (Func.isAlias_op (Bool.not_eq_false _ ▸ hno))
  unfold Cg.preAllocResult
  simp only [covers_overflow hcovers, hcmpxchg, halias, Bool.false_eq_true, if_false]
  rcases covers_ty hcovers with hvoid | hword
  · simp [hvoid, Ty.isI65, Ty.isWide, Ty.isWideInt, Ty.isF64, Ty.isVector, Ty.kind]
  · obtain ⟨hwide, hi65, hf64, hvector, hkind⟩ := Ty.not_wide hword
    have heh : fn.isEhValue (.loc i.result) = false := by
      have hpads : i.ty.isEhPad = false := by
        cases hty : i.ty with
        | struct fields =>
          rw [hty] at hword
          cases hword
        | void | int | pointer | float | double | vector | other => rfl
      simp [Func.isEhValue, hi, Inst.isEh, hpad, hpads]
    simp [hwide, hi65, hf64, hvector, Ty.isWide, hkind, heh]

end covers

/-! ## The allocation -/

section steps

variable {fn : Func} {cg cg' : Cg}

/-- The values that a step of the allocation gives homes. -/
def AllocStep.locals : AllocStep → List Local
  | .param k _ => [.arg k]
  | .block => []
  | .inst _ i _ => if i.ty.kind = .void then [] else [i.result]

/-- The step is for a parameter or an instruction on words. -/
def AllocStep.ofWords (fn : Func) : AllocStep → Prop
  | .param _ ty => ty.isWord = true
  | .block => True
  | .inst _ i _ => fn.covers i = true

/-- A home of one word; that of a parameter is a register. -/
def ScalarHome (e : Local × Home) : Prop :=
  e.2 = { reg := e.2.reg, valSlot := e.2.valSlot } ∧ ∀ k, e.1 = .arg k → e.2.valSlot = none

/-- An instruction with a result gets one home, of a scalar. -/
theorem preAllocDef_words (cg : Cg) (i : Inst) :
    ∃ e, (cg.preAllocDef i.result).2.map = cg.map ++ [e] ∧ e.1 = i.result ∧ ScalarHome e := by
  unfold Cg.preAllocDef
  split
  · exact ⟨_, rfl, rfl, rfl, fun _ _ => rfl⟩
  · split
    · exact ⟨_, rfl, rfl, rfl, fun _ _ => rfl⟩
    · exact ⟨_, rfl, rfl, rfl, fun k hk => by cases hk⟩

/-- A step gives its values homes of one word. -/
theorem allocStep_words (hfn : fn.WellFormed) {s : AllocStep} (hs : s.Of fn) (hwords : s.ofWords fn) (hregs : cg.RegsOk)
    (h : cgAllocStep fn s cg = .val () cg') :
    ∃ es, cg'.map = cg.map ++ es ∧ es.map Prod.fst = s.locals ∧ ∀ e ∈ es, ScalarHome e := by
  cases s with
  | param k ty =>
    have hwide : ty.isWide = false := by
      obtain ⟨hint, -, hf64, -⟩ := Ty.not_wide hwords
      simp [Ty.isWide, hint, hf64]
    rw [cgAllocStep, if_neg (by simp [hwide])] at h
    obtain ⟨r, cg₁, hreg, hrest⟩ := Exec.of_bind h
    obtain ⟨-, rfl⟩ := Outcome.val.inj hrest
    obtain ⟨-, hmap, -⟩ := PreAllocAux.cgAllocReg_effect hregs hreg
    refine ⟨[(.arg k, { reg := r })], by rw [← hmap]; rfl, rfl, fun e he => ?_⟩
    obtain rfl := List.mem_singleton.mp he
    exact ⟨rfl, fun _ _ => rfl⟩
  | block =>
    obtain ⟨-, rfl⟩ := Outcome.val.inj h
    exact ⟨[], (List.append_nil _).symm, rfl, fun e he => absurd he List.not_mem_nil⟩
  | inst b i later =>
    obtain ⟨-, rfl⟩ := Outcome.val.inj h
    obtain ⟨hok, -⟩ := PreAllocAux.preAllocResult_effect hfn b later hs hregs
    have hmap : ((i.operands.foldl (Cg.freeOperand fn b later (cg.preAllocResult fn i).1) (cg.preAllocResult fn i).2)).map =
        (cg.preAllocResult fn i).2.map := (PreAllocAux.freeOperands_frame b later _ i.operands hok).1
    rw [hmap, preAllocResult_words hwords (hfn.inst?_eq hs), AllocStep.locals]
    by_cases hvoid : i.ty.kind = .void
    · rw [if_pos hvoid, if_pos hvoid]
      exact ⟨[], (List.append_nil _).symm, rfl, fun e he => absurd he List.not_mem_nil⟩
    · rw [if_neg hvoid, if_neg hvoid]
      obtain ⟨e, he, hlocal, hscalar⟩ := preAllocDef_words cg i
      exact ⟨[e], he, by rw [List.map_singleton, hlocal], fun e' he' => by rwa [List.mem_singleton.mp he']⟩

/-- All steps do. -/
theorem allocSteps_words (hfn : fn.WellFormed) {steps : List AllocStep} (hsteps : ∀ s ∈ steps, s.Of fn ∧ s.ofWords fn) (hregs : cg.RegsOk)
    (h : cgAllocSteps fn steps cg = .val () cg') :
    ∃ es, cg'.map = cg.map ++ es ∧ es.map Prod.fst = steps.flatMap AllocStep.locals ∧ ∀ e ∈ es, ScalarHome e := by
  induction steps generalizing cg with
  | nil =>
    obtain ⟨-, rfl⟩ := Outcome.val.inj h
    exact ⟨[], (List.append_nil _).symm, rfl, fun e he => absurd he List.not_mem_nil⟩
  | cons s steps ih =>
    obtain ⟨cg₁, hstep, hrest⟩ := FrameSlotsAux.cgAllocSteps_cons h
    obtain ⟨hs, hwords⟩ := hsteps s List.mem_cons_self
    obtain ⟨hregs₁, -⟩ := FrameSlotsAux.step_grows hfn hs hregs hstep
    obtain ⟨es, hmap, hlocals, hscalar⟩ := allocStep_words hfn hs hwords hregs hstep
    obtain ⟨es', hmap', hlocals', hscalar'⟩ := ih (fun s' hs' => hsteps s' (List.mem_cons_of_mem s hs')) hregs₁ hrest
    refine ⟨es ++ es', by rw [hmap', hmap, List.append_assoc], by rw [List.map_append, hlocals, hlocals', List.flatMap_cons], fun e he => ?_⟩
    rcases List.mem_append.mp he with he | he
    · exact hscalar e he
    · exact hscalar' e he

/-- The allocation leaves the code, the frame and the module as they are. -/
def AllocatesOnly (cg cg' : Cg) : Prop :=
  ∃ map next pool count, cg' = { cg with map := map, nextReg := next, freeList := pool, valSpillCount := count }

instance : IsPreorder Cg AllocatesOnly where
  refl _ := ⟨_, _, _, _, rfl⟩
  trans := by
    rintro _ _ _ ⟨_, _, _, _, rfl⟩ ⟨_, _, _, _, rfl⟩
    exact ⟨_, _, _, _, rfl⟩

/-- A definition only allocates. -/
theorem allocatesOnly_preAllocDef (l : Local) : AllocatesOnly cg (cg.preAllocDef l).2 := by
  unfold Cg.preAllocDef
  split
  · exact ⟨_, _, _, _, rfl⟩
  · split <;> exact ⟨_, _, _, _, rfl⟩

/-- So does the release of operands. -/
theorem allocatesOnly_freeOperands (b : Ir.Block) (later : List Inst) (dst : Option Home) (vs : List Val) :
    AllocatesOnly cg (vs.foldl (Cg.freeOperand fn b later dst) cg) := by
  induction vs generalizing cg with
  | nil => exact refl cg
  | cons v vs ih =>
    have hone : AllocatesOnly cg (Cg.freeOperand fn b later dst cg v) := by
      unfold Cg.freeOperand
      split
      · split
        · exact refl cg
        · split
          · exact refl cg
          · unfold Cg.freeReg
            split
            · exact refl cg
            · exact ⟨_, _, _, _, rfl⟩
      · exact refl cg
    exact trans_of AllocatesOnly hone ih

/-- So does the whole plan, by induction on its steps. -/
theorem allocatesOnly_steps (hfn : fn.WellFormed) {steps : List AllocStep} (hsteps : ∀ s ∈ steps, s.Of fn ∧ s.ofWords fn)
    (h : cgAllocSteps fn steps cg = .val () cg') : AllocatesOnly cg cg' := by
  induction steps generalizing cg with
  | nil =>
    obtain ⟨-, rfl⟩ := Outcome.val.inj h
    exact refl cg
  | cons s steps ih =>
    obtain ⟨cg₁, hstep, hrest⟩ := FrameSlotsAux.cgAllocSteps_cons h
    refine trans_of AllocatesOnly ?_ (ih (fun s' hs' => hsteps s' (List.mem_cons_of_mem s hs')) hrest)
    obtain ⟨hs, hwords⟩ := hsteps s List.mem_cons_self
    cases s with
    | param k ty =>
      have hreg : Exec.Keeps AllocatesOnly cgAllocReg := by
        unfold cgAllocReg
        refine .bind (.get) fun cg => ?_
        split
        · exact .bind (.modify fun _ => ⟨_, _, _, _, rfl⟩) fun _ => .pure _
        · refine .bind (.stopIf _ _) fun _ => ?_
          exact .bind (.modify fun _ => ⟨_, _, _, _, rfl⟩) fun _ => .pure _
      have hkeeps : Exec.Keeps AllocatesOnly (cgAllocStep fn (.param k ty)) := by
        refine .ite _ (.modify fun cg => ⟨_, cg.nextReg, cg.freeList, _, rfl⟩) ?_
        exact .bind hreg fun _ => .modify fun cg => ⟨_, cg.nextReg, cg.freeList, cg.valSpillCount, rfl⟩
      exact hkeeps _ _ _ hstep
    | block =>
      obtain ⟨-, rfl⟩ := Outcome.val.inj hstep
      exact ⟨_, _, _, _, rfl⟩
    | inst b i later =>
      obtain ⟨-, rfl⟩ := Outcome.val.inj hstep
      refine trans_of AllocatesOnly ?_ (allocatesOnly_freeOperands b later _ _)
      rw [preAllocResult_words hwords (hfn.inst?_eq hs)]
      split
      · exact refl cg
      · exact allocatesOnly_preAllocDef _

end steps

/-! ## After the passes -/

section passes

variable {src : FnSource} {byName : String → Option Nat} {cg₀ cg : Cg} {info : CallInfo}

/-- The steps of a block are for instructions. -/
theorem param_not_instStep {k : Nat} {ty : Ty} (b : Ir.Block) (is : List Inst) : AllocStep.param k ty ∉ instSteps b is := by
  induction is with
  | nil => exact List.not_mem_nil
  | cons i is ih =>
    intro h
    rcases List.mem_cons.mp h with heq | h
    · cases heq
    · exact ih h

/-- Every step of the plan is for a value of one word. -/
theorem steps_ofWords (hsrc : src.OfWords) : ∀ s ∈ src.fn.allocSteps, s.Of src.fn ∧ s.ofWords src.fn := by
  intro s hs
  refine ⟨FrameSlotsAux.allocSteps_of src.fn s hs, ?_⟩
  cases s with
  | block => trivial
  | param k ty =>
    rcases List.mem_append.mp hs with hs | hs
    · obtain ⟨p, hp, heq⟩ := List.mem_map.mp hs
      obtain ⟨rfl, rfl⟩ := AllocStep.param.inj heq
      exact hsrc.params _ (List.mem_of_getElem? (List.mem_zipIdx_iff_getElem?.mp hp))
    · obtain ⟨b, -, hs⟩ := List.mem_flatMap.mp hs
      rcases List.mem_cons.mp hs with heq | hs
      · cases heq
      · exact absurd hs (param_not_instStep b _)
  | inst b i later =>
    exact hsrc.insts i (FrameSlotsAux.allocSteps_of src.fn _ hs)

/-- The passes are the allocation and the layout of the frame. -/
theorem alloc_of_passes (h : cgPasses src.fn byName cg₀ = .val info cg) :
    ∃ cg₂, cgAllocSteps src.fn src.fn.allocSteps cg₀.preAllocStart = .val () cg₂ ∧
      cg = Cg.layoutFrame { cg₂ with freeList := [], ssaRegHigh := cg₂.nextReg } src.fn info := by
  have hpre : ∃ cg₁, cgPreAllocFunction src.fn cg₀ = .val () cg₁ := by
    unfold cgPasses at h
    obtain ⟨u, cg₁, hpre, -⟩ := Exec.of_bind h
    exact ⟨cg₁, hpre⟩
  obtain ⟨cg₁, hpre⟩ := hpre
  obtain ⟨live, -, heq⟩ := CallerSavesAux.cgPasses_eq src.fn byName hpre
  obtain ⟨rfl, rfl⟩ := Outcome.val.inj (heq.symm.trans h)
  obtain ⟨cg₂, hrun, rfl⟩ := FrameSlotsAux.preAlloc_run hpre
  exact ⟨cg₂, hrun, rfl⟩

/-- The slots of a function of words are laid out one behind the other. -/
theorem laid_of_words (hsrc : src.OfWords) (hmap : cg₀.map = []) (hcount : cg₀.valSpillCount = 0) {cg₂ : Cg}
    (hrun : cgAllocSteps src.fn src.fn.allocSteps cg₀.preAllocStart = .val () cg₂) :
    FrameSlotsAux.Laid src.fn cg₂ ∧ cg₂.valSpillCount < 2 ^ 30 := by
  have hfn := hsrc.ssa.toWellFormed
  have hsteps := FrameSlotsAux.allocSteps_of src.fn
  have hcount₀ : cg₀.preAllocStart.valSpillCount = 0 := hcount
  have hlaid₀ := FrameSlotsAux.laid_start src.fn hmap hcount
  refine FrameSlotsAux.laid_of_fit hfn hsteps hlaid₀ (by rw [hcount₀]; decide) (fun before s after cg₁ hsplit hbefore htakes => ?_) hrun
  have hle := FrameSlotsAux.count_of_takes hfn hsteps hlaid₀.regs hrun hsplit hbefore htakes
  have hall := FrameSlotsAux.count_le_words hfn hsteps hlaid₀.regs hrun
  rw [hcount₀] at hall
  have hlt : (src.fn.allocSteps.map (AllocStep.words src.fn)).sum < 65535 := hsrc.slots
  have htop : cg₁.valSpillCount < 65535 := by omega
  exact ⟨htop, by omega⟩

/-- A home that is found is in the map. -/
theorem mem_of_home {l : Local} {home : Home} (h : cg.home? l = some home) : (l, home) ∈ cg.map := by
  obtain ⟨e, hfind, rfl⟩ := Option.map_eq_some_iff.mp h
  obtain rfl : e.1 = l := of_decide_eq_true (List.find?_some (p := fun e : Local × Home => e.1 = l) hfind)
  exact List.mem_of_find?_eq_some hfind

/-- What is in the map has a home. -/
theorem home_of_mem {l : Local} (h : l ∈ cg.map.map Prod.fst) : ∃ home, cg.home? l = some home := by
  obtain ⟨e, he, rfl⟩ := List.mem_map.mp h
  have hsome : (cg.map.find? fun e' => e'.1 = e.1).isSome = true := List.find?_isSome.mpr ⟨e, he, by simp⟩
  obtain ⟨e', he'⟩ := Option.isSome_iff_exists.mp hsome
  exact ⟨e'.2, by rw [Cg.home?, he']; rfl⟩

/-- Every instruction of a block has a step. -/
theorem inst_mem_instSteps {b : Ir.Block} {i : Inst} {is : List Inst} (hi : i ∈ is) : ∃ later, AllocStep.inst b i later ∈ instSteps b is := by
  induction is with
  | nil => exact absurd hi List.not_mem_nil
  | cons j is ih =>
    rcases List.mem_cons.mp hi with rfl | hi
    · exact ⟨is, List.mem_cons_self⟩
    · obtain ⟨later, h⟩ := ih hi
      exact ⟨later, List.mem_cons_of_mem _ h⟩

/-- The values with homes are the parameters and the results that there are. -/
theorem mem_locals {l : Local} : l ∈ src.fn.allocSteps.flatMap AllocStep.locals ↔
    (∃ k < src.fn.params.length, l = .arg k) ∨ ∃ i ∈ src.fn.insts, i.ty.kind ≠ .void ∧ l = i.result := by
  constructor
  · intro h
    obtain ⟨s, hs, hl⟩ := List.mem_flatMap.mp h
    have hof := FrameSlotsAux.allocSteps_of src.fn s hs
    cases s with
    | block => exact absurd hl List.not_mem_nil
    | param k ty =>
      obtain rfl := List.mem_singleton.mp hl
      rcases List.mem_append.mp hs with hs | hs
      · obtain ⟨p, hp, heq⟩ := List.mem_map.mp hs
        obtain ⟨rfl, rfl⟩ := AllocStep.param.inj heq
        exact Or.inl ⟨p.2, (List.getElem?_eq_some_iff.mp (List.mem_zipIdx_iff_getElem?.mp hp)).1, rfl⟩
      · obtain ⟨b, -, hs⟩ := List.mem_flatMap.mp hs
        rcases List.mem_cons.mp hs with heq | hs
        · cases heq
        · exact absurd hs (param_not_instStep b _)
    | inst b i later =>
      rw [AllocStep.locals] at hl
      split at hl
      · exact absurd hl List.not_mem_nil
      · exact Or.inr ⟨i, hof, ‹_›, List.mem_singleton.mp hl⟩
  · rintro (⟨k, hk, rfl⟩ | ⟨i, hi, hkind, rfl⟩)
    · refine List.mem_flatMap.mpr ⟨.param k (src.fn.params[k]), List.mem_append_left _ ?_, List.mem_singleton_self _⟩
      exact List.mem_map.mpr ⟨(src.fn.params[k], k), List.mem_zipIdx_iff_getElem?.mpr (List.getElem?_eq_getElem hk), rfl⟩
    · obtain ⟨b, hb, hib⟩ := List.mem_flatMap.mp hi
      obtain ⟨later, hstep⟩ := inst_mem_instSteps (b := b) hib
      refine List.mem_flatMap.mpr ⟨.inst b i later, List.mem_append_right _ ?_, ?_⟩
      · exact List.mem_flatMap.mpr ⟨b, hb, List.mem_cons_of_mem _ hstep⟩
      · rw [AllocStep.locals, if_neg hkind]
        exact List.mem_singleton_self _

/-- No value of a function of words is a part of another. -/
theorem aliases_of_words (hsrc : src.OfWords) {l : Local} (hl : l ∈ src.fn.allocSteps.flatMap AllocStep.locals) :
    src.fn.aliases l = false ∧ 0 < src.fn.slotWords l := by
  rcases mem_locals.mp hl with ⟨k, -, rfl⟩ | ⟨i, hi, -, rfl⟩
  · exact ⟨rfl, Nat.two_pos⟩
  · have hfn := hsrc.ssa.toWellFormed
    rw [hfn.aliases_eq hi, hfn.slotWords_eq hi]
    refine ⟨?_, hfn.resultWords_pos hi⟩
    by_contra hno
    exact (covers_op (hsrc.insts i hi)).2.1 (Func.isAlias_op (Bool.not_eq_false _ ▸ hno))

/-- The passes give the values of a function of words such homes. -/
theorem homes_of_passes (hsrc : src.OfWords) (hmap : cg₀.map = []) (hcount : cg₀.valSpillCount = 0)
    (h : cgPasses src.fn byName cg₀ = .val info cg) : Homes src.fn cg := by
  obtain ⟨cg₂, hrun, rfl⟩ := alloc_of_passes h
  have hfn := hsrc.ssa.toWellFormed
  obtain ⟨es, hes, hlocals, hscalar⟩ := allocSteps_words hfn (steps_ofWords hsrc) (FrameSlotsAux.laid_start src.fn hmap hcount).regs hrun
  have hmap₀ : cg₀.preAllocStart.map = [] := hmap
  rw [hmap₀, List.nil_append] at hes
  rw [← hes] at hlocals hscalar
  obtain ⟨hlaid, -⟩ := laid_of_words hsrc hmap hcount hrun
  have hcursor : Cursor src.fn (src.fn.allocSteps ++ []) cg₀.preAllocStart := (List.append_nil src.fn.allocSteps).symm ▸ cursor_start src.fn hmap
  obtain ⟨b, t, hregs⟩ := (hcursor.run hsrc.ssa hrun).regs
  have hmem : ∀ {l home}, (l, home) ∈ cg₂.map → src.fn.aliases l = false ∧ 0 < src.fn.slotWords l := fun {l home} he =>
    aliases_of_words hsrc (hlocals ▸ List.mem_map.mpr ⟨(l, home), he, rfl⟩)
  have hstart : ∀ {l home}, (l, home) ∈ cg₂.map → home.start = home.valSlot := by
    intro l home he
    obtain ⟨heq, -⟩ := hscalar _ he
    dsimp only at heq
    rw [heq]
    simp [Home.start]
  have hslot : ∀ {l home k}, (l, home) ∈ cg₂.map → home.valSlot = some k → k ∈ home.wordSlots (src.fn.slotWords l) := by
    intro l home k he hk
    obtain ⟨halias, hpos⟩ := hmem he
    exact (FrameSlotsAux.mem_wordSlots (hlaid.whole _ he halias)).mpr ⟨k, (hstart he).trans hk, Nat.le_refl k, Nat.lt_add_of_pos_right hpos⟩
  have hplain : ∀ {l home}, (l, home) ∈ cg₂.map → (∃ r, home = { reg := r } ∧ 8 ≤ r.toNat ∧ r.toNat < cg₂.nextReg) ∨
      ∃ k, home = { reg := cgRegSpilled, valSlot := some k } ∧ k < cg₂.valSpillCount := by
    intro l home he
    have halias := (hmem he).1
    by_cases hspilled : home.reg = cgRegSpilled
    · have hplaced := hlaid.placed _ he halias hspilled
      dsimp only at hplaced
      rw [hstart he] at hplaced
      obtain ⟨k, hk⟩ := Option.ne_none_iff_exists'.mp hplaced
      have hbelow := hlaid.below _ he halias k (hslot he hk)
      obtain ⟨heq, -⟩ := hscalar _ he
      refine Or.inr ⟨k, ?_, by omega⟩
      dsimp only at heq
      rw [heq, hspilled, hk]
    · exact Or.inl ⟨home.reg, hregs.plain _ he hspilled, hregs.given _ he hspilled⟩
  refine ⟨?_, ?_, ?_, ?_, ?_, ?_⟩
  · intro i hi hkind
    have hl : i.result ∈ cg₂.map.map Prod.fst := hlocals ▸ mem_locals.mpr (Or.inr ⟨i, hi, hkind, rfl⟩)
    exact home_of_mem hl
  · intro i hi hkind
    by_contra hno
    obtain ⟨home, hhome⟩ := Option.ne_none_iff_exists'.mp hno
    have hl : i.result ∈ src.fn.allocSteps.flatMap AllocStep.locals := hlocals ▸ List.mem_map.mpr ⟨_, mem_of_home hhome, rfl⟩
    rcases mem_locals.mp hl with ⟨k, -, hk⟩ | ⟨j, hj, hkind', hij⟩
    · cases hk
    · exact hkind' (hfn.eq_of_result hi hj hij ▸ hkind)
  · intro k hk
    have hl : .arg k ∈ cg₂.map.map Prod.fst := hlocals ▸ mem_locals.mpr (Or.inl ⟨k, hk, rfl⟩)
    obtain ⟨home, hhome⟩ : ∃ home, (Cg.layoutFrame { cg₂ with freeList := [], ssaRegHigh := cg₂.nextReg } src.fn info).home? (.arg k) = some home :=
      home_of_mem hl
    obtain ⟨-, hnone⟩ := hscalar _ (mem_of_home hhome)
    rcases hplain (mem_of_home hhome) with ⟨r, rfl, hr, -⟩ | ⟨j, rfl, -⟩
    · exact ⟨r, hhome, hr⟩
    · cases hnone k rfl
  · intro j k r hj hk
    by_contra hne
    have hdiff : ((.arg j, { reg := r }) : Local × Home) ≠ (.arg k, { reg := r }) := fun heq => hne (by cases heq; rfl)
    have hspilled : r ≠ cgRegSpilled := by
      rcases hplain (mem_of_home hj) with ⟨r', heq, hr, -⟩ | ⟨s, heq, -⟩
      · rintro rfl
        cases heq
        exact absurd hr (by decide)
      · cases heq
    rcases Func.rel_or_rel hregs.apart (mem_of_home hj) (mem_of_home hk) hdiff with hrel | hrel
    · obtain ⟨_, _, _, i, _, _, hw, -⟩ := hrel hspilled rfl
      cases hw
    · obtain ⟨_, _, _, i, _, _, hw, -⟩ := hrel hspilled rfl
      cases hw
  · exact fun l home hhome => hplain (mem_of_home hhome)
  · intro l l' home home' k hl hl' hk hk'
    by_contra hne
    have hdiff : (l, home) ≠ (l', home') := fun heq => hne (congrArg Prod.fst heq)
    have halias := (hmem (mem_of_home hl)).1
    have halias' := (hmem (mem_of_home hl')).1
    have hk₁ := hslot (mem_of_home hl) hk
    have hk₂ := hslot (mem_of_home hl') hk'
    rcases Func.rel_or_rel hlaid.apart (mem_of_home hl) (mem_of_home hl') hdiff with hrel | hrel
    · exact hrel halias halias' hk₁ hk₂
    · exact hrel halias' halias hk₂ hk₁

/-- What the passes leave as it was. -/
structure PlansOnly (cg₀ cg : Cg) : Prop where
  code : cg.code = cg₀.code
  allocaBytes : cg.allocaBytes = cg₀.allocaBytes
  globals : cg.globals = cg₀.globals
  funcs : cg.funcs = cg₀.funcs

/-- The passes leave the code generator ready for the emission. -/
theorem ok_of_passes (hsrc : src.OfWords) (hmap : cg₀.map = []) (hcount : cg₀.valSpillCount = 0)
    (h : cgPasses src.fn byName cg₀ = .val info cg) : cg.Ok ∧ cg.nextReg = cg.ssaRegHigh ∧ PlansOnly cg₀ cg := by
  have hhomes := homes_of_passes hsrc hmap hcount h
  obtain ⟨cg₂, hrun, rfl⟩ := alloc_of_passes h
  have hfn := hsrc.ssa.toWellFormed
  obtain ⟨hlaid, hsize⟩ := laid_of_words hsrc hmap hcount hrun
  obtain ⟨map, next, pool, count, rfl⟩ := allocatesOnly_steps hfn (steps_ofWords hsrc) hrun
  have hhigh : next ≤ 253 := hlaid.regs.high
  have hbytes : count * 4 % 2 ^ 32 = count * 4 := Nat.mod_eq_of_lt (by dsimp only at hsize; omega)
  refine ⟨⟨rfl, rfl, Nat.le_refl _, hhigh, ?_, ?_, ?_, ?_⟩, rfl, ⟨rfl, rfl, rfl, rfl⟩⟩
  · intro l home hhome
    rcases hhomes.plain l home hhome with ⟨r, rfl, -, hr⟩ | ⟨k, rfl, -⟩
    · exact hr
    · exact Nat.lt_of_lt_of_le (show cgRegSpilled.toNat < 8 by decide) hlaid.regs.low
  · intro l home k hhome hk
    rcases hhomes.plain l home hhome with ⟨r, rfl, -⟩ | ⟨k', rfl, hk'⟩
    · cases hk
    · cases hk
      exact hk'
  · intro l home k hhome hk
    rcases hhomes.plain l home hhome with ⟨r, rfl, -⟩ | ⟨k', rfl, -⟩ <;> cases hk
  · simp only [Cg.layoutFrame, Cg.valSpillBytes, hbytes]
    split <;> omega

end passes

/-! ## What is live and what is written -/

section apart

variable {fn : Func} {cg : Cg} {p p' : Point} {m : Move} {l l' : Local}

/-- A value that is live after a move that writes another value has another home. -/
theorem apart_of_live (hhomes : Homes fn cg) (hregs : RegistersSound fn cg) (hreach : fn.graph.Reach p) (hmove : fn.Moves p m p') (hdefs : m.defs l')
    (hlive : fn.graph.Live l p') (hne : l ≠ l') : Apart cg l l' := by
  intro home home' hl hl' heq
  rcases hhomes.plain l home hl with ⟨r, rfl, hr, -⟩ | ⟨k, rfl, -⟩
  · rcases hhomes.plain l' home' hl' with ⟨r', rfl, hr', -⟩ | ⟨k', rfl, -⟩
    · obtain rfl : r = r' := Loc.reg.inj heq
      have hspilled : r ≠ cgRegSpilled := fun h => absurd (h ▸ hr) (by decide)
      refine hne (hregs.noClobber hreach hmove hdefs hlive (k := r) ?_ ?_)
      · rw [Cg.regOf, hl]
        exact if_neg hspilled
      · rw [Cg.regOf, hl']
        exact if_neg hspilled
    · cases heq
  · rcases hhomes.plain l' home' hl' with ⟨r', rfl, hr', -⟩ | ⟨k', rfl, -⟩
    · cases heq
    · obtain rfl : k = k' := Loc.slot.inj heq
      exact hne (hhomes.slots l l' _ _ k hl hl' rfl rfl)

end apart

end CronoVM
