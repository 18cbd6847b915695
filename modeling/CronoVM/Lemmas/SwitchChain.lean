import CronoVM.Lemmas.Positions

/-!
# The chain of compares

The chain form of a `switch` compares the condition with the value of each case in turn and branches to the block of the first that is
equal.
-/

namespace CronoVM

open Checked Ir

variable {κ W : Type}

/-- The first case that has the value `x`. -/
def chainTarget (condW : Nat) (x : Word) (cases : List (Val × Nat)) : Option Nat :=
  (cases.find? fun c => (caseValue condW c.1).any fun zv => BitVec.ofNat 32 zv == x).map Prod.snd

/-- What the dispatch leaves of the code generator: it only adds code and takes registers. -/
structure OnlyAdds (cg cg' : CgFn) : Prop where
  later : Later cg cg'
  pool : cg'.freeList = cg.freeList
  zero : cg'.zeroReg = cg.zeroReg

theorem OnlyAdds.trans {cg cg' cg'' : CgFn} (h : OnlyAdds cg cg') (h' : OnlyAdds cg' cg'') : OnlyAdds cg cg'' :=
  ⟨h.later.trans h'.later, h'.pool.trans h.pool, h'.zero.trans h.zero⟩

/-- In each finished function that goes on from `cg'`, the code added since `cg` goes to the position `next` gives, if the frame is as
`pre` says; only scratch registers change. -/
def Leads (κ W : Type) (cg cg' : CgFn) (lo : Nat) (pre : Frame κ W → Prop) (next : CgFn → Frame κ W → Nat) : Prop :=
  ∀ {final cg₂ : CgFn} {img : Image κ} (host : Host κ W) (a n : Nat) (f : Frame κ W), Later cg' final → InImage final cg₂ img → pre f →
    ∃ f', f.AgreesOff (Scratch lo) f' ∧ GoesVia final img host a n cg.code.length f (next final f) f'

/-- The fixup of the next instruction, and the instruction. -/
def CgFn.queued (cg : CgFn) (target shift bits : Nat) (w : Word) : CgFn :=
  { cg with
    toCg := cg.toCg.emit [w], fixups := cg.fixups ++ [{ instIndex := cg.code.length, target, shift, bits }] }

theorem onlyAdds_queued (cg : CgFn) (target shift bits : Nat) (w : Word) : OnlyAdds cg (cg.queued target shift bits w) := by
  refine ⟨⟨List.prefix_append _ _, ⟨_, rfl, fun fx hfx => ?_⟩, List.prefix_refl _, ⟨[], by rw [List.append_nil]; rfl,
    fun _ h => absurd h List.not_mem_nil⟩⟩, rfl, rfl⟩
  obtain rfl := List.mem_singleton.mp hfx
  simp [CgFn.queued, Cg.emit]

/-- The function with `n` as the next register. -/
def CgFn.withNext (cg : CgFn) (n : Nat) : CgFn := { cg with nextReg := n }

/-- The function with `ws` behind the code and `k` more registers in use. -/
def CgFn.advanced (cg : CgFn) (ws : List Word) (k : Nat) : CgFn := { cg with toCg := cg.toCg.adv ws k }

theorem onlyAdds_withNext (cg : CgFn) (n : Nat) : OnlyAdds cg (cg.withNext n) :=
  ⟨⟨List.prefix_refl _, ⟨[], (List.append_nil _).symm, fun _ h => absurd h List.not_mem_nil⟩, List.prefix_refl _,
    ⟨[], (List.append_nil _).symm, fun _ h => absurd h List.not_mem_nil⟩⟩, rfl, rfl⟩

theorem onlyAdds_advanced (cg : CgFn) (ws : List Word) (k : Nat) : OnlyAdds cg (cg.advanced ws k) :=
  ⟨Later.adv cg ws k, rfl, rfl⟩

/-- A queued branch goes to its block, if it is taken. -/
theorem leads_queued (cg : CgFn) (target shift bits : Nat) (w : Word) (lo : Nat) : Leads κ W cg (cg.queued target shift bits w) lo
    (fun _ => True) (fun final f => if BranchTaken f w then final.offsetOf target else cg.code.length + 1) := by
  intro final cg₂ img host a n f hlater himg _
  refine ⟨f, .refl _ f, ?_⟩
  have hmem : ({ instIndex := cg.code.length, target, shift, bits } : Fixup) ∈ final.fixups := by
    obtain ⟨fs, hfs, _⟩ := hlater.fixups
    rw [hfs]
    exact List.mem_append_left _ (List.mem_append_right _ (List.mem_singleton.mpr rfl))
  have hat : HasAt final.code cg.code.length [w] := hlater.hasAt rfl
  have hw : final.code[cg.code.length]? = some w := hat.getElem? (k := 0) (by simp)
  have hgo : GoesVia final img host a n cg.code.length f (branchNext final f _) f := GoesVia.branch himg hmem
  rwa [branchNext_of (w := w) hw] at hgo

/-! ## One case -/

section cases

variable {condW : Nat} {condReg : Byte} {cg : CgFn}

/-- The words that compare the condition with a case value. -/
def caseWords (condReg : Byte) (floor zv : Nat) : List Word :=
  loadConst32Words (BitVec.ofNat 8 floor) (BitVec.ofNat 32 zv) ++
    [encR .cmpEq (BitVec.ofNat 8 (floor + 1)) condReg (BitVec.ofNat 8 floor)]

/-- They leave 1 in the second register if the condition has the value, else 0. -/
theorem runsReading_caseWords {img : Image κ} (host : Host κ W) (hcode : img.code.length = img.codeCount.toNat) {a n floor zv : Nat}
    (hheld : Held condReg floor) (hfloor : ¬floor + 1 > cgMaxEmitReg) (f : Frame κ W) :
    RunsReading img host a n (caseWords condReg floor zv) f ((f.setReg (BitVec.ofNat 8 floor) (BitVec.ofNat 32 zv)).setReg
      (BitVec.ofNat 8 (floor + 1)) (if f.regs condReg = BitVec.ofNat 32 zv then 1 else 0)) := by
  have hload : RunsReading img host a n _ f _ := runsReading_loadConst32 host hcode (BitVec.ofNat 8 floor) (BitVec.ofNat 32 zv)
  have hcmp : RunsReading img host a n [encR .cmpEq (BitVec.ofNat 8 (floor + 1)) condReg (BitVec.ofNat 8 floor)]
      (f.setReg (BitVec.ofNat 8 floor) (BitVec.ofNat 32 zv)) _ := runsReading_alu host hcode rfl _ _ _
  have hne := hheld.ne_scratch (k := 0) (by omega)
  rw [Nat.add_zero] at hne
  rw [Frame.setReg_same, Frame.setReg_of_ne _ _ hne] at hcmp
  exact hload.append hcode hcmp

/-- The function behind one case of the chain. -/
def afterCase (condReg : Byte) (floor zv : Nat) (cg : CgFn) (target : Nat) : CgFn :=
  ((cg.withNext floor).advanced (caseWords condReg floor zv) 2).queued target 24 8 (encBr .bne (BitVec.ofNat 8 (floor + 1)) cg.zeroReg 0)

/-- How the emission of a chain ends in an error: no register is left, or a case is no constant. -/
inductive ChainFails (condW floor : Nat) (cases : List (Val × Nat)) : CgError → Prop
  | scratchExhausted (hfull : floor + 1 > cgMaxEmitReg) : ChainFails condW floor cases .scratchExhausted
  | caseNotConst (c : Val × Nat) (hc : c ∈ cases) (hvalue : caseValue condW c.1 = none) : ChainFails condW floor cases .caseNotConst

theorem ChainFails.mono {floor : Nat} {cases cases' : List (Val × Nat)} {e : CgError} (h : ChainFails condW floor cases e)
    (hsub : ∀ c ∈ cases, c ∈ cases') : ChainFails condW floor cases' e := by
  cases h with
  | scratchExhausted hfull => exact .scratchExhausted hfull
  | caseNotConst c hc hvalue => exact .caseNotConst c (hsub c hc) hvalue

theorem wp_cgSwitchCase {floor : Nat} {c : Val × Nat} (hpool : cg.freeList = []) :
    Exec.wp (cgSwitchCase condW condReg floor c) (fun _ cg' => ∃ zv, caseValue condW c.1 = some zv ∧ ¬floor + 1 > cgMaxEmitReg ∧
      cg' = afterCase condReg floor zv cg c.2) (fun e _ => ChainFails condW floor [c] e) cg := by
  unfold cgSwitchCase
  rw [Exec.wp_bind, Exec.wp_modify]
  cases hvalue : caseValue condW c.1 with
  | none => exact .caseNotConst c List.mem_cons_self hvalue
  | some zv =>
    have hpool' : ({ cg.toCg with nextReg := floor } : Cg).freeList = [] := hpool
    have hstart : ({ cg.toCg with nextReg := floor } : Cg) = ({ cg.toCg with nextReg := floor } : Cg).adv [] 0 := (Cg.adv_zero _).symm
    dsimp only
    rw [hstart]
    simp only [Exec.wp_bind, wp_lift, wp_cgConstReg_adv hpool', wp_cgAllocReg_adv hpool', wp_cgEmit, cgQueueFixup, Exec.wp_modify,
      Exec.wp_get, Cg.emit_adv]
    refine ⟨fun hfull => .scratchExhausted (Nat.lt_succ_of_lt hfull), fun _ => ⟨fun hfull => .scratchExhausted hfull,
      fun hfloor => ⟨zv, rfl, by simpa using hfloor, ?_⟩⟩⟩
    simp [afterCase, CgFn.queued, CgFn.advanced, CgFn.withNext, caseWords, Cg.adv, Cg.emit]

/-- The code of a case goes to its block, or on. -/
theorem leads_afterCase {floor zv : Nat} {target : Nat} (hheld : Held condReg floor) (hcg : cg.UnderWay) (hzero : cg.zeroReg = cgRegZero)
    (hfloor : ¬floor + 1 > cgMaxEmitReg) : Leads κ W cg (afterCase condReg floor zv cg target) floor (fun f => f.regs cgRegZero = 0)
      (fun final f => if f.regs condReg = BitVec.ofNat 32 zv then final.offsetOf target
        else (afterCase condReg floor zv cg target).code.length) := by
  intro final cg₂ img host a n f hlater himg hf
  have hlater' : Later ((cg.withNext floor).advanced (caseWords condReg floor zv) 2) final :=
    (onlyAdds_queued _ target 24 8 _).later.trans hlater
  have hlen : ((cg.withNext floor).advanced (caseWords condReg floor zv) 2).code.length =
      cg.code.length + (caseWords condReg floor zv).length := List.length_append
  -- The compare.
  have hrun : RunsReading img host a n (caseWords condReg floor zv) f _ := runsReading_caseWords host himg.code hheld hfloor f
  have hnone : ∀ fx ∈ final.fixups, cg.code.length ≤ fx.instIndex →
      fx.instIndex < cg.code.length + (caseWords condReg floor zv).length → False := by
    intro fx hfx hlo hhi
    exact List.not_mem_nil (hlater'.fixup_between hcg (List.append_nil _).symm hfx hlo (by omega))
  have hgo : GoesVia final img host a n cg.code.length f _ _ := GoesVia.straight himg (hlater'.hasAt rfl) hnone hrun
  -- The branch behind it.
  obtain ⟨f', hag, hbr⟩ := leads_queued ((cg.withNext floor).advanced (caseWords condReg floor zv) 2) target
    24 8 (encBr .bne (BitVec.ofNat 8 (floor + 1)) cg.zeroReg 0) floor host a n ((f.setReg (BitVec.ofNat 8 floor) (BitVec.ofNat 32 zv)).setReg
      (BitVec.ofNat 8 (floor + 1)) (if f.regs condReg = BitVec.ofNat 32 zv then 1 else 0)) hlater himg trivial
  have htmp : ¬BitVec.ofNat 8 (floor + 1) = cgRegZero := by
    intro h
    exact not_scratch_of_gt (Or.inl rfl) (h ▸ scratch_nextReg (Nat.le_add_right floor 1) hfloor)
  have hcase : ¬BitVec.ofNat 8 floor = cgRegZero := by
    intro h
    exact not_scratch_of_gt (Or.inl rfl) (h ▸ scratch_nextReg (Nat.le_refl floor) (by omega))
  have hagrees : f.AgreesOff (Scratch floor) ((f.setReg (BitVec.ofNat 8 floor) (BitVec.ofNat 32 zv)).setReg (BitVec.ofNat 8 (floor + 1))
      (if f.regs condReg = BitVec.ofNat 32 zv then 1 else 0)) :=
    (Frame.AgreesOff.setReg _ (scratch_nextReg (Nat.le_refl floor) (by omega))).trans
      (.setReg _ (scratch_nextReg (Nat.le_add_right floor 1) hfloor))
  refine ⟨f', hagrees.trans hag, ?_⟩
  rw [hlen] at hbr
  have hall := hgo.trans hbr
  rw [hzero] at hall
  have htaken : BranchTaken ((f.setReg (BitVec.ofNat 8 floor) (BitVec.ofNat 32 zv)).setReg (BitVec.ofNat 8 (floor + 1))
      (if f.regs condReg = BitVec.ofNat 32 zv then 1 else 0)) (encBr .bne (BitVec.ofNat 8 (floor + 1)) cgRegZero 0) ↔
      f.regs condReg = BitVec.ofNat 32 zv := by
    rw [branchTaken_encBr (Or.inl rfl), CondHolds, if_pos rfl, Frame.setReg_same, Frame.setReg_of_ne _ _ (Ne.symm htmp),
      Frame.setReg_of_ne _ _ (Ne.symm hcase), hf]
    split <;> simp [*]
  have hend : (afterCase condReg floor zv cg target).code.length = cg.code.length + (caseWords condReg floor zv).length + 1 := by
    rw [← hlen]
    exact List.length_append
  rw [hend]
  simpa only [htaken] using hall

theorem onlyAdds_afterCase (floor zv target : Nat) : OnlyAdds cg (afterCase condReg floor zv cg target) :=
  ((onlyAdds_withNext cg floor).trans (onlyAdds_advanced _ _ _)).trans (onlyAdds_queued _ _ _ _ _)

/-! ## All cases -/

/-- The position the chain goes on at: the block of the first case with the value, or behind the chain. -/
def chainNext (condW : Nat) (condReg : Byte) (cases : List (Val × Nat)) (after : Nat) (final : CgFn) (f : Frame κ W) : Nat :=
  match chainTarget condW (f.regs condReg) cases with
  | some bb => final.offsetOf bb
  | none => after

theorem chainTarget_cons {x : Word} {zv : Nat} {c : Val × Nat} {cases : List (Val × Nat)} (hvalue : caseValue condW c.1 = some zv) :
    chainTarget condW x (c :: cases) = if x = BitVec.ofNat 32 zv then some c.2 else chainTarget condW x cases := by
  unfold chainTarget
  rw [List.find?_cons, hvalue, Option.any_some]
  by_cases hx : x = BitVec.ofNat 32 zv
  · rw [if_pos hx, hx, beq_self_eq_true]
    rfl
  · rw [if_neg hx, beq_eq_false_iff_ne.mpr (Ne.symm hx)]

variable (κ W) in
theorem wp_cgSwitchCases {floor : Nat} {cases : List (Val × Nat)} (hheld : Held condReg floor) (hfloor : floor ≤ cgMaxEmitReg + 1)
    (hpool : cg.freeList = []) (hzero : cg.zeroReg = cgRegZero) (hcg : cg.UnderWay) :
    Exec.wp (cgSwitchCases condW condReg floor cases) (fun _ cg' => OnlyAdds cg cg' ∧
      Leads κ W cg cg' floor (fun f => f.regs cgRegZero = 0) (chainNext condW condReg cases cg'.code.length))
      (fun e _ => ChainFails condW floor cases e) cg := by
  induction cases generalizing cg with
  | nil => exact ⟨⟨Later.refl cg, rfl, rfl⟩, fun host a n f _ _ _ => ⟨f, .refl _ f, .refl⟩⟩
  | cons c cases ih =>
    rw [cgSwitchCases, Exec.wp_bind]
    refine Exec.wp_mono ?_ (fun _ _ he => he.mono fun _ hc => List.mem_cons.mpr (Or.inl (List.mem_singleton.mp hc))) (wp_cgSwitchCase hpool)
    rintro _ cg₁ ⟨zv, hvalue, htmp, rfl⟩
    have hadds : OnlyAdds cg (afterCase condReg floor zv cg c.2) := onlyAdds_afterCase floor zv c.2
    have hrest := ih (hadds.pool.trans hpool) (hadds.zero.trans hzero) (hadds.later.underWay hcg)
    refine Exec.wp_mono ?_ (fun _ _ he => he.mono fun _ hc => List.mem_cons_of_mem c hc) hrest
    rintro _ cg' ⟨hadds', hleads'⟩
    refine ⟨hadds.trans hadds', fun {final cg₂ img} host a n f hlater himg hf => ?_⟩
    obtain ⟨f₁, hag₁, hgo₁⟩ := leads_afterCase hheld hcg hzero htmp host a n f (hadds'.later.trans hlater) himg hf
    dsimp only at hgo₁
    have hcond₁ : f₁.regs condReg = f.regs condReg := hag₁.regs _ (hheld.not_scratch hfloor)
    have hf₁ : f₁.regs cgRegZero = 0 := (hag₁.regs _ (not_scratch_of_gt (Or.inl rfl))).trans hf
    by_cases hx : f.regs condReg = BitVec.ofNat 32 zv
    · rw [if_pos hx] at hgo₁
      refine ⟨f₁, hag₁, ?_⟩
      rw [chainNext, chainTarget_cons hvalue, if_pos hx]
      exact hgo₁
    · rw [if_neg hx] at hgo₁
      obtain ⟨f₂, hag₂, hgo₂⟩ := hleads' host a n f₁ hlater himg hf₁
      refine ⟨f₂, hag₁.trans hag₂, hgo₁.trans ?_⟩
      rw [chainNext, hcond₁] at hgo₂
      rwa [chainNext, chainTarget_cons hvalue, if_neg hx]

variable (κ W) in
/-- The chain form goes to the block of the first case with the value of the condition, else to the default block. -/
theorem wp_cgSwitchChain {dflt : Nat} {cases : List (Val × Nat)} (hheld : Held condReg cg.nextReg) (hnext : cg.nextReg ≤ cgMaxEmitReg + 1)
    (hpool : cg.freeList = []) (hzero : cg.zeroReg = cgRegZero) (hcg : cg.UnderWay) :
    Exec.wp (cgSwitchChain condW condReg dflt cases) (fun _ cg' => OnlyAdds cg cg' ∧
      Leads κ W cg cg' cg.nextReg (fun f => f.regs cgRegZero = 0)
        (fun final f => final.offsetOf ((chainTarget condW (f.regs condReg) cases).getD dflt)))
      (fun e _ => ChainFails condW cg.nextReg cases e) cg := by
  simp only [cgSwitchChain, Exec.wp_bind, Exec.wp_get]
  refine Exec.wp_mono ?_ (fun _ _ he => he) (wp_cgSwitchCases κ W hheld hnext hpool hzero hcg)
  rintro _ cg' ⟨hadds, hleads⟩
  have hjump : OnlyAdds cg' ((cg'.withNext cg.nextReg).queued dflt 8 24 (encI24 .jmp 0)) :=
    (onlyAdds_withNext cg' _).trans (onlyAdds_queued _ _ _ _ _)
  refine ⟨hadds.trans hjump, fun {final cg₂ img} host a n f hlater himg hf => ?_⟩
  obtain ⟨f₁, hag₁, hgo₁⟩ := hleads host a n f (hjump.later.trans hlater) himg hf
  cases htarget : chainTarget condW (f.regs condReg) cases with
  | some bb =>
    rw [chainNext, htarget] at hgo₁
    refine ⟨f₁, hag₁, ?_⟩
    dsimp only
    rw [htarget]
    exact hgo₁
  | none =>
    rw [chainNext, htarget] at hgo₁
    obtain ⟨f₂, hag₂, hgo₂⟩ := leads_queued (cg'.withNext cg.nextReg) dflt 8 24 (encI24 .jmp 0) cg.nextReg host a n f₁ hlater himg trivial
    dsimp only at hgo₂
    rw [if_pos branchTaken_jmp] at hgo₂
    refine ⟨f₂, hag₁.trans hag₂, ?_⟩
    dsimp only
    rw [htarget]
    exact GoesVia.trans hgo₁ hgo₂

end cases

end CronoVM
