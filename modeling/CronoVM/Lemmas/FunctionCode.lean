import CronoVM.Lemmas.Homes
import CronoVM.Lemmas.SwitchChain

/-!
# The code of a function

What the emission of a function of words leaves of the code generator: each piece adds code behind the code there is, takes registers, and
queues fixups for branches of its own. From this follow where the code of each block starts, that the branches are in order for the linker,
and that the code of each function stands in the final code of the module.
-/

namespace CronoVM

open Checked Ir NarrowInt

/-! ## Pieces without branches -/

/-- Only code is added and the next register changes, if the pool is empty. -/
def Cg.Emits (cg cg' : Cg) : Prop := cg.freeList = [] → ∃ ws n, cg' = { cg with code := cg.code ++ ws, nextReg := n }

instance : IsPreorder Cg Cg.Emits where
  refl _ _ := ⟨[], _, by rw [List.append_nil]⟩
  trans := by
    intro cg _ _ h h' hpool
    obtain ⟨ws, n, rfl⟩ := h hpool
    obtain ⟨us, k, rfl⟩ := h' hpool
    exact ⟨ws ++ us, k, by rw [List.append_assoc]⟩

/-- The piece does no more than that. -/
abbrev EmitsOnly {ε α : Type} (m : Exec Cg ε α) : Prop := Exec.Keeps Cg.Emits m

section pieces

variable {ε α : Type}

/-- What only grows the code only emits. -/
theorem EmitsOnly.of_grown {m : Exec Cg CgError α} (h : ∀ cg : Cg, cg.freeList = [] → Exec.wp m (fun _ cg' => cg.Grown cg') (fun _ _ => True) cg) :
    EmitsOnly m := by
  intro cg a cg' hrun hpool
  obtain ⟨ws, k, rfl⟩ := Exec.of_wp (h cg hpool) hrun
  exact ⟨ws, cg.nextReg + k, rfl⟩

theorem emitsOnly_next (f : Cg → Nat) : EmitsOnly (Exec.modify fun cg => { cg with nextReg := f cg } : Exec Cg ε Unit) :=
  .modify fun cg _ => ⟨[], f cg, by rw [List.append_nil]⟩

theorem emitsOnly_inst {m : Emit α} (h : EmitsOnly m) : EmitsOnly m.inst := .zoom (fun _ _ h => h) h

theorem emitsOnly_cgEmit (w : Word) : EmitsOnly (cgEmit w) := .modify fun cg _ => ⟨[w], cg.nextReg, rfl⟩

theorem emitsOnly_cgAllocReg : EmitsOnly cgAllocReg := .of_grown fun _ => grown_cgAllocReg

theorem emitsOnly_cgConstReg (imm : Word) : EmitsOnly (cgConstReg imm) := .of_grown fun _ hpool => grown_cgConstReg hpool imm

/-- The register of an operand. -/
theorem emitsOnly_cgRegFor (v : Val) : EmitsOnly (cgRegFor v) := .of_grown fun _ hpool => grown_cgRegFor hpool v

theorem emitsOnly_cgEmitLoadConst32 (r : Byte) (imm : Word) : EmitsOnly (cgEmitLoadConst32 r imm) :=
  .ite _ (emitsOnly_cgEmit _) (.bind (emitsOnly_cgEmit _) fun _ => emitsOnly_cgEmit _)

theorem emitsOnly_cgSpSub (n : Word) : EmitsOnly (cgSpSub n) := .when _ (.bind (emitsOnly_cgEmitLoadConst32 _ n) fun _ => emitsOnly_cgEmit _)

theorem emitsOnly_cgSpAdd (n : Word) : EmitsOnly (cgSpAdd n) := .when _ (.bind (emitsOnly_cgEmitLoadConst32 _ n) fun _ => emitsOnly_cgEmit _)

theorem emitsOnly_cgAddrSpPlus (off : Word) : EmitsOnly (cgAddrSpPlus off) :=
  .bind (emitsOnly_cgEmitLoadConst32 _ off) fun _ => emitsOnly_cgEmit _

theorem emitsOnly_cgStwSpOff (off : Word) (r : Byte) : EmitsOnly (cgStwSpOff off r) :=
  .bind (emitsOnly_cgAddrSpPlus off) fun _ => emitsOnly_cgEmit _

theorem emitsOnly_cgLdwSpOff (r : Byte) (off : Word) : EmitsOnly (cgLdwSpOff r off) :=
  .bind (emitsOnly_cgAddrSpPlus off) fun _ => emitsOnly_cgEmit _

theorem emitsOnly_cgMoveTo (r s : Byte) : EmitsOnly (cgMoveTo r s) := .when _ (emitsOnly_cgEmit _)

/-! ### Scalar instructions -/

theorem emitsOnly_cgNormalise (signed : Bool) (w : Nat) (src : Byte) : EmitsOnly (cgNormalise signed w src) := by
  refine .bind emitsOnly_cgAllocReg fun dst => .ite _ ?_ ?_
  · exact .bind (emitsOnly_cgEmit _) fun _ => .bind (emitsOnly_cgEmit _) fun _ => .bind (emitsOnly_cgEmit _) fun _ => .pure _
  · exact .bind (emitsOnly_cgEmitLoadConst32 _ _) fun _ => .bind (emitsOnly_cgEmit _) fun _ => .pure _

theorem emitsOnly_cgNormaliseIf (c : Prop) [Decidable c] (signed : Bool) (w : Nat) (src : Byte) : EmitsOnly (cgNormaliseIf c signed w src) :=
  .ite _ (emitsOnly_cgNormalise signed w src) (.pure _)

/-- A binary operator. -/
theorem emitsOnly_cgBinary (op : IntBinOp) (i : Inst) (dst : Byte) : EmitsOnly (cgBinary op i dst) := by
  refine .bind (emitsOnly_cgRegFor _) fun _ => .bind (emitsOnly_cgRegFor _) fun _ => ?_
  exact .bind (emitsOnly_cgNormaliseIf _ _ _ _) fun _ => .bind (emitsOnly_cgNormaliseIf _ _ _ _) fun _ => emitsOnly_cgEmit _

theorem emitsOnly_cgIcmpOperand (v : Val) (w : Nat) (signed : Bool) : EmitsOnly (cgIcmpOperand v w signed) :=
  .bind (emitsOnly_cgRegFor v) fun _ => emitsOnly_cgNormaliseIf _ _ _ _

/-- A comparison of two words. -/
theorem emitsOnly_cgIcmpWord (p : IntPred) (w : Nat) (x y : Val) (dst : Byte) : EmitsOnly (cgIcmpWord p w x y dst) :=
  .bind (emitsOnly_cgIcmpOperand _ _ _) fun _ => .bind (emitsOnly_cgIcmpOperand _ _ _) fun _ => .ite _ (emitsOnly_cgEmit _) (emitsOnly_cgEmit _)

theorem emitsOnly_cgMaskInto (w : Nat) (dst src : Byte) : EmitsOnly (cgMaskInto w dst src) :=
  .ite _ (emitsOnly_cgMoveTo dst src) (.bind (emitsOnly_cgEmitLoadConst32 _ _) fun _ => emitsOnly_cgEmit _)

theorem emitsOnly_cgZExt (fn : Func) (i : Inst) (dst : Byte) : EmitsOnly (cgZExt fn i dst) :=
  .bind (emitsOnly_cgRegFor _) fun _ => emitsOnly_cgMaskInto _ _ _

theorem emitsOnly_cgSExt (fn : Func) (i : Inst) (dst : Byte) : EmitsOnly (cgSExt fn i dst) := by
  refine .bind (emitsOnly_cgRegFor _) fun src => .ite _ (emitsOnly_cgMoveTo dst src) ?_
  exact .bind (emitsOnly_cgEmit _) fun _ => .bind (emitsOnly_cgEmit _) fun _ => emitsOnly_cgEmit _

/-- A branch and two moves. -/
theorem emitsOnly_cgSelectMove (dst cond ifTrue ifFalse : Byte) : EmitsOnly (cgSelectMove dst cond ifTrue ifFalse) := by
  refine .bind .get fun _ => .bind (emitsOnly_cgEmit _) fun _ => ?_
  exact .bind (emitsOnly_cgEmit _) fun _ => .bind (emitsOnly_cgEmit _) fun _ => emitsOnly_cgEmit _

/-! ### Addresses -/

theorem emitsOnly_cgGepStep (stride : Nat) (v : Val) (s : GepSum) : EmitsOnly (cgGepStep stride v s) := by
  unfold cgGepStep
  split
  · exact .pure _
  · refine .bind (emitsOnly_cgRegFor _) fun _ => .bind (emitsOnly_cgConstReg _) fun _ => ?_
    refine .bind emitsOnly_cgAllocReg fun _ => .bind (emitsOnly_cgEmit _) fun _ => ?_
    split
    · exact .pure _
    · exact .bind emitsOnly_cgAllocReg fun _ => .bind (emitsOnly_cgEmit _) fun _ => .pure _

/-- The walk over the indices of a `getelementptr`, by induction on them. -/
theorem emitsOnly_cgGepWalk (td : Globals.TargetData) {t : Globals.Ty} (indices : GepIndices t) (s : GepSum) :
    EmitsOnly (cgGepWalk td indices s) := by
  induction indices generalizing s with
  | nil => exact .pure _
  | elem idx rest ih => exact .bind (emitsOnly_cgGepStep _ _ _) fun _ => ih _
  | field fi rest ih => exact ih _
  | stop => exact .stop _

/-- A whole `getelementptr`. -/
theorem emitsOnly_cgGetElementPtr (td : Globals.TargetData) (source : Globals.Ty) (base : Val) (indices : Option (Val × GepIndices source))
    (dst : Byte) : EmitsOnly (cgGetElementPtr td source base indices dst) := by
  have hsum : EmitsOnly (cgGepSum td source indices) := by
    cases indices with
    | none => exact .pure _
    | some e => exact .bind (emitsOnly_cgGepStep _ _ _) fun _ => emitsOnly_cgGepWalk td _ _
  have hconst : ∀ (b : Byte) (off : Int), EmitsOnly (cgGepConst b off) := by
    refine fun b off => .ite _ (.pure _) (.bind (.stopIf _ _) fun _ => .bind (emitsOnly_cgConstReg _) fun _ => ?_)
    exact .bind emitsOnly_cgAllocReg fun _ => .bind (emitsOnly_cgEmit _) fun _ => .pure _
  refine .bind (emitsOnly_cgRegFor _) fun _ => .bind hsum fun s => .bind (hconst _ _) fun cur => ?_
  split
  · exact emitsOnly_cgEmit _
  · exact emitsOnly_cgMoveTo dst cur

/-! ### Calls -/

/-- The saves before a call. -/
theorem emitsOnly_cgEmitSpill (set : List (Byte × Word)) : EmitsOnly (cgEmitSpill set) := by
  induction set with
  | nil => exact .pure _
  | cons e set ih => exact .bind (emitsOnly_cgStwSpOff _ _) fun _ => ih

/-- The loads after a call. -/
theorem emitsOnly_cgEmitRestore (set : List (Byte × Word)) : EmitsOnly (cgEmitRestore set) := by
  induction set with
  | nil => exact .pure _
  | cons e set ih => exact .bind (emitsOnly_cgLdwSpOff _ _) fun _ => ih

theorem emitsOnly_cgPlaceLoaded (wp nRegWords : Nat) {load : Byte → Emit Unit} (hload : ∀ r, EmitsOnly (load r)) :
    EmitsOnly (cgPlaceLoaded wp nRegWords load) :=
  .ite _ (hload _) (.bind emitsOnly_cgAllocReg fun _ => .bind (hload _) fun _ => emitsOnly_cgStwSpOff _ _)

theorem emitsOnly_cgPlaceScalar (av : Val) (wp nRegWords : Nat) (spBias : Word) : EmitsOnly (cgPlaceScalar av wp nRegWords spBias) := by
  refine .bind .get fun cg => ?_
  split
  · exact emitsOnly_cgPlaceLoaded _ _ fun _ => emitsOnly_cgLdwSpOff _ _
  · exact .bind (emitsOnly_cgRegFor av) fun _ => .ite _ (emitsOnly_cgMoveTo _ _) (emitsOnly_cgStwSpOff _ _)

theorem emitsOnly_cgPlaceHalf (av : Val) (half wp nRegWords : Nat) (spBias : Word) : EmitsOnly (cgPlaceHalf av half wp nRegWords spBias) := by
  unfold cgPlaceHalf
  split
  · exact emitsOnly_inst (emitsOnly_cgPlaceLoaded _ _ fun _ => emitsOnly_cgEmitLoadConst32 _ _)
  · refine .bind .get fun cg => ?_
    split
    · exact .stop _
    · exact emitsOnly_inst (emitsOnly_cgPlaceLoaded _ _ fun _ => emitsOnly_cgLdwSpOff _ _)

theorem emitsOnly_cgRecycled {m : EmitInst Unit} (h : EmitsOnly m) : EmitsOnly (cgRecycled m) :=
  .bind .get fun floor => .bind h fun _ => emitsOnly_next fun _ => floor.nextReg

/-- The arguments of a call, by induction on them. -/
theorem emitsOnly_cgPlaceArgs (fn : Func) (nRegWords : Nat) (spBias : Word) (args : List Val) (wp : Nat) :
    EmitsOnly (cgPlaceArgs fn nRegWords spBias args wp) := by
  induction args generalizing wp with
  | nil => exact .pure _
  | cons av args ih =>
    refine .ite _ ?_ ?_
    · refine .bind (emitsOnly_cgRecycled (emitsOnly_cgPlaceHalf _ _ _ _ _)) fun _ => ?_
      exact .bind (emitsOnly_cgRecycled (emitsOnly_cgPlaceHalf _ _ _ _ _)) fun _ => ih _
    · exact .bind (emitsOnly_cgRecycled (emitsOnly_inst (emitsOnly_cgPlaceScalar _ _ _ _))) fun _ => ih _

theorem emitsOnly_cgEmitCallee (calleeIdx : Nat) (spBias : Word) (callee : Callee) : EmitsOnly (cgEmitCallee calleeIdx spBias callee) := by
  cases callee with
  | direct | coroSwap => exact emitsOnly_cgEmit _
  | indirect v =>
    refine .bind (.bind .get fun cg => ?_) fun _ => emitsOnly_cgEmit _
    split
    · exact .bind emitsOnly_cgAllocReg fun _ => .bind (emitsOnly_cgLdwSpOff _ _) fun _ => .pure _
    · exact emitsOnly_cgRegFor v

theorem emitsOnly_cgTakeResult (i : Inst) (dst : Byte) : EmitsOnly (cgTakeResult i dst) :=
  .bind .get fun _ => .ite _ (.bind (emitsOnly_cgStwSpOff _ _) fun _ => emitsOnly_cgStwSpOff _ _) (.when _ (emitsOnly_cgEmit _))

/-- A call of a function, with its arguments, saves and result. -/
theorem emitsOnly_cgEmitUserCall (fn : Func) (info : CallInfo) (isVararg : Bool) (i : Inst) (dst : Byte) :
    EmitsOnly (cgEmitUserCall fn info isVararg i dst) := by
  have hidx : EmitsOnly (cgCalleeIdx i (calleeOf i)) := by
    unfold cgCalleeIdx
    split
    · refine .bind .get fun cg => ?_
      split
      · exact .stop _
      · exact .bind (.stopIf _ _) fun _ => .pure _
    · exact .pure _
  refine .bind hidx fun calleeIdx => .bind (.stopIf _ _) fun _ => .bind .get fun cg => ?_
  refine .bind (emitsOnly_inst (emitsOnly_cgEmitSpill _)) fun _ => .bind (emitsOnly_inst (emitsOnly_cgSpSub _)) fun _ => ?_
  refine .bind (emitsOnly_cgPlaceArgs _ _ _ _ _) fun _ => .bind (emitsOnly_inst (emitsOnly_cgEmitCallee _ _ _)) fun _ => ?_
  refine .bind (emitsOnly_inst (emitsOnly_cgSpAdd _)) fun _ => .bind (emitsOnly_inst (emitsOnly_cgEmitRestore _)) fun _ => ?_
  exact emitsOnly_inst (emitsOnly_cgTakeResult i dst)

/-! ### Phis -/

theorem emitsOnly_pushMove (moves : List PhiMove) (m : PhiMove) : EmitsOnly (pushMove moves m) := .bind (.demand _) fun _ => .pure _

theorem emitsOnly_pushLocMove (moves : List PhiMove) (dst src : Loc) : EmitsOnly (pushLocMove moves dst src) :=
  .ite _ (emitsOnly_pushMove _ _) (.pure _)

theorem emitsOnly_collectWide (moves : List PhiMove) (d : Nat) (sval : Val) : EmitsOnly (collectWide moves d sval) := by
  refine .bind .get fun cg => ?_
  split
  · exact .bind (emitsOnly_pushLocMove _ _ _) fun _ => emitsOnly_pushLocMove _ _ _
  · split
    · exact .bind (emitsOnly_pushMove _ _) fun _ => emitsOnly_pushMove _ _
    · exact .ite _ (.bind (emitsOnly_pushMove _ _) fun _ => emitsOnly_pushMove _ _) (.stop _)

theorem emitsOnly_collectScalar (moves : List PhiMove) (dst : Loc) (sval : Val) : EmitsOnly (collectScalar moves dst sval) := by
  have hsrc : EmitsOnly (cgPhiSrcLoc sval) := by
    refine .bind .get fun cg => ?_
    split
    · exact .pure _
    · exact .bind (emitsOnly_cgRegFor sval) fun _ => .pure _
  refine .bind .get fun cg => .ite _ (.bind hsrc fun _ => emitsOnly_pushLocMove _ _ _) ?_
  exact .ite _ (emitsOnly_pushLocMove _ _ _) (emitsOnly_pushMove _ _)

/-- The moves of an edge are collected. -/
theorem emitsOnly_collectPhis (pred : Nat) (phis : List Inst) (moves : List PhiMove) : EmitsOnly (collectPhis pred phis moves) := by
  induction phis generalizing moves with
  | nil => exact .pure _
  | cons phi phis ih =>
    refine .bind (.ite _ (.pure _) ?_) fun _ => ih _
    split
    · exact .pure _
    · refine .bind .get fun cg => ?_
      split
      · exact .stop _
      · refine .bind (.stopIf _ _) fun _ => ?_
        split
        · exact emitsOnly_collectWide _ _ _
        · exact emitsOnly_collectScalar _ _ _

theorem emitsOnly_cgPhiReadTo (src : Loc) (dst : Byte) : EmitsOnly (cgPhiReadTo src dst) := by
  refine .bind .get fun cg => ?_
  split
  · exact emitsOnly_cgLdwSpOff _ _
  · exact .when _ (emitsOnly_cgEmit _)

theorem emitsOnly_cgPhiWriteFrom (dst : Loc) (src : Byte) : EmitsOnly (cgPhiWriteFrom dst src) := by
  refine .bind .get fun cg => ?_
  split
  · exact emitsOnly_cgStwSpOff _ _
  · exact .when _ (emitsOnly_cgEmit _)

theorem emitsOnly_cgPhiCopyLoc (dst src : Loc) (stage : Byte) : EmitsOnly (cgPhiCopyLoc dst src stage) := by
  refine .when _ ?_
  split
  · exact .bind (emitsOnly_cgPhiReadTo _ _) fun _ => emitsOnly_cgPhiWriteFrom _ _
  · exact emitsOnly_cgPhiReadTo _ _
  · exact emitsOnly_cgPhiWriteFrom _ _
  · exact emitsOnly_cgEmit _

theorem emitsOnly_cgLocIntern (s : PhiSeq) (v : Loc) : EmitsOnly (cgLocIntern s v) := by
  unfold cgLocIntern
  split
  · exact .pure _
  · exact .bind (.demand _) fun _ => .pure _

theorem emitsOnly_cgPhiPush (s : PhiSeq) (x : Nat) : EmitsOnly (cgPhiPush s x) := .ite _ (.bind (.stopIf _ _) fun _ => .pure _) (.pure _)

theorem emitsOnly_emitMove (moves : List PhiMove) (stage : Byte) (s : PhiSeq) (b m : Nat) : EmitsOnly (emitMove moves stage s b m) := by
  unfold emitMove
  dsimp only
  split
  · refine .bind (.bind .get fun cg => ?_) fun _ => .pure _
    exact .bind (emitsOnly_cgRegFor _) fun _ => .bind (emitsOnly_cgPhiWriteFrom _ _) fun _ => emitsOnly_next fun _ => cg.nextReg
  · refine .bind ?_ fun _ => .pure _
    unfold cgPhiEmitWord
    split
    · exact .bind (emitsOnly_cgEmitLoadConst32 _ _) fun _ => emitsOnly_cgPhiWriteFrom _ _
    · exact emitsOnly_cgEmitLoadConst32 _ _
  · refine .bind (emitsOnly_cgLocIntern _ _) fun e => ?_
    split
    · exact .bind (.demand _) fun _ => .pure _
    · exact .bind (emitsOnly_cgPhiCopyLoc _ _ _) fun _ => .ite _ (emitsOnly_cgPhiPush _ _) (.pure _)

/-- The ready moves of an edge, by induction on the fuel. -/
theorem emitsOnly_drain (moves : List PhiMove) (stage : Byte) (fuel : Nat) (s : PhiSeq) : EmitsOnly (drain moves stage fuel s) := by
  have hturn : ∀ s, EmitsOnly (drainTurn moves stage s) := by
    intro s
    unfold drainTurn
    split
    · exact .pure _
    · refine .ite _ (.pure _) ?_
      split
      · exact .pure _
      · exact .bind (emitsOnly_emitMove _ _ _ _ _) fun _ => .pure _
  induction fuel generalizing s with
  | zero => exact .bind (.demand _) fun _ => .pure _
  | succ fuel ih =>
    refine .bind (hturn s) fun r => ?_
    cases r with
    | none => exact .pure _
    | some s => exact ih s

/-- All moves of an edge, with the cycles broken. -/
theorem emitsOnly_sequenceLoop (moves : List PhiMove) (spareIdx : Nat) (stage : Byte) (todo : List Nat) (s : PhiSeq) :
    EmitsOnly (sequenceLoop moves spareIdx stage todo s) := by
  induction todo generalizing s with
  | nil => exact .pure _
  | cons b todo ih =>
    refine .bind (emitsOnly_drain _ _ _ _) fun s => .ite _ (ih _) ?_
    exact .bind (emitsOnly_cgPhiCopyLoc _ _ _) fun _ => .bind (emitsOnly_cgPhiPush _ _) fun _ => ih _

/-- The moves of an edge are code like any other. -/
theorem emitsOnly_cgEmitPhiMoves (pred : Nat) (target : Ir.Block) : EmitsOnly (cgEmitPhiMoves pred target) := by
  have hintern : ∀ (moves : List PhiMove) (s : PhiSeq) (m : Nat), EmitsOnly (internMove moves s m) := by
    refine fun moves s m => .bind (emitsOnly_cgLocIntern _ _) fun e => .bind (.demand _) fun _ => ?_
    split
    · exact .bind (emitsOnly_cgLocIntern _ _) fun _ => .pure _
    · exact .pure _
  have hready : ∀ (moves : List PhiMove) (s : PhiSeq) (m : Nat), EmitsOnly (initReady moves s m) := fun moves s m =>
    .bind (emitsOnly_cgLocIntern _ _) fun e => .ite _ (.bind (.demand _) fun _ => .pure _) (.pure _)
  refine .bind (emitsOnly_collectPhis _ _ _) fun moves => .ite _ (.pure _) (.bind ?_ fun _ => .pure _)
  refine .bind emitsOnly_cgAllocReg fun _ => .bind emitsOnly_cgAllocReg fun _ => .bind (emitsOnly_cgLocIntern _ _) fun _ => ?_
  refine .bind (.forRange (hintern moves) _ _) fun _ => .bind (.forRange (hready moves) _ _) fun s => ?_
  exact .bind (emitsOnly_sequenceLoop _ _ _ _ _) fun _ => .pure _

/-! ### Instructions -/

section covered

variable {fn : Func} {i : Inst}

/-- A call that is covered. -/
theorem emitsOnly_cgCall (hop : i.op = .call) (hcovers : fn.covers i = true) (fi : FnInfo) (dst : Byte) : EmitsOnly (cgCall fn fi i dst) := by
  unfold cgCall
  split
  · exact emitsOnly_cgEmitUserCall _ _ _ _ _
  · refine .ite _ (.stop _) ?_
    cases covered_of hcovers with
    | call hop hty hargs hoverflow hsetjmp hlongjmp hcallee =>
      rw [if_neg (by rw [hsetjmp]; decide), if_neg (by rw [hlongjmp]; decide)]
      exact .ite _ (.stop _) (emitsOnly_cgEmitUserCall _ _ _ _ _)
    | _ => simp_all [Op.intBinOp?]

/-- A store that is covered. -/
theorem emitsOnly_cgStore (hop : i.op = .store) (hcovers : fn.covers i = true) : EmitsOnly (cgStore fn i) := by
  cases covered_of hcovers with
  | store ops hop hty hword hops hptr =>
    obtain ⟨hint, -, hf64, hvector, -⟩ := Ty.not_wide hword
    simp only [cgStore, hvector, Ty.isWide, hint, hf64, hops, Bool.or_self, Bool.false_eq_true, if_false]
    exact emitsOnly_inst (.bind (emitsOnly_cgRegFor _) fun _ => .bind (emitsOnly_cgRegFor _) fun _ => emitsOnly_cgEmit _)
  | _ => simp_all [Op.intBinOp?]

/-- A binary operator is dispatched to its handler. -/
theorem cgCase_binary (fi : FnInfo) (dst : Byte) {b : IntBinOp} (hop : i.op.intBinOp? = some b) :
    cgCase fn fi i dst = Emit.inst (cgBinary b i dst) := by
  have hdef : cgScalarDef fn i dst = cgBinary b i dst := cgScalarDef_binary hop
  rw [← hdef]
  unfold cgCase
  split <;> simp_all [Op.intBinOp?]

/-- The instructions that `cgCase` is for. -/
theorem emitsOnly_cgCase (hcovers : fn.covers i = true) (hop : i.op ≠ .phi ∧ i.op ≠ .br ∧ i.op ≠ .ret ∧ i.op ≠ .unreachable) (fi : FnInfo)
    (dst : Byte) : EmitsOnly (cgCase fn fi i dst) := by
  cases covered_of hcovers with
  | binary b hbin =>
    rw [cgCase_binary fi dst hbin]
    exact emitsOnly_inst (emitsOnly_cgBinary b i dst)
  | icmp p hicmp hp hty hword hy =>
    obtain ⟨hint, hi65, -⟩ := Ty.not_wide hword
    simp only [cgCase, hicmp, cgScalarDef, cgIcmp, hp, hint, hi65, Bool.false_eq_true, if_false]
    exact emitsOnly_inst (emitsOnly_cgIcmpWord _ _ _ _ _)
  | extend hext =>
    rcases hext with hext | hext
    · simp only [cgCase, hext, cgScalarDef]
      exact emitsOnly_inst (emitsOnly_cgZExt fn i dst)
    · simp only [cgCase, hext, cgScalarDef]
      exact emitsOnly_inst (emitsOnly_cgSExt fn i dst)
  | trunc htrunc hints =>
    obtain ⟨hint, -⟩ := Ty.not_wide (of_decide_eq_true hints).2.2.2
    simp only [cgCase, htrunc, cgScalarDef, cgTrunc, hint, Bool.false_eq_true, if_false]
    exact emitsOnly_inst (.bind (emitsOnly_cgRegFor _) fun _ => emitsOnly_cgMaskInto _ _ _)
  | load ops hload hword hops =>
    simp only [cgCase, hload, cgLoad, hops]
    exact .bind (.stopIf _ _) fun _ => emitsOnly_inst (.bind (emitsOnly_cgRegFor _) fun _ => emitsOnly_cgEmit _)
  | store ops hstore =>
    simp only [cgCase, hstore]
    exact emitsOnly_cgStore hstore hcovers
  | fence hfence =>
    simp only [cgCase, hfence]
    exact .pure _
  | copy hcopy =>
    rcases hcopy with h | h | h | h <;>
    · simp only [cgCase, h]
      exact emitsOnly_inst (.ite _ (.stop _) (.bind (emitsOnly_cgRegFor _) fun _ => emitsOnly_cgMoveTo _ _))
  | select hselect =>
    simp only [cgCase, hselect]
    refine emitsOnly_inst (.bind (emitsOnly_cgRegFor _) fun _ => .bind (emitsOnly_cgRegFor _) fun _ => ?_)
    exact .bind (emitsOnly_cgRegFor _) fun _ => emitsOnly_cgSelectMove _ _ _ _
  | gep hgep =>
    simp only [cgCase, hgep]
    refine emitsOnly_inst ?_
    unfold cgGepCase
    split
    · exact .stop _
    · exact emitsOnly_cgGetElementPtr _ _ _ _ _
  | alloca halloca =>
    simp only [cgCase, halloca]
    refine .bind .get fun cg => .ite _ ?_ (.pure _)
    split
    · exact .stop _
    · exact emitsOnly_inst (.bind (emitsOnly_cgEmitLoadConst32 _ _) fun _ => emitsOnly_cgEmit _)
  | call hcall =>
    simp only [cgCase, hcall]
    exact emitsOnly_cgCall hcall hcovers fi dst
  | phi hphi => exact absurd hphi hop.1
  | br hbr => exact absurd hbr hop.2.1
  | ret hret => exact absurd hret hop.2.2.1
  | unreachable hhalt => exact absurd hhalt hop.2.2.2

/-- A handler with the register of its result. -/
theorem emitsOnly_cgWithResult (i : Inst) {handler : Byte → EmitInst Unit} (h : ∀ dst, EmitsOnly (handler dst)) :
    EmitsOnly (cgWithResult i handler) := by
  refine .bind .get fun cg => ?_
  split
  · exact h _
  · split
    · exact h _
    · exact .bind (emitsOnly_inst emitsOnly_cgAllocReg) fun _ => .bind (h _) fun _ => emitsOnly_inst (emitsOnly_cgStwSpOff _ _)

/-- A return of a word. -/
theorem emitsOnly_cgRet (hword : ∀ v ∈ i.operands, (fn.typeOf v).isWord = true) : EmitsOnly (cgRet fn i) := by
  refine .bind ?_ fun _ => .bind .get fun _ => .bind (emitsOnly_cgSpAdd _) fun _ => emitsOnly_cgEmit _
  unfold cgReturnValue
  split
  · exact .pure _
  · rename_i rv rest hoperands
    obtain ⟨hint, -, hf64, -⟩ := Ty.not_wide (hword rv (by rw [hoperands]; exact List.mem_cons_self))
    simp only [Ty.isWide, hint, hf64, Bool.or_self, Bool.false_eq_true, if_false]
    exact .bind (emitsOnly_cgRegFor _) fun _ => emitsOnly_cgMoveTo _ _

end covered

end pieces

/-! ## Pieces with branches -/

/-- The fixups are for the words from `start` on, which are branches to blocks in `targets`, one for each. -/
structure FixupsFor (targets : List Nat) (start : Nat) (ws : List Word) (fs : List Fixup) : Prop where
  distinct : (fs.map Fixup.instIndex).Nodup
  branch : ∀ fx ∈ fs, ∃ k w, fx.instIndex = start + k ∧ ws[k]? = some w ∧ BranchWord fx w ∧ fx.target ∈ targets

namespace FixupsFor

variable {targets : List Nat} {start : Nat} {ws us : List Word} {fs gs : List Fixup}

theorem none (targets : List Nat) (start : Nat) (ws : List Word) : FixupsFor targets start ws [] :=
  ⟨List.nodup_nil, fun _ h => absurd h List.not_mem_nil⟩

/-- Fixups of code after other code. -/
theorem append (h : FixupsFor targets start ws fs) (h' : FixupsFor targets (start + ws.length) us gs) :
    FixupsFor targets start (ws ++ us) (fs ++ gs) := by
  constructor
  · rw [List.map_append, List.nodup_append]
    refine ⟨h.distinct, h'.distinct, fun p hp q hq heq => ?_⟩
    obtain ⟨fx, hfx, rfl⟩ := List.mem_map.mp hp
    obtain ⟨fx', hfx', rfl⟩ := List.mem_map.mp hq
    obtain ⟨k, w, hk, hw, -⟩ := h.branch fx hfx
    obtain ⟨k', w', hk', hw', -⟩ := h'.branch fx' hfx'
    obtain ⟨hlt, -⟩ := List.getElem?_eq_some_iff.mp hw
    omega
  · intro fx hfx
    rcases List.mem_append.mp hfx with hfx | hfx
    · obtain ⟨k, w, hk, hw, hbranch⟩ := h.branch fx hfx
      obtain ⟨hlt, -⟩ := List.getElem?_eq_some_iff.mp hw
      exact ⟨k, w, hk, by rw [List.getElem?_append_left hlt, hw], hbranch⟩
    · obtain ⟨k, w, hk, hw, hbranch⟩ := h'.branch fx hfx
      exact ⟨ws.length + k, w, by omega, by rw [List.getElem?_append_right (Nat.le_add_right _ _), Nat.add_sub_cancel_left, hw], hbranch⟩

end FixupsFor

/-- Code with its fixups is added and the next register changes, if the pool is empty. -/
def CgFn.Emits (targets : List Nat) (cg cg' : CgFn) : Prop :=
  cg.freeList = [] → ∃ ws n fs, cg' = { cg with code := cg.code ++ ws, nextReg := n, fixups := cg.fixups ++ fs } ∧
    FixupsFor targets cg.code.length ws fs

instance (targets : List Nat) : IsPreorder CgFn (CgFn.Emits targets) where
  refl cg _ := ⟨[], cg.nextReg, [], by rw [List.append_nil, List.append_nil], .none _ _ _⟩
  trans := by
    intro cg _ _ h h' hpool
    obtain ⟨ws, n, fs, rfl, hfs⟩ := h hpool
    obtain ⟨us, k, gs, rfl, hgs⟩ := h' hpool
    refine ⟨ws ++ us, k, fs ++ gs, by simp only [List.append_assoc], hfs.append ?_⟩
    rw [← List.length_append]
    exact hgs

/-- The piece does no more than that. -/
abbrev QueuesOnly {ε α : Type} (targets : List Nat) (m : Exec CgFn ε α) : Prop := Exec.Keeps (CgFn.Emits targets) m

section branches

variable {ε α : Type} {targets : List Nat}

/-- An emission of an instruction is one of the function. -/
theorem CgFn.Emits.of_part (cg : CgFn) {c : Cg} (h : cg.toCg.Emits c) : cg.Emits targets { cg with toCg := c } := by
  intro hpool
  obtain ⟨ws, n, rfl⟩ := h hpool
  exact ⟨ws, n, [], by rw [List.append_nil], .none _ _ _⟩

/-- Code without jumps queues nothing. -/
theorem queuesOnly_lift {m : Emit α} (h : EmitsOnly m) : QueuesOnly targets (Emit.lift m) := by
  intro cg a cg' hrun
  obtain ⟨c, hc, rfl⟩ := of_lift hrun
  exact .of_part cg (h _ _ _ hc)

theorem queuesOnly_inst {m : EmitInst α} (h : EmitsOnly m) : QueuesOnly targets m.func := .zoom (fun cg _ h => .of_part cg h) h

theorem queuesOnly_func {m : EmitFn α} (h : QueuesOnly targets m) : QueuesOnly targets m.func := .zoom (fun _ _ h => h) h

/-- A branch with its fixup. -/
theorem queuesOnly_queued {m : EmitFn Unit} {target shift bits : Nat} {w : Cg → Word}
    (hrun : ∀ cg, m cg = .val () (cg.queued target shift bits (w cg.toCg))) (hmem : target ∈ targets)
    (hbranch : ∀ cg, BranchWord { instIndex := cg.code.length, target, shift, bits } (w cg)) : QueuesOnly targets m := by
  intro cg a cg' h _
  rw [hrun] at h
  obtain ⟨-, rfl⟩ := Outcome.val.inj h
  refine ⟨[w cg.toCg], cg.nextReg, [{ instIndex := cg.code.length, target, shift, bits }], rfl, List.nodup_singleton _, fun fx hfx => ?_⟩
  obtain rfl := List.mem_singleton.mp hfx
  exact ⟨0, w cg.toCg, rfl, rfl, hbranch cg.toCg, hmem⟩

/-- A jump queues one fixup. -/
theorem queuesOnly_cgJump {target : Nat} (hmem : target ∈ targets) : QueuesOnly targets (cgJump target) :=
  queuesOnly_queued (w := fun _ => encI24 .jmp 0) (fun _ => rfl) hmem fun _ => .jump rfl rfl

/-- So does a branch. -/
theorem queuesOnly_cgBranchTo {op : Opcode} (hop : op = .bne ∨ op = .beq) (condReg : Byte) {target : Nat} (hmem : target ∈ targets) :
    QueuesOnly targets (cgBranchTo op condReg target) :=
  queuesOnly_queued (w := fun cg => encBr op condReg cg.zeroReg 0) (fun _ => rfl) hmem fun _ => .cond op _ _ hop rfl rfl

/-- An edge is its moves and a jump. -/
theorem queuesOnly_cgEdge (fn : Func) {succ : Nat} (hmem : succ ∈ targets) : QueuesOnly targets (cgEdge fn succ) :=
  .bind .get fun _ => .bind (queuesOnly_lift (emitsOnly_cgEmitPhiMoves _ _)) fun _ => queuesOnly_cgJump hmem

/-- The false section is the edge, with a branch and a jump around it in front. -/
theorem falseSection_run {fn : Func} {condReg : Byte} {falseBb : Nat} {cg cg' : CgFn} (h : cgFalseSection fn condReg falseBb cg = .val () cg') :
    ∃ cg₂ skip, cgEdge fn falseBb { cg with toCg := cg.toCg.emit [encBr .beq condReg cg.zeroReg 1, encI24 .jmp 0] } = .val () cg₂ ∧
      skip ≤ 0x7FFFFF ∧ skip = cg₂.code.length - (cg.code.length + 2) ∧
        cg' = { cg₂ with code := cg₂.code.set (cg.code.length + 1) (encI24 .jmp (BitVec.ofNat 32 skip)) } := by
  have hlen : (cg.code ++ [encBr .beq condReg cg.zeroReg 1]).length = cg.code.length + 1 := List.length_append
  have hstart : cgFalseSection fn condReg falseBb cg =
      ((cgEdge fn falseBb).func >>= fun _ => Exec.get >>= fun cg₂ =>
        Exec.stopIf (cg₂.code.length - ((cg.code ++ [encBr .beq condReg cg.zeroReg 1]).length + 1) > 0x7FFFFF) .phiSkip >>= fun _ =>
          Exec.modify fun c => { c with
            code := c.code.set (cg.code ++ [encBr .beq condReg cg.zeroReg 1]).length
              (encI24 .jmp (BitVec.ofNat 32 (cg₂.code.length - ((cg.code ++ [encBr .beq condReg cg.zeroReg 1]).length + 1)))) })
        { cg with toCg := (cg.toCg.emit [encBr .beq condReg cg.zeroReg 1]).emit [encI24 .jmp 0] } := rfl
  rw [hstart, hlen, Cg.emit_emit] at h
  obtain ⟨_, cg₂, hedge, h⟩ := Exec.of_bind h
  obtain ⟨cg₃, hedge, heq⟩ := Exec.of_zoom hedge
  obtain rfl : cg₂ = cg₃ := heq
  rw [Exec.run_bind, Exec.run_get] at h
  dsimp only at h
  by_cases hlong : cg₂.code.length - (cg.code.length + 1 + 1) > 0x7FFFFF
  · rw [Exec.run_bind, Exec.run_stopIf_of _ hlong] at h
    cases h
  · rw [Exec.run_bind, Exec.run_stopIf_of_not _ hlong] at h
    obtain ⟨-, rfl⟩ := Outcome.val.inj h
    exact ⟨cg₂, _, hedge, Nat.le_of_not_gt hlong, rfl, rfl⟩

theorem queuesOnly_cgFalseSection (fn : Func) (condReg : Byte) {falseBb : Nat} (hmem : falseBb ∈ targets) :
    QueuesOnly targets (cgFalseSection fn condReg falseBb) := by
  intro cg a cg' hrun hpool
  obtain ⟨cg₂, skip, hedge, -, -, rfl⟩ := falseSection_run hrun
  obtain ⟨ws, n, fs, rfl, hfs⟩ := queuesOnly_cgEdge fn hmem _ _ _ hedge hpool
  refine ⟨encBr .beq condReg cg.zeroReg 1 :: encI24 .jmp (BitVec.ofNat 32 skip) :: ws, n, fs, ?_, ?_⟩
  · simp [Cg.emit]
  · have hstart : (cg.toCg.emit [encBr .beq condReg cg.zeroReg 1, encI24 .jmp 0]).code.length = cg.code.length + 2 := List.length_append
    rw [hstart] at hfs
    exact (FixupsFor.none targets cg.code.length [encBr .beq condReg cg.zeroReg 1, encI24 .jmp (BitVec.ofNat 32 skip)]).append hfs

/-- A conditional branch is two edges. -/
theorem queuesOnly_cgBrCond (fn : Func) (condReg : Byte) {trueBb falseBb : Nat} (htrue : trueBb ∈ targets) (hfalse : falseBb ∈ targets) :
    QueuesOnly targets (cgBrCond fn condReg trueBb falseBb) := by
  refine .ite _ ?_ (.ite _ ?_ ?_)
  · exact .bind (queuesOnly_cgFalseSection fn condReg hfalse) fun _ => queuesOnly_func (queuesOnly_cgEdge fn htrue)
  · exact .bind (queuesOnly_func (queuesOnly_cgBranchTo (Or.inr rfl) _ hfalse)) fun _ => queuesOnly_func (queuesOnly_cgEdge fn htrue)
  · exact .bind (queuesOnly_func (queuesOnly_cgBranchTo (Or.inl rfl) _ htrue)) fun _ => queuesOnly_func (queuesOnly_cgEdge fn hfalse)

/-- A branch of the IR queues fixups for its successors. -/
theorem queuesOnly_cgBr (fn : Func) {i : Inst} (hsuccs : ∀ s ∈ i.successors, s ∈ targets) : QueuesOnly targets (cgBr fn i) := by
  unfold cgBr
  split
  · rename_i target heq
    exact queuesOnly_func (queuesOnly_cgEdge fn (hsuccs target (by simp [heq])))
  · rename_i trueBb falseBb heq
    have htrue : trueBb ∈ targets := hsuccs trueBb (by simp [heq])
    have hfalse : falseBb ∈ targets := hsuccs falseBb (by simp [heq])
    exact .bind (queuesOnly_func (queuesOnly_lift (emitsOnly_cgRegFor _))) fun condReg => queuesOnly_cgBrCond fn condReg htrue hfalse
  · exact .stop _

/-! ### The turns -/

section turns

variable {fn : Func} {i : Inst} {fi : FnInfo}

/-- The registers that the emission of an instruction takes are free again behind it. -/
def cgReady : EmitFunc Unit := Exec.modify fun cg => { cg with nextReg := cg.ssaRegHigh }

/-- The turn of an instruction on words. -/
theorem cgTurn_eq (hcovers : fn.covers i = true) : cgTurn fn fi i = (do
    cgReady
    match i.op with
    | .phi => pure ()
    | .br => cgBr fn i
    | .ret => (Emit.lift (cgRet fn i)).func
    | .unreachable => (Emit.lift (cgEmit (encR .halt 0 0 0))).func
    | _ => (cgWithResult i (cgCase fn fi i)).func) := by
  have hnarrow : i.ty.isWideInt = false ∧ i.ty.isI65 = false ∧ i.ty.isF64 = false ∧ i.ty.isVector = false := by
    rcases covers_ty hcovers with hvoid | hword
    · rw [hvoid]
      exact ⟨rfl, rfl, rfl, rfl⟩
    · obtain ⟨hint, hi65, hf64, hvector, -⟩ := Ty.not_wide hword
      exact ⟨hint, hi65, hf64, hvector⟩
  obtain ⟨hint, hi65, hf64, hvector⟩ := hnarrow
  have hswitch := (covers_op hcovers).2.2.2.2.1
  simp only [cgTurn, cgReady, hint, hi65, hf64, hvector, Bool.or_self, Bool.false_eq_true, and_false, if_false]
  cases hop : i.op with
  | switch => exact absurd hop hswitch
  | _ => rfl

/-- An instruction that is covered and does not end its block is one case of the dispatch. -/
theorem cgTurn_case (hcovers : fn.covers i = true) (hop : i.op ≠ .phi ∧ i.op ≠ .br ∧ i.op ≠ .ret ∧ i.op ≠ .unreachable) :
    cgTurn fn fi i = cgReady >>= fun _ => (cgWithResult i (cgCase fn fi i)).func := by
  rw [cgTurn_eq hcovers]
  split
  · exact absurd ‹_› hop.1
  · exact absurd ‹_› hop.2.1
  · exact absurd ‹_› hop.2.2.1
  · exact absurd ‹_› hop.2.2.2
  · rfl

/-- One turn of the loop over the instructions. -/
theorem queuesOnly_cgTurn (hcovers : fn.covers i = true) (hsuccs : i.op = .br → ∀ s ∈ i.successors, s ∈ targets) :
    QueuesOnly targets (cgTurn fn fi i) := by
  rw [cgTurn_eq hcovers]
  have hready : QueuesOnly targets cgReady := by
    refine .modify fun cg _ => ⟨[], cg.ssaRegHigh, [], ?_, .none _ _ _⟩
    rw [List.append_nil, List.append_nil]
  refine .bind hready fun _ => ?_
  split
  · exact .pure _
  · exact queuesOnly_cgBr fn (hsuccs ‹_›)
  · cases covered_of hcovers with
    | ret hop hty hword => exact queuesOnly_func (queuesOnly_lift (emitsOnly_cgRet hword))
    | _ => simp_all [Op.intBinOp?]
  · exact queuesOnly_func (queuesOnly_lift (emitsOnly_cgEmit _))
  · exact queuesOnly_inst (emitsOnly_cgWithResult i fun dst => emitsOnly_cgCase hcovers ⟨‹_›, ‹_›, ‹_›, ‹_›⟩ fi dst)

/-- The turns of a block, by induction on them. -/
theorem queuesOnly_cgTurns {is : List Inst} (hcovers : ∀ i ∈ is, fn.covers i = true)
    (hsuccs : ∀ i ∈ is, i.op = .br → ∀ s ∈ i.successors, s ∈ targets) : QueuesOnly targets (cgTurns fn fi is) := by
  induction is with
  | nil => exact .pure _
  | cons i is ih =>
    refine .bind (queuesOnly_cgTurn (hcovers i List.mem_cons_self) (hsuccs i List.mem_cons_self)) fun _ => ?_
    exact ih (fun j hj => hcovers j (List.mem_cons_of_mem i hj)) fun j hj => hsuccs j (List.mem_cons_of_mem i hj)

end turns

end branches

/-! ## Blocks -/

/-- Later in the same function, if the pool is empty: code with its fixups, blocks, and the next register. -/
def CgFn.Advances (targets : List Nat) (cg cg' : CgFn) : Prop :=
  cg.freeList = [] → ∃ ws n fs offs cur, cg' = { cg with
      code := cg.code ++ ws, nextReg := n, fixups := cg.fixups ++ fs, blockOffsets := cg.blockOffsets ++ offs, curBlock := cur } ∧
    FixupsFor targets cg.code.length ws fs ∧ ∀ off ∈ offs, off ≤ cg.code.length + ws.length

instance (targets : List Nat) : IsPreorder CgFn (CgFn.Advances targets) where
  refl cg _ := ⟨[], cg.nextReg, [], [], cg.curBlock, by simp only [List.append_nil], .none _ _ _, fun _ h => absurd h List.not_mem_nil⟩
  trans := by
    intro cg _ _ h h' hpool
    obtain ⟨ws, n, fs, offs, cur, rfl, hfs, hoffs⟩ := h hpool
    obtain ⟨us, k, gs, offs', cur', rfl, hgs, hoffs'⟩ := h' hpool
    refine ⟨ws ++ us, k, fs ++ gs, offs ++ offs', cur', by simp only [List.append_assoc], hfs.append ?_, fun off hoff => ?_⟩
    · rw [← List.length_append]
      exact hgs
    · rw [List.length_append]
      rcases List.mem_append.mp hoff with hoff | hoff
      · have hle := hoffs off hoff
        omega
      · have hle := hoffs' off hoff
        rw [List.length_append] at hle
        omega

section advances

variable {targets : List Nat} {cg cg' : CgFn}

theorem CgFn.Emits.advances (h : cg.Emits targets cg') : cg.Advances targets cg' := by
  intro hpool
  obtain ⟨ws, n, fs, rfl, hfs⟩ := h hpool
  exact ⟨ws, n, fs, [], cg.curBlock, by rw [List.append_nil], hfs, fun _ h => absurd h List.not_mem_nil⟩

namespace CgFn.Advances

variable (h : cg.Advances targets cg') (hpool : cg.freeList = [])
include h hpool

theorem pool : cg'.freeList = [] := by
  obtain ⟨ws, n, fs, offs, cur, rfl, -⟩ := h hpool
  exact hpool

theorem later : Later cg cg' := by
  obtain ⟨ws, n, fs, offs, cur, rfl, hfs, -⟩ := h hpool
  refine ⟨List.prefix_append _ _, ⟨fs, rfl, fun fx hfx => ?_⟩, List.prefix_refl _, [], (List.append_nil _).symm,
    fun _ h => absurd h List.not_mem_nil⟩
  obtain ⟨k, w, hk, hw, -⟩ := hfs.branch fx hfx
  obtain ⟨hlt, -⟩ := List.getElem?_eq_some_iff.mp hw
  dsimp only
  rw [List.length_append]
  omega

/-- The frame of the function stays. -/
theorem toCg_eq : ∃ code n, cg'.toCg = { cg.toCg with code := code, nextReg := n } := by
  obtain ⟨ws, n, fs, offs, cur, rfl, -⟩ := h hpool
  exact ⟨_, _, rfl⟩

end CgFn.Advances

end advances

section blocks

variable {fn : Func} {fi : FnInfo} {targets : List Nat} {bs : List Ir.Block} {cg cg' : CgFn}

/-- The function at the start of a block. -/
def CgFn.startBlock (cg : CgFn) (b : Ir.Block) : CgFn := { cg with blockOffsets := cg.blockOffsets ++ [cg.code.length], curBlock := b.id }

/-- The start of a block. -/
theorem advances_startBlock (cg : CgFn) (b : Ir.Block) : cg.Advances targets (cg.startBlock b) := by
  refine fun _ => ⟨[], cg.nextReg, [], [cg.code.length], b.id, ?_, .none _ _ _, fun off hoff => ?_⟩
  · simp only [List.append_nil]
    rfl
  · obtain rfl := List.mem_singleton.mp hoff
    exact Nat.le_refl _

/-- The blocks follow each other, each with its instructions in turn. -/
theorem blocks_run (hcovers : ∀ b ∈ bs, ∀ i ∈ b.insts, fn.covers i = true)
    (hsuccs : ∀ b ∈ bs, ∀ i ∈ b.insts, i.op = .br → ∀ s ∈ i.successors, s ∈ targets) (hpool : cg.freeList = [])
    (h : cgBlocks fn fi bs cg = .val () cg') : cg.Advances targets cg' ∧
      ∃ offs, cg'.blockOffsets = cg.blockOffsets ++ offs ∧ offs.length = bs.length ∧ ∀ (k : Nat) (b : Ir.Block), bs[k]? = some b → ∃ cgS cgT : CgFn,
        offs[k]? = some cgS.code.length ∧ cgS.curBlock = b.id ∧ cg.Advances targets cgS ∧ cgTurns fn fi b.insts cgS = .val () cgT ∧
          cgT.Advances targets cg' := by
  induction bs generalizing cg with
  | nil =>
    obtain ⟨-, rfl⟩ := Outcome.val.inj h
    exact ⟨refl cg, [], (List.append_nil _).symm, rfl, fun k b hb => by simp at hb⟩
  | cons b bs ih =>
    obtain ⟨_, cgT, hturns, hrest⟩ := Exec.of_bind (m := cgTurns fn fi b.insts) (s := cg.startBlock b) h
    have hstart : cg.Advances targets (cg.startBlock b) := advances_startBlock cg b
    have hemits : (cg.startBlock b).Emits targets cgT :=
      queuesOnly_cgTurns (hcovers b List.mem_cons_self) (hsuccs b List.mem_cons_self) _ _ _ hturns
    have hadv : cg.Advances targets cgT := trans_of (CgFn.Advances targets) hstart hemits.advances
    have hoffs : cgT.blockOffsets = cg.blockOffsets ++ [cg.code.length] := by
      obtain ⟨ws, n, fs, rfl, -⟩ := hemits hpool
      rfl
    obtain ⟨hlater, offs, heq, hlen, hblocks⟩ := ih (fun b' hb' => hcovers b' (List.mem_cons_of_mem b hb'))
      (fun b' hb' => hsuccs b' (List.mem_cons_of_mem b hb')) (hadv.pool hpool) hrest
    refine ⟨trans_of (CgFn.Advances targets) hadv hlater, cg.code.length :: offs, ?_, by rw [List.length_cons, hlen, List.length_cons], ?_⟩
    · rw [heq, hoffs, List.append_assoc, List.singleton_append]
    · intro k b' hk
      cases k with
      | zero =>
        obtain rfl := Option.some.inj hk
        exact ⟨cg.startBlock b, cgT, rfl, rfl, hstart, hturns, hlater⟩
      | succ k =>
        obtain ⟨cgS, cgT', hoff, hcur, hbefore, hturns', hafter⟩ := hblocks k b' hk
        exact ⟨cgS, cgT', hoff, hcur, trans_of (CgFn.Advances targets) hadv hbefore, hturns', hafter⟩

end blocks

/-! ## The prologue -/

section prologue

/-- The parameters are moved to their homes. -/
theorem emitsOnly_cgParams (vararg : Bool) (left p word : Nat) : EmitsOnly (cgParams vararg left p word) := by
  have hword : ∀ (dst : Byte) (word : Nat), EmitsOnly (cgParamWord vararg dst word) := fun dst word =>
    .bind .get fun cg => .ite _ (emitsOnly_cgMoveTo _ _) (emitsOnly_cgLdwSpOff _ _)
  have hhalf : ∀ (off : Word) (word : Nat), EmitsOnly (cgParamHalf vararg off word) := by
    refine fun off word => .bind .get fun cg => .ite _ (emitsOnly_cgStwSpOff _ _) (.bind (emitsOnly_next Cg.ssaRegHigh) fun _ => ?_)
    exact .bind emitsOnly_cgAllocReg fun _ => .bind (emitsOnly_cgLdwSpOff _ _) fun _ => emitsOnly_cgStwSpOff _ _
  have hparam : ∀ p word, EmitsOnly (cgParam vararg p word) := by
    refine fun p word => .bind .get fun cg => ?_
    split
    · exact .bind (.demand _) fun _ => .pure _
    · split
      · exact .bind (hword _ _) fun _ => .pure _
      · exact .bind (hhalf _ _) fun _ => .bind (hhalf _ _) fun _ => .pure _
  induction left generalizing p word with
  | zero => exact .pure _
  | succ left ih => exact .bind (hparam p word) fun _ => ih _ _

/-- The addresses of the allocas. -/
theorem emitsOnly_cgAllocaPtrs (allocas : List (Local × Word)) : EmitsOnly (cgAllocaPtrs allocas) := by
  induction allocas with
  | nil => exact .pure _
  | cons e allocas ih =>
    refine .bind .get fun cg => ?_
    split
    · exact .stop _
    · refine .bind (emitsOnly_inst (emitsOnly_cgEmitLoadConst32 _ _)) fun _ => ?_
      exact .bind (emitsOnly_inst (.when _ (emitsOnly_cgEmit _))) fun _ => ih

/-- The prologue is code without jumps. -/
theorem emitsOnly_cgFnPrologue (fn : Func) (ctorIdx : List Nat) (allocas : List (Local × Word)) : EmitsOnly (cgFnPrologue fn ctorIdx allocas) := by
  have hctors : EmitsOnly (cgCtorCalls ctorIdx) := by
    induction ctorIdx with
    | nil => exact .pure _
    | cons c cs ih => exact .bind (emitsOnly_cgEmit _) fun _ => ih
  refine .bind .get fun cg => .bind (emitsOnly_inst (emitsOnly_cgSpSub _)) fun _ => .bind (emitsOnly_next Cg.ssaRegHigh) fun _ => ?_
  refine .bind (emitsOnly_inst (emitsOnly_cgParams _ _ _ _)) fun _ => .bind (emitsOnly_inst (emitsOnly_cgEmit _)) fun _ => ?_
  exact .bind (emitsOnly_inst hctors) fun _ => emitsOnly_cgAllocaPtrs allocas

end prologue

/-! ## The end of a function -/

section finish

variable {cg cg₁ cg₂ : CgFn}

/-- Patches keep the length of the code. -/
theorem length_foldl_modify {α : Type} (pos : α → Nat) (g : α → Word → Word) (l : List α) (code : List Word) :
    (l.foldl (fun code x => code.modify (pos x) (g x)) code).length = code.length := by
  induction l generalizing code with
  | nil => rfl
  | cons x l ih => rw [List.foldl_cons, ih, List.length_modify]

/-- So does the resolution of the fixups. -/
theorem length_resolveFixups {fs : List Fixup} {code code' : List Word} (h : fs.foldlM (resolveFixup cg) code = .ok code') :
    code'.length = code.length := by
  induction fs generalizing code with
  | nil =>
    obtain rfl := Except.ok.inj h
    rfl
  | cons fx fs ih =>
    rw [List.foldlM_cons] at h
    cases hstep : resolveFixup cg code fx with
    | error e =>
      rw [hstep] at h
      cases h
    | ok code₁ =>
      rw [hstep] at h
      rw [ih h]
      unfold resolveFixup at hstep
      split at hstep
      · cases hstep
      · dsimp only at hstep
        split at hstep
        · cases hstep
        · obtain rfl := Except.ok.inj hstep
          exact List.length_modify _ _ _

/-- The end of a function leaves its frame and the module as they are, and the code is no shorter. -/
theorem finish_frame (h : cgFinish cg = .ok cg₂) : cg.code.length ≤ cg₂.code.length ∧
    ∃ code fixups offs data, cg₂ = { cg with code := code, fixups := fixups, blockOffsets := offs, dataBytes := data } := by
  unfold cgFinish at h
  cases hrelax : cgRelaxBranches cg with
  | error e =>
    rw [hrelax] at h
    cases h
  | ok cg₁ =>
    have hcg₁ : cg.code.length ≤ cg₁.code.length ∧ ∃ code fixups offs, cg₁ = { cg with code := code, fixups := fixups, blockOffsets := offs } := by
      have hrewrite : ∀ relaxed : Nat → Bool, cg.code.length ≤ (rewriteRelaxed cg relaxed).code.length := by
        intro relaxed
        obtain ⟨hlen, -⟩ := rebuild_foldl cg.code (extraAt cg relaxed) (Nat.le_refl _)
        dsimp only [rewriteRelaxed]
        rw [length_foldl_modify, rebuild, hlen]
        exact Nat.le_add_right _ _
      unfold cgRelaxBranches at hrelax
      dsimp only at hrelax
      split at hrelax
      · obtain rfl := Except.ok.inj hrelax
        exact ⟨Nat.le_refl _, _, _, _, rfl⟩
      · split at hrelax
        · cases hrelax
        · split at hrelax
          · obtain rfl := Except.ok.inj hrelax
            exact ⟨Nat.le_refl _, _, _, _, rfl⟩
          · obtain rfl := Except.ok.inj hrelax
            exact ⟨hrewrite _, _, _, _, rfl⟩
    obtain ⟨hle, code₁, fixups, offs, rfl⟩ := hcg₁
    rw [hrelax] at h
    simp only [cgResolveFixups, cgResolveTableFixups, bind, Except.bind, pure, Except.pure] at h
    split at h
    · cases h
    · rename_i hresolve
      split at hresolve
      · cases hresolve
      · rename_i hfold
        obtain rfl := Except.ok.inj hresolve
        split at h
        · cases h
        · obtain rfl := Except.ok.inj h
          refine ⟨?_, _, _, _, _, rfl⟩
          dsimp only
          rw [length_resolveFixups hfold]
          exact hle

end finish

/-! ## Functions -/

/-- A terminator is the last instruction of its block. -/
theorem Ir.Block.getLast_of_closed {b : Ir.Block} (hclosed : b.closed = true) {i : Inst} (hi : i ∈ b.insts) (hop : i.op.isTerminator = true) :
    b.insts.getLast? = some i := by
  obtain ⟨-, hrest⟩ := (Bool.and_eq_true _ _).mp hclosed
  have hne : b.insts ≠ [] := List.ne_nil_of_mem hi
  rw [← List.dropLast_concat_getLast hne] at hi
  rcases List.mem_append.mp hi with hi | hi
  · have hno := List.all_eq_true.mp hrest i hi
    rw [hop] at hno
    cases hno
  · rw [List.getLast?_eq_some_getLast hne, List.mem_singleton.mp hi]

/-- The stages of the emission of a function: its frame and its passes, the code in front of its blocks, all code, and that code linked. -/
structure FnStages (mi : ModInfo) (src : FnSource) (cg₀ cg₂ : CgFn) where
  frame : List (Local × Word) × Word
  calls : CallInfo
  plan : Cg
  opened : Cg
  whole : CgFn
  collected : cgCollectAllocas src.fn = .ok frame
  passes : cgPasses src.fn mi.funcByName { (cg₀.resetFor src.fn).toCg with allocaBytes := frame.2.toNat } = .val calls plan
  prologue : cgFnPrologue src.fn [] frame.1 plan = .val () opened
  blocks : cgBlocks src.fn { td := mi.td, gep := src.gep, varargCall := src.varargCall, calls, allocas := frame.1 } src.fn.blocks
    { cg₀.resetFor src.fn with toCg := opened } = .val () whole
  finish : cgFinish whole = .ok cg₂

/-- A function that is translated has gone through its stages. -/
theorem stages_of_run {mi : ModInfo} {src : FnSource} {cg₀ cg₂ : CgFn} (h : cgFunction mi src [] cg₀ = .val () cg₂) :
    Nonempty (FnStages mi src cg₀ cg₂) := by
  unfold cgFunction at h
  rw [Exec.run_bind, Exec.run_modify] at h
  dsimp only at h
  cases hcollected : cgCollectAllocas src.fn with
  | error e =>
    rw [hcollected] at h
    cases h
  | ok frame =>
    obtain ⟨allocas, allocaBytes⟩ := frame
    rw [hcollected] at h
    obtain ⟨_, whole, hemit, h⟩ := Exec.of_bind (m := cgEmitFunction mi src [] allocas) h
    rw [Exec.run_bind, Exec.run_get] at h
    dsimp only at h
    cases hfinish : cgFinish whole with
    | error e =>
      rw [hfinish] at h
      cases h
    | ok done =>
      rw [hfinish] at h
      obtain ⟨-, rfl⟩ := Outcome.val.inj h
      obtain ⟨calls, _, hpasses, hemit⟩ := Exec.of_bind hemit
      obtain ⟨_, hlift, heq⟩ := Exec.of_zoom hpasses
      obtain ⟨plan, hplan, heq'⟩ := of_lift hlift
      obtain ⟨_, _, hprologue, hblocks⟩ := Exec.of_bind hemit
      obtain ⟨opened, hopened, heq''⟩ := Exec.of_zoom hprologue
      subst heq heq' heq''
      exact ⟨⟨(allocas, allocaBytes), calls, plan, opened, whole, hcollected, hplan, hopened, hblocks, hfinish⟩⟩

namespace FnStages

variable {mi : ModInfo} {src : FnSource} {cg₀ cg₂ : CgFn} (st : FnStages mi src cg₀ cg₂)

/-- The function in front of its blocks. -/
def front : CgFn := { cg₀.resetFor src.fn with toCg := st.opened }

/-- What the instructions are emitted with. -/
def info : FnInfo := { td := mi.td, gep := src.gep, varargCall := src.varargCall, calls := st.calls, allocas := st.frame.1 }

/-- The ids of the blocks. -/
def targets (_ : FnStages mi src cg₀ cg₂) : List Nat := src.fn.blocks.map Ir.Block.id

variable (hsrc : src.OfWords)
include hsrc

/-- The plan gives every value its home. -/
theorem homes : Homes src.fn st.plan := homes_of_passes hsrc rfl rfl st.passes

/-- The plan is sound, and allocates only. -/
theorem plan_ok : st.plan.Ok ∧ st.plan.nextReg = st.plan.ssaRegHigh ∧
    PlansOnly { (cg₀.resetFor src.fn).toCg with allocaBytes := st.frame.2.toNat } st.plan := ok_of_passes hsrc rfl rfl st.passes

/-- The prologue is behind the code of the functions before. -/
theorem opened_eq : ∃ ws n, st.opened = { st.plan with code := cg₀.code ++ ws, nextReg := n } := by
  obtain ⟨hok, -, hplans⟩ := st.plan_ok hsrc
  obtain ⟨ws, n, heq⟩ := emitsOnly_cgFnPrologue src.fn [] st.frame.1 _ _ _ st.prologue hok.pool
  have hcode : st.plan.code = cg₀.code := hplans.code
  exact ⟨ws, n, by rw [heq, hcode]⟩

/-- No register is in the pool after the prologue. -/
theorem front_pool : st.front.freeList = [] := by
  obtain ⟨ws, n, heq⟩ := st.opened_eq hsrc
  show st.opened.freeList = []
  rw [heq]
  exact (st.plan_ok hsrc).1.pool

/-- The blocks, one after the other. -/
theorem whole_run : st.front.Advances st.targets st.whole ∧ ∃ offs, st.whole.blockOffsets = offs ∧ offs.length = src.fn.blocks.length ∧
    ∀ (k : Nat) (b : Ir.Block), src.fn.blocks[k]? = some b → ∃ cgS cgT : CgFn,
      offs[k]? = some cgS.code.length ∧ cgS.curBlock = b.id ∧ st.front.Advances st.targets cgS ∧
        cgTurns src.fn st.info b.insts cgS = .val () cgT ∧ cgT.Advances st.targets st.whole := by
  have hinsts : ∀ b ∈ src.fn.blocks, ∀ i ∈ b.insts, i ∈ src.fn.insts := fun b hb i hi => List.mem_flatMap.mpr ⟨b, hb, hi⟩
  have hrun : cgBlocks src.fn st.info src.fn.blocks st.front = .val () st.whole := st.blocks
  refine blocks_run (fun b hb i hi => hsrc.insts i (hinsts b hb i hi)) ?_ (st.front_pool hsrc) hrun
  intro b hb i hi hop s hs
  have hlast := Block.getLast_of_closed (hsrc.closed b hb) hi (by rw [hop]; rfl)
  exact hsrc.succs b hb s (by rw [Ir.Block.successors, hlast]; exact hs)

/-- The blocks change the code and the next register only. -/
theorem whole_toCg : ∃ code n, st.whole.toCg = { st.plan with code := code, nextReg := n } := by
  obtain ⟨code, n, heq⟩ := (st.whole_run hsrc).1.toCg_eq (st.front_pool hsrc)
  obtain ⟨ws, k, hopened⟩ := st.opened_eq hsrc
  have hfront : st.front.toCg = st.opened := rfl
  exact ⟨code, n, by rw [heq, hfront, hopened]⟩

/-- The branches of the function are for the code behind that of the functions before. -/
theorem whole_fixups : ∃ ws : List Word, st.whole.code = st.front.code ++ ws ∧
    FixupsFor st.targets st.front.code.length ws st.whole.fixups ∧ st.whole.blocks = st.targets := by
  obtain ⟨ws, n, fs, offs, cur, heq, hfs, -⟩ := (st.whole_run hsrc).1 (st.front_pool hsrc)
  refine ⟨ws, by rw [heq], ?_, by rw [heq]; rfl⟩
  have hnil : st.front.fixups = [] := rfl
  rw [heq]
  dsimp only
  rw [hnil, List.nil_append]
  exact hfs

/-- Every fixup is after the prologue. -/
theorem front_le {fx : Fixup} (hfx : fx ∈ st.whole.fixups) : st.front.code.length ≤ fx.instIndex := by
  obtain ⟨ws, -, hfs, -⟩ := st.whole_fixups hsrc
  obtain ⟨k, w, hk, -⟩ := hfs.branch fx hfx
  omega

/-- The code before the function stays. -/
theorem code_le_front : cg₀.code <+: st.front.code := by
  obtain ⟨ws, n, heq⟩ := st.opened_eq hsrc
  have hfront : st.front.toCg = st.opened := rfl
  rw [hfront, heq]
  exact List.prefix_append _ _

/-- The blocks, by their ids. -/
theorem block_at {b : Ir.Block} (hb : b ∈ src.fn.blocks) : ∃ cgS cgT : CgFn, st.whole.offsetOf b.id = cgS.code.length ∧ cgS.curBlock = b.id ∧
    st.front.Advances st.targets cgS ∧ cgTurns src.fn st.info b.insts cgS = .val () cgT ∧ cgT.Advances st.targets st.whole := by
  obtain ⟨-, offs, hoffs, -, hblocks⟩ := st.whole_run hsrc
  obtain ⟨-, -, -, hids⟩ := st.whole_fixups hsrc
  obtain ⟨k, hk⟩ := List.mem_iff_getElem?.mp hb
  obtain ⟨cgS, cgT, hoff, hrest⟩ := hblocks k b hk
  refine ⟨cgS, cgT, ?_, hrest⟩
  have hid : (src.fn.blocks.map Ir.Block.id)[k]? = some b.id := by rw [List.getElem?_map, hk]; rfl
  obtain ⟨hlt, hget⟩ := List.getElem?_eq_some_iff.mp hid
  have hidx : (src.fn.blocks.map Ir.Block.id).idxOf? b.id = some k := by
    rw [← hget, List.idxOf?_eq_some_iff]
    exact ⟨hlt, rfl, fun j hj heq => absurd ((hsrc.ssa.blockIds.getElem_inj_iff).mp heq) (Nat.ne_of_lt hj)⟩
  rw [CgFn.offsetOf, CgFn.cgFindBlock, hids, targets, hidx, hoffs, Option.getD_some, List.getD_eq_getElem?_getD, hoff]
  rfl

/-- The branches are in order for the linker. -/
theorem wf (hlt : st.whole.code.length < 2 ^ 31) : st.whole.BranchesWf := by
  obtain ⟨ws, hcode, hfs, hids⟩ := st.whole_fixups hsrc
  obtain ⟨hadv, offs, hoffs, hlen, -⟩ := st.whole_run hsrc
  have hword : ∀ fx ∈ st.whole.fixups, ∃ k w, fx.instIndex = st.front.code.length + k ∧ ws[k]? = some w ∧ BranchWord fx w := by
    intro fx hfx
    obtain ⟨k, w, hk, hw, hbranch, -⟩ := hfs.branch fx hfx
    exact ⟨k, w, hk, hw, hbranch⟩
  refine ⟨hlt, hfs.distinct, fun fx hfx => ?_, fun fx hfx => ?_, ?_, fun off hoff => ?_, fun fx hfx => ?_⟩
  · obtain ⟨k, w, hk, hw, -⟩ := hword fx hfx
    obtain ⟨hlt, -⟩ := List.getElem?_eq_some_iff.mp hw
    rw [hcode, List.length_append]
    omega
  · obtain ⟨_, _, _, _, _, hmem⟩ := hfs.branch fx hfx
    rw [hids]
    exact hmem
  · rw [hoffs, hlen, hids, targets, List.length_map]
  · obtain ⟨us, n, fs, offs', cur, heq, -, hle⟩ := hadv (st.front_pool hsrc)
    have hnil : st.front.blockOffsets = [] := rfl
    have hmem : off ∈ offs' := by
      rw [heq] at hoff
      dsimp only at hoff
      rwa [hnil, List.nil_append] at hoff
    rw [heq]
    dsimp only
    rw [List.length_append]
    exact hle off hmem
  · obtain ⟨k, w, hk, hw, hbranch⟩ := hword fx hfx
    refine ⟨w, ?_, hbranch⟩
    rw [hcode, hk, List.getElem?_append_right (Nat.le_add_right _ _), Nat.add_sub_cancel_left, hw]

/-- The code in front of the blocks stays where it is. -/
theorem place_front (hlt : st.whole.code.length < 2 ^ 31) {p : Nat} (hp : p ≤ st.front.code.length) : finalPlace st.whole p = p := by
  obtain ⟨hlinked, -⟩ := cgFinish_ok (st.wf hsrc hlt) st.finish
  have hnone : ∀ q, 0 ≤ q → q < p → widened st.whole (relaxedOf st.whole) q = false := by
    intro q _ hq
    rw [Bool.eq_false_iff]
    intro hw
    obtain ⟨fx, hfx, hpos, -⟩ := hlinked.widened q hw
    have hle := st.front_le hsrc hfx
    omega
  have hplace := placeOf_eq_add (Nat.zero_le p) hnone
  rw [finalPlace, hplace]
  simp [placeOf]

/-- The code of the functions before stays. -/
theorem code_prefix (hlt : st.whole.code.length < 2 ^ 31) : cg₀.code <+: cg₂.code := by
  obtain ⟨hlinked, -⟩ := cgFinish_ok (st.wf hsrc hlt) st.finish
  obtain ⟨ws, hcode, -⟩ := st.whole_fixups hsrc
  have hbefore := st.code_le_front hsrc
  have hle := hbefore.length_le
  rw [List.prefix_iff_eq_take]
  apply List.ext_getElem?
  intro p
  by_cases hp : p < cg₀.code.length
  · have hplain := hlinked.plain p (by rw [hcode, List.length_append]; omega) fun fx hfx heq => by
      have hfront := st.front_le hsrc hfx
      omega
    have hplace : placeOf (widened st.whole (relaxedOf st.whole)) p = p := st.place_front hsrc hlt (by omega)
    obtain ⟨us, hus⟩ := hbefore
    rw [hplace, hcode, List.getElem?_append_left (by omega), ← hus, List.getElem?_append_left hp] at hplain
    rw [List.getElem?_take_of_lt hp, hplain]
  · rw [List.getElem?_eq_none (Nat.le_of_not_lt hp), List.getElem?_eq_none (by rw [List.length_take]; omega)]

/-- What is left of the function for those behind it. -/
theorem done_frame : st.whole.code.length ≤ cg₂.code.length ∧ cg₂.frameBytes = st.plan.frameBytes ∧ cg₂.globals = cg₀.globals ∧
    cg₂.funcs = cg₀.funcs := by
  obtain ⟨hle, code, fixups, offs, data, heq⟩ := finish_frame st.finish
  obtain ⟨code', n, hwhole⟩ := st.whole_toCg hsrc
  obtain ⟨-, -, hplans⟩ := st.plan_ok hsrc
  refine ⟨hle, ?_, ?_, ?_⟩
  · have hframe : st.whole.frameBytes = st.plan.frameBytes := by rw [hwhole]
    exact (congrArg (fun cg : CgFn => cg.frameBytes) heq).trans hframe
  · have hglobals : st.whole.globals = st.plan.globals := by rw [hwhole]
    exact (congrArg (fun cg : CgFn => cg.globals) heq).trans (hglobals.trans hplans.globals)
  · have hfuncs : st.whole.funcs = st.plan.funcs := by rw [hwhole]
    exact (congrArg (fun cg : CgFn => cg.funcs) heq).trans (hfuncs.trans hplans.funcs)

end FnStages

/-! ## Modules -/

section modules

variable {mi : ModInfo} {srcs : List FnSource} {cg cg' : CgFn} {entries : List FuncEntry} {k : Nat}

/-- Each function of a module has its stages, and its code is at the front of the code of the module. -/
theorem functions_run (hsrcs : ∀ src ∈ srcs, src.OfWords) (h : cgFunctions mi (fun _ => []) srcs k cg = .val entries cg')
    (hlt : cg'.code.length < 2 ^ 31) : entries.length = srcs.length ∧ cg.code <+: cg'.code ∧ ∀ (j : Nat) (src : FnSource), srcs[j]? = some src → ∃ cg₀ cg₂ : CgFn,
      Nonempty (FnStages mi src cg₀ cg₂) ∧ entries[j]? = some ⟨cg₀.code.length, cg₂.frameBytes⟩ ∧
        cg₀.globals = cg.globals ∧ cg₀.funcs = cg.funcs ∧ cg₂.code <+: cg'.code := by
  induction srcs generalizing cg k entries with
  | nil =>
    obtain ⟨rfl, rfl⟩ := Outcome.val.inj h
    exact ⟨rfl, List.prefix_refl _, fun j src hj => by simp at hj⟩
  | cons src srcs ih =>
    unfold cgFunctions at h
    rw [Exec.run_bind, Exec.run_get] at h
    obtain ⟨_, cg₁, hfn, h⟩ := Exec.of_bind h
    rw [Exec.run_bind, Exec.run_get] at h
    obtain ⟨rest, cg₂, hrest, h⟩ := Exec.of_bind h
    obtain ⟨rfl, rfl⟩ := Outcome.val.inj h
    obtain ⟨st⟩ := stages_of_run hfn
    have hsrc := hsrcs src List.mem_cons_self
    obtain ⟨hlen, hprefix, hall⟩ := ih (fun src' h' => hsrcs src' (List.mem_cons_of_mem src h')) hrest
    obtain ⟨hle, -, hglobals, hfuncs⟩ := st.done_frame hsrc
    have hle' := hprefix.length_le
    have hbefore := st.code_prefix hsrc (by omega)
    refine ⟨by rw [List.length_cons, hlen, List.length_cons], hbefore.trans hprefix, fun j src' hj => ?_⟩
    cases j with
    | zero =>
      obtain rfl := Option.some.inj hj
      exact ⟨cg, cg₁, ⟨st⟩, rfl, rfl, rfl, hprefix⟩
    | succ j =>
      obtain ⟨cg₀, cg₂', hst, hentry, hglobals', hfuncs', hcode⟩ := hall j src' hj
      exact ⟨cg₀, cg₂', hst, hentry, hglobals'.trans hglobals, hfuncs'.trans hfuncs, hcode⟩

end modules

end CronoVM
