import CronoVM.Lemmas.FunctionCode
import CronoVM.Lemmas.SwitchEdges
import CronoVM.Lemmas.WordValues
import CronoVM.Theorems.PhiMoves

/-!
# Steps within a function

A function of words in the image of its module. Between two instructions what is live has its values in its homes, and the heap shows what is
known of the memory; an instruction that gives a value, and a branch, lead from one such point to the next.
-/

namespace CronoVM

open Checked Ir NarrowInt

variable {κ W : Type}

/-- The phis of a block, and what comes after them. -/
theorem Ir.Func.Ssa.insts_eq {fn : Func} (hfn : fn.Ssa) {b : Ir.Block} (hb : b ∈ fn.blocks) : b.insts = b.phis ++ b.body := by
  have hall : ∀ insts : List Inst, insts.Pairwise (fun i j => i.op ≠ .phi → j.op ≠ .phi) →
      insts = (insts.takeWhile fun i => i.op = .phi) ++ insts.filter fun i => i.op ≠ .phi := by
    intro insts hfirst
    induction insts with
    | nil => rfl
    | cons i insts ih =>
      obtain ⟨hi, hfirst⟩ := List.pairwise_cons.mp hfirst
      by_cases hop : i.op = .phi
      · rw [List.takeWhile_cons_of_pos (by simpa using hop), List.filter_cons_of_neg (by simpa using hop), List.cons_append, ← ih hfirst]
      · have hrest : (i :: insts).filter (fun j => j.op ≠ .phi) = i :: insts := List.filter_eq_self.mpr fun j hj => by
          rcases List.mem_cons.mp hj with rfl | hj
          · simpa using hop
          · simpa using hi j hj hop
        rw [List.takeWhile_cons_of_neg (by simpa using hop), hrest, List.nil_append]
  exact hall _ (hfn.phisFirst b hb)

/-! ## Compiled functions -/

namespace FnSource.OfWords

variable {src : FnSource}

/-- The type of a result is that of its instruction. -/
theorem typeOf_result (h : src.OfWords) {i : Inst} (hi : i ∈ src.fn.insts) : src.fn.typeOf (.loc i.result) = i.ty := by
  rw [Inst.result, Func.typeOf, ← Inst.result, h.ssa.toWellFormed.inst?_eq hi]
  rfl

variable (h : src.OfWords) {b : Ir.Block} (hb : b ∈ src.fn.blocks) {i : Inst} (hi : i ∈ b.insts)
include h hb hi

/-- Each instruction of the function is covered. -/
theorem inst_covers : src.fn.covers i = true := h.insts i (List.mem_flatMap.mpr ⟨b, hb, hi⟩)

/-- A terminator goes to blocks of the function. -/
theorem succ_mem (hop : i.op.isTerminator = true) {s : Nat} (hs : s ∈ i.successors) :
    s ∈ b.successors ∧ s ∈ src.fn.blocks.map Ir.Block.id := by
  have hlast := Block.getLast_of_closed (h.closed b hb) hi hop
  have hmem : s ∈ b.successors := by rw [Ir.Block.successors, hlast]; exact hs
  exact ⟨hmem, h.succs b hb s hmem⟩

end FnSource.OfWords

/-- Function `k` of a program, as its code stands in an image. -/
structure Compiled (P : Program) (mi : ModInfo) (img : Image κ) (k : Nat) (src : FnSource) where
  before : CgFn
  after : CgFn
  st : FnStages mi src before after
  words : src.OfWords
  found : P.srcs[k]? = some src
  td : mi.td = P.td
  globals : before.globals = P.globals
  funcs : before.funcs = P.funcs
  frame : P.frameBytes k = after.frameBytes
  code : img.code.length = img.codeCount.toNat
  hasAt : HasAt img.code 0 after.code
  entry : img.funcTable.getD (cvmFnSlot k) 0 = BitVec.ofNat 32 before.code.length
  short : after.code.length < 2 ^ 31

namespace Compiled

variable {P : Program} {mi : ModInfo} {img : Image κ} {k : Nat} {src : FnSource} (c : Compiled P mi img k src)

/-- The frame of the function, and the homes of its values. -/
abbrev plan : Cg := c.st.plan

/-- The bytes of the frame that only the code generator uses. -/
def Private (sp p : Nat) : Prop := sp + c.plan.allocaBytes ≤ p ∧ p < sp + c.plan.frameBytes

/-- The values have the homes of the plan. -/
theorem homes : Homes src.fn c.plan := c.st.homes c.words

theorem plan_ok : c.plan.Ok := (c.st.plan_ok c.words).1

/-- The tables of the module are those of the program. -/
theorem plan_globals : c.plan.globals = P.globals ∧ c.plan.funcs = P.funcs :=
  ⟨(c.st.plan_ok c.words).2.2.globals.trans c.globals, (c.st.plan_ok c.words).2.2.funcs.trans c.funcs⟩

/-- The frame is as large as the program says. -/
theorem frame_eq : P.frameBytes k = c.plan.frameBytes := c.frame.trans (c.st.done_frame c.words).2.1

theorem whole_short : c.st.whole.code.length < 2 ^ 31 := Nat.lt_of_le_of_lt (c.st.done_frame c.words).1 c.short

/-- The image holds the code of the function. -/
theorem image : InImage c.st.whole c.after img := ⟨c.st.wf c.words c.whole_short, c.st.finish, c.code, c.hasAt⟩

/-- Its registers are sound. -/
theorem sound : RegistersSound src.fn c.plan := by
  obtain ⟨cg₁, live, hpassed, -, heq⟩ := CallerSavesAux.passed_of_run c.words.ssa rfl c.st.passes
  have hplan : c.plan = cg₁.layoutFrame src.fn c.st.calls := heq
  rw [hplan]
  exact ⟨hpassed.regs.apart, hpassed.regs.noClobber, hpassed.regs.phis, hpassed.regs.range⟩

/-- Two values of which one is live when the other is written have different homes. -/
theorem apart {p p' : Point} {m : Move} {l l' : Local} (hreach : src.fn.graph.Reach p) (hmove : src.fn.Moves p m p') (hdefs : m.defs l')
    (hlive : src.fn.graph.Live l p') (hne : l ≠ l') : Apart c.plan l l' := apart_of_live c.homes c.sound hreach hmove hdefs hlive hne

/-! ## Points of the emission -/

/-- The emission is in front of instruction `pos` of a block. -/
structure At (b : Ir.Block) (pos : Nat) (cg : CgFn) : Prop where
  mem : b ∈ src.fn.blocks
  reach : src.fn.graph.Reach ⟨b.id, pos⟩
  front : c.st.front.Advances c.st.targets cg
  cur : cg.curBlock = b.id
  rest : ∃ cg', cgTurns src.fn c.st.info (b.body.drop pos) cg = .val () cg' ∧ cg'.Advances c.st.targets c.st.whole

variable {c} {b : Ir.Block} {pos : Nat} {cg cg' : CgFn} {i : Inst}

theorem pool_of_front (h : c.st.front.Advances c.st.targets cg) : cg.freeList = [] := h.pool (c.st.front_pool c.words)

/-- The emission of the body changes code and scratch registers only. -/
theorem toCg_of_front (h : c.st.front.Advances c.st.targets cg) : ∃ code n, cg.toCg = { c.plan with code := code, nextReg := n } := by
  obtain ⟨code, n, heq⟩ := h.toCg_eq (c.st.front_pool c.words)
  obtain ⟨ws, m, hopened⟩ := c.st.opened_eq c.words
  have hfront : c.st.front.toCg = c.st.opened := rfl
  exact ⟨code, n, by rw [heq, hfront, hopened]⟩

theorem underWay_of_front (h : c.st.front.Advances c.st.targets cg) : cg.UnderWay := by
  refine (h.later (c.st.front_pool c.words)).underWay ⟨fun fx hfx => ?_, fun fx hfx => ?_⟩
  · exact absurd hfx List.not_mem_nil
  · exact absurd hfx List.not_mem_nil

/-- The function with the registers free that no value has. -/
def ready (cg : CgFn) : CgFn := { cg with nextReg := cg.ssaRegHigh }

theorem ready_eq (h : c.st.front.Advances c.st.targets cg) : ∃ code, (ready cg).toCg = { c.plan with code := code, nextReg := c.plan.ssaRegHigh } := by
  obtain ⟨code, n, heq⟩ := toCg_of_front h
  refine ⟨code, ?_⟩
  have hready : (ready cg).toCg = { cg.toCg with nextReg := cg.toCg.ssaRegHigh } := rfl
  rw [hready, heq]

theorem ready_ok (h : c.st.front.Advances c.st.targets cg) : (ready cg).toCg.Ok := by
  obtain ⟨code, heq⟩ := ready_eq h
  obtain ⟨hok, hnext, -⟩ := c.st.plan_ok c.words
  rw [heq]
  exact { hok with
    high_le := Nat.le_refl _
    next_le := hnext ▸ hok.next_le }

/-- The state of the emitter, if enough registers are taken. -/
theorem ok_of_front (h : c.st.front.Advances c.st.targets cg) (hlo : c.plan.ssaRegHigh ≤ cg.nextReg) (hhi : cg.nextReg ≤ cgMaxEmitReg + 1) :
    cg.toCg.Ok := by
  obtain ⟨code, n, heq⟩ := toCg_of_front h
  have hn : cg.toCg.nextReg = n := by rw [heq]
  rw [heq]
  exact { c.plan_ok with
    high_le := hn ▸ hlo
    next_le := hn ▸ hhi }

theorem front_emit (h : c.st.front.Advances c.st.targets cg) (ws : List Word) :
    c.st.front.Advances c.st.targets { cg with toCg := cg.toCg.emit ws } := by
  refine trans_of (CgFn.Advances c.st.targets) h fun _ => ⟨ws, cg.nextReg, [], [], cg.curBlock, ?_, .none _ _ _, fun _ h => absurd h List.not_mem_nil⟩
  simp only [List.append_nil]
  rfl

theorem front_next (h : c.st.front.Advances c.st.targets cg) (n : Nat) : c.st.front.Advances c.st.targets { cg with nextReg := n } := by
  refine trans_of (CgFn.Advances c.st.targets) h fun _ => ⟨[], n, [], [], cg.curBlock, ?_, .none _ _ _, fun _ h => absurd h List.not_mem_nil⟩
  simp only [List.append_nil]

/-- The next turn of the loop over the instructions comes through. -/
theorem At.turn (h : c.At b pos cg) (hi : b.body[pos]? = some i) : ∃ cg', cgTurn src.fn c.st.info i cg = .val () cg' ∧ c.At b (pos + 1) cg' := by
  obtain ⟨cg₂, hturns, hwhole⟩ := h.rest
  obtain ⟨hlt, hget⟩ := List.getElem?_eq_some_iff.mp hi
  rw [List.drop_eq_getElem_cons hlt, hget] at hturns
  obtain ⟨_, cg', hturn, hturns⟩ := Exec.of_bind hturns
  have hmem := (Func.mem_body.mp (List.mem_of_getElem? hi)).1
  have hemits : cg.Emits c.st.targets cg' := by
    refine queuesOnly_cgTurn (c.words.inst_covers h.mem hmem) (fun hop s hs => ?_) _ _ _ hturn
    exact (c.words.succ_mem h.mem hmem (by rw [hop]; rfl) hs).2
  refine ⟨cg', hturn, h.mem, h.reach.move (Func.Moves.inst h.mem hi), trans_of (CgFn.Advances c.st.targets) h.front hemits.advances, ?_, cg₂, hturns, hwhole⟩
  obtain ⟨ws, n, fs, rfl, -⟩ := hemits (pool_of_front h.front)
  exact h.cur

/-- The emission ends with the whole function. -/
theorem At.whole (h : c.At b pos cg) : cg.Advances c.st.targets c.st.whole := by
  obtain ⟨cg', hturns, hwhole⟩ := h.rest
  refine trans_of (CgFn.Advances c.st.targets) (CgFn.Emits.advances ?_) hwhole
  have hmem : ∀ i ∈ b.body.drop pos, i ∈ b.insts := fun i hi => (Func.mem_body.mp (List.mem_of_mem_drop hi)).1
  refine queuesOnly_cgTurns (fun i hi => c.words.inst_covers h.mem (hmem i hi)) (fun i hi hop s hs => ?_) _ _ _ hturns
  exact (c.words.succ_mem h.mem (hmem i hi) (by rw [hop]; rfl) hs).2

/-- What has been emitted stays. -/
theorem At.later (h : c.At b pos cg) : Later cg c.st.whole := h.whole.later (pool_of_front h.front)

/-- The words from position `p` on stand in the finished function, and these are the branches among them. -/
def Stands (c : Compiled P mi img k src) (p : Nat) (ws : List Word) (fs : List Fixup) : Prop :=
  HasAt c.st.whole.code p ws ∧ ∀ fx, fx ∈ fs ↔ fx ∈ c.st.whole.fixups ∧ p ≤ fx.instIndex ∧ fx.instIndex < p + ws.length

/-- What was emitted between two points stands in the finished function. -/
def Between (c : Compiled P mi img k src) (cg cg' : CgFn) : Prop :=
  ∀ ws fs, cg'.code = cg.code ++ ws → cg'.fixups = cg.fixups ++ fs → c.Stands cg.code.length ws fs

section stands

variable {host : Host κ W} {f f' : Frame κ W} {ws us : List Word} {fs gs : List Fixup} {p : Nat}

/-- Code that stands in two parts, each with its fixups. -/
theorem Stands.split (h : c.Stands p (ws ++ us) (fs ++ gs)) (hfs : ∀ fx ∈ fs, fx.instIndex < p + ws.length)
    (hgs : ∀ fx ∈ gs, p + ws.length ≤ fx.instIndex) : c.Stands p ws fs ∧ c.Stands (p + ws.length) us gs := by
  obtain ⟨⟨before, rest, hcode, hlen⟩, hfix⟩ := h
  refine ⟨⟨⟨before, us ++ rest, ?_, hlen⟩, fun fx => ⟨fun hfx => ?_, fun hfx => ?_⟩⟩,
    ⟨before ++ ws, rest, ?_, by rw [List.length_append, hlen]⟩, fun fx => ⟨fun hfx => ?_, fun hfx => ?_⟩⟩
  · rw [hcode]
    simp only [List.append_assoc]
  · obtain ⟨hmem, hlo, -⟩ := (hfix fx).mp (List.mem_append_left _ hfx)
    exact ⟨hmem, hlo, hfs fx hfx⟩
  · obtain ⟨hmem, hlo, hhi⟩ := hfx
    rcases List.mem_append.mp ((hfix fx).mpr ⟨hmem, hlo, by rw [List.length_append]; omega⟩) with hfx | hfx
    · exact hfx
    · have hge := hgs fx hfx
      omega
  · rw [hcode]
    simp only [List.append_assoc]
  · obtain ⟨hmem, -, hhi⟩ := (hfix fx).mp (List.mem_append_right _ hfx)
    exact ⟨hmem, hgs fx hfx, by rw [List.length_append] at hhi; omega⟩
  · obtain ⟨hmem, hlo, hhi⟩ := hfx
    rcases List.mem_append.mp ((hfix fx).mpr ⟨hmem, by omega, by rw [List.length_append]; omega⟩) with hfx | hfx
    · have hlt := hfs fx hfx
      omega
    · exact hfx

/-- Straight code runs from its start to its end. -/
theorem Stands.straight (h : c.Stands p ws []) (hruns : RunsTo img host ws f f') : Goes c.st.whole img host p f (p + ws.length) f' :=
  Goes.straight c.image h.1 (fun fx hfx hlo hhi => absurd ((h.2 fx).mpr ⟨hfx, hlo, hhi⟩) List.not_mem_nil) hruns

/-- A branch goes to its block, or on. -/
theorem Stands.branch {w : Word} {fx : Fixup} (h : c.Stands p [w] [fx]) (hpos : fx.instIndex = p) (f : Frame κ W) :
    Goes c.st.whole img host p f (if BranchTaken f w then c.st.whole.offsetOf fx.target else p + 1) f := by
  have hw : c.st.whole.code[fx.instIndex]? = some w := by
    rw [hpos]
    exact h.1.getElem? (k := 0) (by simp)
  have hgo : GoesVia c.st.whole img host 0 0 fx.instIndex f (branchNext c.st.whole f fx) f :=
    GoesVia.branch c.image ((h.2 fx).mp (List.mem_singleton_self fx)).1
  rw [branchNext_of hw, hpos] at hgo
  exact hgo.goes

/-- The code of a turn stands between two points of the function. -/
theorem between_of_emits (hfront : c.st.front.Advances c.st.targets cg) (h : cg.Emits c.st.targets cg') (hlater : Later cg' c.st.whole) :
    c.Between cg cg' := by
  intro ws fs hcode hfixups
  obtain ⟨us, n, gs, rfl, hgs⟩ := h (pool_of_front hfront)
  obtain rfl : us = ws := List.append_cancel_left hcode
  obtain rfl : gs = fs := List.append_cancel_left hfixups
  refine ⟨hlater.hasAt rfl, fun fx => ⟨fun hfx => ?_, fun hfx => ?_⟩⟩
  · obtain ⟨j, w, hj, hw, -⟩ := hgs.branch fx hfx
    obtain ⟨hlt, -⟩ := List.getElem?_eq_some_iff.mp hw
    obtain ⟨rest, hrest, -⟩ := hlater.fixups
    exact ⟨by rw [hrest]; exact List.mem_append_left _ (List.mem_append_right _ hfx), by omega, by omega⟩
  · exact hlater.fixup_between (underWay_of_front hfront) rfl hfx.1 hfx.2.1 (by rw [List.length_append]; exact hfx.2.2)

/-- Straight code has no fixups. -/
theorem emits_of_emitted {targets : List Nat} {d : Cg} (hem : Emitted img host cg.toCg d f f') : cg.Emits targets { cg with toCg := d } := by
  obtain ⟨ws, n, rfl, -⟩ := hem
  exact fun _ => ⟨ws, n, [], by rw [List.append_nil], .none _ _ _⟩

/-- Code without branches. -/
theorem Between.goes (h : c.Between cg cg') (hfixups : cg'.fixups = cg.fixups) (hem : Emitted img host cg.toCg cg'.toCg f f') :
    Goes c.st.whole img host cg.code.length f cg'.code.length f' := by
  obtain ⟨ws, n, heq, hruns⟩ := hem
  have hcode : cg'.code = cg.code ++ ws := by rw [heq]
  have hgo := (h ws [] hcode (by rw [hfixups, List.append_nil])).straight hruns
  rwa [hcode, List.length_append]

end stands

/-! ## Points of the run -/

/-- The frame at a point: what is live is in its home. -/
structure Holds (c : Compiled P mi img k src) (p : Point) (env : Env) (sp : Nat) (f : Frame κ W) : Prop where
  values : ∀ l, src.fn.graph.Live l p → HoldsWord src.fn c.plan f env l
  zero : f.regs cgRegZero = 0
  sp_eq : (f.regs regSp).toNat = sp
  size : f.heap.size = img.memSize.toNat
  fits : sp + c.plan.frameBytes ≤ img.memSize.toNat

section holds

variable {p : Point} {a : Activation} {env : Env} {sp : Nat} {host : Host κ W} {f f' : Frame κ W}
variable {own : Nat → Bool} {mem mem' : Contents} {x : Option Nat}

/-- What is live and is not written next stays live. -/
theorem live_before {l : Local} (hb : b ∈ src.fn.blocks) (hi : b.body[pos]? = some i) (hlive : src.fn.graph.Live l ⟨b.id, pos + 1⟩)
    (hne : l ≠ i.result) : src.fn.graph.Live l ⟨b.id, pos⟩ := .pass (Func.Moves.inst hb hi) hne hlive

/-- An operand of the next instruction is in its home. -/
theorem Holds.operand (h : Holds c ⟨b.id, pos⟩ env sp f) (hb : b ∈ src.fn.blocks) (hi : b.body[pos]? = some i) {v : Val} (hv : v ∈ i.operands) :
    HoldsOperand P src.fn c.plan f env v := by
  refine holdsOperand_of c.plan_globals.1 c.plan_globals.2 fun l heq => h.values l ?_
  subst heq
  exact .use (Func.Moves.inst hb hi) hv

/-- All of them are. -/
theorem Holds.operands (h : Holds c ⟨b.id, pos⟩ env sp f) (hb : b ∈ src.fn.blocks) (hi : b.body[pos]? = some i) :
    HoldsOperands P src.fn c.plan f env i := fun _ hv => h.operand hb hi hv

/-- The frame is in memory. -/
theorem Holds.inFrame (h : Holds c p env sp f) : InFrame c.plan img f := ⟨h.size, by rw [h.sp_eq]; exact h.fits⟩

/-- The values and the frame do not depend on the code that is there. -/
theorem holdsOperands_ready {cg : CgFn} {code : List Word} (heq : (ready cg).toCg = { c.plan with code := code, nextReg := c.plan.ssaRegHigh })
    (h : HoldsOperands P src.fn c.plan f env i) : HoldsOperands P src.fn (ready cg).toCg f env i := by
  intro v hv hword x hx
  rw [heq, operandWord_emit]
  exact h v hv hword x hx

variable (c host) in
/-- An instruction that gives a value has code for it, unless it writes memory or nothing. -/
theorem gives_of_next {cg : Cg} (hok : cg.Ok) (hin : InFrame cg img f) (hzero : f.regs cgRegZero = 0) (hmem : i ∈ src.fn.insts)
    (hheld : HoldsOperands P src.fn cg f a.env i) (hshows : Shows img a.own mem f.heap) (hword : i.ty.isWord = true)
    (hnext : P.next src a mem i = some (.value x mem')) :
    mem' = mem ∧ Gives img host cg f i.ty (cgCase src.fn c.st.info i) x := by
  have hcode := c.code
  cases covered_of (c.words.insts i hmem) with
  | binary b hop hkind hword hx hy hshift hbit =>
    have heq : P.next src a mem i =
        if P.faults a.env i = false then some (.value (P.scalarValue src.fn a.env i) mem) else none := by
      unfold Program.next
      split <;> simp_all [Op.intBinOp?]
    rw [heq] at hnext
    obtain ⟨hfault, hnext⟩ := Option.ite_none_right_eq_some.mp hnext
    obtain ⟨rfl, rfl⟩ := Effect.value.inj (Option.some.inj hnext)
    exact ⟨rfl, gives_binary host hcode hok hin hheld hop hword hx hy hshift hbit hfault⟩
  | icmp p hop hp hty hwordX hy =>
    simp only [Program.next, hop] at hnext
    obtain ⟨rfl, rfl⟩ := Effect.value.inj (Option.some.inj hnext)
    exact ⟨rfl, gives_icmp host hcode hok hin hheld hop hp hty hwordX hy⟩
  | extend hop hints hlt =>
    have heq : P.next src a mem i = some (.value (P.scalarValue src.fn a.env i) mem) := by
      rcases hop with hop | hop <;> simp only [Program.next, hop]
    obtain ⟨rfl, rfl⟩ := Effect.value.inj (Option.some.inj (heq.symm.trans hnext))
    exact ⟨rfl, gives_extend host hcode hok hin hheld hop hints hlt⟩
  | trunc hop hints hlt =>
    simp only [Program.next, hop] at hnext
    obtain ⟨rfl, rfl⟩ := Effect.value.inj (Option.some.inj hnext)
    exact ⟨rfl, gives_trunc host hcode hok hin hheld hop hints hlt⟩
  | load ops hop hword hops hptr =>
    simp only [Program.next, hop] at hnext
    obtain ⟨p, hp, hnext⟩ := Option.bind_eq_some_iff.mp hnext
    obtain ⟨howns, hnext⟩ := Option.ite_none_right_eq_some.mp hnext
    obtain ⟨rfl, rfl⟩ := Effect.value.inj (Option.some.inj hnext)
    exact ⟨rfl, gives_load host hcode hok hin hheld hshows hop hops hptr hp fun j hj => List.all_eq_true.mp howns j (List.mem_range.mpr hj)⟩
  | store ops hop hty | fence hop hty | br hop hty | ret hop hty | unreachable hop hty =>
    rw [hty] at hword
    cases hword
  | copy hop hword hsrc hle hbit =>
    have heq : P.next src a mem i = some (.value (P.val a.env (i.operand 0)) mem) := by
      rcases hop with hop | hop | hop | hop <;> simp only [Program.next, hop]
    obtain ⟨rfl, rfl⟩ := Effect.value.inj (Option.some.inj (heq.symm.trans hnext))
    exact ⟨rfl, gives_copy host hcode hok hin hheld hop hsrc hle hbit⟩
  | select hop hword hcond hx hy =>
    simp only [Program.next, hop] at hnext
    obtain ⟨rfl, rfl⟩ := Effect.value.inj (Option.some.inj hnext)
    exact ⟨rfl, gives_select host hcode hok hin hheld hop hword hcond hx hy hzero⟩
  | gep hop hty hptr =>
    simp only [Program.next, hop] at hnext
    obtain ⟨rfl, rfl⟩ := Effect.value.inj (Option.some.inj hnext)
    exact ⟨rfl, gives_gep host hcode hok hin hheld hop hptr hty c.td rfl fun g hg v hv => c.words.indices i hmem g hg v hv⟩
  | alloca hop | phi hop =>
    simp only [Program.next, hop, Op.intBinOp?] at hnext
    cases hnext
  | call hop =>
    simp only [Program.next, hop, Program.callEffect] at hnext
    obtain ⟨k, -, hnext⟩ := Option.bind_eq_some_iff.mp hnext
    obtain ⟨callee, -, hnext⟩ := Option.bind_eq_some_iff.mp hnext
    obtain ⟨-, hnext⟩ := Option.ite_none_right_eq_some.mp hnext
    cases hnext

/-- A slot is a part of the frame that only the code generator uses. -/
theorem private_of_slot (hsp : (f.regs regSp).toNat = sp) {n : Nat} (hn : n < c.plan.valSpillCount) {q : Nat}
    (hq : slotAddr c.plan f n ≤ q ∧ q < slotAddr c.plan f n + 4) : c.Private sp q := by
  have hend := slot_end_le c.plan_ok hn
  rw [slotAddr, hsp] at hq
  exact ⟨by omega, by omega⟩

/-- After a location of the frame is written. -/
theorem byte_setLoc (hsp : (f.regs regSp).toNat = sp) {l : Local} {home : Home} (hhome : c.plan.home? l = some home) {w : Word} {q : Nat}
    (hq : ¬c.Private sp q) : (f.setLoc c.plan (cgPhiDstLoc home) w).heap.byte q = f.heap.byte q := by
  rw [cgPhiDstLoc]
  cases hslot : home.valSlot with
  | none => rfl
  | some n =>
    have hn := c.plan_ok.slot_lt l home n hhome hslot
    by_cases hlt : q < slotAddr c.plan f n
    · exact f.heap.blit_byte_of_lt _ hlt
    · by_cases hge : slotAddr c.plan f n + 4 ≤ q
      · exact f.heap.blit_byte_of_ge _ hge
      · exact absurd (private_of_slot hsp hn ⟨Nat.le_of_not_lt hlt, Nat.lt_of_not_le hge⟩) hq

/-- The frame after the result of an instruction is in its home. -/
theorem Holds.after_value (h : Holds c ⟨b.id, pos⟩ env sp f) (hat : c.At b pos cg) (hi : b.body[pos]? = some i)
    (hshows : Shows img own mem f.heap) (hfree : ∀ q, own q = true → ¬c.Private sp q) {home : Home} (hhome : c.plan.home? i.result = some home)
    {w : Word} (hval : ∀ n, x = some n → i.ty.Repr n w)
    (hag : (f.setLoc c.plan (cgPhiDstLoc home) w).AgreesOff (Scratch c.plan.ssaRegHigh) f') :
    Holds c ⟨b.id, pos + 1⟩ (Function.update env i.result x) sp f' ∧ Shows img own mem f'.heap ∧
      ∀ q, ¬c.Private sp q → f'.heap.byte q = f.heap.byte q := by
  have hok := c.plan_ok
  have hhigh : c.plan.ssaRegHigh ≤ cgMaxEmitReg + 1 := Nat.le_trans hok.high_le hok.next_le
  have hmem : i ∈ src.fn.insts := List.mem_flatMap.mpr ⟨b, hat.mem, (Func.mem_body.mp (List.mem_of_getElem? hi)).1⟩
  have hbytes : ∀ q, ¬c.Private sp q → f'.heap.byte q = f.heap.byte q := fun q hq => by rw [hag.heap, byte_setLoc h.sp_eq hhome hq]
  have hspec : ∀ r, r = regSp ∨ r = cgRegZero → f'.regs r = f.regs r := by
    intro r hr
    rw [hag.regs r (not_scratch_of_gt hr.symm)]
    have hlow := hok.home_low hhome
    cases hloc : cgPhiDstLoc home with
    | slot n => rfl
    | reg d =>
      refine Frame.setReg_of_ne f w ?_
      intro heq
      have hreg : d = home.reg := by
        unfold cgPhiDstLoc at hloc
        split at hloc
        · cases hloc
        · exact (Loc.reg.inj hloc).symm
      have hlt := hok.reg_lt _ home hhome
      rw [← hreg, ← heq] at hlt
      have hsp : regSp.toNat = 255 := rfl
      have hzero : cgRegZero.toNat = 253 := rfl
      have hmax : cgMaxEmitReg = 252 := rfl
      rcases hr with rfl | rfl <;> omega
  refine ⟨⟨fun l hlive => ?_, ?_, ?_, ?_, h.fits⟩, ⟨hshows.fits, fun q b hq hb => ?_⟩, hbytes⟩
  · refine holdsWord_after hok hhome hag (fun n hn => ?_) fun hne => ?_
    · rw [c.words.typeOf_result hmem]
      exact hval n hn
    · exact ⟨h.values l (live_before hat.mem hi hlive hne), c.apart hat.reach (Func.Moves.inst hat.mem hi) rfl hlive hne⟩
  · rw [hspec _ (Or.inr rfl), h.zero]
  · rw [hspec _ (Or.inl rfl), h.sp_eq]
  · rw [hag.heap, ← h.size]
    cases cgPhiDstLoc home <;> rfl
  · rw [hbytes q (hfree q hq)]
    exact hshows.bytes q b hq hb

/-- The word of a value depends on the registers of the function and on the private bytes of its frame. -/
theorem operandWord_congr (hsp : (f.regs regSp).toNat = sp) (hsp' : f'.regs regSp = f.regs regSp)
    (hregs : ∀ r : Byte, r.toNat < c.plan.ssaRegHigh → f'.regs r = f.regs r) (hbytes : ∀ q, c.Private sp q → f'.heap.byte q = f.heap.byte q)
    (l : Local) : operandWord c.plan f' (.loc l) = operandWord c.plan f (.loc l) := by
  cases hhome : c.plan.home? l with
  | none => simp only [operandWord, hhome, Option.map_none]
  | some home =>
    rw [operandWord_loc hhome, operandWord_loc hhome, cgPhiDstLoc]
    cases hslot : home.valSlot with
    | none => exact hregs _ (c.plan_ok.reg_lt l home hhome)
    | some n =>
      have hn := c.plan_ok.slot_lt l home n hhome hslot
      simp only [locWord, slotAddr_of_sp hsp']
      exact leWord_congr fun j hj => hbytes _ (private_of_slot hsp hn ⟨Nat.le_add_right _ _, by omega⟩)

/-- Only the homes of the live values matter. -/
theorem Holds.congr {p' : Point} {env' : Env} (h : Holds c p env sp f) (hsp : f'.regs regSp = f.regs regSp)
    (hregs : ∀ r : Byte, r.toNat < c.plan.ssaRegHigh → f'.regs r = f.regs r) (hzero : f'.regs cgRegZero = 0) (hsize : f'.heap.size = f.heap.size)
    (hbytes : ∀ q, c.Private sp q → f'.heap.byte q = f.heap.byte q)
    (hlive : ∀ l, (src.fn.typeOf (.loc l)).isWord = true → src.fn.graph.Live l p' → src.fn.graph.Live l p ∧ env' l = env l) : Holds c p' env' sp f' := by
  refine ⟨fun l hl hword x hx => ?_, hzero, by rw [hsp, h.sp_eq], by rw [hsize, h.size], h.fits⟩
  obtain ⟨hl, heq⟩ := hlive l hword hl
  rw [operandWord_congr h.sp_eq hsp hregs hbytes]
  exact h.values l hl hword x (heq ▸ hx)

/-- What is live after an instruction without a result was live before, with the same value. -/
theorem live_of_void (hsrc : src.OfWords) (hb : b ∈ src.fn.blocks) (hi : b.body[pos]? = some i) (hvoid : i.ty = .void) (x : Option Nat) (l : Local)
    (hword : (src.fn.typeOf (.loc l)).isWord = true) (hlive : src.fn.graph.Live l ⟨b.id, pos + 1⟩) :
    src.fn.graph.Live l ⟨b.id, pos⟩ ∧ Function.update env i.result x l = env l := by
  have hne : l ≠ i.result := by
    rintro rfl
    rw [hsrc.typeOf_result (List.mem_flatMap.mpr ⟨b, hb, (Func.mem_body.mp (List.mem_of_getElem? hi)).1⟩), hvoid] at hword
    cases hword
  exact ⟨live_before hb hi hlive hne, Function.update_of_ne hne ..⟩

/-- The frame after a store of bytes that the program may write. -/
theorem Holds.after_store (h : Holds c ⟨b.id, pos⟩ env sp f) (hat : c.At b pos cg) (hi : b.body[pos]? = some i)
    (hvoid : i.ty = .void) (hfree : ∀ q, own q = true → ¬c.Private sp q) {p n : Nat} (howns : ∀ k < n, own (p + k) = true) {w : Word}
    (hag : (f.setLow p n w).AgreesOff (Scratch c.plan.ssaRegHigh) f') :
    Holds c ⟨b.id, pos + 1⟩ (Function.update env i.result none) sp f' ∧ ∀ q, own q = false → f'.heap.byte q = f.heap.byte q := by
  have hhigh : c.plan.ssaRegHigh ≤ cgMaxEmitReg + 1 := Nat.le_trans c.plan_ok.high_le c.plan_ok.next_le
  have hbyte : ∀ q, ¬(p ≤ q ∧ q < p + n) → f'.heap.byte q = f.heap.byte q := fun q hq => by
    rw [hag.heap]
    exact if_neg hq
  have hown : ∀ q, p ≤ q ∧ q < p + n → own q = true := fun q hq => by
    have hk := howns (q - p) (by omega)
    rwa [Nat.add_sub_cancel' hq.1] at hk
  refine ⟨h.congr (hag.regs _ (not_scratch_of_gt (Or.inr rfl))) (fun r hr => hag.regs r (not_scratch_of_lt hhigh hr)) ?_ ?_ (fun q hq => ?_) (live_of_void c.words hat.mem hi hvoid none),
    fun q hq => ?_⟩
  · rw [hag.regs _ (not_scratch_of_gt (Or.inl rfl))]
    exact h.zero
  · rw [hag.heap]
    rfl
  · exact hbyte q fun hin => hfree q (hown q hin) hq
  · refine hbyte q fun hin => ?_
    rw [hown q hin] at hq
    cases hq

/-- The turn of an instruction with a case of its own. -/
theorem At.turn_case (hat : c.At b pos cg) (hi : b.body[pos]? = some i) (hop : i.op ≠ .br ∧ i.op ≠ .ret ∧ i.op ≠ .unreachable) :
    ∃ cg', cgWithResult i (cgCase src.fn c.st.info i) (ready cg).toCg = .val () cg' ∧ c.At b (pos + 1) { ready cg with toCg := cg' } := by
  obtain ⟨cg', hturn, hat'⟩ := hat.turn hi
  obtain ⟨hmem, hphi⟩ := Func.mem_body.mp (List.mem_of_getElem? hi)
  rw [cgTurn_case (c.words.inst_covers hat.mem hmem) ⟨hphi, hop⟩] at hturn
  obtain ⟨_, cgR, hready, hturn⟩ := Exec.of_bind hturn
  obtain rfl : ready cg = cgR := (Outcome.val.inj hready).2
  obtain ⟨c', hrun, heq⟩ := Exec.of_zoom hturn
  exact ⟨c', hrun, heq ▸ hat'⟩

variable (host) in
/-- An instruction that gives a value, or writes memory, leads to the next point. -/
theorem At.value (hat : c.At b pos cg) (hi : b.body[pos]? = some i) (h : Holds c ⟨b.id, pos⟩ a.env a.sp f)
    (hshows : Shows img a.own mem f.heap) (hfree : ∀ q, a.own q = true → ¬c.Private a.sp q)
    (hnext : P.next src a mem i = some (.value x mem')) : ∃ cg' f', c.At b (pos + 1) cg' ∧
      Goes c.st.whole img host cg.code.length f cg'.code.length f' ∧ Holds c ⟨b.id, pos + 1⟩ (Function.update a.env i.result x) a.sp f' ∧
        Shows img a.own mem' f'.heap ∧ ∀ q, a.own q = false → ¬c.Private a.sp q → f'.heap.byte q = f.heap.byte q := by
  have hmem : i ∈ src.fn.insts := List.mem_flatMap.mpr ⟨b, hat.mem, (Func.mem_body.mp (List.mem_of_getElem? hi)).1⟩
  have hop : i.op ≠ .br ∧ i.op ≠ .ret ∧ i.op ≠ .unreachable := by
    refine ⟨fun hop => ?_, fun hop => ?_, fun hop => ?_⟩
    · simp only [Program.next, hop, Program.branchEffect] at hnext
      split at hnext
      · cases hnext
      · obtain ⟨_, -, heq⟩ := Option.map_eq_some_iff.mp hnext
        cases heq
      · cases hnext
    · simp only [Program.next, hop, Program.retEffect] at hnext
      split at hnext <;> cases hnext
    · simp only [Program.next, hop, Op.intBinOp?] at hnext
      cases hnext
  obtain ⟨cg', hrun, hat'⟩ := hat.turn_case hi hop
  obtain ⟨code, heq⟩ := ready_eq hat.front
  have hok := ready_ok hat.front
  have hin : InFrame (ready cg).toCg img f := by
    rw [heq]
    exact ⟨h.inFrame.size, h.inFrame.fits⟩
  have hheld := holdsOperands_ready heq (h.operands hat.mem hi)
  have hgoes : ∀ f', Emitted img host (ready cg).toCg cg' f f' →
      Goes c.st.whole img host cg.code.length f ({ ready cg with toCg := cg' } : CgFn).code.length f' := fun f' hem =>
    (between_of_emits (front_next hat.front (ready cg).nextReg) (emits_of_emitted hem) hat'.later).goes rfl hem
  rcases covers_ty (c.words.insts i hmem) with hvoid | hword
  · have hhome : (ready cg).toCg.home? i.result = none := by
      rw [heq]
      exact c.homes.void i hmem (by rw [hvoid]; rfl)
    unfold cgWithResult at hrun
    rw [Exec.run_bind, Exec.run_get] at hrun
    simp only [hhome] at hrun
    cases covered_of (c.words.insts i hmem) with
    | store ops hop hty hwordV hops hptr =>
      simp only [Program.next, hop] at hnext
      obtain ⟨p, hp, hnext⟩ := Option.bind_eq_some_iff.mp hnext
      obtain ⟨howns, hnext⟩ := Option.ite_none_right_eq_some.mp hnext
      obtain ⟨rfl, rfl⟩ := Effect.value.inj (Option.some.inj hnext)
      have howns := fun j hj => List.all_eq_true.mp howns j (List.mem_range.mpr hj)
      obtain ⟨f', w, hem, -, -, hag, hval⟩ := stores_of_cgStore host c.code hok hin hheld hshows hop hwordV hops hptr hp howns hrun
      have hhigh : (ready cg).toCg.nextReg = c.plan.ssaRegHigh := by rw [heq]
      rw [hhigh] at hag
      obtain ⟨hholds, hbytes⟩ := h.after_store hat hi hty hfree howns hag
      refine ⟨_, f', hat', hgoes f' hem, hholds, ?_, fun q hq _ => hbytes q hq⟩
      rw [hag.heap]
      refine hshows.write fun m hm j hj => ?_
      obtain ⟨n, hn, rfl⟩ := Option.map_eq_some_iff.mp hm
      exact leByte_of_repr hops (hval n hn) hj
    | fence hop =>
      simp only [Program.next, hop] at hnext
      obtain ⟨rfl, rfl⟩ := Effect.value.inj (Option.some.inj hnext)
      simp only [cgCase, hop] at hrun
      obtain ⟨-, rfl⟩ := Outcome.val.inj hrun
      exact ⟨_, f, hat', hgoes f .refl, h.congr rfl (fun _ _ => rfl) h.zero rfl (fun _ _ => rfl) (live_of_void c.words hat.mem hi hvoid none), hshows,
        fun _ _ _ => rfl⟩
    | br hop' => exact absurd hop' hop.1
    | ret hop' => exact absurd hop' hop.2.1
    | unreachable hop' => exact absurd hop' hop.2.2
    | call hop' =>
      simp only [Program.next, hop', Program.callEffect] at hnext
      obtain ⟨n, -, hnext⟩ := Option.bind_eq_some_iff.mp hnext
      obtain ⟨callee, -, hnext⟩ := Option.bind_eq_some_iff.mp hnext
      obtain ⟨-, hnext⟩ := Option.ite_none_right_eq_some.mp hnext
      cases hnext
    | icmp _ _ _ hty | gep _ hty | alloca _ hty =>
      rw [hvoid] at hty
      cases hty
    | extend _ hints | trunc _ hints =>
      rw [hvoid] at hints
      cases hints
    | binary _ _ _ hword | load _ _ hword | copy _ hword | select _ hword | phi _ hword =>
      rw [hvoid] at hword
      cases hword
  · obtain ⟨hsame, hgives⟩ := gives_of_next c host hok hin h.zero hmem hheld hshows hword hnext
    obtain ⟨w, hyields, hval⟩ := hgives
    subst hsame
    obtain ⟨home, hhome⟩ := c.homes.inst i hmem (Ty.not_wide hword).2.2.2.2
    have hhome' : (ready cg).toCg.home? i.result = some home := by
      rw [heq]
      exact hhome
    obtain ⟨-, f', hem, hag⟩ := computes_of_cgWithResult host c.code hok hin rfl hhome' hyields hrun
    rw [heq] at hag
    obtain ⟨hholds, hshows', hbytes⟩ := h.after_value hat hi hshows hfree hhome hval hag
    exact ⟨_, f', hat', hgoes f' hem, hholds, hshows', fun q _ hq => hbytes q hq⟩

end holds

/-! ## Branches -/

section branches

variable {host : Host κ W} {f f' : Frame κ W} {env : Env} {sp : Nat} {b' : Ir.Block}

theorem block_eq (hb : b ∈ src.fn.blocks) (hssa : src.fn.Ssa) : src.fn.block b.id = b := by
  have hsome : (src.fn.blocks.find? fun b' => b'.id == b.id).isSome = true := List.find?_isSome.mpr ⟨b, hb, beq_self_eq_true _⟩
  obtain ⟨b', hfind⟩ := Option.isSome_iff_exists.mp hsome
  rw [Func.block, hfind, Option.getD_some]
  exact hssa.block_of_id (List.mem_of_find?_eq_some hfind) hb (eq_of_beq (List.find?_some (p := fun b' : Ir.Block => b'.id == b.id) hfind))

/-- The turns of two lists, one behind the other. -/
theorem cgTurns_append (fn : Func) (fi : FnInfo) (is js : List Inst) (cg : CgFn) :
    cgTurns fn fi (is ++ js) cg = (cgTurns fn fi is >>= fun _ => cgTurns fn fi js) cg := by
  induction is generalizing cg with
  | nil => rfl
  | cons i is ih =>
    simp only [List.cons_append, cgTurns, Exec.run_bind]
    cases cgTurn fn fi i cg with
    | val u s => exact (ih s).trans (Exec.run_bind ..)
    | stop e s => rfl
    | oob => rfl

/-- The turns of phis only free registers. -/
theorem turns_phis {fi : FnInfo} {phis : List Inst} (hphis : ∀ i ∈ phis, i.op = .phi ∧ src.fn.covers i = true) (cg : CgFn) :
    ∃ n, cgTurns src.fn fi phis cg = .val () { cg with nextReg := n } := by
  induction phis generalizing cg with
  | nil => exact ⟨cg.nextReg, rfl⟩
  | cons i phis ih =>
    obtain ⟨hop, hcovers⟩ := hphis i List.mem_cons_self
    have hturn : cgTurn src.fn fi i cg = .val () (ready cg) := by
      rw [cgTurn_eq hcovers]
      simp only [hop]
      rfl
    obtain ⟨n, hn⟩ := ih (fun j hj => hphis j (List.mem_cons_of_mem i hj)) (ready cg)
    refine ⟨n, ?_⟩
    rw [cgTurns, Exec.run_bind, hturn]
    exact hn

/-- The start of a block in the emission. -/
theorem at_block (c : Compiled P mi img k src) (hb : b ∈ src.fn.blocks) (hreach : src.fn.graph.Reach ⟨b.id, 0⟩) :
    ∃ cg, c.At b 0 cg ∧ cg.code.length = c.st.whole.offsetOf b.id := by
  obtain ⟨cgS, cgT, hoff, hcur, hfront, hturns, hwhole⟩ := c.st.block_at c.words hb
  have hphis : ∀ i ∈ b.phis, i.op = .phi ∧ src.fn.covers i = true := fun i hi => by
    obtain ⟨hmem, hop⟩ := (c.words.ssa.mem_phis hb).mp hi
    exact ⟨hop, c.words.inst_covers hb hmem⟩
  obtain ⟨n, hn⟩ : ∃ n, cgTurns src.fn c.st.info b.phis cgS = .val () { cgS with nextReg := n } := turns_phis hphis cgS
  rw [c.words.ssa.insts_eq hb, cgTurns_append, Exec.run_bind, hn] at hturns
  exact ⟨{ cgS with nextReg := n }, ⟨hb, hreach, front_next hfront n, hcur, cgT, hturns, hwhole⟩, hoff.symm⟩

/-- A phi has at most one move, to its home. -/
theorem phiMove_of {d : Cg} (hhome : ∀ l, d.home? l = c.plan.home? l) {pred : Nat} {phi : Inst} {m : PhiMove} (hm : m ∈ phiMovesOf d pred phi) :
    ∃ home, c.plan.home? phi.result = some home ∧ m.dst = cgPhiDstLoc home ∧ phiMovesOf d pred phi = [m] := by
  unfold phiMovesOf at hm ⊢
  split at hm
  · exact absurd hm List.not_mem_nil
  · rename_i heh
    rw [if_neg heh]
    split at hm
    · rename_i sval home hsval hhome'
      have hwide : home.i64Slot = none := by
        rcases c.homes.plain _ home ((hhome _).symm.trans hhome') with ⟨r, rfl, -⟩ | ⟨n, rfl, -⟩ <;> rfl
      simp only [homeMoves, hwide] at hm ⊢
      obtain rfl := List.mem_singleton.mp hm
      exact ⟨home, (hhome _).symm.trans hhome', rfl, rfl⟩
    · exact absurd hm List.not_mem_nil

/-- The moves of the phis of a block go to different places. -/
theorem distinct_edge (hb' : b' ∈ src.fn.blocks) {d : Cg} (hhome : ∀ l, d.home? l = c.plan.home? l) (pred : Nat) :
    DistinctDsts (edgeMoves d pred b'.phis) := by
  rw [DistinctDsts, edgeMoves, List.map_flatMap, List.nodup_flatMap]
  refine ⟨fun phi _ => ?_, ?_⟩
  · cases hlist : phiMovesOf d pred phi with
    | nil => exact List.nodup_nil
    | cons m ms =>
      obtain ⟨-, -, -, heq⟩ := phiMove_of (c := c) hhome (show m ∈ phiMovesOf d pred phi by rw [hlist]; exact List.mem_cons_self)
      rw [← hlist, heq]
      exact List.nodup_singleton _
  · have hnodup : b'.phis.Pairwise fun phi phi' => phi.result ≠ phi'.result := by
      have hids : (b'.phis.map Inst.id).Nodup :=
        c.words.ssa.ids.sublist (((List.takeWhile_sublist _).trans (Func.insts_sublist hb')).map Inst.id)
      exact (List.pairwise_map.mp hids).imp fun hne heq => hne (Local.inst.inj heq)
    refine hnodup.imp_of_mem fun {phi phi'} hphi _ hne => ?_
    intro l hl hl'
    obtain ⟨m, hm, rfl⟩ := List.mem_map.mp hl
    obtain ⟨m', hm', hdst⟩ := List.mem_map.mp hl'
    obtain ⟨home, hhome₁, hdst₁, -⟩ := phiMove_of hhome hm
    obtain ⟨home', hhome₂, hdst₂, -⟩ := phiMove_of hhome hm'
    have heq : cgPhiDstLoc home = cgPhiDstLoc home' := by rw [← hdst₁, ← hdst₂, hdst]
    rcases c.homes.plain _ home hhome₁ with ⟨r, rfl, hr, -⟩ | ⟨n, rfl, -⟩
    · rcases c.homes.plain _ home' hhome₂ with ⟨r', rfl, -⟩ | ⟨n', rfl, -⟩
      · obtain rfl : r = r' := Loc.reg.inj heq
        have hspilled : r ≠ cgRegSpilled := fun h => absurd (h ▸ hr) (by decide)
        refine hne (c.sound.phis b' hb' phi hphi phi'.result r ?_ ?_).symm
        · rw [Cg.regOf, hhome₁]
          exact if_neg hspilled
        · rw [Cg.regOf, hhome₂]
          exact if_neg hspilled
      · cases heq
    · rcases c.homes.plain _ home' hhome₂ with ⟨r', rfl, -⟩ | ⟨n', rfl, -⟩
      · cases heq
      · obtain rfl : n = n' := Loc.slot.inj heq
        exact hne (c.homes.slots _ _ _ _ n hhome₁ hhome₂ rfl rfl)

/-- The emission of an edge: its moves, and a jump. -/
theorem edge_run {fn : Func} {succ : Nat} (hrun : cgEdge fn succ cg = .val () cg') : ∃ r d, cgEmitPhiMoves cg.curBlock (fn.block succ) cg.toCg = .val r d ∧
    cg' = ({ cg with toCg := d } : CgFn).queued succ 8 24 (encI24 .jmp 0) := by
  unfold cgEdge at hrun
  rw [Exec.run_bind, Exec.run_get] at hrun
  obtain ⟨r, cg₁, hmoves, hjump⟩ := Exec.of_bind hrun
  obtain ⟨d, hd, rfl⟩ := of_lift hmoves
  exact ⟨r, d, hd, (Outcome.val.inj hjump).2.symm⟩

/-- The values behind an edge. -/
theorem Holds.after_edge (h : Holds c ⟨b.id, b.body.length⟩ env sp f) (hb : b ∈ src.fn.blocks) (hb' : b' ∈ src.fn.blocks)
    (hsucc : b'.id ∈ b.successors) (hreach : src.fn.graph.Reach ⟨b.id, b.body.length⟩) {d : Cg} (hok : d.Ok) {code : List Word} {n : Nat}
    (heq : d = { c.plan with code := code, nextReg := n }) {moves : List PhiMove}
    (hmoves : moves = (edgeMoves d b.id b'.phis).filter PhiMove.moves) (hmovesOk : MovesOk d d.nextReg moves)
    (hvalues : ∀ m ∈ moves, locWord d f' m.dst = m.value d f) (hch : f.ChangesOnly d d.nextReg (DstOf moves) f') :
    Holds c ⟨b'.id, 0⟩ (P.phiEnv env b.id b'.phis) sp f' ∧ ∀ q, ¬c.Private sp q → f'.heap.byte q = f.heap.byte q := by
  have hmove := Func.Moves.edge hb hb' hsucc
  have hhome : ∀ l, d.home? l = c.plan.home? l := fun l => by rw [heq]; rfl
  have hsame : ∀ (g : Frame κ W) (v : Val), operandWord d g v = operandWord c.plan g v := fun g v => by rw [heq, operandWord_emit]
  have hdistinct : DistinctDsts (edgeMoves d b.id b'.phis) := distinct_edge hb' hhome b.id
  have hspNot : ¬DstOf moves (.reg regSp) := by
    rintro ⟨m, hm, hdst⟩
    have hdstOk := (hmovesOk.each m hm).dst_ok
    rw [← hdst] at hdstOk
    exact hdstOk.ne_sp hok.next_le rfl
  have hsp := hch.sp hspNot
  have hdst : ∀ l, DstOf moves l → ∃ phi home, phi ∈ b'.phis ∧ c.plan.home? phi.result = some home ∧ l = cgPhiDstLoc home := by
    rintro l ⟨m, hm, rfl⟩
    rw [hmoves] at hm
    obtain ⟨phi, hphi, hm⟩ := List.mem_flatMap.mp (List.mem_filter.mp hm).1
    obtain ⟨home, hhome', hdst, -⟩ := phiMove_of hhome hm
    exact ⟨phi, home, hphi, hhome', hdst⟩
  have haddr : ∀ k, slotAddr d f k = slotAddr c.plan f k := fun k => by rw [heq]; rfl
  have hbytes : ∀ q, ¬c.Private sp q → f'.heap.byte q = f.heap.byte q := by
    refine fun q hq => hch.bytes q fun k hk => ?_
    obtain ⟨phi, home, hphi, hhome', hloc⟩ := hdst _ hk
    rcases c.homes.plain _ home hhome' with ⟨r, rfl, -⟩ | ⟨j, rfl, hj⟩
    · cases hloc
    · obtain rfl : k = j := Loc.slot.inj hloc
      by_contra hin
      exact hq (private_of_slot h.sp_eq hj (by rw [← haddr]; omega))
  refine ⟨⟨fun l hlive hwordL x hx => ?_, ?_, by rw [hsp, h.sp_eq], by rw [hch.size, h.size], h.fits⟩, hbytes⟩
  · rw [Program.phiEnv] at hx
    split at hx
    · -- The value of a phi.
      rename_i phi hfind
      have hphi := List.mem_of_find?_eq_some hfind
      obtain rfl : phi.result = l := of_decide_eq_true (List.find?_some (p := fun phi : Inst => phi.result = l) hfind)
      obtain ⟨sval, hsval, hx⟩ := Option.bind_eq_some_iff.mp hx
      have hmem := List.mem_flatMap.mpr ⟨b', hb', ((c.words.ssa.mem_phis hb').mp hphi).1⟩
      have hop := ((c.words.ssa.mem_phis hb').mp hphi).2
      obtain ⟨hword, hincoming⟩ : phi.ty.isWord = true ∧ ∀ v ∈ phi.operands, src.fn.typeOf v = phi.ty := by
        cases covered_of (c.words.insts phi hmem) with
        | phi hop' hword hincoming => exact ⟨hword, hincoming⟩
        | _ => simp_all [Op.intBinOp?]
      have htype : src.fn.typeOf sval = phi.ty := hincoming sval (Func.mem_operands_of_incomingFrom hsval)
      obtain ⟨home, hhome'⟩ := c.homes.inst phi hmem (Ty.not_wide hword).2.2.2.2
      have heh : phi.isEh = false := by
        have hpads : phi.ty.isEhPad = false := by
          cases hty : phi.ty with
          | struct fields =>
            rw [hty] at hword
            cases hword
          | void | int | pointer | float | double | vector | other => rfl
        simp [Inst.isEh, hop, hpads]
      have hholds := PhiAux.edge_holds hok hdistinct (hmoves ▸ hmovesOk) (hmoves ▸ hch) (fun m hm => hvalues m (hmoves ▸ hm)) hphi heh hsval
        ((hhome _).trans hhome')
      have hwide : home.i64Slot = none := by
        rcases c.homes.plain _ home hhome' with ⟨r, rfl, -⟩ | ⟨n, rfl, -⟩ <;> rfl
      simp only [HoldsValue, hwide] at hholds
      have hsource : HoldsOperand P src.fn c.plan f env sval := by
        refine holdsOperand_of c.plan_globals.1 c.plan_globals.2 fun l hl => h.values l ?_
        subst hl
        exact .use hmove ⟨phi, hphi, hsval⟩
      have hresult : operandWord c.plan f' (.loc phi.result) = operandWord c.plan f sval := by
        rw [← hsame, ← hsame, ← hholds]
        simp only [operandWord, (hhome _).trans hhome', Option.map_some, Option.getD_some]
      rw [hresult, c.words.typeOf_result hmem, ← htype]
      exact hsource (by rw [htype]; exact hword) x hx
    · -- A value that stays.
      rename_i hfind
      have hno : ∀ phi ∈ b'.phis, l ≠ phi.result := fun phi hphi heq' => by
        have hnone := List.find?_eq_none.mp hfind phi hphi
        exact hnone (by simpa using heq'.symm)
      have hbefore : src.fn.graph.Live l ⟨b.id, b.body.length⟩ := .pass hmove (fun hdef => by
        obtain ⟨phi, hphi, heq'⟩ := hdef
        exact hno phi hphi heq') hlive
      have hold := h.values l hbefore hwordL x hx
      cases hhomeL : c.plan.home? l with
      | none =>
        simp only [operandWord, hhomeL, Option.map_none] at hold ⊢
        exact hold
      | some homeL =>
        have hkeep : locWord d f' (cgPhiDstLoc homeL) = locWord d f (cgPhiDstLoc homeL) := by
          refine hch.locWord_eq hok.next_le hspNot ((hok.home_ok ((hhome l).trans hhomeL)).1) fun hd => ?_
          obtain ⟨phi, home, hphi, hhome', hloc⟩ := hdst _ hd
          exact c.apart hreach hmove ⟨phi, hphi, rfl⟩ hlive (hno phi hphi) homeL home hhomeL hhome' hloc
        have hwordL : ∀ g : Frame κ W, operandWord c.plan g (.loc l) = locWord d g (cgPhiDstLoc homeL) := fun g => by
          rw [← hsame, operandWord_loc ((hhome l).trans hhomeL)]
        rw [hwordL, hkeep, ← hwordL]
        exact hold
  · rw [hch.regs cgRegZero (not_scratch_of_gt (Or.inl rfl)) (fun hd => ?_), h.zero]
    obtain ⟨m, hm, hd⟩ := hd
    exact (hmovesOk.each m hm).dst_ne_zero hd.symm

variable (host) in
/-- What the emission of an edge gives: moves that are done, and a jump. -/
theorem edge_done (hfront : c.st.front.Advances c.st.targets cg) (hok : cg.toCg.Ok) (hrun : cgEdge src.fn b'.id cg = .val () cg')
    (hin : InFrame c.plan img f) (hb' : b' ∈ src.fn.blocks) : ∃ r d f', cg' = ({ cg with toCg := d } : CgFn).queued b'.id 8 24 (encI24 .jmp 0) ∧
      cg.nextReg ≤ d.nextReg ∧ d.nextReg ≤ cgMaxEmitReg + 1 ∧ r = (edgeMoves cg.toCg cg.curBlock b'.phis).filter PhiMove.moves ∧
        MovesOk cg.toCg cg.nextReg r ∧ MovesDone img host cg.toCg f cg.nextReg r d f' := by
  obtain ⟨r, d, hmoves, rfl⟩ := edge_run hrun
  rw [block_eq hb' c.words.ssa] at hmoves
  obtain ⟨code, n, heq⟩ := toCg_of_front hfront
  have hin : InFrame cg.toCg img f := by
    rw [heq]
    exact ⟨hin.size, hin.fits⟩
  have hdistinct : DistinctDsts (edgeMoves cg.toCg cg.curBlock b'.phis) := distinct_edge hb' (fun l => by rw [heq]; rfl) cg.curBlock
  obtain ⟨hr, -, hlo, hhi, hmovesOk, f', hdone⟩ := Exec.of_wp (wp_cgEmitPhiMoves host c.code hok hin hdistinct) hmoves
  exact ⟨r.1, d, f', rfl, hlo, hhi, hr, hmovesOk, hdone⟩

variable (host) in
/-- An edge leads to its block. -/
theorem edge_goes (hbetween : c.Between cg cg') (hfront : c.st.front.Advances c.st.targets cg) (hcur : cg.curBlock = b.id) (hok : cg.toCg.Ok)
    (hrun : cgEdge src.fn b'.id cg = .val () cg') (h : Holds c ⟨b.id, b.body.length⟩ env sp f) (hb : b ∈ src.fn.blocks) (hb' : b' ∈ src.fn.blocks)
    (hsucc : b'.id ∈ b.successors) (hreach : src.fn.graph.Reach ⟨b.id, b.body.length⟩) :
    ∃ f', Goes c.st.whole img host cg.code.length f (c.st.whole.offsetOf b'.id) f' ∧
      Holds c ⟨b'.id, 0⟩ (P.phiEnv env b.id b'.phis) sp f' ∧ ∀ q, ¬c.Private sp q → f'.heap.byte q = f.heap.byte q := by
  obtain ⟨code, n, heq⟩ := toCg_of_front hfront
  obtain ⟨r, d, f', rfl, -, -, hr, hmovesOk, hdone⟩ := edge_done host hfront hok hrun h.inFrame hb'
  rw [hcur] at hr
  obtain ⟨hholds, hbytes⟩ := h.after_edge hb hb' hsucc hreach hok heq hr hmovesOk hdone.values hdone.changes
  obtain ⟨ws, m, rfl, hruns⟩ := hdone.emitted
  have hlen : (cg.code ++ ws).length = cg.code.length + ws.length := List.length_append
  obtain ⟨hstands, hjump⟩ := (hbetween (ws ++ [encI24 .jmp 0]) ([] ++ [{ instIndex := (cg.code ++ ws).length, target := b'.id, shift := 8, bits := 24 }])
    (List.append_assoc ..) rfl).split (fun _ h => absurd h List.not_mem_nil) fun fx hfx => by
      obtain rfl := List.mem_singleton.mp hfx
      exact Nat.le_of_eq hlen.symm
  have hgo : Goes c.st.whole img host _ f' _ f' := hjump.branch hlen f'
  rw [if_pos branchTaken_jmp] at hgo
  exact ⟨f', (hstands.straight hruns).trans hgo, hholds, hbytes⟩

/-- The values behind an edge without phis. -/
theorem Holds.after_plain_edge (h : Holds c ⟨b.id, b.body.length⟩ env sp f) (hb : b ∈ src.fn.blocks) (hb' : b' ∈ src.fn.blocks)
    (hsucc : b'.id ∈ b.successors) (hnone : b'.phis = []) : Holds c ⟨b'.id, 0⟩ (P.phiEnv env b.id b'.phis) sp f := by
  refine h.congr rfl (fun _ _ => rfl) h.zero rfl (fun _ _ => rfl) fun l _ hlive => ⟨?_, ?_⟩
  · refine .pass (Func.Moves.edge hb hb' hsucc) (fun hdef => ?_) hlive
    obtain ⟨phi, hphi, -⟩ := hdef
    rw [hnone] at hphi
    exact absurd hphi List.not_mem_nil
  · rw [hnone]
    rfl

/-- A block without phis has none to move. -/
theorem phis_nil (c : Compiled P mi img k src) (hb' : b' ∈ src.fn.blocks) (h : cgBlockHasPhi b' ≠ true) : b'.phis = [] := by
  rw [List.eq_nil_iff_forall_not_mem]
  intro phi hphi
  obtain ⟨hmem, hop⟩ := (c.words.ssa.mem_phis hb').mp hphi
  have hpads : phi.ty.isEhPad = false := by
    rcases covers_ty (c.words.inst_covers hb' hmem) with hty | hty
    · rw [hty]
      rfl
    · cases hty' : phi.ty with
      | struct fields =>
        rw [hty'] at hty
        cases hty
      | void | int | pointer | float | double | vector | other => rfl
  refine h (List.any_eq_true.mpr ⟨phi, hphi, ?_⟩)
  simp [Inst.isEh, hop, hpads]

/-- A terminator is at the end of its block. -/
theorem pos_of_terminator (c : Compiled P mi img k src) (hb : b ∈ src.fn.blocks) (hi : b.body[pos]? = some i) (hop : i.op.isTerminator = true) :
    pos + 1 = b.body.length := by
  have hlast := Block.getLast_of_closed (c.words.closed b hb) (Func.mem_body.mp (List.mem_of_getElem? hi)).1 hop
  obtain ⟨hlt, hget⟩ := List.getElem?_eq_some_iff.mp hi
  have hne : b.body ≠ [] := List.ne_nil_of_length_pos (Nat.lt_of_le_of_lt (Nat.zero_le pos) hlt)
  rw [c.words.ssa.insts_eq hb, List.getLast?_append_of_ne_nil _ hne, List.getLast?_eq_getElem?] at hlast
  have hnodup : b.body.Nodup := (c.words.ssa.ids.of_map.sublist (Func.insts_sublist hb)).filter _
  have heq := (List.getElem?_inj hlt hnodup).mp (hi.trans hlast.symm)
  omega

/-- A jump over code of which no branch is widened. -/
theorem goes_over (c : Compiled P mi img k src) (host : Host κ W) {p skip : Nat} (f : Frame κ W)
    (hat : c.st.whole.code[p]? = some (encI24 .jmp (BitVec.ofNat 32 skip))) (hskip : skip ≤ 0x7FFFFF) (hend : p + 1 + skip ≤ c.st.whole.code.length)
    (hnone : ∀ fx ∈ c.st.whole.fixups, p ≤ fx.instIndex → fx.instIndex < p + 1 + skip → fx.instIndex ≠ p ∧ fx.bits ≠ 8) :
    Goes c.st.whole img host p f (p + 1 + skip) f := by
  obtain ⟨hlinked, -⟩ := cgFinish_ok c.image.wf c.image.finished
  have hplace : finalPlace c.st.whole (p + 1 + skip) = finalPlace c.st.whole p + 1 + skip := by
    have hnot : ∀ x, p ≤ x → x < p + 1 + skip → widened c.st.whole (relaxedOf c.st.whole) x = false := fun x hlo hhi => by
      rw [Bool.eq_false_iff]
      intro hw
      obtain ⟨fx, hfx, rfl, hbits⟩ := hlinked.widened x hw
      exact (hnone fx hfx hlo hhi).2 hbits
    rw [finalPlace, placeOf_eq_add (show p ≤ p + 1 + skip by omega) hnot, finalPlace]
    omega
  have hfinal : img.code[finalPlace c.st.whole p]? = some (encI24 .jmp (BitVec.ofInt 32 skip)) := by
    refine Linked.image_at c.image.hasAt ?_
    rw [finalPlace, hlinked.plain p (by omega) fun fx hfx hpos => (hnone fx hfx (by omega) (by omega)).1 hpos, hat, BitVec.ofInt_natCast]
  unfold Goes
  rw [hplace]
  exact .step .refl (step_jmp c.code hfinal (by omega) (by omega) (by push_cast; omega))

/-- Each block is a target. -/
theorem mem_targets (c : Compiled P mi img k src) (hb : b ∈ src.fn.blocks) : b.id ∈ c.st.targets := List.mem_map_of_mem hb

section cond

variable {t e : Ir.Block} {condReg : Byte}
variable (hfront : c.st.front.Advances c.st.targets cg) (hcur : cg.curBlock = b.id) (hok : cg.toCg.Ok) (hlater : Later cg' c.st.whole)
variable (h : Holds c ⟨b.id, b.body.length⟩ env sp f) (hb : b ∈ src.fn.blocks) (ht : t ∈ src.fn.blocks) (he : e ∈ src.fn.blocks)
variable (htrue : t.id ∈ b.successors) (hfalse : e.id ∈ b.successors) (hreach : src.fn.graph.Reach ⟨b.id, b.body.length⟩)
include hfront hcur hok hlater h hb ht he htrue hfalse hreach

/-- Both edges have moves. -/
theorem brCond_section (hrun : (cgFalseSection src.fn condReg e.id >>= fun _ => (cgEdge src.fn t.id).func) cg = .val () cg') :
    ∃ f', Goes c.st.whole img host cg.code.length f (c.st.whole.offsetOf (if f.regs condReg = 0 then e else t).id) f' ∧
      Holds c ⟨(if f.regs condReg = 0 then e else t).id, 0⟩ (P.phiEnv env b.id (if f.regs condReg = 0 then e else t).phis) sp f' ∧
        ∀ q, ¬c.Private sp q → f'.heap.byte q = f.heap.byte q := by
  obtain ⟨_, cg₃, hsection, hrun⟩ := Exec.of_bind hrun
  obtain ⟨cg₄, hedgeT, heq⟩ := Exec.of_zoom hrun
  obtain rfl : cg' = cg₄ := heq
  have hemitsT := queuesOnly_cgEdge src.fn (c.mem_targets ht) _ _ _ hedgeT
  have hemitsE := queuesOnly_cgFalseSection src.fn condReg (c.mem_targets he) _ _ _ hsection
  have hfront₃ := trans_of (CgFn.Advances c.st.targets) hfront hemitsE.advances
  have hlater₃ : Later cg₃ c.st.whole := (hemitsT.advances.later (pool_of_front hfront₃)).trans hlater
  have hbetweenE := between_of_emits hfront hemitsE hlater₃
  have hbetweenT := between_of_emits hfront₃ hemitsT hlater
  obtain ⟨cg₂, skip, hedge, hle, hskip, heq₃⟩ := falseSection_run hsection
  have hokE : (cg.toCg.emit [encBr .beq condReg cg.zeroReg 1, encI24 .jmp 0]).Ok := ⟨hok.1, hok.2, hok.3, hok.4, hok.5, hok.6, hok.7, hok.8⟩
  obtain ⟨r, d, fE, rfl, hlo, hhi, -, -, hdone⟩ := edge_done host (front_emit hfront _) hokE hedge h.inFrame he
  obtain ⟨ws, n, rfl, -⟩ := hdone.emitted
  have hlen : (cg.code ++ [encBr .beq condReg cg.zeroReg 1, encI24 .jmp 0]).length = cg.code.length + 2 := List.length_append
  have hskip : skip = ws.length + 1 := by
    rw [hskip]
    simp only [CgFn.queued, Cg.emit, List.length_append, List.length_cons, List.length_nil]
    omega
  -- What stands in the finished function: the branch and the jump, then the edge.
  have hcode : cg₃.code = cg.code ++ ([encBr .beq condReg cg.zeroReg 1, encI24 .jmp (BitVec.ofNat 32 skip)] ++ (ws ++ [encI24 .jmp 0])) := by
    rw [heq₃]
    simp [CgFn.queued, Cg.emit]
  have hfixups : cg₃.fixups = cg.fixups ++ ([] ++ [{ instIndex := cg.code.length + 2 + ws.length, target := e.id, shift := 8, bits := 24 }]) := by
    rw [heq₃]
    simp [CgFn.queued, Cg.emit]
    omega
  have hall := hbetweenE _ _ hcode hfixups
  obtain ⟨hguard, hrest⟩ := hall.split (fun _ h => absurd h List.not_mem_nil) fun fx hfx => by
    obtain rfl := List.mem_singleton.mp hfx
    exact Nat.le_add_right _ _
  have hend : cg.code.length + 2 + (ws.length + 1) ≤ c.st.whole.code.length := by
    have hlt := hall.1.length_le
    simp only [List.length_append, List.length_cons, List.length_nil] at hlt
    omega
  have hbranch : c.st.whole.code[cg.code.length]? = some (encBr .beq condReg cg.zeroReg (BitVec.ofInt 8 1)) := hguard.1.getElem? (k := 0) (by simp)
  have hjump : c.st.whole.code[cg.code.length + 1]? = some (encI24 .jmp (BitVec.ofNat 32 skip)) := hguard.1.getElem? (k := 1) (by simp)
  have hskipGo : GoesVia c.st.whole img host 0 0 cg.code.length f _ f := GoesVia.skip c.image (Or.inr rfl) (d := 1) (by decide) hbranch (by omega)
    fun fx hfx hlo hhi => absurd ((hguard.2 fx).mpr ⟨hfx, hlo, hhi⟩) List.not_mem_nil
  have hzero : f.regs cg.zeroReg = 0 := by rw [hok.zero, h.zero]
  have hiff : CondHolds .beq (f.regs condReg) (f.regs cg.zeroReg) ↔ f.regs condReg = 0 := by
    rw [CondHolds, if_neg (by decide), hzero]
  by_cases hcond : f.regs condReg = 0
  · rw [if_pos (hiff.mpr hcond)] at hskipGo
    simp only [if_pos hcond]
    have hbetween₀ : c.Between { cg with toCg := cg.toCg.emit [encBr .beq condReg cg.zeroReg 1, encI24 .jmp 0] } (CgFn.queued
        { cg with toCg := { cg.toCg.emit [encBr .beq condReg cg.zeroReg 1, encI24 .jmp 0] with
          code := (cg.toCg.emit [encBr .beq condReg cg.zeroReg 1, encI24 .jmp 0]).code ++ ws, nextReg := n } } e.id 8 24 (encI24 .jmp 0)) := by
      intro us gs hus hgs
      obtain rfl : us = ws ++ [encI24 .jmp 0] := (List.append_cancel_left (hus.symm.trans (List.append_assoc ..)))
      have hgs := (List.append_cancel_left hgs).symm
      rw [hgs]
      have hstart : ((cg.code ++ [encBr .beq condReg cg.zeroReg 1, encI24 .jmp 0]) ++ ws).length = cg.code.length + 2 + ws.length := by
        rw [List.length_append, hlen]
      simp only [Cg.emit, hstart, hlen]
      exact hrest
    obtain ⟨f', hgo, hholds, hbytes⟩ := edge_goes host hbetween₀ (front_emit hfront _) hcur hokE hedge h hb he hfalse hreach
    have hstart : (cg.code ++ [encBr .beq condReg cg.zeroReg 1, encI24 .jmp 0]).length = cg.code.length + 1 + 1 := hlen
    refine ⟨f', hskipGo.goes.trans ?_, hholds, hbytes⟩
    rw [← hstart]
    exact hgo
  · rw [if_neg fun hc => hcond (hiff.mp hc)] at hskipGo
    simp only [if_neg hcond]
    have hover := c.goes_over host (p := cg.code.length + 1) f hjump hle (by omega) fun fx hfx hlo hhi => by
      have hmem := (hall.2 fx).mpr ⟨hfx, by omega, by
        simp only [List.length_append, List.length_cons, List.length_nil]
        omega⟩
      obtain rfl := List.mem_singleton.mp hmem
      exact ⟨by dsimp only; omega, show (24 : Nat) ≠ 8 by decide⟩
    have hcg₃ : cg₃.code.length = cg.code.length + 1 + 1 + skip := by
      rw [hcode]
      simp only [List.length_append, List.length_cons, List.length_nil]
      omega
    have hok₃ : cg₃.toCg.Ok := by
      obtain ⟨code, m, hm⟩ := toCg_of_front hfront
      have hhigh : c.plan.ssaRegHigh ≤ cg.nextReg := by
        have hle := hok.high_le
        rwa [hm] at hle ⊢
      refine ok_of_front hfront₃ ?_ ?_
      · rw [heq₃]
        exact Nat.le_trans hhigh hlo
      · rw [heq₃]
        exact hhi
    obtain ⟨f', hgo, hholds, hbytes⟩ := edge_goes host hbetweenT hfront₃ (by rw [heq₃]; exact hcur) hok₃ hedgeT h hb ht htrue hreach
    rw [hcg₃] at hgo
    exact ⟨f', (hskipGo.goes.trans hover).trans hgo, hholds, hbytes⟩

/-- A branch to a block without phis, and behind it an edge. -/
theorem branch_goes {op : Opcode} (hop : op = .bne ∨ op = .beq) (hnone : e.phis = [])
    (hrun : ((cgBranchTo op condReg e.id).func >>= fun _ => (cgEdge src.fn t.id).func) cg = .val () cg') {b' : Ir.Block}
    (hb' : b' = if CondHolds op (f.regs condReg) 0 then e else t) :
    ∃ f', Goes c.st.whole img host cg.code.length f (c.st.whole.offsetOf b'.id) f' ∧
      Holds c ⟨b'.id, 0⟩ (P.phiEnv env b.id b'.phis) sp f' ∧ ∀ q, ¬c.Private sp q → f'.heap.byte q = f.heap.byte q := by
  obtain ⟨_, cg₁, hbranch, hrun⟩ := Exec.of_bind hrun
  obtain ⟨cg₂, hbranch, heq⟩ := Exec.of_zoom hbranch
  obtain rfl : cg₁ = cg₂ := heq
  obtain ⟨cg₃, hedge, heq⟩ := Exec.of_zoom hrun
  obtain rfl : cg' = cg₃ := heq
  have hemitsB := queuesOnly_cgBranchTo hop condReg (c.mem_targets he) _ _ _ hbranch
  have hemitsT := queuesOnly_cgEdge src.fn (c.mem_targets ht) _ _ _ hedge
  have hfront₁ := trans_of (CgFn.Advances c.st.targets) hfront hemitsB.advances
  have hlater₁ : Later cg₁ c.st.whole := (hemitsT.advances.later (pool_of_front hfront₁)).trans hlater
  obtain rfl : cg.queued e.id 24 8 (encBr op condReg cg.zeroReg 0) = cg₁ := (Outcome.val.inj hbranch).2
  have hgo : Goes c.st.whole img host _ f _ f := (between_of_emits hfront hemitsB hlater₁ [encBr op condReg cg.zeroReg 0] [_] rfl rfl).branch rfl f
  have hzero : f.regs cg.zeroReg = 0 := by rw [hok.zero, h.zero]
  by_cases hcond : CondHolds op (f.regs condReg) 0
  · rw [if_pos hcond] at hb'
    subst hb'
    rw [if_pos ((branchTaken_encBr hop).mpr (by rwa [hzero]))] at hgo
    exact ⟨f, hgo, h.after_plain_edge hb he hfalse hnone, fun _ _ => rfl⟩
  · rw [if_neg hcond] at hb'
    subst hb'
    rw [if_neg fun hc => hcond (by rw [← hzero]; exact (branchTaken_encBr hop).mp hc)] at hgo
    have hok₁ : (cg.queued e.id 24 8 (encBr op condReg cg.zeroReg 0)).toCg.Ok := ⟨hok.1, hok.2, hok.3, hok.4, hok.5, hok.6, hok.7, hok.8⟩
    obtain ⟨f', hgo', hholds, hbytes⟩ := edge_goes host (between_of_emits hfront₁ hemitsT hlater) hfront₁ hcur hok₁ hedge h hb ht htrue hreach
    have hlen : (cg.queued e.id 24 8 (encBr op condReg cg.zeroReg 0)).code.length = cg.code.length + 1 := List.length_append
    rw [hlen] at hgo'
    exact ⟨f', hgo.trans hgo', hholds, hbytes⟩

/-- The conditional branch goes to the block that the condition selects. -/
theorem brCond_goes (hrun : cgBrCond src.fn condReg t.id e.id cg = .val () cg') {b' : Ir.Block} (hb' : b' = if f.regs condReg = 0 then e else t) :
    ∃ f', Goes c.st.whole img host cg.code.length f (c.st.whole.offsetOf b'.id) f' ∧
      Holds c ⟨b'.id, 0⟩ (P.phiEnv env b.id b'.phis) sp f' ∧ ∀ q, ¬c.Private sp q → f'.heap.byte q = f.heap.byte q := by
  rw [cgBrCond, block_eq ht c.words.ssa, block_eq he c.words.ssa] at hrun
  by_cases hphiT : cgBlockHasPhi t = true
  · by_cases hphiE : cgBlockHasPhi e = true
    · rw [if_pos ⟨hphiT, hphiE⟩] at hrun
      subst hb'
      exact brCond_section hfront hcur hok hlater h hb ht he htrue hfalse hreach hrun
    · rw [if_neg fun hboth => hphiE hboth.2, if_pos hphiT] at hrun
      refine branch_goes hfront hcur hok hlater h hb ht he htrue hfalse hreach (Or.inr rfl) (c.phis_nil he hphiE) hrun ?_
      rw [hb']
      exact if_congr (by rw [CondHolds.eq_1, if_neg (by decide)]) rfl rfl
  · rw [if_neg fun hboth => hphiT hboth.1, if_neg hphiT] at hrun
    refine branch_goes hfront hcur hok hlater h hb he ht hfalse htrue hreach (Or.inl rfl) (c.phis_nil ht hphiT) hrun ?_
    rw [hb', ← ite_not]
    exact if_congr (by rw [CondHolds.eq_1, if_pos rfl]) rfl rfl

end cond

variable {a : Activation} {mem : Contents} {succ : Nat}

variable (host) in
/-- A branch leads to the start of a block. -/
theorem At.jump (hat : c.At b pos cg) (hi : b.body[pos]? = some i) (hop : i.op = .br) (h : Holds c ⟨b.id, pos⟩ a.env a.sp f) (hblock : a.block = b.id)
    (hnext : P.next src a mem i = some (.jump succ)) : ∃ b' cg' f', b'.id = succ ∧ c.At b' 0 cg' ∧
      Goes c.st.whole img host cg.code.length f cg'.code.length f' ∧ Holds c ⟨succ, 0⟩ (P.jump src a succ).env a.sp f' ∧
        ∀ q, ¬c.Private a.sp q → f'.heap.byte q = f.heap.byte q := by
  obtain ⟨hmem, hphi⟩ := Func.mem_body.mp (List.mem_of_getElem? hi)
  have hcovers := c.words.inst_covers hat.mem hmem
  obtain ⟨hvoid, hsuccs⟩ : i.ty = .void ∧ (i.successors.length = 1 ∨ i.successors.length = 2 ∧ src.fn.typeOf (i.operand 0) = .int 1) := by
    cases covered_of hcovers with
    | br hop' hty hlen => exact ⟨hty, hlen⟩
    | _ => simp_all [Op.intBinOp?]
  have hterm : i.op.isTerminator = true := by rw [hop]; rfl
  have hend : pos + 1 = b.body.length := c.pos_of_terminator hat.mem hi hterm
  have hmove := Func.Moves.inst hat.mem hi
  have hreach : src.fn.graph.Reach ⟨b.id, b.body.length⟩ := hend ▸ hat.reach.move hmove
  have hholds : Holds c ⟨b.id, b.body.length⟩ a.env a.sp f := by
    rw [← hend]
    exact h.congr rfl (fun _ _ => rfl) h.zero rfl (fun _ _ => rfl) fun l hword hlive =>
      ⟨(show _ ∧ Function.update a.env i.result none l = a.env l from live_of_void c.words hat.mem hi hvoid none l hword hlive).1, rfl⟩
  obtain ⟨cg₁, hturn, hat'⟩ := hat.turn hi
  have hlater := hat'.later
  have hturn : cgBr src.fn i (ready cg) = .val () cg₁ := by
    rw [cgTurn_eq hcovers] at hturn
    simp only [hop] at hturn
    exact hturn
  obtain ⟨code, heq⟩ := ready_eq hat.front
  have hok := ready_ok hat.front
  have hfront : c.st.front.Advances c.st.targets (ready cg) := front_next hat.front _
  have hin : InFrame (ready cg).toCg img f := by
    rw [heq]
    exact ⟨h.inFrame.size, h.inFrame.fits⟩
  -- It is enough that the code leads to a block that is the target.
  have hdone : ∀ b' ∈ src.fn.blocks, b'.id ∈ b.successors → b'.id = succ → ∀ f', Goes c.st.whole img host cg.code.length f (c.st.whole.offsetOf b'.id) f' →
      Holds c ⟨b'.id, 0⟩ (P.phiEnv a.env b.id b'.phis) a.sp f' → (∀ q, ¬c.Private a.sp q → f'.heap.byte q = f.heap.byte q) →
      ∃ b' cg' f', b'.id = succ ∧ c.At b' 0 cg' ∧ Goes c.st.whole img host cg.code.length f cg'.code.length f' ∧
        Holds c ⟨succ, 0⟩ (P.jump src a succ).env a.sp f' ∧ ∀ q, ¬c.Private a.sp q → f'.heap.byte q = f.heap.byte q := by
    intro b' hb' hsucc hid f' hgo hholds' hbytes
    obtain ⟨cg', hat'', hlen⟩ := at_block c hb' (hreach.move (Func.Moves.edge hat.mem hb' hsucc))
    refine ⟨b', cg', f', hid, hat'', by rw [hlen]; exact hgo, ?_, hbytes⟩
    rw [Program.jump, hblock, ← hid, block_eq hb' c.words.ssa]
    exact hholds'
  simp only [Program.next, hop, Program.branchEffect] at hnext
  unfold cgBr at hturn
  split at hnext
  · rename_i target hsuccs'
    obtain rfl := Effect.jump.inj (Option.some.inj hnext)
    simp only [hsuccs'] at hturn
    obtain ⟨cg₂, hedge, heq₂⟩ := Exec.of_zoom hturn
    obtain rfl : cg₁ = cg₂ := heq₂
    obtain ⟨hsucc, hid⟩ := c.words.succ_mem hat.mem hmem hterm (s := target) (by rw [hsuccs']; exact List.mem_singleton_self _)
    obtain ⟨b', hb', rfl⟩ := List.mem_map.mp hid
    have hemits := queuesOnly_cgEdge src.fn (c.mem_targets hb') _ _ _ hedge
    obtain ⟨f', hgo, hholds', hbytes⟩ := edge_goes host (between_of_emits hfront hemits hlater) hfront hat.cur hok hedge hholds hat.mem hb' hsucc hreach
    exact hdone b' hb' hsucc rfl f' hgo hholds' hbytes
  · rename_i trueBb falseBb hsuccs'
    obtain ⟨cond, hcond, hjump⟩ := Option.map_eq_some_iff.mp hnext
    obtain rfl := Effect.jump.inj hjump
    simp only [hsuccs'] at hturn
    obtain ⟨condReg, cg₂, hreg, hturn⟩ := Exec.of_bind hturn
    obtain ⟨cg₃, hlift, heq₃⟩ := Exec.of_zoom hreg
    obtain rfl : cg₂ = cg₃ := heq₃
    obtain ⟨d, hrun, rfl⟩ := of_lift hlift
    have htype : src.fn.typeOf (i.operand 0) = .int 1 := by
      rw [hsuccs'] at hsuccs
      exact (hsuccs.resolve_left (by simp)).2
    obtain ⟨f₁, hem, hag, hlo, hhi, hval, -⟩ := Exec.of_wp (wp_cgRegFor host c.code hok hin (i.operand 0)) hrun
    have hemits : (ready cg).Emits c.st.targets { ready cg with toCg := d } := emits_of_emitted hem
    have hfront₁ := trans_of (CgFn.Advances c.st.targets) hfront hemits.advances
    have hmemS : ∀ s ∈ i.successors, s ∈ b.successors ∧ ∃ b' ∈ src.fn.blocks, b'.id = s := fun s hs => by
      obtain ⟨hsucc, hid⟩ := c.words.succ_mem hat.mem hmem hterm hs
      exact ⟨hsucc, List.mem_map.mp hid⟩
    obtain ⟨htrue, t, ht, rfl⟩ := hmemS trueBb (by rw [hsuccs']; exact List.mem_cons_self)
    obtain ⟨hfalse, e, he, rfl⟩ := hmemS falseBb (by rw [hsuccs']; exact List.mem_cons_of_mem _ (List.mem_singleton_self _))
    have hemits₁ : CgFn.Emits c.st.targets { ready cg with toCg := d } cg₁ := queuesOnly_cgBrCond src.fn condReg (c.mem_targets ht) (c.mem_targets he) _ _ _ hturn
    have hgo := (between_of_emits hfront hemits ((hemits₁.advances.later (pool_of_front hfront₁)).trans hlater)).goes rfl hem
    have hnext : (ready cg).toCg.nextReg = c.plan.ssaRegHigh := by rw [heq]
    have hok₁ : d.Ok := hem.ok hok (Nat.le_trans hok.high_le hlo) hhi
    have hholds₁ : Holds c ⟨b.id, b.body.length⟩ a.env a.sp f₁ := by
      rw [hnext] at hag
      have hhigh : c.plan.ssaRegHigh ≤ cgMaxEmitReg + 1 := Nat.le_trans c.plan_ok.high_le c.plan_ok.next_le
      refine hholds.congr (hag.regs _ (not_scratch_of_gt (Or.inr rfl))) (fun r hr => hag.regs r (not_scratch_of_lt hhigh hr)) ?_ (by rw [hag.heap])
        (fun q _ => by rw [hag.heap]) fun l _ hlive => ⟨hlive, rfl⟩
      rw [hag.regs _ (not_scratch_of_gt (Or.inl rfl))]
      exact h.zero
    have hword := (holdsOperands_ready heq (h.operands hat.mem hi)).operand 0 (by rw [htype]; rfl) cond hcond
    have hbool : f₁.regs condReg = boolWord (cond % 2 = 1) := by rw [hval, hword.boolWord_eq htype]
    have hpick : (if cond % 2 = 1 then t else e) = if f₁.regs condReg = 0 then e else t := by
      rw [hbool]
      by_cases hodd : cond % 2 = 1 <;> simp [boolWord, hodd]
    obtain ⟨f', hgo', hholds', hbytes⟩ := brCond_goes hfront₁ hat.cur hok₁ hlater hholds₁ hat.mem ht he htrue hfalse hreach hturn hpick
    refine hdone (if cond % 2 = 1 then t else e) (by split <;> assumption) (by split <;> assumption) (by split <;> rfl) f' (hgo.trans hgo') hholds' fun q hq => ?_
    rw [hbytes q hq, hag.heap]
  · cases hnext

end branches

end Compiled

end CronoVM
