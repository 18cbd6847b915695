import CronoVM.Lemmas.Footprint
import CronoVM.Lemmas.WordEntry
import CronoVM.Theorems.Registers

/-!
# The code of a function does what the function does

A module goes through the translator, and its code stands in an image. While a function of it runs in the IR without calls, its code in the
interpreter goes through the same points: what is live is in its home, and the memory shows what the IR knows of it.
-/

namespace CronoVM

open Checked Ir

variable {κ W : Type}

/-! ## Modules in an image -/

/-- The program that a module is, with the frames that the translator lays out for it. -/
def Ir.Program.ofModule (mi : ModInfo) (globals : List (Nat × Word)) (srcs : List FnSource) (entries : List FuncEntry) (limit : Nat) : Program where
  td := mi.td
  globals := globals
  srcs := srcs
  frameBytes k := ((entries[k]?).map FuncEntry.frameSize).getD 0
  limit := limit

/-- The code of a module stands in the image, and its functions are at their entries. -/
structure HoldsModule (img : Image κ) (cg : CgFn) (entries : List FuncEntry) : Prop where
  code : img.code = cg.code
  count : img.codeCount.toNat = img.code.length
  entry : ∀ k e, entries[k]? = some e → img.funcTable.getD (cvmFnSlot k) 0 = BitVec.ofNat 32 e.entryOffset

namespace TranslationAux

variable {mi : ModInfo} {img : Image κ} {srcs : List FnSource} {cg cg' : CgFn} {entries : List FuncEntry} {limit : Nat}

/-- Each function of a translated module is compiled in the image that holds its code. -/
theorem compiled_of_module (hsrcs : ∀ src ∈ srcs, src.OfWords) (hfuncs : cg.funcs = srcs.map FnSource.id)
    (hrun : cgFunctions mi (fun _ => []) srcs 0 cg = .val entries cg') (hshort : cg'.code.length < 2 ^ 31) (himg : HoldsModule img cg' entries)
    {k : Nat} {src : FnSource} (hk : srcs[k]? = some src) : Nonempty (Compiled (Program.ofModule mi cg.globals srcs entries limit) mi img k src) := by
  obtain ⟨-, -, hall⟩ := functions_run hsrcs hrun hshort
  obtain ⟨cg₀, cg₂, ⟨st⟩, hentry, hglobals, hfuncs₀, hprefix⟩ := hall k src hk
  obtain ⟨rest, hrest⟩ := hprefix
  have hframe : (Program.ofModule mi cg.globals srcs entries limit).frameBytes k = cg₂.frameBytes := by
    simp only [Program.ofModule, hentry, Option.map_some, Option.getD_some]
  have hlen : cg₂.code.length ≤ cg'.code.length := by
    rw [← hrest, List.length_append]
    exact Nat.le_add_right _ _
  exact ⟨{
    before := cg₀
    after := cg₂
    st
    words := hsrcs src (List.mem_of_getElem? hk)
    found := hk
    td := rfl
    globals := hglobals
    funcs := hfuncs₀.trans hfuncs
    frame := hframe
    code := himg.count.symm
    hasAt := ⟨[], rest, by rw [himg.code, ← hrest, List.nil_append], rfl⟩
    entry := himg.entry k _ hentry
    short := Nat.lt_of_le_of_lt hlen hshort }⟩

end TranslationAux

/-! ## Steps of a function -/

/-- A step that is neither a call nor a return. -/
def Ir.Program.StepsWithin (P : Program) (s s' : State) : Prop := P.step s = some s' ∧ s'.callers = s.callers

namespace TranslationAux

variable {P : Program} {s s' : State}

/-- Such a step gives a value, or it is a branch. -/
theorem stepsWithin_cases (h : P.StepsWithin s s') : ∃ src i, P.current s.top = some (src, i) ∧
    ((∃ x mem, P.next src s.top s.mem i = some (.value x mem) ∧ s' = { s with top := s.top.define i x, mem }) ∨
      ∃ succ, P.next src s.top s.mem i = some (.jump succ) ∧ s' = { s with top := P.jump src s.top succ }) := by
  obtain ⟨hstep, hcallers⟩ := h
  unfold Program.step at hstep
  obtain ⟨⟨src, i⟩, hcur, hstep⟩ := Option.bind_eq_some_iff.mp hstep
  obtain ⟨effect, hnext, hstep⟩ := Option.bind_eq_some_iff.mp hstep
  refine ⟨src, i, hcur, ?_⟩
  cases effect with
  | value x mem => exact Or.inl ⟨x, mem, hnext, (Option.some.inj hstep).symm⟩
  | jump succ => exact Or.inr ⟨succ, hnext, (Option.some.inj hstep).symm⟩
  | call k args =>
    obtain ⟨-, hstep⟩ := Option.ite_none_right_eq_some.mp hstep
    obtain ⟨e, -, rfl⟩ := Option.map_eq_some_iff.mp hstep
    exact absurd (congrArg List.length hcallers) (Nat.succ_ne_self _)
  | ret ty x =>
    dsimp only at hstep
    unfold Program.resume at hstep
    split at hstep
    · cases hstep
    · rename_i c callers heq
      obtain ⟨cur, -, hstep⟩ := Option.bind_eq_some_iff.mp hstep
      obtain ⟨-, hstep⟩ := Option.ite_none_right_eq_some.mp hstep
      obtain rfl := Option.some.inj hstep
      dsimp only at hcallers
      rw [heq] at hcallers
      exact absurd (congrArg List.length hcallers) (Nat.succ_ne_self _).symm

/-- Only a branch jumps. -/
theorem op_of_jump {src : FnSource} {a : Activation} {mem : Contents} {i : Inst} {succ : Nat} (h : P.next src a mem i = some (.jump succ)) :
    i.op = .br := by
  unfold Program.next at h
  split at h
  case h_11 hop => exact hop
  case h_12 =>
    unfold Program.retEffect at h
    split at h <;> cases h
  all_goals simp_all [Program.callEffect, Option.bind_eq_some_iff]

/-- Only a return returns. -/
theorem op_of_ret {src : FnSource} {a : Activation} {mem : Contents} {i : Inst} {ty : Ty} {x : Option Nat}
    (h : P.next src a mem i = some (.ret ty x)) : i.op = .ret := by
  unfold Program.next at h
  split at h
  case h_12 hop => exact hop
  case h_11 =>
    unfold Program.branchEffect at h
    split at h
    · cases h
    · obtain ⟨_, -, heq⟩ := Option.map_eq_some_iff.mp h
      cases heq
    · cases h
  all_goals simp_all [Program.callEffect, Option.bind_eq_some_iff]

end TranslationAux

/-! ## Points -/

/-- The interpreter is at a point of the function that runs: the code of the next instruction is next, what is live is in its home, and the
memory shows what is known of it. No object that the program may point to is in the private part of the frame. -/
structure Compiled.Matches {P : Program} {mi : ModInfo} {img : Image κ} {k : Nat} {src : FnSource} (c : Compiled P mi img k src) (s : State)
    (f : Frame κ W) : Prop where
  fn : s.top.fn = k
  point : ∃ b cg, b.id = s.top.block ∧ c.At b s.top.pos cg ∧ f.pc = BitVec.ofNat 32 (finalPlace c.st.whole cg.code.length)
  holds : c.Holds ⟨s.top.block, s.top.pos⟩ s.top.env s.top.sp f
  shows : Shows img s.top.own s.mem f.heap
  apart : ∀ q, s.top.own q = true → ¬c.Private s.top.sp q

namespace TranslationAux

variable {P : Program} {mi : ModInfo} {img : Image κ} {k : Nat} {src : FnSource} {c : Compiled P mi img k src} {s s' : State} {f : Frame κ W}

/-- What is known of the values at a point does not depend on the pc. -/
theorem holds_pc {p : Point} {env : Env} {sp : Nat} (h : c.Holds p env sp f) (pc : Word) : c.Holds p env sp { f with pc := pc } :=
  h.congr rfl (fun _ _ => rfl) h.zero rfl (fun _ _ => rfl) fun _ _ hl => ⟨hl, rfl⟩

/-- The instruction that the function is at is the next one of its block. -/
theorem current_eq (c : Compiled P mi img k src) (hfn : s.top.fn = k) {b : Ir.Block} (hb : b ∈ src.fn.blocks) (hid : b.id = s.top.block)
    {src' : FnSource} {i : Inst} (hcur : P.current s.top = some (src', i)) : src = src' ∧ b.body[s.top.pos]? = some i := by
  obtain ⟨src₁, hsrc, hcur⟩ := Option.bind_eq_some_iff.mp hcur
  obtain ⟨i₁, hi, hcur⟩ := Option.bind_eq_some_iff.mp hcur
  obtain ⟨rfl, rfl⟩ := Prod.mk.inj (Option.some.inj hcur)
  rw [hfn, c.found] at hsrc
  obtain rfl := Option.some.inj hsrc
  rw [← hid, Compiled.block_eq hb c.words.ssa] at hi
  exact ⟨rfl, hi⟩

/-- One step. -/
theorem matches_step (host : Host κ W) (h : c.Matches s f) (hstep : P.StepsWithin s s') : ∃ f', Exec.Reaches (Threaded.step img host) f f' ∧
    c.Matches s' f' ∧ s'.top.sp = s.top.sp ∧ s'.top.own = s.top.own ∧
      ∀ q, s.top.own q = false → ¬c.Private s.top.sp q → f'.heap.byte q = f.heap.byte q := by
  obtain ⟨hfn, ⟨b, cg, hid, hat, hpc⟩, hholds, hshows, hapart⟩ := h
  obtain ⟨src', i, hcur, hcases⟩ := stepsWithin_cases hstep
  obtain ⟨rfl, hi⟩ := current_eq c hfn hat.mem hid hcur
  have hstart : { f with pc := BitVec.ofNat 32 (finalPlace c.st.whole cg.code.length) } = f := by rw [← hpc]
  rw [← hid] at hholds
  rcases hcases with ⟨x, mem, hnext, rfl⟩ | ⟨succ, hnext, rfl⟩
  · obtain ⟨cg', f', hat', hgo, hholds', hshows', hbytes⟩ := Compiled.At.value host hat hi hholds hshows hapart hnext
    refine ⟨{ f' with pc := BitVec.ofNat 32 (finalPlace c.st.whole cg'.code.length) }, ?_,
      ⟨hfn, ⟨b, cg', hid, hat', rfl⟩, ?_, ⟨hshows'.fits, hshows'.bytes⟩, hapart⟩, rfl, rfl, hbytes⟩
    · rw [← hstart]
      exact hgo
    · have hpoint := holds_pc hholds' (BitVec.ofNat 32 (finalPlace c.st.whole cg'.code.length))
      rw [hid] at hpoint
      exact hpoint
  · obtain ⟨b', cg', f', hid', hat', hgo, hholds', hbytes⟩ := Compiled.At.jump host hat hi (op_of_jump hnext) hholds hid.symm hnext
    refine ⟨{ f' with pc := BitVec.ofNat 32 (finalPlace c.st.whole cg'.code.length) }, ?_,
      ⟨hfn, ⟨b', cg', hid', hat', rfl⟩, holds_pc hholds' _, ⟨hshows.fits, fun q w hq hw => ?_⟩, hapart⟩, rfl, rfl, fun q _ hq => hbytes q hq⟩
    · rw [← hstart]
      exact hgo
    · exact (hbytes q (hapart q hq)).trans (hshows.bytes q w hq hw)

/-- A run. -/
theorem matches_run (host : Host κ W) (h : c.Matches s f) (hrun : Relation.ReflTransGen P.StepsWithin s s') :
    ∃ f', Exec.Reaches (Threaded.step img host) f f' ∧ c.Matches s' f' ∧ s'.top.sp = s.top.sp ∧ s'.top.own = s.top.own ∧
      ∀ q, s.top.own q = false → ¬c.Private s.top.sp q → f'.heap.byte q = f.heap.byte q := by
  induction hrun with
  | refl => exact ⟨f, .refl, h, rfl, rfl, fun _ _ _ => rfl⟩
  | tail _ hstep ih =>
    obtain ⟨f₁, hreach, hmatches, hsp, hown, hbytes⟩ := ih
    obtain ⟨f₂, hreach₂, hmatches₂, hsp₂, hown₂, hbytes₂⟩ := matches_step host hmatches hstep
    refine ⟨f₂, hreach.trans hreach₂, hmatches₂, hsp₂.trans hsp, hown₂.trans hown, fun q hq hpriv => ?_⟩
    rw [hbytes₂ q (by rw [hown]; exact hq) (by rw [hsp]; exact hpriv), hbytes q hq hpriv]

/-! ## Returns -/

section returns

variable {d : Cg} {i : Inst} {env : Env} (host : Host κ W) (hcode : img.code.length = img.codeCount.toNat)
include hcode

/-- SP is moved up. -/
theorem wp_cgSpAdd (n : Word) (f : Frame κ W) {Q : Unit → Cg → Prop} {E : CgError → Cg → Prop} (hQ : ∀ ws f', RunsTo img host ws f f' →
    f'.heap = f.heap → f'.regs regSp = f.regs regSp + n → f'.regs 0 = f.regs 0 → Q () (d.emit ws)) : Exec.wp (cgSpAdd n) Q E d := by
  rw [cgSpAdd, Exec.wp_when]
  refine ⟨fun _ => ?_, fun hzero => ?_⟩
  · simp only [cgMoviScratch, Exec.wp_bind, wp_cgEmitLoadConst32, wp_cgEmit, Cg.emit_emit]
    have hadd := runs_add (f := f.setReg cgRegScratch n) host hcode regSp regSp cgRegScratch
    rw [Frame.setReg_same, Frame.setReg_of_ne _ _ (by decide)] at hadd
    refine hQ _ _ ((runs_loadConst32 host hcode cgRegScratch n).append hcode hadd) rfl ?_ ?_
    · rw [Frame.setReg_same]
    · rw [Frame.setReg_of_ne _ _ (by decide), Frame.setReg_of_ne _ _ (by decide)]
  · have hn : n = 0 := not_not.mp hzero
    have hnil := hQ [] f RunsTo.nil rfl (by rw [hn]; exact (BitVec.add_zero _).symm) rfl
    simpa only [Cg.emit, List.append_nil] using hnil

/-- The value to return is in R0. -/
theorem wp_cgReturnValue (hok : d.Ok) (hin : InFrame d img f) (hheld : HoldsOperands P src.fn d f env i)
    (hwords : ∀ v ∈ i.operands, (src.fn.typeOf v).isWord = true) {ty : Ty} {x : Option Nat} (hret : P.retEffect src.fn env i = .ret ty x) :
    Exec.wp (cgReturnValue src.fn i) (fun _ d' => ∃ f', Emitted img host d d' f f' ∧ f'.heap = f.heap ∧ f'.regs regSp = f.regs regSp ∧
      ∀ n, x = some n → ty.Repr n (f'.regs 0)) (fun _ _ => True) d := by
  unfold Program.retEffect at hret
  unfold cgReturnValue
  cases hops : i.operands with
  | nil =>
    rw [hops] at hret
    obtain ⟨-, rfl⟩ := Effect.ret.inj hret
    exact ⟨f, .refl, rfl, rfl, fun n hn => by cases hn⟩
  | cons rv rest =>
    rw [hops] at hret
    obtain ⟨rfl, rfl⟩ := Effect.ret.inj hret
    have hmem : rv ∈ i.operands := by rw [hops]; exact List.mem_cons_self
    have hword := hwords rv hmem
    have hwide : ¬(src.fn.typeOf rv).isWide = true := by
      obtain ⟨hint, -, hdouble, -, -⟩ := Ty.not_wide hword
      simp [Ty.isWide, hint, hdouble]
    dsimp only
    rw [if_neg hwide, Exec.wp_bind]
    refine Exec.wp_mono ?_ (fun _ _ _ => trivial) (wp_cgRegFor host hcode hok hin rv)
    rintro r d' ⟨f', hem, hag, -, -, hval, -⟩
    have hrepr : ∀ n, P.val env rv = some n → (src.fn.typeOf rv).Repr n (f'.regs r) := fun n hn => by
      rw [hval]
      exact hheld rv hmem hword n hn
    have hsp := hag.regs regSp (not_scratch_of_gt (Or.inr rfl))
    rw [cgMoveTo, Exec.wp_when]
    refine ⟨fun _ => ?_, fun hzero => ?_⟩
    · refine ⟨_, hem.trans hcode (.of_runs (runs_mov host hcode 0 r 0)), hag.heap, ?_, fun n hn => ?_⟩
      · rw [Frame.setReg_of_ne _ _ (by decide), hsp]
      · rw [Frame.setReg_same]
        exact hrepr n hn
    · have hr : r = 0 := not_not.mp hzero
      exact ⟨f', hem, hag.heap, hsp, fun n hn => hr ▸ hrepr n hn⟩

/-- The code of a return, up to the return itself. -/
theorem wp_cgRet (hok : d.Ok) (hin : InFrame d img f) (hheld : HoldsOperands P src.fn d f env i)
    (hwords : ∀ v ∈ i.operands, (src.fn.typeOf v).isWord = true) {ty : Ty} {x : Option Nat} (hret : P.retEffect src.fn env i = .ret ty x) :
    Exec.wp (cgRet src.fn i) (fun _ d' => ∃ ws n f', d' = { d with code := d.code ++ (ws ++ [encR .ret 0 0 0]), nextReg := n } ∧
      RunsTo img host ws f f' ∧ f'.heap = f.heap ∧ f'.regs regSp = f.regs regSp + BitVec.ofNat 32 d.frameBytes ∧
        ∀ n, x = some n → ty.Repr n (f'.regs 0)) (fun _ _ => True) d := by
  unfold cgRet
  rw [Exec.wp_bind]
  refine Exec.wp_mono ?_ (fun _ _ _ => trivial) (wp_cgReturnValue host hcode hok hin hheld hwords hret)
  rintro _ d₁ ⟨f₁, ⟨ws, n, rfl, hruns⟩, hheap, hsp, hval⟩
  rw [Exec.wp_bind, Exec.wp_get, Exec.wp_bind]
  refine wp_cgSpAdd host hcode _ f₁ fun us f₂ hruns₂ hheap₂ hsp₂ hzero => ?_
  rw [wp_cgEmit, Cg.emit_emit]
  refine ⟨ws ++ us, n, f₂, ?_, hruns.append hcode hruns₂, hheap₂.trans hheap, by rw [hsp₂, hsp], fun m hm => ?_⟩
  · simp only [Cg.emit, List.append_assoc]
  · rw [hzero]
    exact hval m hm

end returns

/-- A function that is at a return gets to its `RET`. -/
theorem matches_ret (host : Host κ W) (h : c.Matches s f) {i : Inst} (hcur : P.current s.top = some (src, i)) {ty : Ty} {x : Option Nat}
    (hnext : P.next src s.top s.mem i = some (.ret ty x)) : ∃ f', Exec.Reaches (Threaded.step img host) f f' ∧ NextIs img f' .ret (encR .ret 0 0 0) ∧
      f'.heap = f.heap ∧ (f'.regs regSp).toNat = s.top.sp + c.plan.frameBytes ∧ ∀ n, x = some n → ty.Repr n (f'.regs 0) := by
  obtain ⟨hfn, ⟨b, cg, hid, hat, hpc⟩, hholds, hshows, hapart⟩ := h
  obtain ⟨-, hi⟩ := current_eq c hfn hat.mem hid hcur
  have hop := op_of_ret hnext
  have hret : P.retEffect src.fn s.top.env i = .ret ty x := by
    simp only [Program.next, hop] at hnext
    exact Option.some.inj hnext
  obtain ⟨hmem, -⟩ := Func.mem_body.mp (List.mem_of_getElem? hi)
  have hcovers := c.words.inst_covers hat.mem hmem
  have hwords : ∀ v ∈ i.operands, (src.fn.typeOf v).isWord = true := by
    cases covered_of hcovers with
    | ret hop' hty hword => exact hword
    | _ => simp_all [Op.intBinOp?]
  obtain ⟨cg₁, hturn, hat'⟩ := hat.turn hi
  rw [cgTurn_eq hcovers] at hturn
  simp only [hop] at hturn
  obtain ⟨_, cgR, hready, hturn⟩ := Exec.of_bind hturn
  obtain rfl : Compiled.ready cg = cgR := (Outcome.val.inj hready).2
  obtain ⟨cg₂, hlift, heq⟩ := Exec.of_zoom hturn
  obtain rfl : cg₁ = cg₂ := heq
  obtain ⟨d, hrun, rfl⟩ := of_lift hlift
  obtain ⟨code, hplan⟩ := Compiled.ready_eq hat.front
  rw [← hid] at hholds
  have hin : InFrame (Compiled.ready cg).toCg img f := by
    rw [hplan]
    exact ⟨hholds.inFrame.size, hholds.inFrame.fits⟩
  have hheld := Compiled.holdsOperands_ready hplan (hholds.operands hat.mem hi)
  obtain ⟨ws, n, f', rfl, hruns, hheap, hsp, hval⟩ := Exec.of_wp (wp_cgRet host c.code (Compiled.ready_ok hat.front) hin hheld hwords hret) hrun
  have hemits : (Compiled.ready cg).Emits c.st.targets { Compiled.ready cg with toCg :=
      { (Compiled.ready cg).toCg with code := (Compiled.ready cg).code ++ (ws ++ [encR .ret 0 0 0]), nextReg := n } } :=
    fun _ => ⟨ws ++ [encR .ret 0 0 0], n, [], by rw [List.append_nil], .none _ _ _⟩
  have hstands := Compiled.between_of_emits (Compiled.front_next hat.front _) hemits hat'.later (ws ++ [encR .ret 0 0 0]) ([] ++ []) rfl
    (List.append_nil _).symm
  obtain ⟨hbefore, hlast⟩ := hstands.split (fun _ h => absurd h List.not_mem_nil) fun _ h => absurd h List.not_mem_nil
  have hgo := hbefore.straight hruns
  have hstart : { f with pc := BitVec.ofNat 32 (finalPlace c.st.whole cg.code.length) } = f := by rw [← hpc]
  have hword : c.st.whole.code[cg.code.length + ws.length]? = some (encR .ret 0 0 0) := hlast.1.getElem? (k := 0) (by simp)
  obtain ⟨hlinked, -⟩ := cgFinish_ok c.image.wf c.image.finished
  obtain ⟨hlt, -⟩ := List.getElem?_eq_some_iff.mp hword
  have hfinal : img.code[finalPlace c.st.whole (cg.code.length + ws.length)]? = some (encR .ret 0 0 0) := by
    refine Linked.image_at c.image.hasAt ?_
    rw [finalPlace, hlinked.plain _ hlt fun fx hfx hpos => ?_, hword]
    exact absurd ((hlast.2 fx).mpr ⟨hfx, Nat.le_of_eq hpos.symm, by rw [hpos]; exact Nat.lt_succ_self _⟩) List.not_mem_nil
  refine ⟨{ f' with pc := BitVec.ofNat 32 (finalPlace c.st.whole (cg.code.length + ws.length)) }, ?_, ?_, hheap, ?_, hval⟩
  · rw [← hstart]
    exact hgo
  · obtain ⟨hfinalLt, hget⟩ := List.getElem?_eq_some_iff.mp hfinal
    have hpcNat : (BitVec.ofNat 32 (finalPlace c.st.whole (cg.code.length + ws.length))).toNat = finalPlace c.st.whole (cg.code.length + ws.length) := by
      have hcount := c.code
      have hlt32 := img.codeCount.isLt
      rw [BitVec.toNat_ofNat, Nat.mod_eq_of_lt (by omega)]
    refine ⟨?_, instOp_encR ..⟩
    rw [hpcNat, List.getD_eq_getElem?_getD, hfinal, Option.getD_some]
  · have hbytes : (Compiled.ready cg).toCg.frameBytes = c.plan.frameBytes := by rw [hplan]
    show (f'.regs regSp).toNat = _
    rw [hsp, hbytes, toNat_sp_add hholds.inFrame (Nat.le_refl _), hholds.sp_eq]

end TranslationAux

open TranslationAux

/-- What the code of a function does, from any point of it: it follows each run of the function without calls, it changes no byte of the
memory but those of the objects that the function may point to and of its own frame, and at a return it gets to `RET` with SP at the return
address and the value in R0. Each block that the function may come to is such a point. -/
structure Compiled.Follows {P : Program} {mi : ModInfo} {img : Image κ} {k : Nat} {src : FnSource} (c : Compiled P mi img k src) (host : Host κ W) :
    Prop where
  blocks : ∀ b ∈ src.fn.blocks, src.fn.graph.Reach ⟨b.id, 0⟩ → ∃ cg, c.At b 0 cg ∧ cg.code.length = c.st.whole.offsetOf b.id
  runs : ∀ s s' (f : Frame κ W), c.Matches s f → Relation.ReflTransGen P.StepsWithin s s' →
    ∃ f', Exec.Reaches (Threaded.step img host) f f' ∧ c.Matches s' f' ∧
      ∀ q, s.top.own q = false → ¬c.Private s.top.sp q → f'.heap.byte q = f.heap.byte q
  returns : ∀ s s' (f : Frame κ W) i ty x, c.Matches s f → Relation.ReflTransGen P.StepsWithin s s' → P.current s'.top = some (src, i) →
    P.next src s'.top s'.mem i = some (.ret ty x) → ∃ f', Exec.Reaches (Threaded.step img host) f f' ∧ NextIs img f' .ret (encR .ret 0 0 0) ∧
      (f'.regs regSp).toNat = s.top.sp + c.plan.frameBytes ∧ (∀ n, x = some n → ty.Repr n (f'.regs 0)) ∧ Shows img s'.top.own s'.mem f'.heap ∧
        ∀ q, s.top.own q = false → ¬c.Private s.top.sp q → f'.heap.byte q = f.heap.byte q

/-- Each function of a module that `cg_function` has translated is in the image of the module, and its code follows it. -/
theorem code_follows (host : Host κ W) (img : Image κ) (mi : ModInfo) (srcs : List FnSource) (cg cg' : CgFn) (entries : List FuncEntry) (limit : Nat)
    (hsrcs : ∀ src ∈ srcs, src.OfWords) (hfuncs : cg.funcs = srcs.map FnSource.id)
    (hrun : cgFunctions mi (fun _ => []) srcs 0 cg = .val entries cg') (hshort : cg'.code.length < 2 ^ 31) (himg : HoldsModule img cg' entries)
    (k : Nat) (src : FnSource) (hk : srcs[k]? = some src) :
    ∃ c : Compiled (Program.ofModule mi cg.globals srcs entries limit) mi img k src, c.Follows host := by
  obtain ⟨c⟩ : Nonempty (Compiled (Program.ofModule mi cg.globals srcs entries limit) mi img k src) :=
    compiled_of_module hsrcs hfuncs hrun hshort himg hk
  refine ⟨c, fun b hb hreach => Compiled.at_block c hb hreach, fun s s' f h hruns => ?_, fun s s' f i ty x h hruns hcur hnext => ?_⟩
  · obtain ⟨f', hreach, hmatches, -, -, hbytes⟩ := matches_run host h hruns
    exact ⟨f', hreach, hmatches, hbytes⟩
  · obtain ⟨f₁, hreach, hmatches, hsp, -, hbytes⟩ := matches_run host h hruns
    obtain ⟨f₂, hreach₂, hret, hheap, hsp₂, hval⟩ := matches_ret host hmatches hcur hnext
    refine ⟨f₂, hreach.trans hreach₂, hret, by rw [hsp₂, hsp], hval, ?_, fun q hq hpriv => ?_⟩
    · rw [hheap]
      exact hmatches.shows
    · rw [hheap, hbytes q hq hpriv]

/-! ## Functions from their entries -/

/-- A function is called with its return address at `base` and its arguments in their places. -/
structure AtEntry (img : Image κ) (fn : Func) (k : Nat) (args : List (Option Nat)) (base : Nat) (f : Frame κ W) : Prop where
  pc : f.pc = img.funcTable.getD (cvmFnSlot k) 0
  sp : (f.regs regSp).toNat = base
  size : f.heap.size = img.memSize.toNat
  room : base + 4 + 4 * stackedWords fn.params.length ≤ img.memSize.toNat
  args : ∀ (j x : Nat), args[j]? = some (some x) → (fn.typeOf (.loc (.arg j))).Repr x (argAt f base j)

namespace TranslationAux

section entry

variable {P : Program} {mi : ModInfo} {img : Image κ} {k : Nat} {src : FnSource} {c : Compiled P mi img k src} {args : List (Option Nat)} {base : Nat}
  {own : Nat → Bool} {mem mem' : Contents} {a : Activation} {f : Frame κ W}

/-- A function that is called: it has its frame, which is below its return address, and its allocas have their addresses. -/
structure Entered (c : Compiled P mi img k src) (args : List (Option Nat)) (base : Nat) (own : Nat → Bool) (mem : Contents) (a : Activation)
    (mem' : Contents) : Prop where
  fn : a.fn = k
  block : a.block = src.fn.entryId
  pos : a.pos = c.st.frame.1.length
  arg : ∀ j, a.env (.arg j) = (args[j]?).join
  inst : ∀ n, a.env (.inst n) = (c.st.frame.1.find? fun e => e.1 = .inst n).map fun e => (BitVec.ofNat 32 a.sp + e.2).toNat
  frame : c.plan.frameBytes ≤ base
  sp : a.sp = base - c.plan.frameBytes
  own : ∀ q, a.own q = (own q || (a.sp ≤ q && q < a.sp + c.plan.allocaBytes))
  mem : mem' = mem.fresh a.sp c.plan.allocaBytes

namespace Entered

variable (h : Entered c args base own mem a mem') {q : Nat}
include h

/-- It may have pointers to what its caller has pointers to, and to its allocas. -/
theorem own_cases (hq : a.own q = true) : own q = true ∨ a.sp ≤ q ∧ q < a.sp + c.plan.allocaBytes := by
  rw [h.own] at hq
  simpa using hq

/-- The private part of its frame is above its allocas. -/
theorem of_private (hq : c.Private a.sp q) : a.sp + c.plan.allocaBytes ≤ q ∧ a.sp ≤ q ∧ q < base := by
  obtain ⟨hlo, hhi⟩ := hq
  have hsp := h.sp
  have hframe := h.frame
  exact ⟨hlo, by omega, by omega⟩

end Entered

/-- What the IR does when a function is entered. -/
theorem entered_of_enter (h : P.enter k args base own mem = some (a, mem')) : Entered c args base own mem a mem' := by
  unfold Program.enter at h
  obtain ⟨src', hsrc, h⟩ := Option.bind_eq_some_iff.mp h
  rw [c.found] at hsrc
  obtain rfl := Option.some.inj hsrc
  obtain ⟨frame, hframe, h⟩ := Option.bind_eq_some_iff.mp h
  rw [c.st.collected] at hframe
  obtain rfl : c.st.frame = frame := Option.some.inj hframe
  have hbytes : c.plan.allocaBytes = c.st.frame.2.toNat := (c.st.plan_ok c.words).2.2.allocaBytes
  obtain ⟨hle, h⟩ := Option.ite_none_right_eq_some.mp h
  obtain ⟨rfl, rfl⟩ := Prod.mk.inj (Option.some.inj h)
  rw [c.frame_eq] at hle
  refine ⟨rfl, rfl, rfl, fun j => rfl, fun n => rfl, by omega, ?_, fun q => ?_, ?_⟩
  · simp only [c.frame_eq]
  · simp only [hbytes]
  · simp only [hbytes]

/-- The values of a function that is called are those its code begins with. -/
theorem entryEnv_of_entered (hentered : Entered c args base own mem a mem') (hentry : AtEntry img src.fn k args base f) {e : Ir.Block}
    (hblock : c.EntryBlock e) : c.EntryEnv a.env f base := by
  refine ⟨fun j x hx => ?_, fun p hp => ?_⟩
  · rw [hentered.arg] at hx
    exact hentry.args j x (Option.join_eq_some_iff.mp hx)
  · obtain ⟨n, hn⟩ := List.mem_iff_getElem?.mp hp
    obtain ⟨i, -, -, hres⟩ := hblock.allocas n p hn
    have hfind := hblock.find hp
    rw [← hres, Inst.result] at hfind ⊢
    rw [hentered.inst, hfind, ← hentered.sp]
    rfl

/-- The code in front of the blocks, and that of the allocas, bring the function to its first point. -/
theorem matches_enter (host : Host κ W) (hentered : Entered c args base own mem a mem') (hentry : AtEntry img src.fn k args base f)
    (hshows : Shows img own mem f.heap) (hapart : ∀ q, own q = true → ¬(a.sp ≤ q ∧ q < base)) :
    ∃ f', Exec.Reaches (Threaded.step img host) f f' ∧ c.Matches { top := a, callers := [], mem := mem' } f' ∧
      ∀ q, ¬c.Private a.sp q → f'.heap.byte q = f.heap.byte q := by
  have hsp := hentered.sp
  have hframe := hentered.frame
  have hroom := hentry.room
  have halloca := c.plan_ok.frame
  obtain ⟨e, hblock⟩ := c.entryBlock
  have henv := entryEnv_of_entered hentered hentry hblock
  -- The prologue, and then the allocas.
  obtain ⟨f₁, ⟨ws, n, hopened, hruns⟩, h₁⟩ := Exec.of_wp
    (wp_cgFnPrologue host c.code c.plan_ok c.homes hentry.size hentry.room c.words.fixed hentry.sp hframe) c.st.prologue
  have hfront : c.st.front.code = c.before.code ++ ws := by
    have hcode : c.plan.code = c.before.code := (c.st.plan_ok c.words).2.2.code
    have hfrontCode : c.st.front.code = c.st.opened.code := rfl
    rw [hfrontCode, hopened, hcode]
  have hgo : Goes c.st.whole img host c.before.code.length f c.st.front.code.length f₁ := c.goes_front hfront hruns
  obtain ⟨cg₀, hat₀, hlen⟩ := Compiled.at_block c hblock.mem (hblock.reach (Nat.zero_le _))
  have hentering := Compiled.entering_front hblock h₁ hentry.size (by omega) henv
  rw [← hsp] at hentering
  obtain ⟨cg, f₂, hat, hgo₂, hholds, hbytes⟩ : ∃ cg f₂, c.At e c.st.frame.1.length cg ∧
      Goes c.st.whole img host cg₀.code.length f₁ cg.code.length f₂ ∧ c.Holds ⟨e.id, c.st.frame.1.length⟩ a.env a.sp f₂ ∧
        ∀ q, ¬c.Private a.sp q → f₂.heap.byte q = f₁.heap.byte q :=
    Compiled.Entering.run hblock (fun p hp => by rw [hsp]; exact henv.allocas p hp) hentering hat₀ (Nat.zero_add _)
  have hplace : finalPlace c.st.whole c.before.code.length = c.before.code.length :=
    c.st.place_front c.words c.whole_short (c.st.code_le_front c.words).length_le
  have hstart : { f with pc := BitVec.ofNat 32 (finalPlace c.st.whole c.before.code.length) } = f := by
    rw [hplace, ← c.entry, ← hentry.pc]
  rw [hlen, hblock.offset] at hgo₂
  have hkept : ∀ q, ¬c.Private a.sp q → f₂.heap.byte q = f.heap.byte q := fun q hq => by rw [hbytes q hq, h₁.heap]
  have hfree : ∀ q, a.own q = true → ¬c.Private a.sp q := by
    intro q hq hpriv
    obtain ⟨hstart, hframed⟩ := hentered.of_private hpriv
    rcases hentered.own_cases hq with hq | ⟨-, hlt⟩
    · exact hapart q hq hframed
    · exact absurd hlt (Nat.not_lt.mpr hstart)
  refine ⟨{ f₂ with pc := BitVec.ofNat 32 (finalPlace c.st.whole cg.code.length) }, ?_,
    ⟨hentered.fn, ⟨e, cg, hblock.id.trans hentered.block.symm, ?_, rfl⟩, ?_, ⟨fun q hq => ?_, fun q w hq hw => ?_⟩, hfree⟩, hkept⟩
  · rw [← hstart]
    exact Goes.trans hgo hgo₂
  · show c.At e a.pos cg
    rw [hentered.pos]
    exact hat
  · show c.Holds ⟨a.block, a.pos⟩ a.env a.sp _
    rw [hentered.block, hentered.pos, ← hblock.id]
    exact holds_pc hholds _
  · rcases hentered.own_cases hq with hq | ⟨-, hlt⟩
    · exact hshows.fits q hq
    · show q < img.memSize.toNat
      omega
  · have hw : mem' q = some w := hw
    refine (hkept q (hfree q hq)).trans ?_
    rw [hentered.mem, Contents.fresh] at hw
    split at hw
    · cases hw
    · rename_i hout
      exact hshows.bytes q w ((hentered.own_cases hq).resolve_right hout) hw

end entry

end TranslationAux

/-- A function of such a module does from its entry what it does in the IR, as long as it calls nothing. When it is called with its arguments
in place, its code comes to `RET` with SP at the return address and the value in R0, and the memory is as the function leaves it;
no byte has changed but those of the objects that the function may point to and of its frame. -/
theorem code_returns (host : Host κ W) (img : Image κ) (mi : ModInfo) (srcs : List FnSource) (cg cg' : CgFn) (entries : List FuncEntry) (limit : Nat)
    (hsrcs : ∀ src ∈ srcs, src.OfWords) (hfuncs : cg.funcs = srcs.map FnSource.id)
    (hrun : cgFunctions mi (fun _ => []) srcs 0 cg = .val entries cg') (hshort : cg'.code.length < 2 ^ 31) (himg : HoldsModule img cg' entries)
    (k : Nat) (src : FnSource) (hk : srcs[k]? = some src) (args : List (Option Nat)) (base : Nat) (own : Nat → Bool) (mem mem' : Contents) (a : Activation)
    (henter : (Program.ofModule mi cg.globals srcs entries limit).enter k args base own mem = some (a, mem')) (f : Frame κ W)
    (hentry : AtEntry img src.fn k args base f) (hshows : Shows img own mem f.heap) (hapart : ∀ q, own q = true → ¬(a.sp ≤ q ∧ q < base))
    (s : State) (hruns : Relation.ReflTransGen (Program.ofModule mi cg.globals srcs entries limit).StepsWithin ⟨a, [], mem'⟩ s) (ty : Ty)
    (x : Option Nat) (hresult : (Program.ofModule mi cg.globals srcs entries limit).result s = some (ty, x)) :
    ∃ f', Exec.Reaches (Threaded.step img host) f f' ∧ NextIs img f' .ret (encR .ret 0 0 0) ∧ (f'.regs regSp).toNat = base ∧
      (∀ n, x = some n → ty.Repr n (f'.regs 0)) ∧ Shows img s.top.own s.mem f'.heap ∧
        ∀ q, own q = false → ¬(a.sp ≤ q ∧ q < base) → f'.heap.byte q = f.heap.byte q := by
  obtain ⟨c⟩ : Nonempty (Compiled (Program.ofModule mi cg.globals srcs entries limit) mi img k src) :=
    compiled_of_module hsrcs hfuncs hrun hshort himg hk
  have hentered : Entered c args base own mem a mem' := entered_of_enter henter
  have hsp := hentered.sp
  have hframe := hentered.frame
  have halloca := c.plan_ok.frame
  obtain ⟨f₁, hreach₁, hmatches₁, hbytes₁⟩ := matches_enter host hentered hentry hshows hapart
  obtain ⟨f₂, hreach₂, hmatches₂, hsp₂, -, hbytes₂⟩ := matches_run host hmatches₁ hruns
  -- The function is at a return.
  unfold Program.result at hresult
  obtain ⟨⟨src', i⟩, hcur, hresult⟩ := Option.bind_eq_some_iff.mp hresult
  obtain ⟨b, _, hid, hat, -⟩ := hmatches₂.point
  obtain ⟨rfl, -⟩ := current_eq c hmatches₂.fn hat.mem hid hcur
  have hnext : (Program.ofModule mi cg.globals srcs entries limit).next src s.top s.mem i = some (.ret ty x) := by
    dsimp only at hresult
    split at hresult
    · rename_i ty' x' _ heq
      obtain ⟨rfl, rfl⟩ := Prod.mk.inj (Option.some.inj hresult)
      exact heq
    · cases hresult
  obtain ⟨f₃, hreach₃, hret, hheap₃, hsp₃, hval⟩ := matches_ret host hmatches₂ hcur hnext
  refine ⟨f₃, (hreach₁.trans hreach₂).trans hreach₃, hret, ?_, hval, ?_, fun q hq hout => ?_⟩
  · rw [hsp₃, hsp₂]
    show a.sp + c.plan.frameBytes = base
    omega
  · rw [hheap₃]
    exact hmatches₂.shows
  · have hpriv : ¬c.Private a.sp q := fun hpriv => hout (hentered.of_private hpriv).2
    have hown : a.own q = false := by
      rw [hentered.own, hq, Bool.false_or, Bool.and_eq_false_iff, decide_eq_false_iff_not, decide_eq_false_iff_not]
      omega
    rw [hheap₃, hbytes₂ q hown hpriv, hbytes₁ q hpriv]

/-! ## A module -/

/-- A module of one function, and its code in an image. -/
def loopSrc : FnSource where
  id := 0
  fn := loopFn
  gep _ := none
  varargCall _ := false

theorem loopSrc_ofWords : loopSrc.OfWords where
  ssa := loopFn_ssa
  fixed := rfl
  params := by decide
  insts := by decide
  closed := by decide
  succs := by decide
  entry := ⟨_, _, rfl, by decide, by decide⟩
  indices := fun _ _ _ hg => by cases hg
  slots := by decide

def loopModInfo : ModInfo where
  td := Globals.target32
  funcByName _ := none

def loopCgFn : CgFn := { freshCg with funcs := [0], curBlock := 0, blocks := [], blockOffsets := [], fixups := [], tableFixups := [], dataBytes := [] }

/-- The code of the module, and nothing else. -/
def loopImage (code : List Word) (entry : Word) : Image Unit :=
  { codeImage code with entry := entry, funcOffsets := some [0, 0, entry], funcCount := 3 }

theorem code_follows_loop : ∃ (img : Image Unit) (entries : List FuncEntry)
    (c : Compiled (Program.ofModule loopModInfo [] [loopSrc] entries 0) loopModInfo img 0 loopSrc), c.Follows quietHost := by
  have hsome : (cgFunctions loopModInfo (fun _ => []) [loopSrc] 0 loopCgFn).holds
      (fun entries cg => cg.code.length < 2 ^ 31 && entries.length == 1) = true := by decide +kernel
  obtain ⟨entries, cg', hrun, hp⟩ := Outcome.exists_of_holds hsome
  obtain ⟨hshort, hlen⟩ := (Bool.and_eq_true _ _).mp hp
  obtain ⟨e, rfl⟩ := List.length_eq_one_iff.mp (eq_of_beq hlen)
  have hshort := of_decide_eq_true hshort
  have himg : HoldsModule (loopImage cg'.code (BitVec.ofNat 32 e.entryOffset)) cg' [e] := by
    refine ⟨rfl, ?_, fun k e' hk => ?_⟩
    · exact Nat.mod_eq_of_lt (Nat.lt_trans hshort (by decide))
    · cases k with
      | zero =>
        obtain rfl := Option.some.inj hk
        rfl
      | succ k => cases hk
  exact ⟨_, _, code_follows quietHost (loopImage cg'.code (BitVec.ofNat 32 e.entryOffset)) loopModInfo [loopSrc] loopCgFn cg' [e] 0
    (fun src hsrc => by rw [List.mem_singleton.mp hsrc]; exact loopSrc_ofWords) rfl hrun hshort himg 0 loopSrc rfl⟩

/-! ## A function of one block -/

/-- Twice the argument, which is put into an alloca and read from there. -/
def doubleFn : Func where
  name := "double"
  params := [.int 32]
  vararg := false
  blocks := [
    ⟨0, [{ id := 0, op := .alloca, ty := .pointer, operands := [.const (.int 32 1)], allocated := (4, 4) },
      { id := 1, op := .store, ty := .void, operands := [.loc (.arg 0), .loc (.inst 0)] },
      { id := 2, op := .load, ty := .int 32, operands := [.loc (.inst 0)] },
      { id := 3, op := .add, ty := .int 32, operands := [.loc (.inst 2), .loc (.inst 2)] },
      { id := 4, op := .ret, ty := .void, operands := [.loc (.inst 3)] }]⟩]

/-- The values that are set at its points. -/
def doubleSet : Point → List Local
  | ⟨0, 0⟩ => [.arg 0]
  | ⟨0, 1⟩ | ⟨0, 2⟩ => [.arg 0, .inst 0]
  | ⟨0, 3⟩ => [.arg 0, .inst 0, .inst 2]
  | _ => [.arg 0, .inst 0, .inst 2, .inst 3]

theorem doubleFn_ssa : doubleFn.Ssa := by
  have hcheck : doubleFn.ssaCheck doubleSet = true := by decide
  exact Func.ssa_of_check hcheck

def doubleSrc : FnSource where
  id := 0
  fn := doubleFn
  gep _ := none
  varargCall _ := false

theorem doubleSrc_ofWords : doubleSrc.OfWords where
  ssa := doubleFn_ssa
  fixed := rfl
  params := by decide
  insts := by decide
  closed := by decide
  succs := by decide
  entry := ⟨_, _, rfl, by decide, by decide⟩
  indices := fun _ _ _ hg => by cases hg
  slots := by decide

/-- The function is called with 21, and its return address is at the end of the stack. -/
def doubleFrame : Frame Unit Unit where
  regs r := if r = 0 then 21 else if r = regSp then 60 else 0
  heap := { size := 64, byte := fun _ => 0 }
  importFns := []
  world := ()
  pc := 0

theorem code_returns_double : ∃ (img : Image Unit) (f' : Frame Unit Unit), Exec.Reaches (Threaded.step img quietHost) doubleFrame f' ∧
    NextIs img f' .ret (encR .ret 0 0 0) ∧ (f'.regs regSp).toNat = 60 ∧ f'.regs 0 = 42 := by
  have hsome : (cgFunctions loopModInfo (fun _ => []) [doubleSrc] 0 loopCgFn).holds
      (fun entries cg => cg.code.length < 2 ^ 31 && entries == [⟨0, 4⟩]) = true := by decide +kernel
  obtain ⟨entries, cg', hrun, hp⟩ := Outcome.exists_of_holds hsome
  obtain ⟨hshort, hentries⟩ := (Bool.and_eq_true _ _).mp hp
  obtain rfl : entries = [⟨0, 4⟩] := eq_of_beq hentries
  have hshort := of_decide_eq_true hshort
  have himg : HoldsModule (loopImage cg'.code 0) cg' [⟨0, 4⟩] := by
    refine ⟨rfl, Nat.mod_eq_of_lt (Nat.lt_trans hshort (by decide)), fun k e' hk => ?_⟩
    cases k with
    | zero =>
      obtain rfl := Option.some.inj hk
      rfl
    | succ k => cases hk
  have hentry : AtEntry (loopImage cg'.code 0) doubleFn 0 [some 21] 60 doubleFrame := by
    refine ⟨rfl, rfl, rfl, Nat.le_refl 64, fun j x hx => ?_⟩
    cases j with
    | zero =>
      obtain rfl : 21 = x := Option.some.inj (Option.some.inj hx)
      exact (Ty.repr_word rfl).mpr rfl
    | succ j => cases hx
  obtain ⟨f', hreach, hret, hsp, hval, -⟩ := code_returns quietHost (loopImage cg'.code 0) loopModInfo [doubleSrc] loopCgFn cg' [⟨0, 4⟩] 0
    (fun src hsrc => by rw [List.mem_singleton.mp hsrc]; exact doubleSrc_ofWords) rfl hrun hshort himg 0 doubleSrc rfl [some 21] 60
    (fun _ => false) (fun _ => none) _ _ rfl doubleFrame hentry ⟨fun _ h => (Bool.false_ne_true h).elim, fun _ _ h => (Bool.false_ne_true h).elim⟩
    (fun _ h => (Bool.false_ne_true h).elim) _
    (.head ⟨rfl, rfl⟩ (.head ⟨rfl, rfl⟩ (.single ⟨rfl, rfl⟩))) (.int 32) (some 42) rfl
  exact ⟨_, f', hreach, hret, hsp, (hval 42 rfl).eq rfl⟩

end CronoVM
