import CronoVM.Lemmas.Advance
import CronoVM.Lemmas.Footprint
import CronoVM.Lemmas.PhiCopy
import CronoVM.Theorems.Globals
import CronoVM.Theorems.Safety
import CronoVM.Translator.Function

/-!
# What `setjmp` keeps

A `setjmp` saves the pc, SP and the register of its result, and no other register. A value of the function is the same after both returns
where no instruction between them writes its home.
-/

namespace CronoVM

open Checked Ir Vm

variable {κ W : Type} {build : Build} {img : Image κ} {host : Host κ W} {f g : Frame κ W}

/-! ## Values in their homes -/

/-- The locations of a value of `n` words: slots that follow each other, those of an aggregate counted in 16 bits, or a register. -/
def Home.locs (home : Home) (n : Nat) : List Loc :=
  match home.aggSlot, home.i64Slot.or home.vecSlot with
  | some base, _ => (List.range n).map fun j => .slot (aggWordSlot base j)
  | none, some k => (List.range n).map fun j => .slot (k + j)
  | none, none => [cgPhiDstLoc home]

/-- The words of a value of the function. -/
def Home.words (home : Home) (cg : Cg) (f : Frame κ W) (n : Nat) : List Word := (home.locs n).map (locWord cg f)

/-- The registers and bytes of a value of the function. -/
def Home.area (home : Home) (cg : Cg) (f : Frame κ W) (n : Nat) : Area where
  regs r := .reg r ∈ home.locs n
  bytes i := ∃ k, .slot k ∈ home.locs n ∧ slotAddr cg f k ≤ i ∧ i < slotAddr cg f k + 4

/-! ## Runs that return twice -/

/-- The three words of a `jmp_buf`. -/
def jmpBuf (m : Mem) (env : Word) : Word × Word × Word := (m.word env.toNat, m.word (env.toNat + 4), m.word (env.toNat + 8))

/-- A run that returns from one `setjmp` twice, at `f₁` and, after a `longjmp` at `f₂` to what the `setjmp` has stored, at `f₃`. From the
first return on, each step is taken in a state where `P` holds. -/
structure TwiceReturned (build : Build) (img : Image κ) (host : Host κ W) (P : Frame κ W → Prop) (f₀ f₁ f₂ f₃ : Frame κ W) : Prop where
  first : build.step img host f₀ = .val () f₁
  between : Exec.ReachesVia P (build.step img host) f₁ f₂
  allowed : P f₂
  second : build.step img host f₂ = .val () f₃
  at_longjmp : ∃ w w', NextIs img f₀ .setjmp w ∧ NextIs img f₂ .longjmp w' ∧ f₂.regs (instA w') = f₀.regs (instB w) ∧
    jmpBuf f₂.heap (f₀.regs (instB w)) = jmpBuf f₁.heap (f₀.regs (instB w))

namespace SetjmpAux

/-- A `setjmp` stores the pc, SP and its destination, and gives 0. -/
theorem setjmp_step {w : Word} (hnext : NextIs img f .setjmp w) (hstep : build.step img host f = .val () g) :
    g.pc = f.pc + 1 ∧ g.regs = Function.update f.regs (instA w) 0 ∧
      jmpBuf g.heap (f.regs (instB w)) = (f.pc + 1, f.regs regSp, (instA w).setWidth 32) := by
  refine of_next (Q := fun _ g => g.pc = f.pc + 1 ∧ g.regs = Function.update f.regs (instA w) 0 ∧
    jmpBuf g.heap (f.regs (instB w)) = (f.pc + 1, f.regs regSp, (instA w).setWidth 32)) hnext hstep ?_
  simp only [Switch.cases, Exec.wlp_bind, wlp_failIf, wlp_reg, wlp_setReg, wlp_getPc, store32, wlp_writeAt]
  intro _ _ _ _
  refine ⟨trivial, trivial, ?_⟩
  unfold jmpBuf
  rw [Mem.word_setWord_of_disjoint _ _ (by omega), Mem.word_setWord_of_disjoint _ _ (by omega), Mem.word_setWord,
    Mem.word_setWord_of_disjoint _ _ (by omega), Mem.word_setWord, Mem.word_setWord]

/-- A `longjmp` goes on there, with its value or 1 in the destination. -/
theorem longjmp_step {w : Word} (hnext : NextIs img f .longjmp w) (hstep : build.step img host f = .val () g) {pc sp dest : Word}
    (hbuf : jmpBuf f.heap (f.regs (instA w)) = (pc, sp, dest)) :
    g.pc = pc ∧ g.regs = Function.update (Function.update f.regs (BitVec.ofNat 8 dest.toNat)
      (if f.regs (instB w) ≠ 0 then f.regs (instB w) else 1)) regSp sp ∧ g.heap = f.heap := by
  obtain ⟨rfl, hrest⟩ := Prod.mk.inj hbuf
  obtain ⟨rfl, rfl⟩ := Prod.mk.inj hrest
  refine of_next (Q := fun _ g => g.pc = f.heap.word (f.regs (instA w)).toNat ∧
    g.regs = Function.update (Function.update f.regs (BitVec.ofNat 8 (f.heap.word ((f.regs (instA w)).toNat + 8)).toNat)
      (if f.regs (instB w) ≠ 0 then f.regs (instB w) else 1)) regSp (f.heap.word ((f.regs (instA w)).toNat + 4)) ∧ g.heap = f.heap)
    hnext hstep ?_
  simp only [Switch.cases, Exec.wlp_bind, wlp_failIf, wlp_reg, wlp_setReg, wlp_setRegAt, wlp_setPc, wlp_load32]
  intro _ _ _ _ _ _ _
  exact ⟨trivial, trivial, trivial⟩

/-- The locations of a value whose area has stayed as it was hold what they held. -/
theorem words_same {home : Home} {cg : Cg} {n : Nat} (hsp : g.regs regSp = f.regs regSp)
    (hsame : (home.area cg f n).Same f.toHostView g.toHostView) : home.words cg g n = home.words cg f n := by
  refine List.map_congr_left fun l hl => ?_
  cases l with
  | reg r => exact hsame.1 r hl
  | slot k =>
    simp only [locWord, slotAddr_of_sp hsp]
    refine leWord_congr fun i hi => hsame.2 _ ⟨k, hl, Nat.le_add_right _ _, Nat.add_lt_add_left hi _⟩

/-- A register that is given out is not SP. -/
theorem home_ne_sp {hi : Nat} {r : Byte} (hhi : hi ≤ cgMaxEmitReg + 1) (hr : r.toNat < hi) : r ≠ regSp := by
  rintro rfl
  have h252 : cgMaxEmitReg = 252 := rfl
  have hsp : regSp.toNat = 255 := rfl
  omega

/-- The code of a `setjmp`, and what it is rejected for. -/
theorem emits_cgSetjmp {cg : Cg} (hpool : cg.freeList = []) (i : Inst) (dst : Byte) :
    Exec.wp (cgSetjmp i dst) (fun _ cg' => ∃ ws env k, cg' = cg.adv (ws ++ [encR .setjmp dst env 0]) k)
      (cg.Stops (cg.Rejects (i.operand 0)) (cg.regsTaken (i.operand 0))) cg := by
  simp only [cgSetjmp, Exec.wp_bind]
  refine Exec.wp_mono ?_ (fun _ _ h => h.2) (Exec.wp_and (grown_cgRegFor hpool (i.operand 0)) (takes_cgRegFor hpool (i.operand 0)))
  rintro env cg₁ ⟨⟨ws, k, rfl⟩, -⟩
  simp only [wp_cgEmit, Cg.emit_adv]
  exact ⟨ws, env, k, rfl⟩

end SetjmpAux

/-- A `setjmp` is rejected for its buffer, or because fewer registers are left than the buffer and the result take. -/
def Cg.RejectsSetjmp (cg : Cg) (i : Inst) (e : CgError) (t : Cg) : Prop :=
  Cg.Stops { cg with nextReg := cg.ssaRegHigh } (cg.Rejects (i.operand 0)) (cg.regsTaken (.loc i.result) + cg.regsTaken (i.operand 0)) e t

namespace SetjmpAux

/-- The code of a `setjmp` has the instruction in it, with a destination that is not SP. -/
theorem cgJumpCall_setjmp {cg : Cg} (hok : cg.Ok) {i : Inst} (hcall : isSetjmp i = true) (hhome : (cg.home? i.result).isSome = true) :
    Exec.wp (cgJumpCall i) (fun _ cg' => ∃ ws dst env rest, dst ≠ regSp ∧
      cg'.code = cg.code ++ (ws ++ encR .setjmp dst env 0 :: rest)) (cg.RejectsSetjmp i) cg := by
  obtain ⟨home, hhome⟩ := Option.isSome_iff_exists.mp hhome
  have hhome' : Cg.home? { cg with nextReg := cg.ssaRegHigh } i.result = some home := hhome
  have hpool : Cg.freeList { cg with nextReg := cg.ssaRegHigh } = [] := hok.pool
  have hsame : cg.SameTables { cg with nextReg := cg.ssaRegHigh } := ⟨rfl, rfl, rfl⟩
  have hle := Nat.le_trans hok.high_le hok.next_le
  have hresult : cg.regsTaken (.loc i.result) = if home.valSlot.isSome then 1 else 0 := by
    have hlookup : cg.lookup (.loc i.result) = some home := hhome
    simp only [Cg.regsTaken, hlookup]
  simp only [cgJumpCall, Exec.wp_bind, Exec.wp_modify, hcall, if_true, cgSetjmpInst, Exec.wp_get, hhome']
  cases hslot : home.valSlot with
  | none =>
    have hlt := hok.reg_lt _ home hhome
    refine Exec.wp_mono ?_ (fun _ _ h => ?_) (emits_cgSetjmp hpool i home.reg)
    · rintro _ cg' ⟨ws, env, k, rfl⟩
      exact ⟨ws, home.reg, env, [], home_ne_sp hle hlt, rfl⟩
    · rw [hsame.regsTaken] at h
      exact h.mono hsame.rejects (Nat.le_add_left _ _)
  | some slot =>
    simp only [Exec.wp_bind, wp_cgAllocReg hpool]
    have hone : cg.regsTaken (.loc i.result) = 1 := by
      rw [hresult, hslot]
      rfl
    refine ⟨fun hfull => Or.inr ⟨rfl, ?_⟩, fun hroom => ?_⟩
    · have hlacks : Cg.Lacks { cg with nextReg := cg.ssaRegHigh } 1 := Nat.add_lt_add_right hfull 1
      exact hlacks.mono (by omega)
    · have hnat : (BitVec.ofNat 8 cg.ssaRegHigh).toNat = cg.ssaRegHigh := toNat_nextReg hroom
      have hfresh : (BitVec.ofNat 8 cg.ssaRegHigh).toNat < cg.ssaRegHigh + 1 := by omega
      have hle' : cg.ssaRegHigh + 1 ≤ cgMaxEmitReg + 1 := Nat.succ_le_succ (Nat.le_of_not_gt hroom)
      have hsame' : cg.SameTables { cg with nextReg := cg.ssaRegHigh + 1 } := ⟨rfl, rfl, rfl⟩
      refine Exec.wp_mono ?_ (fun _ _ h => ?_)
        (emits_cgSetjmp (show Cg.freeList { cg with nextReg := cg.ssaRegHigh + 1 } = [] from hok.pool) i _)
      · rintro _ cg' ⟨ws, env, k, rfl⟩
        simp only [wp_cgStwSpOff, Cg.emit_adv]
        refine ⟨ws, BitVec.ofNat 8 cg.ssaRegHigh, env, stwSpOffWords (cg.valSlotOff slot) (BitVec.ofNat 8 cg.ssaRegHigh),
          home_ne_sp hle' hfresh, ?_⟩
        simp only [Cg.adv_code, List.append_assoc, List.singleton_append]
        rfl
      · rw [hsame'.regsTaken] at h
        exact h.before (Nat.le_refl _) hsame'.rejects (by rw [hone])

end SetjmpAux

open SetjmpAux

/-- In the code of a `setjmp`, wherever it stands, each run that returns from it twice has the same pc and stack pointer after both returns
and tells them apart by the result; and each value of the function is the same after both, of whatever size and in whatever home, if no
instruction executed from the first return to the second writes to its register or its slots. -/
theorem setjmp_keeps_values (cg : Cg) (hok : cg.Ok) (i : Inst) (hcall : isSetjmp i = true) (hhome : (cg.home? i.result).isSome = true) :
    Exec.wp (cgJumpCall i) (fun _ cg' => ∃ ws dst env rest, cg'.code = cg.code ++ (ws ++ encR .setjmp dst env 0 :: rest) ∧
      ∀ (κ W : Type) (build : Build) (img : Image κ) (host : Host κ W) (base : Nat), HasAt img.code base cg'.code →
      ∀ (f₀ f₁ f₂ f₃ : Frame κ W) (P : Frame κ W → Prop), f₀.pc.toNat = base + (cg.code.length + ws.length) →
        TwiceReturned build img host P f₀ f₁ f₂ f₃ →
        f₃.pc = f₁.pc ∧ f₃.regs regSp = f₁.regs regSp ∧ f₁.regs dst = 0 ∧ f₃.regs dst ≠ 0 ∧
        ∀ l home n, cg.home? l = some home → (∀ f, P f → SparesNext img host (home.area cg f₁ n) f) →
          home.words cg f₃ n = home.words cg f₁ n) (cg.RejectsSetjmp i) cg := by
  refine Exec.wp_mono ?_ (fun _ _ h => h) (cgJumpCall_setjmp hok hcall hhome)
  rintro _ cg' ⟨ws, dst, env, rest, hdst, hcode⟩
  refine ⟨ws, dst, env, rest, hcode, ?_⟩
  intro κ W build img host base hat f₀ f₁ f₂ f₃ P hpos hrun
  obtain ⟨hfirst, hbetween, hallowed, hsecond, w, w', hset, hlong, henv, hbuf⟩ := hrun
  have hw : instA w = dst := by
    rw [hcode] at hat
    have hhead := hat.right.right.head
    rw [Nat.add_assoc, ← hpos] at hhead
    rw [← hset.1, List.getD_eq_getElem?_getD, hhead]
    exact instA_encR .setjmp dst env 0
  obtain ⟨hpc₁, hregs₁, hbuf₁⟩ := setjmp_step hset hfirst
  obtain ⟨hpc₃, hregs₃, hheap₃⟩ := longjmp_step hlong hsecond (by rw [henv, hbuf, hbuf₁])
  rw [hw] at hregs₁ hregs₃
  have hdest : BitVec.ofNat 8 (dst.setWidth 32 : Word).toNat = dst := by
    have hlt := dst.isLt
    apply BitVec.eq_of_toNat_eq
    rw [BitVec.toNat_ofNat, BitVec.toNat_setWidth]
    omega
  rw [hdest] at hregs₃
  have hsp : f₃.regs regSp = f₁.regs regSp := by
    rw [hregs₃, hregs₁, Function.update_self, Function.update_of_ne hdst.symm]
  refine ⟨hpc₃.trans hpc₁.symm, hsp, ?_, ?_, fun l home n _ hspares => ?_⟩
  · rw [hregs₁, Function.update_self]
  · rw [hregs₃, Function.update_of_ne hdst, Function.update_self]
    by_cases hv : f₂.regs (instB w') ≠ 0
    · rw [if_pos hv]
      exact hv
    · rw [if_neg hv]
      decide
  · have hvia := hbetween.mono hspares
    exact words_same hsp ((reaches_spares build hvia).trans (step_spares build (hspares f₂ hallowed) hsecond))

/-! ## Two functions that return twice -/

namespace SetjmpAux

/-- The global `jb`. Functions 2 and 3 of the module are `setjmp` and `longjmp`. -/
def jb : Val := .const (.global 0)

/-- `void deep(int n, int v) { longjmp(jb, v); }` -/
def deepFn : Func where
  name := "deep"
  params := [.int 32, .int 32]
  vararg := false
  blocks := [⟨0, [{ id := 0, op := .call, ty := .void, operands := [jb, .loc (.arg 1), .const (.func 3)], callee := "longjmp" },
    { id := 1, op := .unreachable, ty := .void, operands := [] }]⟩]

/-- `setjmp(jb)`. -/
def setjmpInst : Inst where
  id := 2
  op := .call
  ty := .int 32
  operands := [jb, .const (.func 2)]
  callee := "setjmp"

/-- `int a = n * 3; if (setjmp(jb) == 0)`, the first block of the two functions below. -/
def setjmpBlock : Ir.Block where
  id := 0
  insts := [{ id := 1, op := .mul, ty := .int 32, operands := [.loc (.arg 0), .const (.int 32 3)] }, setjmpInst,
    { id := 3, op := .icmp, ty := .int 1, operands := [.loc (.inst 2), .const (.int 32 0)], predicate := some .eq },
    { id := 4, op := .br, ty := .void, operands := [.loc (.inst 3)], successors := [1, 2] }]

/-- `return a;` -/
def returnBlock : Ir.Block := ⟨2, [{ id := 7, op := .ret, ty := .void, operands := [.loc (.inst 1)] }]⟩

/-- `int leap(int n) { int a = n * 3; if (setjmp(jb) == 0) deep(n, 5); return a; }` -/
def leapFn : Func where
  name := "leap"
  params := [.int 32]
  vararg := false
  blocks := [setjmpBlock,
    ⟨1, [{ id := 5, op := .call, ty := .void, operands := [.loc (.arg 0), .const (.int 32 5), .const (.func 0)], callee := "deep" },
      { id := 6, op := .br, ty := .void, operands := [], successors := [2] }]⟩, returnBlock]

/-- `int keep(int n, int v, int k) { int a = n * 3; if (setjmp(jb) == 0) { deep(n, v); return k; } return a; }` -/
def keepFn : Func where
  name := "keep"
  params := [.int 32, .int 32, .int 32]
  vararg := false
  blocks := [setjmpBlock,
    ⟨1, [{ id := 5, op := .call, ty := .void, operands := [.loc (.arg 0), .loc (.arg 1), .const (.func 0)], callee := "deep" },
      { id := 6, op := .ret, ty := .void, operands := [.loc (.arg 2)] }]⟩, returnBlock]

/-- The code generator before the first function; `jb` is at 8 in the data. -/
def jumpCg : CgFn :=
  { code := [], map := [], nextReg := 8, freeList := [], zeroReg := cgRegZero, allocaBytes := 0, spillBytes := 0, valSpillCount := 0,
    frameBytes := 0, ssaRegHigh := 8, globals := [(0, 8)], funcs := [0, 1], curBlock := 0, blocks := [], blockOffsets := [], fixups := [],
    tableFixups := [], dataBytes := [] }

def jumpInfo : ModInfo where
  td := Globals.target32
  funcByName _ := none

/-- The functions of a module: `deep`, and one that calls it. -/
def jumpSrcs (fn : Func) : List FnSource :=
  [{ id := 0, fn := deepFn, gep := fun _ => none, varargCall := fun _ => false }, { id := 1, fn, gep := fun _ => none, varargCall := fun _ => false }]

/-- The code of `deep`, whose parameters are in R8 and R9. -/
def deepCode : List Word :=
  [encR .mov 8 0 0, encR .mov 9 1 0, encI16 .movi 253 0, encI16 .movi 10 8, encR .longjmp 10 9 0, encR .halt 0 0 0]

end SetjmpAux

/-- `cg_function` writes this code for `deep` and the function, which begins behind it, and gives the values of the function these homes. -/
def CompilesTo (fn : Func) (code : List Word) (map : List (Local × Home)) : Prop :=
  ∃ entries cg, cgFunctions jumpInfo (fun _ => []) (jumpSrcs fn) 0 jumpCg = .val entries cg ∧ entries.map FuncEntry.entryOffset = [0, deepCode.length] ∧
    cg.code = deepCode ++ code ∧ cg.map = map

/-- The program of `deep` and another function, with 24 bytes of data and 64 bytes of stack. -/
def jumpImage (code : List Word) : Image Unit :=
  { codeImage (deepCode ++ code) with
    heap := ⟨88, fun _ => 0⟩, heapSize := 24, dataSize := 24, memSize := 88, entry := 6, funcOffsets := some [0, 0, 0, 0, 6], funcCount := 5 }

namespace SetjmpAux

variable {fn : Func} {code : List Word} {map : List (Local × Home)} {img : Image Unit} {n : Nat} {f : Frame Unit Unit}

/-- The code and the homes, by running the code generator. -/
theorem compilesTo_of (h : (cgFunctions jumpInfo (fun _ => []) (jumpSrcs fn) 0 jumpCg).holds (fun entries cg =>
    entries.map FuncEntry.entryOffset == [0, deepCode.length] && (cg.code == deepCode ++ code && decide (cg.map = map))) = true) :
    CompilesTo fn code map := by
  obtain ⟨entries, cg, hrun, hall⟩ := Outcome.exists_of_holds h
  obtain ⟨hentries, hrest⟩ := (Bool.and_eq_true _ _).mp hall
  obtain ⟨hcode, hmap⟩ := (Bool.and_eq_true _ _).mp hrest
  exact ⟨entries, cg, hrun, eq_of_beq hentries, eq_of_beq hcode, of_decide_eq_true hmap⟩

/-- The function is called with these arguments. -/
def jumpStart (code args : List Word) : Frame Unit Unit where
  regs r := if r = regSp then 84 else args.getD r.toNat 0
  heap := (jumpImage code).heap.setWord 84 retSentinel
  importFns := []
  world := ()
  pc := 6

/-- The state `n` instructions later. -/
def after (img : Image Unit) (n : Nat) (f : Frame Unit Unit) : Frame Unit Unit :=
  match Exec.iterate (Build.step .threaded img quietHost) n f with
  | .val _ g => g
  | _ => f

/-- One instruction later. -/
theorem after_step (h : (Exec.iterate (Build.step .threaded img quietHost) 1 f).isVal = true) :
    Build.step .threaded img quietHost f = .val () (after img 1 f) := by
  obtain ⟨_, g, hg⟩ := Outcome.exists_of_isVal h
  obtain ⟨_, g', hstep, hrest⟩ := Exec.of_bind hg
  cases hrest
  unfold after
  rw [hg]
  exact hstep

/-- The states of `n` instructions, with a check before each. -/
theorem after_reaches {c : Frame Unit Unit → Bool}
    (h : (Exec.iterate (Exec.checked c (Build.step .threaded img quietHost)) n f).isVal = true) :
    Exec.ReachesVia (fun f => c f = true) (Build.step .threaded img quietHost) f (after img n f) := by
  obtain ⟨_, g, hg⟩ := Outcome.exists_of_isVal h
  unfold after
  rw [Exec.iterate_of_checked hg]
  exact .of_checked hg

end SetjmpAux

/-! ### A value that is lost -/

/-- `a` is in R9. It is saved before the call of `deep` and restored behind it. -/
def leapCode : List Word :=
  [encI16 .movi 254 12, encR .sub 255 255 254, encR .mov 8 0 0, encI16 .movi 253 0,
    encI16 .movi 12 3, encR .mul 9 8 12, encI16 .movi 12 8, encR .setjmp 10 12 0,
    encI16 .movi 12 0, encR .cmpEq 11 10 12, encBr .bne 11 253 1, encI24 .jmp 11,
    encI16 .movi 254 4, encR .add 254 255 254, encR .stw 0 254 9,
    encR .mov 0 8 0, encI16 .movi 12 5, encR .mov 1 12 0, encI24 .call 2,
    encI16 .movi 254 4, encR .add 254 255 254, encR .ldw 9 254 0, encI24 .jmp 0,
    encR .mov 0 9 0, encI16 .movi 254 12, encR .add 255 255 254, encR .ret 0 0 0]

/-- The code generator at the `setjmp` of `leap`. -/
def leapCg : Cg where
  code := []
  map := [(.arg 0, { reg := 8 }), (.inst 1, { reg := 9 }), (.inst 2, { reg := 10 }), (.inst 3, { reg := 11 })]
  nextReg := 12
  freeList := []
  zeroReg := cgRegZero
  allocaBytes := 0
  spillBytes := 12
  valSpillCount := 0
  frameBytes := 12
  ssaRegHigh := 12
  globals := [(0, 8)]
  funcs := [0, 1]

def leapImage : Image Unit := jumpImage leapCode

/-- The call `leap(7)`, and the states at the `setjmp`, after it, at the `longjmp` and after it. -/
def leapStart : Frame Unit Unit := jumpStart leapCode [7]

def leapAt : Frame Unit Unit := after leapImage 7 leapStart

def leapFirst : Frame Unit Unit := after leapImage 1 leapAt

def leapDeep : Frame Unit Unit := after leapImage 14 leapFirst

def leapSecond : Frame Unit Unit := after leapImage 1 leapDeep

/-- The states of the run of `leap`. -/
theorem leap_reaches {n : Nat} {f : Frame Unit Unit}
    (h : (Exec.iterate (Exec.checked (fun _ => true) (Build.step .threaded leapImage quietHost)) n f).isVal = true) :
    Exec.ReachesVia (fun _ => True) (Build.step .threaded leapImage quietHost) f (after leapImage n f) :=
  (after_reaches h).mono fun _ _ => trivial

/-- The run of `leap` returns from its `setjmp` twice. -/
theorem leap_twice : TwiceReturned .threaded leapImage quietHost (fun _ => True) leapAt leapFirst leapDeep leapSecond := by
  refine ⟨after_step (by decide +kernel), leap_reaches (by decide +kernel), trivial, after_step (by decide +kernel),
    encR .setjmp 10 12 0, encR .longjmp 10 9 0, ⟨?_, ?_⟩, ⟨?_, ?_⟩, ?_, ?_⟩
  all_goals decide +kernel

/-- `a` is 21 at the first return. At the second one it is 5, the value of the parameter of `deep` that R9 had, and `leap(7)` returns 5. -/
theorem leap_loses_a : CompilesTo leapFn leapCode leapCg.map ∧ Exec.Reaches (Build.step .threaded leapImage quietHost) leapStart leapAt ∧
    TwiceReturned .threaded leapImage quietHost (fun _ => True) leapAt leapFirst leapDeep leapSecond ∧
    (∃ home, leapCg.home? (.inst 1) = some home ∧ home.words leapCg leapFirst 1 = [21] ∧ home.words leapCg leapSecond 1 = [5]) ∧
    ∃ g, Exec.iterate (Build.step .threaded leapImage quietHost) 8 leapSecond = .stop ⟨.ok, some 5⟩ g := by
  refine ⟨compilesTo_of (by decide +kernel), (leap_reaches (by decide +kernel)).reaches, leap_twice,
    ⟨_, rfl, by decide +kernel, by decide +kernel⟩, ?_⟩
  exact Outcome.exists_of_stop? (by decide +kernel)

/-! ### A value that is kept -/

/-- `a` is in R11, which `deep` does not use. -/
def keepCode : List Word :=
  [encI16 .movi 254 20, encR .sub 255 255 254, encR .mov 8 0 0, encR .mov 9 1 0, encR .mov 10 2 0, encI16 .movi 253 0,
    encI16 .movi 14 3, encR .mul 11 8 14, encI16 .movi 14 8, encR .setjmp 12 14 0,
    encI16 .movi 14 0, encR .cmpEq 13 12 14, encBr .bne 13 253 1, encI24 .jmp 13,
    encI16 .movi 254 8, encR .add 254 255 254, encR .stw 0 254 10,
    encR .mov 0 8 0, encR .mov 1 9 0, encI24 .call 2,
    encI16 .movi 254 8, encR .add 254 255 254, encR .ldw 10 254 0,
    encR .mov 0 10 0, encI16 .movi 254 20, encR .add 255 255 254, encR .ret 0 0 0,
    encR .mov 0 11 0, encI16 .movi 254 20, encR .add 255 255 254, encR .ret 0 0 0]

/-- The code generator at the `setjmp` of `keep`. -/
def keepCg : Cg where
  code := []
  map := [(.arg 0, { reg := 8 }), (.arg 1, { reg := 9 }), (.arg 2, { reg := 10 }), (.inst 1, { reg := 11 }), (.inst 2, { reg := 12 }),
    (.inst 3, { reg := 13 })]
  nextReg := 14
  freeList := []
  zeroReg := cgRegZero
  allocaBytes := 0
  spillBytes := 20
  valSpillCount := 0
  frameBytes := 20
  ssaRegHigh := 14
  globals := [(0, 8)]
  funcs := [0, 1]

def keepImage : Image Unit := jumpImage keepCode

/-- The call `keep(7, 5, 9)`, and the states at the `setjmp`, after it, at the call of `deep`, at the `longjmp` and after it. -/
def keepStart : Frame Unit Unit := jumpStart keepCode [7, 5, 9]

def keepAt : Frame Unit Unit := after keepImage 9 keepStart

def keepFirst : Frame Unit Unit := after keepImage 1 keepAt

def keepCall : Frame Unit Unit := after keepImage 8 keepFirst

def keepDeep : Frame Unit Unit := after keepImage 5 keepCall

def keepSecond : Frame Unit Unit := after keepImage 1 keepDeep

/-- The next instruction is no syscall and does not write the register. -/
def sparesReg (img : Image Unit) (r : Byte) (f : Frame Unit Unit) : Bool :=
  match Opcode.ofByte? (instOp (img.code.getD f.pc.toNat 0)) with
  | some op => decide (op ≠ .syscall ∧
      r ∉ regsWritten f (instA (img.code.getD f.pc.toNat 0)) (instB (img.code.getD f.pc.toNat 0)) op)
  | none => true

/-- Such an instruction writes nothing of a value in the register. -/
theorem spares_of_sparesReg {img : Image Unit} {f : Frame Unit Unit} {home : Home} {r : Byte} {n : Nat} (hlocs : home.locs n = [.reg r])
    (cg : Cg) (g : Frame Unit Unit) (h : sparesReg img r f = true) : SparesNext img quietHost (home.area cg g n) f := by
  intro op hop
  rw [sparesReg, hop] at h
  obtain ⟨hcall, hnot⟩ := of_decide_eq_true h
  refine ⟨fun r' hr hmem => ?_, fun i _ hi => ?_, fun hsys => absurd hsys hcall⟩
  · have hin : Loc.reg r' ∈ home.locs n := hmem
    rw [hlocs] at hin
    rw [Loc.reg.inj (List.mem_singleton.mp hin)] at hr
    exact hnot hr
  · obtain ⟨k, hk, -⟩ := hi
    rw [hlocs] at hk
    exact Loc.noConfusion (List.mem_singleton.mp hk)

/-- So does that of `keep`, and no instruction in between writes R11. -/
theorem keep_twice : TwiceReturned .threaded keepImage quietHost (fun f => sparesReg keepImage 11 f = true) keepAt keepFirst keepDeep keepSecond := by
  have hcall : Exec.ReachesVia (fun f => sparesReg keepImage 11 f = true) (Build.step .threaded keepImage quietHost) keepFirst keepCall :=
    after_reaches (by decide +kernel)
  refine ⟨after_step (by decide +kernel), hcall.trans (after_reaches (by decide +kernel)), by decide +kernel, after_step (by decide +kernel),
    encR .setjmp 12 14 0, encR .longjmp 10 9 0, ⟨?_, ?_⟩, ⟨?_, ?_⟩, ?_, ?_⟩
  all_goals decide +kernel

/-- `deep` is called between the two returns, and `a` is 21 after both. -/
theorem setjmp_keeps_values_keep : CompilesTo keepFn keepCode keepCg.map ∧
    TwiceReturned .threaded keepImage quietHost (fun f => sparesReg keepImage 11 f = true) keepAt keepFirst keepDeep keepSecond ∧
    NextIs keepImage keepCall .call (encI24 .call 2) ∧ keepSecond.pc = keepFirst.pc ∧ keepSecond.regs regSp = keepFirst.regs regSp ∧
    keepFirst.regs 11 = 21 ∧ ({ reg := 11 } : Home).words keepCg keepSecond 1 = ({ reg := 11 } : Home).words keepCg keepFirst 1 := by
  have hok : keepCg.Ok := .of_map rfl rfl (by decide) (by decide) (by decide) (by decide)
  have hkeeps := setjmp_keeps_values keepCg hok setjmpInst (by decide) (by decide)
  obtain ⟨_, cg', hrun, hcode'⟩ := Outcome.exists_of_holds
    (show (cgJumpCall setjmpInst keepCg).holds (fun _ cg => cg.code == [encI16 .movi 14 8, encR .setjmp 12 14 0]) = true by decide +kernel)
  replace hcode' := eq_of_beq hcode'
  obtain ⟨ws, dst, env, rest, hcode, hvalues⟩ := Exec.of_wp hkeeps hrun
  have hlen : ws.length = 1 := by
    rw [hcode'] at hcode
    rcases ws with _ | ⟨x, _ | ⟨y, ws⟩⟩
    · have hhead := (List.cons.inj hcode).1
      have hop := congrArg instOp hhead
      rw [instOp_encI16, instOp_encR] at hop
      exact absurd hop (by decide)
    · rfl
    · have htail := congrArg List.length hcode
      simp [keepCg] at htail
  have hat : HasAt keepImage.code 14 cg'.code := by
    rw [hcode']
    exact ⟨(deepCode ++ keepCode).take 14, (deepCode ++ keepCode).drop 16, rfl, rfl⟩
  have hpos : keepAt.pc.toNat = 14 + (keepCg.code.length + ws.length) := by
    rw [hlen]
    decide +kernel
  obtain ⟨hpc, hsp, -, -, hsame⟩ := hvalues Unit Unit .threaded keepImage quietHost 14 hat keepAt keepFirst keepDeep keepSecond _ hpos keep_twice
  refine ⟨compilesTo_of (by decide +kernel), keep_twice, ⟨by decide +kernel, by decide +kernel⟩, hpc, hsp, by decide +kernel, ?_⟩
  exact hsame (.inst 1) { reg := 11 } 1 rfl fun f hf => spares_of_sparesReg rfl keepCg keepFirst hf

end CronoVM
