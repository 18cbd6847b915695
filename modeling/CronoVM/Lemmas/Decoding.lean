import CronoVM.Theorems.Builds
import CronoVM.Theorems.Safety

/-!
# What the interpreter takes from an instruction word

The opcode an instruction word is dispatched by, the operands its handler takes from the other three bytes, and what the
interpreter does once it has fetched the word.
-/

namespace CronoVM

open Checked Vm

variable {κ W : Type}

/-! ## Fetch and execution -/

/-- What follows the fetch of an instruction: the pc is the next one already. -/
def Build.execute (build : Build) (img : Image κ) (host : Host κ W) (inst : Word) : Vm κ W Unit :=
  match build with
  | .threaded =>
    match Threaded.jt (instOp inst) with
    | none => fail .badOpcode
    | some label => Threaded.handler img host inst (instA inst) (instB inst) (instC inst) label
  | .switch =>
    match Opcode.ofByte? (instOp inst) with
    | some op => Switch.cases img host inst (instA inst) (instB inst) (instC inst) op
    | none => fail .badOpcode

/-- A step is a fetch and what follows it. -/
theorem Build.step_eq (build : Build) (img : Image κ) (host : Host κ W) :
    build.step img host = (do
      let pc ← getPc
      failIf (pc ≥ img.codeCount) .badPc
      let inst ← codeAt img pc
      setPc (pc + 1)
      build.execute img host inst) := by
  cases build <;> rfl

section execute

variable (build : Build) {img : Image κ} {host : Host κ W} {inst : Word} {f : Frame κ W}

/-- Both builds run the case of the opcode. -/
theorem Build.execute_of_opcode {op : Opcode} (hop : Opcode.ofByte? (instOp inst) = some op) :
    build.execute img host inst = Switch.cases img host inst (instA inst) (instB inst) (instC inst) op := by
  cases build with
  | threaded => simp only [Build.execute, BuildsAux.jt_eq, hop, Option.map_some, BuildsAux.handler_eq_cases]
  | switch => simp only [Build.execute, hop]

/-- A byte that is no opcode traps. -/
theorem Build.execute_of_none (hop : Opcode.ofByte? (instOp inst) = none) :
    build.execute img host inst = (fail .badOpcode : Vm κ W Unit) := by
  cases build with
  | threaded => simp only [Build.execute, BuildsAux.jt_eq, hop, Option.map_none]
  | switch => simp only [Build.execute, hop]

end execute

/-! ## Rejected words -/

/-- The computation stops for other reasons only than an opcode that does not exist. -/
def KnowsOpcode {α : Type} (m : Vm κ W α) : Prop := Exec.StopsIn (fun h => h.code ≠ .badOpcode) m

section knows

/-- What follows a step that does not trap with `CVM_E_BAD_OPCODE`. -/
theorem knows_bind {α β : Type} {m : Vm κ W β} {k : β → Vm κ W α} (hm : KnowsOpcode m) (hk : ∀ b, KnowsOpcode (k b)) :
    KnowsOpcode (m >>= k) :=
  Exec.StopsIn.bind hm hk

theorem knows_regAt (i : Nat) : KnowsOpcode (regAt i : Vm κ W Word) :=
  knows_bind (.demand _) fun _ => knows_bind .get fun _ => .pure _

theorem knows_setRegAt (i : Nat) (v : Word) : KnowsOpcode (setRegAt i v : Vm κ W Unit) := knows_bind (.demand _) fun _ => .modify _

theorem knows_setPc (pc : Word) : KnowsOpcode (setPc pc : Vm κ W Unit) := .modify _

theorem knows_getPc : KnowsOpcode (getPc : Vm κ W Word) := knows_bind .get fun _ => .pure _

theorem knows_done (v : Word) : KnowsOpcode (done v : Vm κ W Unit) := .stop CvmResult.noConfusion

/-- A check that fails with another error. -/
theorem knows_failIf (c : Prop) [Decidable c] {e : CvmResult} (he : e ≠ .badOpcode) : KnowsOpcode (failIf c e : Vm κ W Unit) :=
  .stopIf c he

theorem knows_funcOffset (img : Image κ) (i : Word) : KnowsOpcode (funcOffset img i : Vm κ W Word) :=
  knows_bind (.demand _) fun _ => .pure _

theorem knows_load8 (p : Nat) : KnowsOpcode (load8 p : Vm κ W Byte) :=
  knows_bind .get fun _ => knows_bind (.demand _) fun _ => .pure _

theorem knows_load16 (p : Nat) : KnowsOpcode (load16 p : Vm κ W (BitVec 16)) :=
  knows_bind .get fun _ => knows_bind (.demand _) fun _ => .pure _

theorem knows_load32 (p : Nat) : KnowsOpcode (load32 p : Vm κ W Word) :=
  knows_bind .get fun _ => knows_bind (.demand _) fun _ => .pure _

theorem knows_writeAt (p n : Nat) (write : Mem → Mem) : KnowsOpcode (writeAt p n write : Vm κ W Unit) :=
  knows_bind .get fun _ => knows_bind (.demand _) fun _ => .modify _

theorem knows_memmove (dst src n : Nat) : KnowsOpcode (memmove dst src n : Vm κ W Unit) :=
  knows_bind .get fun _ => knows_bind (.demand _) fun _ => knows_writeAt _ _ _

theorem knows_memcpy (host : Host κ W) (dst src n : Nat) : KnowsOpcode (memcpy host dst src n) :=
  knows_bind .get fun _ => knows_bind (.demand _) fun _ => knows_writeAt _ _ _

theorem knows_importFn (i : Word) : KnowsOpcode (importFn i : Vm κ W (Option (SyscallFn κ))) :=
  knows_bind .get fun _ => knows_bind (.demand _) fun _ => .pure _

theorem knows_callFn (host : Host κ W) (fn : SyscallFn κ) : KnowsOpcode (callFn host fn) :=
  knows_bind .get fun _ => knows_bind (.modify _) fun _ => .pure _

/-- Both branches. -/
theorem knows_ite {α : Type} (c : Prop) [Decidable c] {m n : Vm κ W α} (hm : KnowsOpcode m) (hn : KnowsOpcode n) :
    KnowsOpcode (if c then m else n) :=
  .ite c hm hn

theorem knows_pure {α : Type} (x : α) : KnowsOpcode (pure x : Vm κ W α) := .pure x

/-- No case of the switch stops because of its opcode. -/
theorem knows_cases (img : Image κ) (host : Host κ W) (inst : Word) (a b c : Byte) (op : Opcode) :
    KnowsOpcode (Switch.cases img host inst a b c op) := by
  cases op
  case syscall =>
    refine knows_bind (knows_failIf _ CvmResult.noConfusion) fun _ => knows_bind (knows_importFn _) fun fn => ?_
    cases fn with
    | none => exact .stop CvmResult.noConfusion
    | some fn => exact knows_bind (knows_callFn host fn) fun _ => knows_failIf _ CvmResult.noConfusion
  all_goals simp only [Switch.cases, reg, setReg, store8, store16, store32, memset]
  all_goals repeat' first
    | with_reducible refine knows_bind ?_ fun _ => ?_
    | with_reducible refine knows_ite _ ?_ ?_
  all_goals simp only [knows_pure, knows_regAt, knows_setRegAt, knows_getPc, knows_setPc, knows_done, knows_failIf, knows_funcOffset,
    knows_load8, knows_load16, knows_load32, knows_writeAt, knows_memmove, knows_memcpy, ne_eq, reduceCtorEq, not_false_eq_true]

end knows

/-! ## Operands -/

/-- What a handler takes from the word it was dispatched by. -/
inductive Operand where
  | reg (r : Byte)
  | imm (v : Word)
  | offset (v : Word)
  | slot (n : Word)
  | sysno (n : Word)
  deriving DecidableEq

/-- The operands of a handler, in the order of their bytes. -/
def Opcode.operands (inst : Word) (op : Opcode) : List Operand :=
  let a := Operand.reg (instA inst)
  let b := Operand.reg (instB inst)
  let c := Operand.reg (instC inst)
  match op with
  | .ret => []
  | .halt | .callr | .jmpr => [a]
  | .movi => [a, .imm ((instImm16 inst).signExtend 32)]
  | .movhi => [a, .imm ((instImm16 inst).setWidth 32 <<< 16)]
  | .mov | .ldw | .ldb | .ldh | .fneg | .f2iS | .f2iU | .i2fS | .i2fU | .fsqrt | .ffloor | .fceil | .ftrunc
  | .setjmp | .longjmp | .coroSwap => [a, b]
  | .stw | .stb | .sth => [b, c]
  | .jmp =>
    let off := instImm24 inst
    [.offset (if off &&& 0x800000 ≠ 0 then off - 0x1000000 else off)]
  | .beq | .bne => [a, b, .offset ((instC inst).signExtend 32)]
  | .syscall => [.sysno ((instImm16 inst).setWidth 32)]
  | .call => [.slot (instImm24 inst)]
  | _ => [a, b, c]

/-- The operands of the word, as the interpreter takes them: none of a word it rejects. -/
def takenOperands (inst : Word) : List Operand :=
  match Opcode.ofByte? (instOp inst) with
  | some op => op.operands inst
  | none => []

/-- A handler depends on its word through the operands only. -/
theorem cases_congr (img : Image κ) (host : Host κ W) {inst inst' : Word} {op : Opcode} (h : op.operands inst = op.operands inst') :
    Switch.cases img host inst (instA inst) (instB inst) (instC inst) op =
      Switch.cases img host inst' (instA inst') (instB inst') (instC inst') op := by
  cases op
  all_goals simp only [Opcode.operands, List.cons.injEq, Operand.reg.injEq, Operand.imm.injEq, Operand.offset.injEq, Operand.slot.injEq,
    Operand.sysno.injEq, and_true] at h
  all_goals simp only [Switch.cases]
  -- The conditions of these two have the operand in their decision procedures too.
  case syscall => rw [h]
  case call => rw [h]
  all_goals simp only [h]

/-- An opcode prints the same number of operands in every word. -/
theorem length_operands (inst inst' : Word) (op : Opcode) : (op.operands inst).length = (op.operands inst').length := by
  cases op <;> simp only [Opcode.operands, List.length_cons, List.length_nil]

/-! ## No operand is listed in vain

One state that tells the values of every operand of every handler apart. -/

/-- A float arithmetic in which no function ignores an argument. -/
def probeFloat : HostFloat where
  fadd x y := x + 2 * y
  fsub x y := x - y
  fmul x y := x * y
  fdiv x y := x + 3 * y
  feq x y := x == y
  fne x y := x != y
  flt x y := x.slt y
  fle x y := x.sle y
  fge _ _ := false
  sqrtf x := x
  floorf x := x
  ceilf x := x
  truncf x := x
  toI32 x := x
  toU32 x := x
  ofI32 x := x
  ofU32 x := x

def probeHost : Host Unit Unit := { quietHost with float := probeFloat }

/-- 64 bytes of memory, one import and one function. -/
def probeImage : Image Unit :=
  { codeImage [] with codeCount := 8, funcOffsets := some [0, 0], funcCount := 2, importCount := 1, importNames := [0], importFns := [some (.host ())] }

/-- The low registers hold addresses of memory, one of them a number with a high word, the others are out of memory. -/
def probeFrame : Frame Unit Unit where
  regs r := if r = 4 then 0x40000000 else 4 * r.setWidth 32
  heap := probeImage.heap
  importFns := probeImage.importFns
  world := ()
  pc := 1

/-- A handler in that state. -/
def probe (inst : Word) (op : Opcode) : Outcome (Frame Unit Unit) Halt Unit :=
  Switch.cases probeImage probeHost inst (instA inst) (instB inst) (instC inst) op probeFrame

/-- How a run ended, with the pc, a few registers and a few words of memory. -/
def seen : Outcome (Frame Unit Unit) Halt Unit → Option (Option Halt × List Word)
  | .val _ f =>
    some (none, f.pc :: (List.range 6).map (fun r => f.regs (BitVec.ofNat 8 r)) ++ (List.range 6).map fun k => f.heap.word (4 * k))
  | .stop h _ => some (some h, [])
  | .oob => none

/-- Pairs of words that differ in one byte. -/
def probePairs (op : Opcode) : List (Word × Word) :=
  [((1 : Byte), (2 : Byte), (3 : Byte)), (1, 0, 0), (2, 2, 3), (1, 4, 4)].flatMap fun (a, b, c) =>
    [(200 : Byte), 3, 1, 2, 0].flatMap fun v =>
      [(encR op a b c, encR op v b c), (encR op a b c, encR op a v c), (encR op a b c, encR op a b v)]

/-- The words differ in no operand but the one at `i`, and the handler behaves differently. -/
def tellsApart (op : Opcode) (i : Nat) (p : Word × Word) : Bool :=
  decide ((op.operands p.1).eraseIdx i = (op.operands p.2).eraseIdx i) && decide (seen (probe p.1 op) ≠ seen (probe p.2 op))

/-- The probe words tell every operand apart. -/
theorem tellsApart_all (op : Opcode) : ∀ i ∈ List.range (op.operands 0).length, (probePairs op).any (tellsApart op i) = true := by
  cases op <;> decide +kernel

/-- Every operand of every handler matters: with the others as they are, two values of it make the handler do different things. -/
theorem operand_matters {op : Opcode} {i : Nat} {inst : Word} (hi : i < (op.operands inst).length) :
    ∃ w w', (op.operands w).eraseIdx i = (op.operands w').eraseIdx i ∧ probe w op ≠ probe w' op := by
  have hrange : i ∈ List.range (op.operands 0).length := List.mem_range.mpr (length_operands inst 0 op ▸ hi)
  obtain ⟨p, -, htells⟩ := List.any_eq_true.mp (tellsApart_all op i hrange)
  obtain ⟨hothers, hseen⟩ := Bool.and_eq_true_iff.mp htells
  refine ⟨p.1, p.2, of_decide_eq_true hothers, fun he => ?_⟩
  exact of_decide_eq_true hseen (congrArg seen he)

end CronoVM
