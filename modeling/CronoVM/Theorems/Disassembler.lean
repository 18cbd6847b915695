import CronoVM.Disassembler
import CronoVM.Lemmas.Decoding

/-!
# The disassembler and the interpreter

Where a line of `cvm-dis` says what the interpreter does with the word: its name, its branch target and its operands.
-/

namespace CronoVM

open Checked Vm

/-- An opcode in the words of `cvm.h`, without its `CVM_OP_`. -/
def Opcode.enumerator : Opcode → String
  | .halt => "HALT" | .movi => "MOVI" | .mov => "MOV" | .add => "ADD"
  | .sub => "SUB" | .mul => "MUL" | .ldw => "LDW" | .stw => "STW"
  | .jmp => "JMP" | .beq => "BEQ" | .bne => "BNE" | .syscall => "SYSCALL"
  | .cmpEq => "CMP_EQ" | .cmpNe => "CMP_NE" | .cmpLt => "CMP_LT" | .cmpLe => "CMP_LE"
  | .cmpLtu => "CMP_LTU" | .cmpLeu => "CMP_LEU" | .div => "DIV" | .divu => "DIVU"
  | .mod => "MOD" | .modu => "MODU" | .shl => "SHL" | .shr => "SHR"
  | .sar => "SAR" | .and => "AND" | .or => "OR" | .xor => "XOR"
  | .call => "CALL" | .ret => "RET" | .callr => "CALLR" | .ldb => "LDB"
  | .stb => "STB" | .ldh => "LDH" | .sth => "STH" | .movhi => "MOVHI"
  | .memcpy => "MEMCPY" | .memset => "MEMSET" | .memmove => "MEMMOVE" | .mulh => "MULH"
  | .mulhu => "MULHU" | .fadd => "FADD" | .fsub => "FSUB" | .fmul => "FMUL"
  | .fdiv => "FDIV" | .fneg => "FNEG" | .fcmpEq => "FCMP_EQ" | .fcmpNe => "FCMP_NE"
  | .fcmpLt => "FCMP_LT" | .fcmpLe => "FCMP_LE" | .f2iS => "F2I_S" | .f2iU => "F2I_U"
  | .i2fS => "I2F_S" | .i2fU => "I2F_U" | .jmpr => "JMPR" | .fsqrt => "FSQRT"
  | .qdiv1616 => "QDIV1616" | .qdiv6432 => "QDIV6432" | .setjmp => "SETJMP" | .longjmp => "LONGJMP"
  | .coroSwap => "CORO_SWAP" | .ffloor => "FFLOOR" | .fceil => "FCEIL" | .ftrunc => "FTRUNC"

/-- The operand that a piece of a line shows. -/
def Piece.operand? : Piece → Option Operand
  | .text _ | .target _ => none
  | .reg r => some (.reg r)
  | .imm v => some (.imm (v.signExtend 32))
  | .immHigh v => some (.imm (v.setWidth 32 <<< 16))
  | .offset v => some (.offset v)
  | .slot n => some (.slot n)
  | .sysno n => some (.sysno n)

/-- The operands of a line. -/
def DisLine.operands (l : DisLine) : List Operand := l.args.filterMap Piece.operand?

/-- The word is a branch, and in this state it is taken. -/
def TakesBranch {κ W : Type} (inst : Word) (f : Frame κ W) : Prop :=
  match Opcode.ofByte? (instOp inst) with
  | some .jmp => True
  | some .beq => f.regs (instA inst) = f.regs (instB inst)
  | some .bne => f.regs (instA inst) ≠ f.regs (instB inst)
  | _ => False

/-- The line of a word at a pc says what the interpreter does with it: the line has the name of the opcode that is run, and the name
`???` exactly where the word is rejected; a branch that is taken goes on at the target shown; and the operands shown are those the
handler takes, in their order. -/
structure Decodes (syms : List Sym) (pc inst : Word) : Prop where
  name : ∀ op, Opcode.ofByte? (instOp inst) = some op → (disOne syms pc inst).name = op.enumerator
  rejected : ∀ {κ W : Type} (build : Build) (img : Image κ) (host : Host κ W) (f : Frame κ W),
    (disOne syms pc inst).name = "???" ↔ build.execute img host inst f = fail .badOpcode f
  target : ∀ {κ W : Type} (build : Build) (img : Image κ) (host : Host κ W) (f : Frame κ W) (t : Word),
    f.pc = pc + 1 → TakesBranch inst f → .target t ∈ (disOne syms pc inst).args →
      ∃ g, build.execute img host inst f = .val () g ∧ g.pc = t
  operands : (disOne syms pc inst).operands <+: takenOperands inst

/-- The opcodes with two registers that `dis_one` has no case for. -/
def twoRegisterDefaults : List Opcode := [.fneg, .f2iS, .f2iU, .i2fS, .i2fU, .fsqrt, .ffloor, .fceil, .ftrunc, .coroSwap]

namespace DisassemblerAux

/-! ## Names -/

/-- The mnemonic of an opcode is its name. -/
theorem opname_code (op : Opcode) : opname op.code = op.enumerator := by cases op <;> rfl

/-- No opcode is named as the unknown ones are printed. -/
theorem enumerator_ne (op : Opcode) : op.enumerator ≠ "???" := by cases op <;> decide

/-- A byte that is an opcode is its code. -/
theorem code_of_ofByte? {b : Byte} {op : Opcode} (h : Opcode.ofByte? b = some op) : op.code = b := by
  have hfound := List.find?_some h
  exact eq_of_beq hfound

/-- A byte that is no opcode is printed as unknown. -/
theorem opname_of_none {b : Byte} (h : Opcode.ofByte? b = none) : opname b = "???" := by
  have hnone : opnameCases.find? (fun e => e.1.code == b) = none := by
    rw [List.find?_eq_none]
    intro e _
    have hmem : e.1 ∈ Opcode.all := by cases e.1 <;> decide
    exact List.find?_eq_none.mp h e.1 hmem
  rw [opname, hnone]
  rfl

/-- The unknown bytes are those that are no opcode. -/
theorem opname_eq_unknown_iff (b : Byte) : opname b = "???" ↔ Opcode.ofByte? b = none := by
  constructor
  · intro hname
    cases hop : Opcode.ofByte? b with
    | none => rfl
    | some op =>
      rw [← code_of_ofByte? hop, opname_code] at hname
      exact absurd hname (enumerator_ne op)
  · exact opname_of_none

/-- The interpreter rejects a word as a bad opcode exactly where no enumerator has its opcode byte. -/
theorem rejected_iff {κ W : Type} (build : Build) (img : Image κ) (host : Host κ W) (inst : Word) (f : Frame κ W) :
    build.execute img host inst f = fail .badOpcode f ↔ Opcode.ofByte? (instOp inst) = none := by
  constructor
  · intro hrun
    cases hop : Opcode.ofByte? (instOp inst) with
    | none => rfl
    | some op =>
      rw [build.execute_of_opcode hop] at hrun
      exact absurd rfl (knows_cases img host inst _ _ _ op f _ f hrun)
  · intro hop
    rw [build.execute_of_none hop]

/-! ## Branches -/

/-- The offset a branch adds to the pc. -/
def branchOffset (inst : Word) : Word :=
  if Opcode.ofByte? (instOp inst) = some .jmp then soff24 (instImm24 inst) else (instC inst).signExtend 32

/-- A branch that is taken adds its offset to the pc of the next instruction. -/
theorem execute_taken {κ W : Type} (build : Build) (img : Image κ) (host : Host κ W) {inst : Word} {f : Frame κ W}
    (h : TakesBranch inst f) : build.execute img host inst f = .val () { f with pc := f.pc + branchOffset inst } := by
  unfold TakesBranch at h
  split at h
  case h_1 hop =>
    rw [build.execute_of_opcode hop, branchOffset, if_pos hop]
    rfl
  case h_2 hop =>
    rw [build.execute_of_opcode hop, branchOffset, if_neg (by rw [hop]; decide)]
    simp [Switch.cases, reg, regAt, toNat_lt_regCount, h, getPc, setPc]
  case h_3 hop =>
    rw [build.execute_of_opcode hop, branchOffset, if_neg (by rw [hop]; decide)]
    simp [Switch.cases, reg, regAt, toNat_lt_regCount, h, getPc, setPc]
  case h_4 => exact absurd h not_false

/-- The target shown for a branch is its offset from the branch itself. -/
theorem target_mem_of_taken {κ W : Type} (syms : List Sym) (pc : Word) {inst : Word} {f : Frame κ W} (h : TakesBranch inst f) :
    .target (pc + branchOffset inst) ∈ (disOne syms pc inst).args := by
  unfold TakesBranch at h
  split at h
  case h_1 hop => simp [disOne, disOperands, branchOffset, hop]
  case h_2 hop => simp [disOne, disOperands, branchOffset, hop]
  case h_3 hop => simp [disOne, disOperands, branchOffset, hop]
  case h_4 => exact absurd h not_false

/-- So a branch that can be taken is never shown with the place it goes on at. -/
theorem not_decodes_of_taken {κ W : Type} {syms : List Sym} {pc inst : Word} {f : Frame κ W} (img : Image κ) (host : Host κ W)
    (hpc : f.pc = pc + 1) (h : TakesBranch inst f) : ¬Decodes syms pc inst := by
  intro hd
  obtain ⟨g, hrun, hg⟩ := hd.target .switch img host f _ hpc h (target_mem_of_taken syms pc h)
  rw [execute_taken .switch img host h] at hrun
  cases hrun
  have hcancel : pc + 1 = pc := by
    rw [hpc] at hg
    exact (BitVec.add_left_inj _).mp hg
  bv_omega

/-! ## Operands -/

/-- The 24-bit field is the number in its upper 16 bits where both are zero only. -/
theorem instImm24_eq_imm16_iff (inst : Word) : instImm24 inst = (instImm16 inst).setWidth 32 ↔ instImm24 inst = 0 := by
  have hlt := inst.isLt
  have hmask : (0xFFFFFF : Word).toNat = 2 ^ 24 - 1 := rfl
  have h24 : (instImm24 inst).toNat = inst.toNat / 256 := by
    rw [instImm24, BitVec.toNat_and, hmask, Nat.and_two_pow_sub_one_eq_mod, BitVec.toNat_ushiftRight, Nat.shiftRight_eq_div_pow]
    omega
  have h16 : ((instImm16 inst).setWidth 32).toNat = inst.toNat / 65536 := by
    rw [instImm16, BitVec.toNat_setWidth, BitVec.toNat_setWidth, BitVec.toNat_ushiftRight, Nat.shiftRight_eq_div_pow]
    omega
  have hzero : instImm24 inst = 0 ↔ inst.toNat / 256 = 0 := by rw [← h24, ← BitVec.toNat_inj]; rfl
  rw [hzero, ← BitVec.toNat_inj, h24, h16]
  omega

/-- The operands shown are those the handler takes, but for a system call and the opcodes without a case of their own. -/
theorem operands_iff (syms : List Sym) (pc : Word) {inst : Word} {op : Opcode} (hop : Opcode.ofByte? (instOp inst) = some op) :
    (disOne syms pc inst).operands <+: takenOperands inst ↔
      (op = .syscall → instImm24 inst = 0) ∧ op ∉ twoRegisterDefaults := by
  have hshown : (disOne syms pc inst).operands = (disOperands syms pc inst).filterMap Piece.operand? := rfl
  rw [hshown, takenOperands, hop]
  cases op
  case syscall =>
    simpa [disOperands, hop, Piece.operand?, Opcode.operands, twoRegisterDefaults, List.filterMap_cons] using instImm24_eq_imm16_iff inst
  case jmp => simp [disOperands, hop, Piece.operand?, Opcode.operands, twoRegisterDefaults, List.filterMap_cons, soff24]
  all_goals simp [disOperands, hop, Piece.operand?, Opcode.operands, twoRegisterDefaults, List.filterMap_cons]

/-- Of a word that is rejected three registers are shown. -/
theorem not_prefix_of_rejected (syms : List Sym) (pc : Word) {inst : Word} (hop : Opcode.ofByte? (instOp inst) = none) :
    ¬(disOne syms pc inst).operands <+: takenOperands inst := by
  have hshown : (disOne syms pc inst).operands = (disOperands syms pc inst).filterMap Piece.operand? := rfl
  rw [hshown, takenOperands, hop]
  simp [disOperands, hop, Piece.operand?, List.filterMap_cons]

/-! ## Words whose branch can be taken -/

/-- A state with the word's branch taken, if the word is a branch other than one on a register unequal to itself. -/
theorem exists_taken (pc : Word) {inst : Word}
    (h : Opcode.ofByte? (instOp inst) = some .jmp ∨ Opcode.ofByte? (instOp inst) = some .beq ∨
      Opcode.ofByte? (instOp inst) = some .bne ∧ instA inst ≠ instB inst) :
    ∃ f : Frame Unit Unit, f.pc = pc + 1 ∧ TakesBranch inst f := by
  rcases h with hop | hop | ⟨hop, hne⟩
  · refine ⟨{ probeFrame with pc := pc + 1 }, rfl, ?_⟩
    simp only [TakesBranch, hop]
  · refine ⟨{ probeFrame with pc := pc + 1, regs := fun _ => 0 }, rfl, ?_⟩
    simp only [TakesBranch, hop]
  · refine ⟨{ probeFrame with pc := pc + 1, regs := Function.update (fun _ => 0) (instA inst) 1 }, rfl, ?_⟩
    simp only [TakesBranch, hop, Function.update_self, Function.update_of_ne hne.symm]
    decide

/-- A branch other than these is never taken. -/
theorem not_taken {κ W : Type} {inst : Word} {op : Opcode} (hop : Opcode.ofByte? (instOp inst) = some op) (hjmp : op ≠ .jmp)
    (hbeq : op ≠ .beq) (hbne : op = .bne → instA inst = instB inst) (f : Frame κ W) : ¬TakesBranch inst f := by
  intro h
  unfold TakesBranch at h
  rw [hop] at h
  split at h
  case h_1 he => exact hjmp (Option.some.inj he)
  case h_2 he => exact hbeq (Option.some.inj he)
  case h_3 he => exact h (congrArg f.regs (hbne (Option.some.inj he)))
  case h_4 => exact h

end DisassemblerAux

open DisassemblerAux

/-- For every word and every pc, the line of the disassembler says what the interpreter does exactly when the word has an opcode,
which is neither `JMP` nor `BEQ` nor a `BNE` of two registers, no system call but the one whose 24 upper bits are zero, and none of the
opcodes with two registers that are printed with three. -/
theorem dis_one_decodes_iff (syms : List Sym) (pc inst : Word) :
    Decodes syms pc inst ↔
      ∃ op, Opcode.ofByte? (instOp inst) = some op ∧ op ≠ .jmp ∧ op ≠ .beq ∧ (op = .bne → instA inst = instB inst) ∧
        (op = .syscall → instImm24 inst = 0) ∧ op ∉ twoRegisterDefaults := by
  constructor
  · intro hd
    cases hop : Opcode.ofByte? (instOp inst) with
    | none => exact absurd hd.operands (not_prefix_of_rejected syms pc hop)
    | some op =>
      have hbranch : ¬(Opcode.ofByte? (instOp inst) = some .jmp ∨ Opcode.ofByte? (instOp inst) = some .beq ∨
          Opcode.ofByte? (instOp inst) = some .bne ∧ instA inst ≠ instB inst) := by
        intro h
        obtain ⟨f, hpc, htaken⟩ := exists_taken pc h
        exact not_decodes_of_taken probeImage probeHost hpc htaken hd
      simp only [hop, Option.some.injEq, not_or, not_and, not_not] at hbranch
      obtain ⟨hjmp, hbeq, hbne⟩ := hbranch
      obtain ⟨hsys, htwo⟩ := (operands_iff syms pc hop).mp hd.operands
      exact ⟨op, rfl, hjmp, hbeq, hbne, hsys, htwo⟩
  · rintro ⟨op, hop, hjmp, hbeq, hbne, hsys, htwo⟩
    refine ⟨fun op' hop' => ?_, fun build img host f => ?_, fun _ _ _ f _ _ h => ?_, ?_⟩
    · rw [disOne, ← code_of_ofByte? hop']
      exact opname_code op'
    · rw [rejected_iff, ← opname_eq_unknown_iff]
      rfl
    · exact absurd h (not_taken hop hjmp hbeq hbne f)
    · exact (operands_iff syms pc hop).mpr ⟨hsys, htwo⟩

/-- `JMP +2` at pc 5 is printed as a jump to 7; the interpreter goes on at 8. -/
theorem dis_one_jmp_target : ¬Decodes [] 5 (encI24 .jmp 2) := by
  obtain ⟨f, hpc, htaken⟩ := exists_taken 5 (Or.inl (show Opcode.ofByte? (instOp (encI24 .jmp 2)) = some .jmp by simp))
  exact not_decodes_of_taken probeImage probeHost hpc htaken

example : (disOne [] 5 (encI24 .jmp 2)).render = "       5: 00000208  JMP     +2 -> 7" := by decide

end CronoVM
