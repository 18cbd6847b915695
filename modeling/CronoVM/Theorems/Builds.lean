import CronoVM.Interp.Run

/-!
# The two builds of the interpreter agree

The computed-goto interpreter and the switch interpreter decode alike (`jt` holds a label exactly where the switch has a case) and
their handlers do the same, so that they take the same steps and make the same runs.
-/

namespace CronoVM

open Checked Vm

namespace BuildsAux

/-- The label that stands for a case of the switch. -/
def labelOf : Opcode → Threaded.Label
  | .halt => .lHalt | .movi => .lMovi | .mov => .lMov | .add => .lAdd
  | .sub => .lSub | .mul => .lMul | .ldw => .lLdw | .stw => .lStw
  | .jmp => .lJmp | .beq => .lBeq | .bne => .lBne | .syscall => .lSyscall
  | .cmpEq => .lCmpEq | .cmpNe => .lCmpNe | .cmpLt => .lCmpLt | .cmpLe => .lCmpLe
  | .cmpLtu => .lCmpLtu | .cmpLeu => .lCmpLeu | .div => .lDiv | .divu => .lDivu
  | .mod => .lMod | .modu => .lModu | .shl => .lShl | .shr => .lShr
  | .sar => .lSar | .and => .lAnd | .or => .lOr | .xor => .lXor
  | .call => .lCall | .ret => .lRet | .callr => .lCallr | .ldb => .lLdb
  | .stb => .lStb | .ldh => .lLdh | .sth => .lSth | .movhi => .lMovhi
  | .memcpy => .lMemcpy | .memset => .lMemset | .memmove => .lMemmove | .mulh => .lMulh
  | .mulhu => .lMulhu | .fadd => .lFadd | .fsub => .lFsub | .fmul => .lFmul
  | .fdiv => .lFdiv | .fneg => .lFneg | .fcmpEq => .lFcmpEq | .fcmpNe => .lFcmpNe
  | .fcmpLt => .lFcmpLt | .fcmpLe => .lFcmpLe | .f2iS => .lF2iS | .f2iU => .lF2iU
  | .i2fS => .lI2fS | .i2fU => .lI2fU | .jmpr => .lJmpr | .fsqrt => .lFsqrt
  | .qdiv1616 => .lQdiv1616 | .qdiv6432 => .lQdiv6432 | .setjmp => .lSetjmp | .longjmp => .lLongjmp
  | .coroSwap => .lCoroSwap | .ffloor => .lFfloor | .fceil => .lFceil | .ftrunc => .lFtrunc

/-- The table of labels has, for each opcode, the label of its handler. -/
theorem jtInit_eq : Threaded.jtInit = Opcode.all.map fun op => (op, labelOf op) := rfl

/-- The jump table and the switch decode alike, the bytes that name no opcode included. -/
theorem jt_eq (op : Byte) : Threaded.jt op = (Opcode.ofByte? op).map labelOf := by
  rw [Threaded.jt, jtInit_eq, List.find?_map, Option.map_map, Opcode.ofByte?]
  rfl

variable {κ W : Type} (img : Image κ) (host : Host κ W)

/-- Label by label, the two texts do the same. -/
theorem handler_eq_cases (inst : Word) (a b c : Byte) (op : Opcode) :
    Threaded.handler img host inst a b c (labelOf op) = Switch.cases img host inst a b c op := by
  cases op <;> rfl

/-- A step of the threaded build is one of the `switch`. -/
theorem step_eq : Threaded.step img host = Switch.step img host := by
  unfold Threaded.step Switch.step
  congr 1
  funext pc
  congr 1
  funext _
  congr 1
  funext inst
  congr 1
  funext _
  rw [jt_eq]
  cases Opcode.ofByte? (instOp inst) with
  | none => rfl
  | some op => exact handler_eq_cases img host inst _ _ _ op

end BuildsAux

variable {κ W : Type}

/-- From any state an instruction has the same outcome in both builds, and so has every run from every entry point, after any number
of instructions: the same pc, registers, memory and bindings, or the same final code. -/
theorem builds_agree (img : Image κ) (host : Host κ W) :
    (∀ f : Frame κ W, Build.step .threaded img host f = Build.step .switch img host f) ∧
    (∀ (start : Start) (args : List Word) (n : Nat) (f : Frame κ W),
      start.run .threaded img host args n f = start.run .switch img host args n f) := by
  have hstep : Build.step .threaded img host = Build.step .switch img host := BuildsAux.step_eq img host
  refine ⟨fun f => congrFun hstep f, fun start args n f => ?_⟩
  simp only [Start.run, cvmExecAt, hstep]

end CronoVM
