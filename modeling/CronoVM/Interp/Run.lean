import CronoVM.Interp.Threaded
import CronoVM.Interp.Switch

/-!
# Runs of the interpreter

The entry of `cvm_exec_at`, the two public functions that pick a start pc, and their runs of at most `n` instructions in either
build of the interpreter.
-/

namespace CronoVM

open Checked Vm

variable {κ W : Type}

/-- Which of the two interpreters `CVM_THREADED` selects. -/
inductive Build where
  | threaded | switch
  deriving DecidableEq, Repr

/-- One instruction. -/
def Build.step : Build → Image κ → Host κ W → Vm κ W Unit
  | .threaded => Threaded.step
  | .switch => Switch.step

/-- `cvm_exec_at` before its first instruction: the checks, the register file with the arguments, and the sentinel on the stack. -/
def enter (img : Image κ) (startPc : Word) (args : List Word) : Vm κ W Unit := do
  failIf (img.codeCount = 0) .badPc
  failIf (startPc ≥ img.codeCount) .badEntry
  failIf (args.length > regCount) .badAddr
  Exec.demand (args.length ≤ regCount)
  Exec.modify fun f => { f with regs := fun r => args.getD r.toNat 0, pc := startPc }
  if img.stackSize ≥ 4 then do
    let sp := img.memSize - 4
    store32 sp.toNat retSentinel
    setReg regSp sp
  else
    setReg regSp img.memSize

/-- `cvm_exec_at`, for at most `n` instructions. -/
def cvmExecAt (build : Build) (img : Image κ) (host : Host κ W) (startPc : Word) (args : List Word) (n : Nat) : Vm κ W Unit := do
  enter img startPc args
  Exec.iterate (build.step img host) n

/-- `cvm_call` up to its call of `cvm_exec_at`: the start pc. -/
def callEntry (img : Image κ) (fnIndex : Word) : Vm κ W Word := do
  failIf (img.funcOffsets = none) .badFuncs
  failIf (fnIndex = 0) .nullFuncPtr
  failIf (fnIndex ≥ img.funcCount) .badFuncIndex
  funcOffset img fnIndex

/-- The public entry points: `cvm_run_args`, and `cvm_call` with its function index. -/
inductive Start where
  | runArgs
  | call (fnIndex : Word)

/-- The start pc of an entry point. -/
def Start.pc (img : Image κ) : Start → Vm κ W Word
  | .runArgs => pure img.entry
  | .call fnIndex => callEntry img fnIndex

/-- A run from an entry point, for at most `n` instructions. -/
def Start.run (start : Start) (build : Build) (img : Image κ) (host : Host κ W) (args : List Word) (n : Nat) : Vm κ W Unit := do
  let startPc ← start.pc img
  cvmExecAt build img host startPc args n

end CronoVM
