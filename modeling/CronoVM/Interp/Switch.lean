import CronoVM.Machine

/-!
# The switch interpreter

`cvm_exec_at` as it is built where labels are not values: one loop around one `switch`.
-/

namespace CronoVM

open Checked Vm

variable {κ W : Type}

namespace Switch

/-- The cases of `switch (op)`. -/
def cases (img : Image κ) (host : Host κ W) (inst : Word) (a b c : Byte) : Opcode → Vm κ W Unit
  | .halt => do done (← reg a)
  | .movi => do setReg a ((instImm16 inst).signExtend 32)
  | .mov => do setReg a (← reg b)
  | .add => do setReg a ((← reg b) + (← reg c))
  | .sub => do setReg a ((← reg b) - (← reg c))
  | .mul => do setReg a ((← reg b) * (← reg c))
  | .ldw => do
    let addr ← reg b
    failIf (addr > img.memSize ∨ img.memSize - addr < 4) .badAddr
    let v ← load32 addr.toNat
    setReg a v
  | .stw => do
    let addr ← reg b
    failIf (addr > img.memSize ∨ img.memSize - addr < 4) .badAddr
    let v ← reg c
    store32 addr.toNat v
  | .jmp => do
    let off := instImm24 inst
    let off := if off &&& 0x800000 ≠ 0 then off - 0x1000000 else off
    setPc ((← getPc) + off)
  | .beq => do
    if (← reg a) = (← reg b) then
      setPc ((← getPc) + c.signExtend 32)
  | .bne => do
    if (← reg a) ≠ (← reg b) then
      setPc ((← getPc) + c.signExtend 32)
  | .syscall => do
    let id := (instImm16 inst).setWidth 32
    failIf (id ≥ img.importCount) .badSyscall
    match ← importFn id with
    | none => fail .unlinkedSyscall
    | some fn => do
      let status ← callFn host fn
      failIf (status ≠ 0) .syscallTrap
  | .cmpEq => do setReg a (if (← reg b) = (← reg c) then 1 else 0)
  | .cmpNe => do setReg a (if (← reg b) ≠ (← reg c) then 1 else 0)
  | .cmpLt => do setReg a (if (← reg b).slt (← reg c) then 1 else 0)
  | .cmpLe => do setReg a (if (← reg b).sle (← reg c) then 1 else 0)
  | .cmpLtu => do setReg a (if (← reg b) < (← reg c) then 1 else 0)
  | .cmpLeu => do setReg a (if (← reg b) ≤ (← reg c) then 1 else 0)
  | .div => do
    failIf ((← reg c) = 0) .divByZero
    if (← reg b) = 0x80000000 ∧ (← reg c) = 0xFFFFFFFF then
      setReg a 0x80000000
    else
      setReg a ((← reg b).sdiv (← reg c))
  | .divu => do
    failIf ((← reg c) = 0) .divByZero
    setReg a ((← reg b) / (← reg c))
  | .mod => do
    failIf ((← reg c) = 0) .divByZero
    if (← reg b) = 0x80000000 ∧ (← reg c) = 0xFFFFFFFF then
      setReg a 0
    else
      setReg a ((← reg b).srem (← reg c))
  | .modu => do
    failIf ((← reg c) = 0) .divByZero
    setReg a ((← reg b) % (← reg c))
  | .shl => do setReg a ((← reg b) <<< ((← reg c) &&& 31))
  | .shr => do setReg a ((← reg b) >>> ((← reg c) &&& 31))
  | .sar => do setReg a ((← reg b).sshiftRight' ((← reg c) &&& 31))
  | .and => do setReg a ((← reg b) &&& (← reg c))
  | .or => do setReg a ((← reg b) ||| (← reg c))
  | .xor => do setReg a ((← reg b) ^^^ (← reg c))
  | .call => do
    let fid := instImm24 inst
    failIf (fid = 0) .nullFuncPtr
    failIf (fid ≥ img.funcCount) .badFuncIndex
    let sp ← reg regSp
    failIf (sp < 4 ∨ sp > img.memSize) .stackOverflow
    store32 (sp - 4).toNat (← getPc)
    setReg regSp (sp - 4)
    setPc (← funcOffset img fid)
  | .ret => do
    let sp ← reg regSp
    failIf (sp > img.memSize ∨ img.memSize - sp < 4) .badAddr
    let retPc ← load32 sp.toNat
    setReg regSp (sp + 4)
    if retPc = retSentinel then
      done (← reg 0)
    else
      setPc retPc
  | .callr => do
    let fid ← reg a
    failIf (fid = 0) .nullFuncPtr
    failIf (fid ≥ img.funcCount) .badFuncIndex
    let sp ← reg regSp
    failIf (sp < 4 ∨ sp > img.memSize) .stackOverflow
    store32 (sp - 4).toNat (← getPc)
    setReg regSp (sp - 4)
    setPc (← funcOffset img fid)
  | .ldb => do
    let addr ← reg b
    failIf (addr ≥ img.memSize) .badAddr
    setReg a ((← load8 addr.toNat).setWidth 32)
  | .stb => do
    let addr ← reg b
    failIf (addr ≥ img.memSize) .badAddr
    store8 addr.toNat ((← reg c).setWidth 8)
  | .ldh => do
    let addr ← reg b
    failIf (addr > img.memSize ∨ img.memSize - addr < 2) .badAddr
    setReg a ((← load16 addr.toNat).setWidth 32)
  | .sth => do
    let addr ← reg b
    failIf (addr > img.memSize ∨ img.memSize - addr < 2) .badAddr
    store16 addr.toNat ((← reg c).setWidth 16)
  | .movhi => do
    let hi := (instImm16 inst).setWidth 32
    setReg a (hi <<< 16 ||| ((← reg a) &&& 0xFFFF))
  | .memcpy => do
    let dst ← reg a
    let src ← reg b
    let len ← reg c
    if len ≠ 0 then do
      failIf (dst > img.memSize ∨ img.memSize - dst < len) .badAddr
      failIf (src > img.memSize ∨ img.memSize - src < len) .badAddr
      memcpy host dst.toNat src.toNat len.toNat
  | .memset => do
    let dst ← reg a
    let len ← reg c
    if len ≠ 0 then do
      failIf (dst > img.memSize ∨ img.memSize - dst < len) .badAddr
      memset dst.toNat ((← reg b).setWidth 8) len.toNat
  | .memmove => do
    let dst ← reg a
    let src ← reg b
    let len ← reg c
    if len ≠ 0 then do
      failIf (dst > img.memSize ∨ img.memSize - dst < len) .badAddr
      failIf (src > img.memSize ∨ img.memSize - src < len) .badAddr
      memmove dst.toNat src.toNat len.toNat
  | .mulh => do setReg a ((((← reg b).signExtend 64 * (← reg c).signExtend 64).sshiftRight 32).setWidth 32)
  | .mulhu => do setReg a ((((← reg b).setWidth 64 * (← reg c).setWidth 64) >>> 32).setWidth 32)
  | .fadd => do setReg a (host.float.fadd (← reg b) (← reg c))
  | .fsub => do setReg a (host.float.fsub (← reg b) (← reg c))
  | .fmul => do setReg a (host.float.fmul (← reg b) (← reg c))
  | .fdiv => do setReg a (host.float.fdiv (← reg b) (← reg c))
  | .fneg => do setReg a ((← reg b) ^^^ 0x80000000)
  | .fcmpEq => do setReg a (if host.float.feq (← reg b) (← reg c) then 1 else 0)
  | .fcmpNe => do setReg a (if host.float.fne (← reg b) (← reg c) then 1 else 0)
  | .fcmpLt => do setReg a (if host.float.flt (← reg b) (← reg c) then 1 else 0)
  | .fcmpLe => do setReg a (if host.float.fle (← reg b) (← reg c) then 1 else 0)
  | .f2iS => do setReg a (cvmF32ToI32Sat host.float (← reg b))
  | .f2iU => do setReg a (cvmF32ToU32Sat host.float (← reg b))
  | .i2fS => do setReg a (host.float.ofI32 (← reg b))
  | .i2fU => do setReg a (host.float.ofU32 (← reg b))
  | .jmpr => do
    let target ← reg a
    failIf (target ≥ img.codeCount) .badPc
    setPc target
  | .fsqrt => do setReg a (host.float.sqrtf (← reg b))
  | .qdiv1616 => do
    failIf ((← reg c) = 0) .divByZero
    setReg a ((((← reg b).setWidth 64 <<< 16) / (← reg c).setWidth 64).setWidth 32)
  | .qdiv6432 => do
    failIf ((← reg c) = 0) .divByZero
    setReg a ((((← reg a).setWidth 64 <<< 32 ||| (← reg b).setWidth 64) / (← reg c).setWidth 64).setWidth 32)
  | .setjmp => do
    let env ← reg b
    failIf (env > img.memSize ∨ img.memSize - env < 12) .badAddr
    let curSp ← reg regSp
    store32 env.toNat (← getPc)
    store32 (env.toNat + 4) curSp
    store32 (env.toNat + 8) (a.setWidth 32)
    setReg a 0
  | .longjmp => do
    let env ← reg a
    failIf (env > img.memSize ∨ img.memSize - env < 12) .badAddr
    let jpc ← load32 env.toNat
    let jsp ← load32 (env.toNat + 4)
    let jdst ← load32 (env.toNat + 8)
    failIf (jpc ≥ img.codeCount) .badPc
    failIf (jdst.toNat ≥ regCount) .badAddr
    let v ← reg b
    setRegAt jdst.toNat (if v ≠ 0 then v else 1)
    setReg regSp jsp
    setPc jpc
  | .coroSwap => do
    let src ← reg a
    let dst ← reg b
    failIf (src > img.memSize ∨ img.memSize - src < 16) .badAddr
    failIf (dst > img.memSize ∨ img.memSize - dst < 16) .badAddr
    failIf (src = dst) .badAddr
    let jstat ← load32 (dst.toNat + 12)
    failIf (jstat ≠ 0 ∧ jstat ≠ 2) .badCoroState
    let jpc ← load32 dst.toNat
    let jsp ← load32 (dst.toNat + 4)
    let jdst ← load32 (dst.toNat + 8)
    let jpc ← if jstat = 0 then do
        failIf (jpc = 0) .nullFuncPtr
        failIf (jpc ≥ img.funcCount) .badFuncIndex
        let entry ← funcOffset img jpc
        failIf (jdst.toNat ≥ regCount) .badAddr
        pure entry
      else pure jpc
    failIf (jpc ≥ img.codeCount) .badPc
    let curSp ← reg regSp
    store32 src.toNat (← getPc)
    store32 (src.toNat + 4) curSp
    store32 (src.toNat + 8) (a.setWidth 32)
    store32 (src.toNat + 12) 2
    store32 (dst.toNat + 12) 1
    if jstat = 0 then
      setRegAt jdst.toNat dst
    setReg regSp jsp
    setPc jpc
  | .ffloor => do setReg a (host.float.floorf (← reg b))
  | .fceil => do setReg a (host.float.ceilf (← reg b))
  | .ftrunc => do setReg a (host.float.truncf (← reg b))

/-- One turn of the loop. -/
def step (img : Image κ) (host : Host κ W) : Vm κ W Unit := do
  let pc ← getPc
  failIf (pc ≥ img.codeCount) .badPc
  let inst ← codeAt img pc
  setPc (pc + 1)
  match Opcode.ofByte? (instOp inst) with
  | some op => cases img host inst (instA inst) (instB inst) (instC inst) op
  | none => fail .badOpcode

end Switch

end CronoVM
