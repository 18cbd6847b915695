import CronoVM.Machine

/-!
# The computed-goto interpreter

`cvm_exec_at` as it is built where labels are values: each handler is a label, `jt` maps opcode bytes to labels, and every handler
ends in the same dispatch.
-/

namespace CronoVM

open Checked Vm

variable {κ W : Type}

namespace Threaded

/-- The labels of the handlers. -/
inductive Label where
  | lHalt | lMovi | lMov | lAdd | lSub | lMul | lLdw | lStw
  | lJmp | lBeq | lBne | lSyscall | lCmpEq | lCmpNe | lCmpLt | lCmpLe
  | lCmpLtu | lCmpLeu | lDiv | lDivu | lMod | lModu | lShl | lShr
  | lSar | lAnd | lOr | lXor | lCall | lRet | lCallr | lLdb
  | lStb | lLdh | lSth | lMovhi | lMemcpy | lMemset | lMemmove | lMulh
  | lMulhu | lFadd | lFsub | lFmul | lFdiv | lFneg | lFcmpEq | lFcmpNe
  | lFcmpLt | lFcmpLe | lF2iS | lF2iU | lI2fS | lI2fU | lJmpr | lFsqrt
  | lQdiv1616 | lQdiv6432 | lSetjmp | lLongjmp | lCoroSwap | lFfloor | lFceil | lFtrunc
  deriving DecidableEq

/-- The initialisers of `jt`; an index that is not listed holds NULL. -/
def jtInit : List (Opcode × Label) :=
  [(.halt, .lHalt), (.movi, .lMovi), (.mov, .lMov), (.add, .lAdd), (.sub, .lSub),
   (.mul, .lMul), (.ldw, .lLdw), (.stw, .lStw), (.jmp, .lJmp), (.beq, .lBeq),
   (.bne, .lBne), (.syscall, .lSyscall), (.cmpEq, .lCmpEq), (.cmpNe, .lCmpNe), (.cmpLt, .lCmpLt),
   (.cmpLe, .lCmpLe), (.cmpLtu, .lCmpLtu), (.cmpLeu, .lCmpLeu), (.div, .lDiv), (.divu, .lDivu),
   (.mod, .lMod), (.modu, .lModu), (.shl, .lShl), (.shr, .lShr), (.sar, .lSar),
   (.and, .lAnd), (.or, .lOr), (.xor, .lXor), (.call, .lCall), (.ret, .lRet),
   (.callr, .lCallr), (.ldb, .lLdb), (.stb, .lStb), (.ldh, .lLdh), (.sth, .lSth),
   (.movhi, .lMovhi), (.memcpy, .lMemcpy), (.memset, .lMemset), (.memmove, .lMemmove), (.mulh, .lMulh),
   (.mulhu, .lMulhu), (.fadd, .lFadd), (.fsub, .lFsub), (.fmul, .lFmul), (.fdiv, .lFdiv),
   (.fneg, .lFneg), (.fcmpEq, .lFcmpEq), (.fcmpNe, .lFcmpNe), (.fcmpLt, .lFcmpLt), (.fcmpLe, .lFcmpLe),
   (.f2iS, .lF2iS), (.f2iU, .lF2iU), (.i2fS, .lI2fS), (.i2fU, .lI2fU), (.jmpr, .lJmpr),
   (.fsqrt, .lFsqrt), (.qdiv1616, .lQdiv1616), (.qdiv6432, .lQdiv6432), (.setjmp, .lSetjmp), (.longjmp, .lLongjmp),
   (.coroSwap, .lCoroSwap), (.ffloor, .lFfloor), (.fceil, .lFceil), (.ftrunc, .lFtrunc)]

/-- `jt[op]`. -/
def jt (op : Byte) : Option Label := (jtInit.find? fun e => e.1.code == op).map (·.2)

/-- The code between a label and its dispatch. -/
def handler (img : Image κ) (host : Host κ W) (inst : Word) (a b c : Byte) : Label → Vm κ W Unit
  | .lHalt => do done (← reg a)
  | .lMovi => do setReg a ((instImm16 inst).signExtend 32)
  | .lMov => do setReg a (← reg b)
  | .lAdd => do setReg a ((← reg b) + (← reg c))
  | .lSub => do setReg a ((← reg b) - (← reg c))
  | .lMul => do setReg a ((← reg b) * (← reg c))
  | .lLdw => do
    let addr ← reg b
    failIf (addr > img.memSize ∨ img.memSize - addr < 4) .badAddr
    let v ← load32 addr.toNat
    setReg a v
  | .lStw => do
    let addr ← reg b
    failIf (addr > img.memSize ∨ img.memSize - addr < 4) .badAddr
    let v ← reg c
    store32 addr.toNat v
  | .lJmp => do
    let off := instImm24 inst
    let off := if off &&& 0x800000 ≠ 0 then off - 0x1000000 else off
    setPc ((← getPc) + off)
  | .lBeq => do
    if (← reg a) = (← reg b) then
      setPc ((← getPc) + c.signExtend 32)
  | .lBne => do
    if (← reg a) ≠ (← reg b) then
      setPc ((← getPc) + c.signExtend 32)
  | .lSyscall => do
    let id := (instImm16 inst).setWidth 32
    failIf (id ≥ img.importCount) .badSyscall
    match ← importFn id with
    | none => fail .unlinkedSyscall
    | some fn => do
      let status ← callFn host fn
      failIf (status ≠ 0) .syscallTrap
  | .lCmpEq => do setReg a (if (← reg b) = (← reg c) then 1 else 0)
  | .lCmpNe => do setReg a (if (← reg b) ≠ (← reg c) then 1 else 0)
  | .lCmpLt => do setReg a (if (← reg b).slt (← reg c) then 1 else 0)
  | .lCmpLe => do setReg a (if (← reg b).sle (← reg c) then 1 else 0)
  | .lCmpLtu => do setReg a (if (← reg b) < (← reg c) then 1 else 0)
  | .lCmpLeu => do setReg a (if (← reg b) ≤ (← reg c) then 1 else 0)
  | .lDiv => do
    failIf ((← reg c) = 0) .divByZero
    if (← reg b) = 0x80000000 ∧ (← reg c) = 0xFFFFFFFF then
      setReg a 0x80000000
    else
      setReg a ((← reg b).sdiv (← reg c))
  | .lDivu => do
    failIf ((← reg c) = 0) .divByZero
    setReg a ((← reg b) / (← reg c))
  | .lMod => do
    failIf ((← reg c) = 0) .divByZero
    if (← reg b) = 0x80000000 ∧ (← reg c) = 0xFFFFFFFF then
      setReg a 0
    else
      setReg a ((← reg b).srem (← reg c))
  | .lModu => do
    failIf ((← reg c) = 0) .divByZero
    setReg a ((← reg b) % (← reg c))
  | .lShl => do setReg a ((← reg b) <<< ((← reg c) &&& 31))
  | .lShr => do setReg a ((← reg b) >>> ((← reg c) &&& 31))
  | .lSar => do setReg a ((← reg b).sshiftRight' ((← reg c) &&& 31))
  | .lAnd => do setReg a ((← reg b) &&& (← reg c))
  | .lOr => do setReg a ((← reg b) ||| (← reg c))
  | .lXor => do setReg a ((← reg b) ^^^ (← reg c))
  | .lCall => do
    let fid := instImm24 inst
    failIf (fid = 0) .nullFuncPtr
    failIf (fid ≥ img.funcCount) .badFuncIndex
    let sp ← reg regSp
    failIf (sp < 4 ∨ sp > img.memSize) .stackOverflow
    store32 (sp - 4).toNat (← getPc)
    setReg regSp (sp - 4)
    setPc (← funcOffset img fid)
  | .lRet => do
    let sp ← reg regSp
    failIf (sp > img.memSize ∨ img.memSize - sp < 4) .badAddr
    let retPc ← load32 sp.toNat
    setReg regSp (sp + 4)
    if retPc = retSentinel then
      done (← reg 0)
    else
      setPc retPc
  | .lCallr => do
    let fid ← reg a
    failIf (fid = 0) .nullFuncPtr
    failIf (fid ≥ img.funcCount) .badFuncIndex
    let sp ← reg regSp
    failIf (sp < 4 ∨ sp > img.memSize) .stackOverflow
    store32 (sp - 4).toNat (← getPc)
    setReg regSp (sp - 4)
    setPc (← funcOffset img fid)
  | .lLdb => do
    let addr ← reg b
    failIf (addr ≥ img.memSize) .badAddr
    setReg a ((← load8 addr.toNat).setWidth 32)
  | .lStb => do
    let addr ← reg b
    failIf (addr ≥ img.memSize) .badAddr
    store8 addr.toNat ((← reg c).setWidth 8)
  | .lLdh => do
    let addr ← reg b
    failIf (addr > img.memSize ∨ img.memSize - addr < 2) .badAddr
    setReg a ((← load16 addr.toNat).setWidth 32)
  | .lSth => do
    let addr ← reg b
    failIf (addr > img.memSize ∨ img.memSize - addr < 2) .badAddr
    store16 addr.toNat ((← reg c).setWidth 16)
  | .lMovhi => do
    let hi := (instImm16 inst).setWidth 32
    setReg a (hi <<< 16 ||| ((← reg a) &&& 0xFFFF))
  | .lMemcpy => do
    let dst ← reg a
    let src ← reg b
    let len ← reg c
    if len ≠ 0 then do
      failIf (dst > img.memSize ∨ img.memSize - dst < len) .badAddr
      failIf (src > img.memSize ∨ img.memSize - src < len) .badAddr
      memcpy host dst.toNat src.toNat len.toNat
  | .lMemset => do
    let dst ← reg a
    let len ← reg c
    if len ≠ 0 then do
      failIf (dst > img.memSize ∨ img.memSize - dst < len) .badAddr
      memset dst.toNat ((← reg b).setWidth 8) len.toNat
  | .lMemmove => do
    let dst ← reg a
    let src ← reg b
    let len ← reg c
    if len ≠ 0 then do
      failIf (dst > img.memSize ∨ img.memSize - dst < len) .badAddr
      failIf (src > img.memSize ∨ img.memSize - src < len) .badAddr
      memmove dst.toNat src.toNat len.toNat
  | .lMulh => do setReg a ((((← reg b).signExtend 64 * (← reg c).signExtend 64).sshiftRight 32).setWidth 32)
  | .lMulhu => do setReg a ((((← reg b).setWidth 64 * (← reg c).setWidth 64) >>> 32).setWidth 32)
  | .lFadd => do setReg a (host.float.fadd (← reg b) (← reg c))
  | .lFsub => do setReg a (host.float.fsub (← reg b) (← reg c))
  | .lFmul => do setReg a (host.float.fmul (← reg b) (← reg c))
  | .lFdiv => do setReg a (host.float.fdiv (← reg b) (← reg c))
  | .lFneg => do setReg a ((← reg b) ^^^ 0x80000000)
  | .lFcmpEq => do setReg a (if host.float.feq (← reg b) (← reg c) then 1 else 0)
  | .lFcmpNe => do setReg a (if host.float.fne (← reg b) (← reg c) then 1 else 0)
  | .lFcmpLt => do setReg a (if host.float.flt (← reg b) (← reg c) then 1 else 0)
  | .lFcmpLe => do setReg a (if host.float.fle (← reg b) (← reg c) then 1 else 0)
  | .lF2iS => do setReg a (cvmF32ToI32Sat host.float (← reg b))
  | .lF2iU => do setReg a (cvmF32ToU32Sat host.float (← reg b))
  | .lI2fS => do setReg a (host.float.ofI32 (← reg b))
  | .lI2fU => do setReg a (host.float.ofU32 (← reg b))
  | .lJmpr => do
    let target ← reg a
    failIf (target ≥ img.codeCount) .badPc
    setPc target
  | .lFsqrt => do setReg a (host.float.sqrtf (← reg b))
  | .lQdiv1616 => do
    failIf ((← reg c) = 0) .divByZero
    setReg a ((((← reg b).setWidth 64 <<< 16) / (← reg c).setWidth 64).setWidth 32)
  | .lQdiv6432 => do
    failIf ((← reg c) = 0) .divByZero
    setReg a ((((← reg a).setWidth 64 <<< 32 ||| (← reg b).setWidth 64) / (← reg c).setWidth 64).setWidth 32)
  | .lSetjmp => do
    let env ← reg b
    failIf (env > img.memSize ∨ img.memSize - env < 12) .badAddr
    let curSp ← reg regSp
    store32 env.toNat (← getPc)
    store32 (env.toNat + 4) curSp
    store32 (env.toNat + 8) (a.setWidth 32)
    setReg a 0
  | .lLongjmp => do
    let env ← reg a
    failIf (env > img.memSize ∨ img.memSize - env < 12) .badAddr
    let jpc ← load32 env.toNat
    let jsp ← load32 (env.toNat + 4)
    let jdst ← load32 (env.toNat + 8)
    failIf (jpc ≥ img.codeCount) .badPc
    failIf (jdst.toNat ≥ regCount) .badAddr
    let v ← reg b
    setRegAt jdst.toNat (if v ≠ 0 then v else 1)
    setReg regSp jsp
    setPc jpc
  | .lCoroSwap => do
    let src ← reg a
    let dst ← reg b
    failIf (src > img.memSize ∨ img.memSize - src < 16) .badAddr
    failIf (dst > img.memSize ∨ img.memSize - dst < 16) .badAddr
    failIf (src = dst) .badAddr
    let jstat ← load32 (dst.toNat + 12)
    failIf (jstat ≠ 0 ∧ jstat ≠ 2) .badCoroState
    let jpc ← load32 dst.toNat
    let jsp ← load32 (dst.toNat + 4)
    let jdst ← load32 (dst.toNat + 8)
    let jpc ← if jstat = 0 then do
        failIf (jpc = 0) .nullFuncPtr
        failIf (jpc ≥ img.funcCount) .badFuncIndex
        let entry ← funcOffset img jpc
        failIf (jdst.toNat ≥ regCount) .badAddr
        pure entry
      else pure jpc
    failIf (jpc ≥ img.codeCount) .badPc
    let curSp ← reg regSp
    store32 src.toNat (← getPc)
    store32 (src.toNat + 4) curSp
    store32 (src.toNat + 8) (a.setWidth 32)
    store32 (src.toNat + 12) 2
    store32 (dst.toNat + 12) 1
    if jstat = 0 then
      setRegAt jdst.toNat dst
    setReg regSp jsp
    setPc jpc
  | .lFfloor => do setReg a (host.float.floorf (← reg b))
  | .lFceil => do setReg a (host.float.ceilf (← reg b))
  | .lFtrunc => do setReg a (host.float.truncf (← reg b))

/-- `DISPATCH()` and the handler it jumps to. -/
def step (img : Image κ) (host : Host κ W) : Vm κ W Unit := do
  let pc ← getPc
  failIf (pc ≥ img.codeCount) .badPc
  let inst ← codeAt img pc
  setPc (pc + 1)
  match jt (instOp inst) with
  | none => fail .badOpcode
  | some label => handler img host inst (instA inst) (instB inst) (instC inst) label

end Threaded

end CronoVM
