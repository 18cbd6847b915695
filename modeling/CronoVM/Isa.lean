import CronoVM.Lib.Memory

/-!
# The instruction set

Opcodes, result codes and the constants of `cvm.h`, the fields of an instruction word, and the encoders the translator writes
instructions with.
-/

namespace CronoVM

/-! ## Results -/

/-- `enum cvm_result`. -/
inductive CvmResult where
  | ok | truncated | badMagic | badVersion | badSection | dupSection | noCode | badEntry | nomem | badOpcode | badPc | badAddr
  | badImports | noSuchImport | badSyscall | unlinkedSyscall | syscallTrap | divByZero | badFuncs | badFuncIndex
  | stackOverflow | nullFuncPtr | badRegion | noSuchRegion | badCoroState
  deriving DecidableEq, Repr

/-! ## Constants -/

/-- `CVM_REG_COUNT`. -/
def regCount : Nat := 256

/-- `CVM_REG_SP`. -/
def regSp : Byte := 255

/-- `CVM_RET_SENTINEL`: the return pc below the outermost frame. -/
def retSentinel : Word := 0xFFFFFFFF

/-! ## Opcodes -/

/-- The `CVM_OP_*` enumerators. -/
inductive Opcode where
  | halt | movi | mov | add | sub | mul | ldw | stw
  | jmp | beq | bne | syscall | cmpEq | cmpNe | cmpLt | cmpLe
  | cmpLtu | cmpLeu | div | divu | mod | modu | shl | shr
  | sar | and | or | xor | call | ret | callr | ldb
  | stb | ldh | sth | movhi | memcpy | memset | memmove | mulh
  | mulhu | fadd | fsub | fmul | fdiv | fneg | fcmpEq | fcmpNe
  | fcmpLt | fcmpLe | f2iS | f2iU | i2fS | i2fU | jmpr | fsqrt
  | qdiv1616 | qdiv6432 | setjmp | longjmp | coroSwap | ffloor | fceil | ftrunc
  deriving DecidableEq, Repr

namespace Opcode

/-- The byte an opcode is written with. -/
def code : Opcode → Byte
  | .halt => 0x00 | .movi => 0x01 | .mov => 0x02 | .add => 0x03
  | .sub => 0x04 | .mul => 0x05 | .ldw => 0x06 | .stw => 0x07
  | .jmp => 0x08 | .beq => 0x09 | .bne => 0x0A | .syscall => 0x0B
  | .cmpEq => 0x0C | .cmpNe => 0x0D | .cmpLt => 0x0E | .cmpLe => 0x0F
  | .cmpLtu => 0x10 | .cmpLeu => 0x11 | .div => 0x12 | .divu => 0x13
  | .mod => 0x14 | .modu => 0x15 | .shl => 0x16 | .shr => 0x17
  | .sar => 0x18 | .and => 0x19 | .or => 0x1A | .xor => 0x1B
  | .call => 0x1C | .ret => 0x1D | .callr => 0x1E | .ldb => 0x1F
  | .stb => 0x20 | .ldh => 0x21 | .sth => 0x22 | .movhi => 0x23
  | .memcpy => 0x24 | .memset => 0x25 | .memmove => 0x26 | .mulh => 0x27
  | .mulhu => 0x28 | .fadd => 0x29 | .fsub => 0x2A | .fmul => 0x2B
  | .fdiv => 0x2C | .fneg => 0x2D | .fcmpEq => 0x2E | .fcmpNe => 0x2F
  | .fcmpLt => 0x30 | .fcmpLe => 0x31 | .f2iS => 0x32 | .f2iU => 0x33
  | .i2fS => 0x34 | .i2fU => 0x35 | .jmpr => 0x36 | .fsqrt => 0x37
  | .qdiv1616 => 0x38 | .qdiv6432 => 0x39 | .setjmp => 0x3A | .longjmp => 0x3B
  | .coroSwap => 0x3C | .ffloor => 0x3D | .fceil => 0x3E | .ftrunc => 0x3F

/-- Every enumerator, in the order of the header. -/
def all : List Opcode :=
  [.halt, .movi, .mov, .add, .sub, .mul, .ldw, .stw,
   .jmp, .beq, .bne, .syscall, .cmpEq, .cmpNe, .cmpLt, .cmpLe,
   .cmpLtu, .cmpLeu, .div, .divu, .mod, .modu, .shl, .shr,
   .sar, .and, .or, .xor, .call, .ret, .callr, .ldb,
   .stb, .ldh, .sth, .movhi, .memcpy, .memset, .memmove, .mulh,
   .mulhu, .fadd, .fsub, .fmul, .fdiv, .fneg, .fcmpEq, .fcmpNe,
   .fcmpLt, .fcmpLe, .f2iS, .f2iU, .i2fS, .i2fU, .jmpr, .fsqrt,
   .qdiv1616, .qdiv6432, .setjmp, .longjmp, .coroSwap, .ffloor, .fceil, .ftrunc]

/-- The opcode with a given byte; none for a byte that no enumerator has. -/
def ofByte? (b : Byte) : Option Opcode := all.find? fun o => o.code == b

/-- An opcode is decoded from its own byte. -/
@[simp] theorem ofByte?_code (o : Opcode) : ofByte? o.code = some o := by cases o <;> rfl

/-- No two opcodes have the same byte. -/
theorem code_injective : Function.Injective code := by
  intro o p h
  have ho := ofByte?_code o
  rw [h, ofByte?_code] at ho
  exact (Option.some.inj ho).symm

end Opcode

/-! ## Instruction words

`[ opcode:8 | A:8 | B:8 | C:8 ]`, the opcode in the low byte. -/

def instOp (inst : Word) : Byte := inst.setWidth 8

def instA (inst : Word) : Byte := (inst >>> 8).setWidth 8

def instB (inst : Word) : Byte := (inst >>> 16).setWidth 8

def instC (inst : Word) : Byte := (inst >>> 24).setWidth 8

/-- The 16-bit immediate `BC`. -/
def instImm16 (inst : Word) : BitVec 16 := (inst >>> 16).setWidth 16

/-- The 24-bit field `ABC`, without a sign. -/
def instImm24 (inst : Word) : Word := (inst >>> 8) &&& 0xFFFFFF

/-- `enc_r`. -/
def encR (op : Opcode) (a b c : Byte) : Word :=
  op.code.setWidth 32 ||| (a.setWidth 32 <<< 8) ||| (b.setWidth 32 <<< 16) ||| (c.setWidth 32 <<< 24)

/-- `enc_i16`. -/
def encI16 (op : Opcode) (a : Byte) (imm : BitVec 16) : Word :=
  op.code.setWidth 32 ||| (a.setWidth 32 <<< 8) ||| (imm.setWidth 32 <<< 16)

/-- `enc_i24`. -/
def encI24 (op : Opcode) (imm : Word) : Word := op.code.setWidth 32 ||| ((imm &&& 0xFFFFFF) <<< 8)

/-- `enc_br`. -/
def encBr (op : Opcode) (a b : Byte) (off : Byte) : Word :=
  op.code.setWidth 32 ||| (a.setWidth 32 <<< 8) ||| (b.setWidth 32 <<< 16) ||| (off.setWidth 32 <<< 24)

/-- A branch has the fields of the R format. -/
theorem encBr_eq_encR (op : Opcode) (a b off : Byte) : encBr op a b off = encR op a b off := rfl

section fields

variable (op : Opcode) (a b c : Byte)

/-- The four bytes of the register form. -/
def rBytes (k : Nat) : Byte :=
  match k with
  | 0 => op.code
  | 1 => a
  | 2 => b
  | _ => c

/-- The register form is the word of its four bytes. -/
theorem leByte_encR {k : Nat} (hk : k < 4) : leByte (encR op a b c) k = rBytes op a b c k :=
  leByte_leWord (rBytes op a b c) hk

@[simp] theorem instOp_encR : instOp (encR op a b c) = op.code := leByte_encR op a b c (show 0 < 4 by decide)

@[simp] theorem instA_encR : instA (encR op a b c) = a := leByte_encR op a b c (show 1 < 4 by decide)

@[simp] theorem instB_encR : instB (encR op a b c) = b := leByte_encR op a b c (show 2 < 4 by decide)

@[simp] theorem instC_encR : instC (encR op a b c) = c := leByte_encR op a b c (show 3 < 4 by decide)

@[simp] theorem instOp_encI16 (imm : BitVec 16) : instOp (encI16 op a imm) = op.code := by
  apply BitVec.eq_of_getLsbD_eq
  intro i hi
  simp only [instOp, encI16, BitVec.getLsbD_or, BitVec.getLsbD_setWidth, BitVec.getLsbD_shiftLeft]
  grind

@[simp] theorem instA_encI16 (imm : BitVec 16) : instA (encI16 op a imm) = a := by
  apply BitVec.eq_of_getLsbD_eq
  intro i hi
  simp only [instA, encI16, BitVec.getLsbD_or, BitVec.getLsbD_setWidth, BitVec.getLsbD_shiftLeft,
    BitVec.getLsbD_ushiftRight]
  grind

@[simp] theorem instImm16_encI16 (imm : BitVec 16) : instImm16 (encI16 op a imm) = imm := by
  apply BitVec.eq_of_getLsbD_eq
  intro i hi
  simp only [instImm16, encI16, BitVec.getLsbD_or, BitVec.getLsbD_setWidth, BitVec.getLsbD_shiftLeft,
    BitVec.getLsbD_ushiftRight]
  grind

@[simp] theorem instOp_encI24 (imm : Word) : instOp (encI24 op imm) = op.code := by
  apply BitVec.eq_of_getLsbD_eq
  intro i hi
  simp only [instOp, encI24, BitVec.getLsbD_or, BitVec.getLsbD_setWidth, BitVec.getLsbD_shiftLeft]
  grind

@[simp] theorem instImm24_encI24 (imm : Word) : instImm24 (encI24 op imm) = imm &&& 0xFFFFFF := by
  have hmask : ∀ i, (0xFFFFFF : Word).getLsbD i = decide (i < 24) := by
    intro i
    rw [show (0xFFFFFF : Word) = BitVec.ofNat 32 (2 ^ 24 - 1) from rfl, BitVec.getLsbD_ofNat, Nat.testBit_two_pow_sub_one]
    grind
  apply BitVec.eq_of_getLsbD_eq
  intro i hi
  simp only [instImm24, encI24, BitVec.getLsbD_or, BitVec.getLsbD_and, BitVec.getLsbD_setWidth, BitVec.getLsbD_shiftLeft,
    BitVec.getLsbD_ushiftRight, hmask]
  grind

end fields

end CronoVM
