import CronoVM.Isa

/-!
# The disassembler

`cvm-dis`: the name it gives an opcode, what it prints of an instruction word, and the line `dis_one` makes of the two.
-/

namespace CronoVM

/-! ## Names -/

/-- `struct sym`: a line of the `.sym` file, without the entry offset. -/
structure Sym where
  idx : Word
  name : String

/-- `slot_name`: the first symbol with the index of a FUNCS slot. -/
def slotName (syms : List Sym) (slot : Word) : String := ((syms.find? fun s => s.idx == slot >>> 1).map (·.name)).getD "?"

/-- The cases of `opname`. -/
def opnameCases : List (Opcode × String) :=
  [(.halt, "HALT"), (.movi, "MOVI"), (.mov, "MOV"),
   (.add, "ADD"), (.sub, "SUB"), (.mul, "MUL"),
   (.ldw, "LDW"), (.stw, "STW"), (.jmp, "JMP"),
   (.beq, "BEQ"), (.bne, "BNE"), (.syscall, "SYSCALL"),
   (.cmpEq, "CMP_EQ"), (.cmpNe, "CMP_NE"), (.cmpLt, "CMP_LT"),
   (.cmpLe, "CMP_LE"), (.cmpLtu, "CMP_LTU"), (.cmpLeu, "CMP_LEU"),
   (.div, "DIV"), (.divu, "DIVU"), (.mod, "MOD"), (.modu, "MODU"),
   (.shl, "SHL"), (.shr, "SHR"), (.sar, "SAR"),
   (.and, "AND"), (.or, "OR"), (.xor, "XOR"),
   (.call, "CALL"), (.ret, "RET"), (.callr, "CALLR"),
   (.ldb, "LDB"), (.stb, "STB"), (.ldh, "LDH"), (.sth, "STH"),
   (.movhi, "MOVHI"), (.memcpy, "MEMCPY"), (.memset, "MEMSET"), (.memmove, "MEMMOVE"),
   (.mulh, "MULH"), (.mulhu, "MULHU"),
   (.fadd, "FADD"), (.fsub, "FSUB"), (.fmul, "FMUL"), (.fdiv, "FDIV"),
   (.fneg, "FNEG"), (.fcmpEq, "FCMP_EQ"), (.fcmpNe, "FCMP_NE"),
   (.fcmpLt, "FCMP_LT"), (.fcmpLe, "FCMP_LE"),
   (.f2iS, "F2I_S"), (.f2iU, "F2I_U"), (.i2fS, "I2F_S"), (.i2fU, "I2F_U"),
   (.jmpr, "JMPR"), (.fsqrt, "FSQRT"), (.qdiv1616, "QDIV1616"), (.qdiv6432, "QDIV6432"),
   (.setjmp, "SETJMP"), (.longjmp, "LONGJMP"), (.coroSwap, "CORO_SWAP"),
   (.ffloor, "FFLOOR"), (.fceil, "FCEIL"), (.ftrunc, "FTRUNC")]

/-- `opname`. -/
def opname (op : Byte) : String := ((opnameCases.find? fun e => e.1.code == op).map (·.2)).getD "???"

/-! ## Operands -/

/-- What a format string prints: text of its own, or an operand. -/
inductive Piece where
  | text (s : String)
  | reg (r : Byte)
  | imm (v : BitVec 16)
  | immHigh (v : BitVec 16)
  | offset (v : Word)
  | target (pc : Word)
  | slot (n : Word)
  | sysno (n : Word)
  deriving DecidableEq, Repr

/-- `c` before `s`, up to `n` characters. -/
def padLeft (c : Char) (n : Nat) (s : String) : String := "".pushn c (n - s.length) ++ s

/-- `c` after `s`, up to `n` characters. -/
def padRight (c : Char) (n : Nat) (s : String) : String := s.pushn c (n - s.length)

/-- The digits of `%x`. -/
def hexDigits (n : Nat) : String := String.ofList (Nat.toDigits 16 n)

/-- The characters a piece is printed as. -/
def Piece.render : Piece → String
  | .text s => s
  | .reg r => "R" ++ toString r.toNat
  | .imm v => "#" ++ toString v.toInt ++ " (0x" ++ hexDigits v.toNat ++ ")"
  | .immHigh v => "#0x" ++ padLeft '0' 4 (hexDigits v.toNat) ++ "<<16"
  | .offset v => (if v.toInt < 0 then "" else "+") ++ toString v.toInt
  | .target pc => toString pc.toNat
  | .slot n => toString n.toNat
  | .sysno n => toString n.toNat

/-- `soff24`: the sign of a 24-bit field. -/
def soff24 (imm24 : Word) : Word := if imm24 &&& 0x800000 ≠ 0 then imm24 - 0x1000000 else imm24

/-- The `switch` of `dis_one`. -/
def disOperands (syms : List Sym) (pc inst : Word) : List Piece :=
  let a := instA inst
  let b := instB inst
  let c := instC inst
  let imm16 := instImm16 inst
  let imm24 := instImm24 inst
  let boff := c.signExtend 32
  match Opcode.ofByte? (instOp inst) with
  | some .movi => [.reg a, .text ", ", .imm imm16]
  | some .movhi => [.reg a, .text ", ", .immHigh imm16]
  | some .mov => [.reg a, .text ", ", .reg b]
  | some .ldw | some .ldb | some .ldh => [.reg a, .text ", [", .reg b, .text "]"]
  | some .stw | some .stb | some .sth => [.text "[", .reg b, .text "], ", .reg c]
  | some .memcpy | some .memmove => [.text "[", .reg a, .text "], [", .reg b, .text "], ", .reg c, .text " (dst,src,len)"]
  | some .memset => [.text "[", .reg a, .text "], ", .reg b, .text ", ", .reg c, .text " (dst,byte,len)"]
  | some .call => [.text "fn slot=", .slot imm24, .text "  ; ", .text (slotName syms imm24)]
  | some .callr => [.reg a, .text "  ; (indirect)"]
  | some .ret | some .halt => []
  | some .jmp => [.offset (soff24 imm24), .text " -> ", .target (pc + soff24 imm24)]
  | some .jmpr => [.reg a]
  | some .beq | some .bne =>
    [.reg a, .text ", ", .reg b, .text ", ", .offset boff, .text " -> ", .target (pc + boff)]
  | some .setjmp => [.reg a, .text ", [", .reg b, .text "]  (dest, env)"]
  | some .longjmp => [.text "[", .reg a, .text "]"]
  | some .syscall => [.text "#", .sysno imm24]
  | _ => [.reg a, .text ", ", .reg b, .text ", ", .reg c]

/-- A line of the listing, before its format strings. -/
structure DisLine where
  pc : Word
  inst : Word
  name : String
  args : List Piece

/-- The characters of a line. -/
def DisLine.render (l : DisLine) : String :=
  padLeft ' ' 8 (toString l.pc.toNat) ++ ": " ++ padLeft '0' 8 (hexDigits l.inst.toNat) ++ "  " ++ padRight ' ' 8 l.name ++
    l.args.foldl (fun s p => s ++ p.render) ""

/-- `dis_one`. -/
def disOne (syms : List Sym) (pc inst : Word) : DisLine := ⟨pc, inst, opname (instOp inst), disOperands syms pc inst⟩

end CronoVM
