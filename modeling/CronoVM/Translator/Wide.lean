import CronoVM.Translator.Emit

/-!
# Values of two and three words

Integers of 33 to 64 bits and doubles live in two slots of the frame, integers of 65 bits in three. They are read into scratch registers
word by word and written back from registers. A comparison of such values has its result in a register.
-/

namespace CronoVM

open Checked Ir NarrowInt

/-! ## Words -/

/-- `cg_i64_read`. -/
def cgI64Read (v : Val) : Emit (Byte × Byte) :=
  match v.cgWideConstWords with
  | some (clo, chi) => do
    let lo ← cgConstReg clo
    let hi ← cgConstReg chi
    pure (lo, hi)
  | none => do
    let cg ← Exec.get
    if v.isUndef = true then pure (cg.zeroReg, cg.zeroReg)
    else
      match (cg.lookup v).bind Home.i64Slot with
      | none => Exec.stop .noWideSlot
      | some slot => do
        let lo ← cgAllocReg
        cgLdwSpOff lo (cg.valSlotOff slot)
        let hi ← cgAllocReg
        cgLdwSpOff hi (cg.valSlotOff slot + 4)
        pure (lo, hi)

/-- `cg_i64_write`. -/
def cgI64Write (slot : Nat) (lo hi : Byte) : Emit Unit := do
  let cg ← Exec.get
  cgStwSpOff (cg.valSlotOff slot) lo
  cgStwSpOff (cg.valSlotOff slot + 4) hi

/-- `cg_i65_read`. -/
def cgI65Read (v : Val) : Emit (Byte × Byte × Byte) := do
  let cg ← Exec.get
  match (cg.lookup v).bind Home.i64Slot with
  | none => Exec.stop .noWide3Slot
  | some slot => do
    let w0 ← cgAllocReg
    cgLdwSpOff w0 (cg.valSlotOff slot)
    let w1 ← cgAllocReg
    cgLdwSpOff w1 (cg.valSlotOff slot + 4)
    let w2 ← cgAllocReg
    cgLdwSpOff w2 (cg.valSlotOff slot + 8)
    pure (w0, w1, w2)

/-- `cg_i65_write`. -/
def cgI65Write (slot : Nat) (w0 w1 w2 : Byte) : Emit Unit := do
  let cg ← Exec.get
  cgStwSpOff (cg.valSlotOff slot) w0
  cgStwSpOff (cg.valSlotOff slot + 4) w1
  cgStwSpOff (cg.valSlotOff slot + 8) w2

/-- `cg_shift_imm`. -/
def cgShiftImm (cv : Opcode) (dst src : Byte) (amt : Nat) : Emit Unit := do
  cgEmit (encI16 .movi cgRegScratch (BitVec.ofNat 16 amt))
  cgEmit (encR cv dst src cgRegScratch)

/-- The two words at an address, and the address of the second. -/
def cgLoadWords (addr : Byte) : Emit (Byte × Byte × Byte) := do
  let lo ← cgAllocReg
  cgEmit (encR .ldw lo addr 0)
  cgMoviScratch 4
  let a4 ← cgAllocReg
  cgEmit (encR .add a4 addr cgRegScratch)
  let hi ← cgAllocReg
  cgEmit (encR .ldw hi a4 0)
  pure (lo, a4, hi)

/-- A sum of two words each, with the carry. -/
def cgAddWords (lo hi carry al ah bl bh : Byte) : Emit Unit := do
  cgEmit (encR .add lo al bl)
  cgEmit (encR .cmpLtu carry lo al)
  cgEmit (encR .add hi ah bh)
  cgEmit (encR .add hi hi carry)

/-- A difference of two words each, with the borrow. -/
def cgSubWords (lo hi borrow al ah bl bh : Byte) : Emit Unit := do
  cgEmit (encR .cmpLtu borrow al bl)
  cgEmit (encR .sub lo al bl)
  cgEmit (encR .sub hi ah bh)
  cgEmit (encR .sub hi hi borrow)

/-! ## Comparisons -/

/-- `icmp_to_op`: the compare, and whether its operands are swapped. -/
def icmpToOp : IntPred → Opcode × Bool
  | .eq => (.cmpEq, false)
  | .ne => (.cmpNe, false)
  | .slt => (.cmpLt, false)
  | .sle => (.cmpLe, false)
  | .sgt => (.cmpLt, true)
  | .sge => (.cmpLe, true)
  | .ult => (.cmpLtu, false)
  | .ule => (.cmpLeu, false)
  | .ugt => (.cmpLtu, true)
  | .uge => (.cmpLeu, true)

/-- `icmp` of two-word values. -/
def cgIcmpWide (p : IntPred) (x y : Val) (dst : Byte) : Emit Unit := do
  let (al, ah) ← cgI64Read x
  let (bl, bh) ← cgI64Read y
  match p with
  | .eq | .ne => do
    let tlo ← cgAllocReg
    let thi ← cgAllocReg
    let cmp : Opcode := if p = .eq then .cmpEq else .cmpNe
    let comb : Opcode := if p = .eq then .and else .or
    cgEmit (encR cmp tlo al bl)
    cgEmit (encR cmp thi ah bh)
    cgEmit (encR comb dst tlo thi)
  | _ => do
    let isLe := p = .sle ∨ p = .ule ∨ p = .sge ∨ p = .uge
    let swap := p = .sgt ∨ p = .sge ∨ p = .ugt ∨ p = .uge
    let (al, bl) := if swap then (bl, al) else (al, bl)
    let (ah, bh) := if swap then (bh, ah) else (ah, bh)
    let hcmp : Opcode := if p.isSigned = true then .cmpLt else .cmpLtu
    let lcmp : Opcode := if isLe then .cmpLeu else .cmpLtu
    let hiLt ← cgAllocReg
    let hiEq ← cgAllocReg
    let loR ← cgAllocReg
    cgEmit (encR hcmp hiLt ah bh)
    cgEmit (encR .cmpEq hiEq ah bh)
    cgEmit (encR lcmp loR al bl)
    cgEmit (encR .and loR hiEq loR)
    cgEmit (encR .or dst hiLt loR)

/-- `icmp` of a three-word value with zero. -/
def cgIcmpI65 (p : IntPred) (x y : Val) (dst : Byte) : Emit Unit := do
  match y with
  | .const (.int width bits) => do
    Exec.stopIf (bits % 2 ^ width ≠ 0) .i65CmpOperand
    let (w0, w1, w2) ← cgI65Read x
    let zero := (← Exec.get).zeroReg
    match p with
    | .slt => cgEmit (encR .cmpNe dst w2 zero)
    | .sge => cgEmit (encR .cmpEq dst w2 zero)
    | .eq | .ne => do
      let t01 ← cgAllocReg
      let t2 ← cgAllocReg
      let cmp : Opcode := if p = .eq then .cmpEq else .cmpNe
      let comb : Opcode := if p = .eq then .and else .or
      cgEmit (encR cmp t01 w0 zero)
      cgEmit (encR cmp t2 w1 zero)
      cgEmit (encR comb t01 t01 t2)
      cgEmit (encR cmp t2 w2 zero)
      cgEmit (encR comb dst t01 t2)
    | _ => Exec.stop .i65CmpPredicate
  | _ => Exec.stop .i65CmpOperand

/-! ## Compare and exchange -/

/-- The slot of word `k` of an aggregate: `(uint16_t)(base + k)`. -/
def aggWordSlot (base k : Nat) : Nat := (base + k) % 2 ^ 16

/-- An aggregate that ends at the last slot number lies in one piece. -/
theorem aggWordSlot_of_lt {base k : Nat} (h : base + k < 2 ^ 16) : aggWordSlot base k = base + k := Nat.mod_eq_of_lt h

/-- `case LLVMAtomicCmpXchg`, the two-word values. The old value and the success flag go to the slots of the aggregate. -/
def cgCmpXchg64 (i : Inst) : Emit Unit := do
  match ((← Exec.get).lookup (.loc i.result)).bind Home.aggSlot with
  | none => Exec.stop .noAggSlot
  | some base => do
    let addr ← cgRegFor (i.operand 0)
    let old ← cgLoadWords addr
    let cmp ← cgI64Read (i.operand 1)
    let new ← cgI64Read (i.operand 2)
    let eql ← cgAllocReg
    let eqh ← cgAllocReg
    let eq ← cgAllocReg
    cgEmit (encR .cmpEq eql old.1 cmp.1)
    cgEmit (encR .cmpEq eqh old.2.2 cmp.2)
    cgEmit (encR .and eq eql eqh)
    let mask ← cgAllocReg
    cgEmit (encR .sub mask (← Exec.get).zeroReg eq)
    let svl ← cgAllocReg
    let svh ← cgAllocReg
    cgEmit (encR .xor svl old.1 new.1)
    cgEmit (encR .and svl svl mask)
    cgEmit (encR .xor svl old.1 svl)
    cgEmit (encR .xor svh old.2.2 new.2)
    cgEmit (encR .and svh svh mask)
    cgEmit (encR .xor svh old.2.2 svh)
    cgEmit (encR .stw 0 addr svl)
    cgEmit (encR .stw 0 old.2.1 svh)
    let cg ← Exec.get
    cgStwSpOff (cg.valSlotOff (aggWordSlot base 0)) old.1
    cgStwSpOff (cg.valSlotOff (aggWordSlot base 1)) old.2.2
    cgStwSpOff (cg.valSlotOff (aggWordSlot base 2)) eq

/-! ## Intrinsics -/

/-- `llvm.abs.i64`. -/
def cgAbs64 (i : Inst) : Emit Unit := do
  match ((← Exec.get).lookup (.loc i.result)).bind Home.i64Slot with
  | none => Exec.stop .noAbsSlot
  | some slot => do
    let x ← cgI64Read (i.operand 0)
    let m ← cgAllocReg
    cgShiftImm .sar m x.2 31
    let xl2 ← cgAllocReg
    let xh2 ← cgAllocReg
    cgEmit (encR .xor xl2 x.1 m)
    cgEmit (encR .xor xh2 x.2 m)
    let lo ← cgAllocReg
    let hi ← cgAllocReg
    let borrow ← cgAllocReg
    cgSubWords lo hi borrow xl2 xh2 m m
    cgI64Write slot lo hi

/-- The leading zeros of `src` into `n`: `x` is shifted to the right until it is zero. -/
def cgClz32 (n x src one k32 : Byte) : Emit Unit := do
  let zero := (← Exec.get).zeroReg
  cgEmit (encR .mov x src 0)
  cgEmit (encI16 .movi n 0)
  cgEmit (encBr .beq x zero 3)
  cgEmit (encR .shr x x one)
  cgEmit (encR .add n n one)
  cgEmit (encI24 .jmp (-4))
  cgEmit (encR .sub n k32 n)

/-- `llvm.ctlz.i64`. -/
def cgCtlz64 (i : Inst) : Emit Unit := do
  match (← Exec.get).lookup (.loc i.result) with
  | none => Exec.demand False
  | some home => do
    let v ← cgI64Read (i.operand 0)
    let one ← cgAllocReg
    let k32 ← cgAllocReg
    let clo ← cgAllocReg
    let chi ← cgAllocReg
    let x ← cgAllocReg
    let res ← cgAllocReg
    let zero := (← Exec.get).zeroReg
    cgEmit (encI16 .movi one 1)
    cgEmit (encI16 .movi k32 32)
    cgClz32 clo x v.1 one k32
    cgClz32 chi x v.2 one k32
    cgEmit (encR .add res k32 clo)
    cgEmit (encBr .beq v.2 zero 1)
    cgEmit (encR .mov res chi 0)
    cgI64Write (home.i64Slot.getD cgNoSlot) res zero

end CronoVM
