import CronoVM.Lemmas.WideInsts
import CronoVM.Theorems.FunnelShifts

/-!
# Instructions on 64-bit values

The code of the instructions on 64-bit values that are expanded in place, against the operations on bit vectors of 64 bits. The result may
have the slots of an operand.
-/

namespace CronoVM

open Checked Ir NarrowInt

variable {κ W : Type}

/-! ## What the instructions are -/

/-- The 64-bit value of an operand: what its slots hold, or the constant. -/
inductive HoldsWide (cg : Cg) (f : Frame κ W) : Val → BitVec 64 → Prop where
  | slots {l : Local} {home : Home} {slot : Nat} (hhome : cg.home? l = some home) (hslot : home.i64Slot = some slot) :
      HoldsWide cg f (.loc l) (f.wideAt (slotAddr cg f slot))
  | int (bits : Nat) : HoldsWide cg f (.const (.int 64 bits)) (BitVec.ofNat 64 bits)
  | double (lo hi : Word) : HoldsWide cg f (.const (.double lo hi)) (hi ++ lo)

/-- The slots of a value of two words. -/
def WideHome (cg : Cg) (l : Local) (slot : Nat) : Prop := ∃ home, cg.home? l = some home ∧ home.valSlot = none ∧ home.i64Slot = some slot

/-- An instruction on 64-bit values and the frame it makes of `f`: the result is in its home, and memory is as the instruction leaves it. -/
inductive WideStep (fn : Func) (cg : Cg) (f : Frame κ W) (i : Inst) : Frame κ W → Prop where
  | binary (op : IntBinOp) {slot : Nat} {x y z : BitVec 64} (hop : i.op.intBinOp? = some op) (hty : i.ty = .int 64)
      (hdiv : op.isDiv = false) (hshift : op.isShift = true → ∃ bits, i.operand 1 = .const (.int 64 bits))
      (hhome : WideHome cg i.result slot) (hx : HoldsWide cg f (i.operand 0) x) (hy : HoldsWide cg f (i.operand 1) y)
      (hz : op.eval x y = some z) : WideStep fn cg f i (f.setWide (slotAddr cg f slot) z)
  | icmp (p : IntPred) {home : Home} {x y : BitVec 64} (hop : i.op = .icmp) (hp : i.predicate = some p) (hty : i.ty = .int 1)
      (hopty : fn.typeOf (i.operand 0) = .int 64) (hhome : cg.home? i.result = some home) (hx : HoldsWide cg f (i.operand 0) x)
      (hy : HoldsWide cg f (i.operand 1) y) : WideStep fn cg f i (f.setLoc cg (cgPhiDstLoc home) (boolWord (p.eval x y)))
  | select (c : Bool) {slot : Nat} {x y : BitVec 64} (hop : i.op = .select) (hty : i.ty = .int 64) (hhome : WideHome cg i.result slot)
      (hc : operandWord cg f (i.operand 0) ≠ 0 ↔ c = true) (hx : HoldsWide cg f (i.operand 1) x) (hy : HoldsWide cg f (i.operand 2) y) :
      WideStep fn cg f i (f.setWide (slotAddr cg f slot) (if c = true then x else y))
  | copy {slot : Nat} {x : BitVec 64} (hop : i.op = .freeze ∨ i.op = .bitCast) (hty : i.ty = .int 64) (hhome : WideHome cg i.result slot)
      (hx : HoldsWide cg f (i.operand 0) x) : WideStep fn cg f i (f.setWide (slotAddr cg f slot) x)
  | abs {slot : Nat} {x : BitVec 64} (hop : i.op = .call) (hcallee : i.callee = "llvm.abs.i64") (hhome : WideHome cg i.result slot)
      (hx : HoldsWide cg f (i.operand 0) x) : WideStep fn cg f i (f.setWide (slotAddr cg f slot) x.abs)
  | ctlz {slot : Nat} {x : BitVec 64} (hop : i.op = .call) (hcallee : i.callee = "llvm.ctlz.i64") (hhome : WideHome cg i.result slot)
      (hx : HoldsWide cg f (i.operand 0) x) : WideStep fn cg f i (f.setWide (slotAddr cg f slot) x.clz)
  | atomicRmw (op : RmwOp) {slot p : Nat} {y : BitVec 64} (hop : i.op = .atomicRmw) (hrmw : i.rmwOp = some op) (hty : i.ty = .int 64)
      (hhome : WideHome cg i.result slot) (hp : (operandWord cg f (i.operand 0)).toNat = p) (hmem : p + 8 ≤ f.heap.size)
      (hy : HoldsWide cg f (i.operand 1) y) :
      WideStep fn cg f i ((f.setWide p (op.eval (f.wideAt p) y)).setWide (slotAddr cg f slot) (f.wideAt p))
  | cmpXchg {fields : List TypeKind} {home : Home} {base p : Nat} {x y : BitVec 64} (hop : i.op = .atomicCmpXchg) (hty : i.ty = .struct fields)
      (hopty : fn.typeOf (i.operand 1) = .int 64) (hhome : cg.home? i.result = some home) (hplain : home.valSlot = none)
      (hbase : home.aggSlot = some base) (hroom : base + 2 < cg.valSpillCount) (hwrap : base + 2 < 2 ^ 16)
      (hp : (operandWord cg f (i.operand 0)).toNat = p) (hmem : p + 8 ≤ f.heap.size) (hx : HoldsWide cg f (i.operand 1) x)
      (hy : HoldsWide cg f (i.operand 2) y) : WideStep fn cg f i
        (((f.setWide p (if f.wideAt p = x then y else f.wideAt p)).setWide (slotAddr cg f base) (f.wideAt p)).setWord
          (slotAddr cg f (base + 2)) (boolWord (decide (f.wideAt p = x))))

/-! ## The code -/

namespace WideLoweringAux

/-- The value that is in the homes of an operand. -/
theorem wideVal_eq {cg : Cg} {f : Frame κ W} {v : Val} {x : BitVec 64} (h : HoldsWide cg f v x) : wideVal cg f v = x := by
  cases h with
  | slots hhome hslot =>
    rename_i l home slot
    have hbind : (cg.lookup (.loc l)).bind Home.i64Slot = some slot := Option.bind_eq_some_iff.mpr ⟨home, hhome, hslot⟩
    simp only [wideVal, wideWords, hbind]
    rw [← slotAddr_add_four]
    rfl
  | int bits => exact wideVal_const cg f bits
  | double lo hi => rfl

section instructions

variable {img : Image κ} (host : Host κ W) {fn : Func} {cg : Cg} {f g : Frame κ W} {i : Inst} {slot : Nat}

/-- The state in which an instruction starts: the scratch registers are free. -/
theorem ok_start (hok : cg.Ok) : Cg.Ok { cg with nextReg := cg.ssaRegHigh } :=
  { hok with
    high_le := Nat.le_refl _
    next_le := Nat.le_trans hok.high_le hok.next_le }

/-- An instruction with a result of two words. -/
theorem wp_cgInst_wide {Q : Unit → Cg → Prop} {E : CgError → Cg → Prop} (hops : i.op ≠ .phi ∧ i.op ≠ .call ∧ i.op ≠ .invoke)
    (hty : i.ty = .int 64) (h : Exec.wp (cgEmitI64Def fn i) Q E { cg with nextReg := cg.ssaRegHigh }) : Exec.wp (cgInst fn i) Q E cg := by
  rw [cgInst, if_pos ⟨hops, by rw [hty]; rfl⟩, Exec.wp_bind, Exec.wp_modify]
  exact h

/-- A call whose result has no register of its own. -/
theorem wp_cgInst_scalar {Q : Unit → Cg → Prop} {E : CgError → Cg → Prop} {home : Home} (hhome : cg.home? i.result = some home)
    (hplain : home.valSlot = none) (hops : i.op = .call ∨ i.ty.isWideInt = false ∧ i.ty.isI65 = false)
    (h : Exec.wp (cgScalarDef fn i home.reg) Q E { cg with nextReg := cg.ssaRegHigh }) : Exec.wp (cgInst fn i) Q E cg := by
  have hscalar : ¬((i.op ≠ .phi ∧ i.op ≠ .call ∧ i.op ≠ .invoke) ∧ (i.ty.isWideInt || i.ty.isI65) = true) := by
    rintro ⟨⟨_, hcall, _⟩, hwide⟩
    rcases hops with hop | ⟨hint, h65⟩
    · exact hcall hop
    · rw [hint, h65] at hwide
      cases hwide
  have hhome' : Cg.home? { cg with nextReg := cg.ssaRegHigh } i.result = some home := hhome
  rw [cgInst, if_neg hscalar, cgScalarInst, Exec.wp_bind, Exec.wp_modify, Exec.wp_bind, Exec.wp_get, hhome']
  dsimp only
  rw [hplain]
  exact h

variable (hcode : img.code.length = img.codeCount.toNat)
include hcode

omit hcode in
/-- A binary operation is no phi and no call. -/
theorem ops_of_intBinOp {op : IntBinOp} (hop : i.op.intBinOp? = some op) : i.op ≠ .phi ∧ i.op ≠ .call ∧ i.op ≠ .invoke := by
  refine ⟨?_, ?_, ?_⟩
  all_goals
    intro h
    rw [h] at hop
    cases hop

/-- The turn of the loop for an instruction on 64-bit values. -/
theorem wp_cgInst (hok : cg.Ok) (hin : InFrame cg img f) (hzero : f.regs cgRegZero = 0) (hstep : WideStep fn cg f i g) :
    Exec.wp (cgInst fn i) (fun _ => Leaves img host { cg with nextReg := cg.ssaRegHigh } f g) (fun e _ => e.OfOperand) cg := by
  have hok₀ := ok_start hok
  have hin₀ : InFrame { cg with nextReg := cg.ssaRegHigh } img f := ⟨hin.size, hin.fits⟩
  cases hstep with
  | binary op hop hty hdiv hshift hhome hx hy hz =>
    obtain ⟨home, hhome, _, hslot⟩ := hhome
    have hk := hok.wide_lt _ home _ hhome hslot
    have hlookup : Cg.lookup { cg with nextReg := cg.ssaRegHigh } (.loc i.result) = some home := hhome
    refine wp_cgInst_wide (ops_of_intBinOp hop) hty ?_
    rw [cgEmitI64Def, Exec.wp_bind, Exec.wp_get, hlookup, Option.bind_some, hslot]
    dsimp only
    rw [Exec.wp_bind, Exec.wp_stopIf]
    refine ⟨fun hodd => absurd hty hodd.1, fun _ => ?_⟩
    rw [← wideVal_eq hx, ← wideVal_eq hy] at hz
    have hbinary := wp_cgBinary64 (i := i) host hcode hok₀ hin₀ hzero hk op hdiv hshift hz
    split
    case h_9 =>
      rw [hop]
      exact hbinary
    all_goals
      rename_i hop'
      rw [hop'] at hop
      cases hop
  | @icmp p home x y hop hp hty hopty hhome hx hy =>
    have hscalar : ¬((i.op ≠ .phi ∧ i.op ≠ .call ∧ i.op ≠ .invoke) ∧ (i.ty.isWideInt || i.ty.isI65) = true) := by
      rw [hty]
      exact fun h => Bool.noConfusion h.2
    have hhandles : Handles img host cg f fn i (boolWord (p.eval x y)) := by
      intro n dst hge hle hdst
      have hokₙ : Cg.Ok { cg with nextReg := n } :=
        { hok with
          high_le := hge
          next_le := hle }
      rw [cgScalarDef, hop]
      dsimp only
      rw [cgIcmp, hp]
      dsimp only
      rw [hopty, ← wideVal_eq hx, ← wideVal_eq hy]
      exact wp_cgIcmpWide host hcode hokₙ ⟨hin.size, hin.fits⟩ p (i.operand 0) (i.operand 1)
    rw [cgInst, if_neg hscalar]
    exact wp_cgScalarInst host hcode hok hin hhome hhandles
  | @select c slot x y hop hty hhome hc hx hy =>
    obtain ⟨home, hhome, _, hslot⟩ := hhome
    have hk := hok.wide_lt _ home _ hhome hslot
    have hlookup : Cg.lookup { cg with nextReg := cg.ssaRegHigh } (.loc i.result) = some home := hhome
    refine wp_cgInst_wide (by rw [hop]; decide) hty ?_
    rw [cgEmitI64Def, Exec.wp_bind, Exec.wp_get, hlookup, Option.bind_some, hslot]
    dsimp only
    rw [Exec.wp_bind, Exec.wp_stopIf]
    refine ⟨fun hodd => absurd hty hodd.1, fun _ => ?_⟩
    rw [hop]
    have hselect := wp_cgEmitWideSelect (i := i) host hcode hok₀ hin₀ hzero hk
    have hpick : (if operandWord { cg with nextReg := cg.ssaRegHigh } f (i.operand 0) ≠ 0 then
        wideVal { cg with nextReg := cg.ssaRegHigh } f (i.operand 1) else wideVal { cg with nextReg := cg.ssaRegHigh } f (i.operand 2)) =
        if c = true then x else y := by
      have hxval : wideVal cg f (i.operand 1) = x := wideVal_eq hx
      have hyval : wideVal cg f (i.operand 2) = y := wideVal_eq hy
      rw [operandWord_emit cg cg.code cg.ssaRegHigh]
      exact if_congr hc hxval hyval
    rw [hpick] at hselect
    exact hselect
  | copy hop hty hhome hx =>
    obtain ⟨home, hhome, _, hslot⟩ := hhome
    have hk := hok.wide_lt _ home _ hhome hslot
    have hlookup : Cg.lookup { cg with nextReg := cg.ssaRegHigh } (.loc i.result) = some home := hhome
    refine wp_cgInst_wide (by rcases hop with hop | hop <;> rw [hop] <;> decide) hty ?_
    rw [cgEmitI64Def, Exec.wp_bind, Exec.wp_get, hlookup, Option.bind_some, hslot]
    dsimp only
    rw [Exec.wp_bind, Exec.wp_stopIf]
    refine ⟨fun hodd => absurd hty hodd.1, fun _ => ?_⟩
    rw [← wideVal_eq hx]
    rcases hop with hop | hop
    · rw [hop]
      exact wp_cgCopy64 host hcode hok₀ hin₀ hk
    · rw [hop]
      exact wp_cgCopy64 host hcode hok₀ hin₀ hk
  | abs hop hcallee hhome hx =>
    obtain ⟨home, hhome, hplain, hslot⟩ := hhome
    refine wp_cgInst_scalar hhome hplain (Or.inl hop) ?_
    rw [cgScalarDef, hop]
    dsimp only
    rw [cgIntrinsic, if_pos hcallee, ← wideVal_eq hx]
    exact wp_cgAbs64 host hcode hok₀ hin₀ hhome hslot
  | ctlz hop hcallee hhome hx =>
    obtain ⟨home, hhome, hplain, hslot⟩ := hhome
    have hother : ¬i.callee = "llvm.abs.i64" := by
      rw [hcallee]
      decide
    refine wp_cgInst_scalar hhome hplain (Or.inl hop) ?_
    rw [cgScalarDef, hop]
    dsimp only
    rw [cgIntrinsic, if_neg hother, if_pos hcallee, ← wideVal_eq hx]
    refine Exec.wp_mono ?_ (fun _ _ he => he) (wp_cgCtlz64 host hcode hok₀ hin₀ hzero hhome hslot)
    rintro _ cg' ⟨_, _, _, _, _, _, _, _, _, _, _, _, hleaves⟩
    exact hleaves
  | atomicRmw op hop hrmw hty hhome hp hmem hy =>
    obtain ⟨home, hhome, _, hslot⟩ := hhome
    have hk := hok.wide_lt _ home _ hhome hslot
    have hlookup : Cg.lookup { cg with nextReg := cg.ssaRegHigh } (.loc i.result) = some home := hhome
    refine wp_cgInst_wide (by rw [hop]; decide) hty ?_
    rw [cgEmitI64Def, Exec.wp_bind, Exec.wp_get, hlookup, Option.bind_some, hslot]
    dsimp only
    rw [Exec.wp_bind, Exec.wp_stopIf]
    refine ⟨fun hodd => absurd hty hodd.1, fun _ => ?_⟩
    rw [hop, ← wideVal_eq hy]
    rw [← operandWord_emit cg cg.code cg.ssaRegHigh] at hp
    rw [hin.size] at hmem
    exact wp_cgAtomicRmw64 host hcode hok₀ hin₀ hk hrmw hp hmem
  | cmpXchg hop hty hopty hhome hplain hbase hroom hwrap hp hmem hx hy =>
    refine wp_cgInst_scalar hhome hplain (Or.inr (by rw [hty]; exact ⟨rfl, rfl⟩)) ?_
    have hi64 : (fn.typeOf (i.operand 1)).isI64 = true := by rw [hopty]; rfl
    rw [← operandWord_emit cg cg.code cg.ssaRegHigh] at hp
    rw [hin.size] at hmem
    rw [cgScalarDef, hop]
    dsimp only
    rw [if_pos hi64, ← wideVal_eq hx, ← wideVal_eq hy]
    exact wp_cgCmpXchg64 host hcode hok₀ hin₀ hzero hhome hbase hroom hwrap hp hmem

end instructions

end WideLoweringAux

/-- Two values of two words in slots; the result has the slots of the first. -/
def wideCg : Cg where
  code := []
  map := [(.arg 0, { reg := 0, i64Slot := some 0 }), (.arg 1, { reg := 0, i64Slot := some 2 }), (.inst 1, { reg := 0, i64Slot := some 0 })]
  nextReg := 2
  freeList := []
  zeroReg := cgRegZero
  allocaBytes := 0
  spillBytes := 0
  valSpillCount := 4
  frameBytes := 16
  ssaRegHigh := 2
  globals := []
  funcs := []

/-- `add i64` -/
def wideSum : Inst where
  id := 1
  op := .add
  ty := .int 64
  operands := [.loc (.arg 0), .loc (.arg 1)]

def wideFn : Func where
  name := "sum"
  params := [.int 64, .int 64]
  vararg := false
  blocks := [{ id := 0, insts := [wideSum] }]

/-- The first value is 2^32 - 1, the second 1. -/
def wideFrame : Frame Unit Unit where
  regs r := if r = cgRegZero ∨ r = regSp then 0 else 0xDEADBEEF
  heap := { size := 64, byte := fun p => if p < 4 then 0xFF else if p = 8 then 1 else 0 }
  importFns := []
  world := ()
  pc := 0

/-- The code generator after the sum. -/
def wideDone : Cg :=
  match cgInst wideFn wideSum wideCg with
  | .val _ cg => cg
  | _ => wideCg

end CronoVM
