import CronoVM.Lemmas.Vectors
import CronoVM.Theorems.FunnelShifts

/-!
# Constant vectors

The lanes of a constant vector that are no integers are read as 0: addresses of globals and functions in a table are lost, without an error.
-/

namespace CronoVM

open Checked Ir

variable {κ W : Type}

/-- The lanes of a constant of `n` lanes have the element type. -/
def VecConst.Fits (elem : LaneTy) (n : Nat) : VecConst → Prop
  | .elements lanes => lanes.length = n ∧ ∀ c ∈ lanes, ∀ width bits, c = .int width bits → elem = .int width
  | _ => True

/-- The word of a lane, where the lane has one: `value` are the words of constants, `exprLane` the lanes of a constant expression. -/
def VecConst.laneValue (value : Const → Word) (exprLane : Nat → Word) : VecConst → Nat → Option Word
  | .undef, _ => none
  | .aggregateZero, _ => some 0
  | .elements lanes, lane =>
    match lanes[lane]? with
    | some (.int width bits) => some (BitVec.ofNat 32 (bits % 2 ^ width))
    | some (.undef _) | none => none
    | some .null => some 0
    | some c => some (value c)
  | .expr, lane => some (exprLane lane)

/-- The low bits of a word are the lane. -/
def LaneHolds (bits : Nat) (w : Word) (lane : Option Word) : Prop := ∀ v, lane = some v → w.setWidth bits = v.setWidth bits

/-- A lane that is read as it is: an integer, or one that is 0 or has no value. -/
def VecConst.LaneKept (bits : Nat) (value : Const → Word) (exprLane : Nat → Word) (c : VecConst) (lane : Nat) : Prop :=
  (∃ width k, c.aggregateElement lane = some (.int width k)) ∨ LaneHolds bits 0 (c.laneValue value exprLane lane)

namespace VectorAux

/-- A lane holds its value exactly if the translator keeps its constant. -/
theorem laneHolds_iff {elem : LaneTy} (hpos : 1 ≤ elem.elemBits) (hbits : elem.elemBits ≤ 32) {n : Nat} {c : VecConst} (hfits : c.Fits elem n)
    (value : Const → Word) (exprLane : Nat → Word) (lane : Nat) :
    LaneHolds elem.elemBits (c.laneWord elem lane) (c.laneValue value exprLane lane) ↔ c.LaneKept elem.elemBits value exprLane lane := by
  by_cases hint : ∃ width k, c.aggregateElement lane = some (.int width k)
  · refine ⟨fun _ => Or.inl hint, fun _ => ?_⟩
    obtain ⟨width, k, helem⟩ := hint
    cases c with
    | undef | aggregateZero | expr => nomatch helem
    | elements lanes =>
      have hget : lanes[lane]? = some (.int width k) := helem
      obtain rfl := hfits.2 _ (List.mem_of_getElem? hget) width k rfl
      intro v hv
      have hvalue : (VecConst.elements lanes).laneValue value exprLane lane = some (BitVec.ofNat 32 (k % 2 ^ width)) := by
        simp only [VecConst.laneValue, hget]
      rw [hvalue] at hv
      cases hv
      have hword : (VecConst.elements lanes).laneWord (.int width) lane = laneImm width width k := by
        simp only [VecConst.laneWord, helem, laneConst, LaneTy.elemBits]
      rw [hword]
      refine (setWidth_laneImm hpos hbits k).trans ?_
      apply BitVec.eq_of_toNat_eq
      have hlt : k % 2 ^ width < 2 ^ width := Nat.mod_lt k (Nat.two_pow_pos width)
      have hle : 2 ^ width ≤ 2 ^ 32 := Nat.pow_le_pow_right (by decide) hbits
      rw [BitVec.toNat_setWidth, BitVec.toNat_ofNat, BitVec.toNat_ofNat, Nat.mod_eq_of_lt (Nat.lt_of_lt_of_le hlt hle)]
      exact (Nat.mod_mod _ _).symm
  · have hzero : c.laneWord elem lane = 0 := by
      unfold VecConst.laneWord
      cases helem : c.aggregateElement lane with
      | none => rfl
      | some e =>
        cases e with
        | int width k => exact absurd ⟨width, k, helem⟩ hint
        | _ => rfl
    rw [hzero]
    exact ⟨Or.inr, fun h => h.resolve_left hint⟩

/-- The store of a constant vector. -/
theorem wp_cgVecStore {img : Image κ} (host : Host κ W) (hcode : img.code.length = img.codeCount.toNat) {cg : Cg} {f : Frame κ W} (hok : cg.Ok)
    (hin : InFrame cg img f) {elem : LaneTy} {ld st : Opcode} {bytes : Nat} (hmem : elem.laneMem = some (ld, st, bytes)) (c : VecConst) (ptr : Val)
    {n : Nat} (hend : (operandWord cg f ptr).toNat + n * bytes ≤ img.memSize.toNat) :
    Exec.wp (cgVecStore elem n (.const c) ptr) (fun _ cg' => ∃ f', Emitted img host cg cg' f f' ∧
      f'.heap = f.heap.storeLanes (operandWord cg f ptr).toNat bytes (c.laneWord elem) n) (fun e _ => e.OfOperand) cg := by
  have hfails : ∀ (e : CgError) (cg' : Cg), e = .scratchExhausted → e.OfOperand := by
    rintro _ _ rfl
    exact trivial
  unfold cgVecStore
  rw [hmem]
  refine wp_operand (wp_cgRegFor host hcode hok hin ptr) fun addr cg₁ f₁ hprep haddr hheld => ?_
  rw [Exec.wp_bind, Exec.wp_get]
  have hsize : f₁.heap.size = img.memSize.toNat := by rw [hprep.agrees.heap, hin.size]
  rw [← haddr] at hend
  refine Exec.wp_mono ?_ hfails (wp_cgVecStoreLanes host hcode (hprep.ok hok) hmem c hheld hsize hend)
  rintro _ cg' ⟨_, _, f', hem, hag⟩
  refine ⟨f', hprep.emitted.trans hcode hem, ?_⟩
  rw [hag.heap, haddr, hprep.agrees.heap]

end VectorAux

/-- `cg_vec_read_lane` leaves the lane of a constant exactly if it is an integer, or 0 or without a value; so does the store of the vector in
memory, and beyond the lanes it leaves memory as it was. The code generation fails only when it runs out of registers, or of element types
it can store. -/
theorem vector_constants_iff (img : Image κ) (host : Host κ W) (hcode : img.code.length = img.codeCount.toNat) (elem : LaneTy)
    (hpos : 1 ≤ elem.elemBits) (hbits : elem.elemBits ≤ 32) (n : Nat) (c : VecConst) (hfits : c.Fits elem n) (value : Const → Word)
    (exprLane : Nat → Word) (cg : Cg) (f : Frame κ W) (hok : cg.Ok) (hin : InFrame cg img f) :
    (∀ lane < n, Exec.wp (cgVecReadLane elem (.const c) lane) (fun r cg' => ∃ f', Emitted img host cg cg' f f' ∧
      (LaneHolds elem.elemBits (f'.regs r) (c.laneValue value exprLane lane) ↔ c.LaneKept elem.elemBits value exprLane lane))
      (fun e _ => e = .scratchExhausted) cg) ∧
    ∀ ptr : Val, (∀ ld st bytes, elem.laneMem = some (ld, st, bytes) → (operandWord cg f ptr).toNat + n * bytes ≤ img.memSize.toNat) →
      Exec.wp (cgVecStore elem n (.const c) ptr) (fun _ cg' => ∃ f' ld st bytes, Emitted img host cg cg' f f' ∧
        elem.laneMem = some (ld, st, bytes) ∧
        (∀ i, i < (operandWord cg f ptr).toNat ∨ (operandWord cg f ptr).toNat + n * bytes ≤ i → f'.heap.byte i = f.heap.byte i) ∧
        ∀ lane < n, LaneHolds elem.elemBits (f'.heap.lowBytes ((operandWord cg f ptr).toNat + lane * bytes) bytes)
          (c.laneValue value exprLane lane) ↔ c.LaneKept elem.elemBits value exprLane lane)
        (fun e _ => e.OfOperand) cg := by
  constructor
  · intro lane _
    refine Exec.wp_mono ?_ (fun _ _ he => he) (wp_cgVecReadLane (f := f) host hcode hok.pool elem c lane)
    intro r cg' hgives
    obtain ⟨f', hprep, hval, _⟩ := hgives.prepares
    refine ⟨f', hprep.emitted, ?_⟩
    rw [hval]
    exact VectorAux.laneHolds_iff hpos hbits hfits value exprLane lane
  · intro ptr hfit
    cases hmem : elem.laneMem with
    | none =>
      rw [cgVecStore, hmem]
      exact trivial
    | some p =>
      obtain ⟨ld, st, bytes⟩ := p
      refine Exec.wp_mono ?_ (fun _ _ he => he) (VectorAux.wp_cgVecStore host hcode hok hin hmem c ptr (hfit ld st bytes hmem))
      rintro _ cg' ⟨f', hem, hheap⟩
      obtain ⟨hcases, hle⟩ := laneMem_cases hmem
      have hbytes : bytes ≤ 4 := by rcases hcases with ⟨_, rfl⟩ | ⟨_, rfl⟩ | ⟨_, rfl⟩ <;> decide
      refine ⟨f', ld, st, bytes, hem, rfl, fun i hi => ?_, fun lane hlane => ?_⟩
      · rw [hheap]
        exact storeLanes_byte _ _ _ _ hi
      · have hread := lowBytes_storeLanes f.heap (operandWord cg f ptr).toNat bytes (c.laneWord elem) hlane hbytes hle
        rw [hheap, LaneHolds, hread]
        exact VectorAux.laneHolds_iff hpos hbits hfits value exprLane lane

/-- A pointer in R0, and two globals in the layout. -/
def tableCg : Cg where
  code := []
  map := [(.arg 0, { reg := 0 })]
  nextReg := 1
  freeList := []
  zeroReg := cgRegZero
  allocaBytes := 0
  spillBytes := 0
  valSpillCount := 0
  frameBytes := 0
  ssaRegHigh := 1
  globals := [(0, 40), (1, 44)]
  funcs := []

theorem tableCg_ok : tableCg.Ok := .of_map rfl rfl (by decide) (by decide) (by decide) (by decide)

/-- The addresses of the globals. -/
def tableConst : VecConst := .elements [.global 0, .global 1]

/-- Four bytes. -/
def bytesConst : VecConst := .elements [.int 8 1, .int 8 2, .undef (.int 8), .int 8 255]

/-- The code generator after the store of a constant. -/
def tableDone (elem : LaneTy) (n : Nat) (c : VecConst) : Cg :=
  match cgVecStore elem n (.const c) (.loc (.arg 0)) tableCg with
  | .val _ cg => cg
  | _ => tableCg

/-- In the table of the addresses 40 and 44 no lane is stored. -/
theorem vector_table_lost : ∃ f', Emitted (codeImage (tableDone .pointer 2 tableConst).code) quietHost tableCg (tableDone .pointer 2 tableConst)
    (threeArgsFrame 16 0 0) f' ∧ ∀ lane < 2, ¬LaneHolds 32 (f'.heap.lowBytes (16 + lane * 4) 4)
      (tableConst.laneValue (constWord tableCg 0) (fun _ => 0) lane) := by
  have hin : InFrame tableCg (codeImage (tableDone .pointer 2 tableConst).code) (threeArgsFrame 16 0 0) := ⟨rfl, Nat.zero_le _⟩
  have hcode : (codeImage (tableDone .pointer 2 tableConst).code).code.length = (codeImage (tableDone .pointer 2 tableConst).code).codeCount.toNat :=
    rfl
  have hstore := VectorAux.wp_cgVecStore (n := 2) quietHost hcode tableCg_ok hin
    (rfl : LaneTy.pointer.laneMem = some (.ldw, .stw, 4)) tableConst (.loc (.arg 0)) (by decide)
  have hrun : cgVecStore .pointer 2 (.const tableConst) (.loc (.arg 0)) tableCg = .val () (tableDone .pointer 2 tableConst) := rfl
  obtain ⟨f', hem, hheap⟩ := Exec.of_wp hstore hrun
  refine ⟨f', hem, fun lane hlane hholds => ?_⟩
  have hread := lowBytes_storeLanes (threeArgsFrame 16 0 0).heap 16 4 (tableConst.laneWord .pointer) hlane (by decide) (by decide : 32 ≤ 8 * 4)
  have haddr : (operandWord tableCg (threeArgsFrame 16 0 0) (.loc (.arg 0))).toNat = 16 := rfl
  rw [hheap, haddr] at hholds
  rcases (by omega : lane = 0 ∨ lane = 1) with rfl | rfl
  · have hlost := hread.symm.trans (hholds 40 rfl)
    exact absurd hlost (by decide)
  · have hlost := hread.symm.trans (hholds 44 rfl)
    exact absurd hlost (by decide)

/-- The bytes 1, 2 and 255 are stored. -/
theorem vector_constants_iff_bytes : ∃ f', Emitted (codeImage (tableDone (.int 8) 4 bytesConst).code) quietHost tableCg
    (tableDone (.int 8) 4 bytesConst) (threeArgsFrame 16 0 0) f' ∧ (f'.heap.lowBytes 16 1).setWidth 8 = (1 : Byte) ∧
      (f'.heap.lowBytes 19 1).setWidth 8 = (255 : Byte) := by
  have hfits : bytesConst.Fits (.int 8) 4 := by
    refine ⟨rfl, fun c hc width bits heq => ?_⟩
    subst heq
    simp only [List.mem_cons, Const.int.injEq, reduceCtorEq, List.not_mem_nil, or_false, false_or] at hc
    rcases hc with ⟨rfl, _⟩ | ⟨rfl, _⟩ | ⟨rfl, _⟩ <;> rfl
  have hboth := vector_constants_iff (codeImage (tableDone (.int 8) 4 bytesConst).code) quietHost rfl (.int 8) (by decide) (by decide) 4 bytesConst hfits
    (fun _ => 0) (fun _ => 0) tableCg (threeArgsFrame 16 0 0) tableCg_ok ⟨rfl, Nat.zero_le _⟩
  have hstore := hboth.2 (.loc (.arg 0)) (by
    intro ld st bytes hmem
    cases hmem
    decide)
  have hrun : cgVecStore (.int 8) 4 (.const bytesConst) (.loc (.arg 0)) tableCg = .val () (tableDone (.int 8) 4 bytesConst) := rfl
  obtain ⟨f', ld, st, bytes, hem, hmem, _, hlanes⟩ := Exec.of_wp hstore hrun
  cases hmem
  exact ⟨f', hem, (hlanes 0 (by decide)).mpr (Or.inl ⟨8, 1, rfl⟩) 1 rfl, (hlanes 3 (by decide)).mpr (Or.inl ⟨8, 255, rfl⟩) 255 rfl⟩

end CronoVM
