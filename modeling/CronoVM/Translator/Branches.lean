import CronoVM.Lib.Fenwick
import CronoVM.Translator.Emit

/-!
# Branches

The blocks of a function with their places, the branches that wait for them, and what is done with these when the function is emitted:
`cg_relax_branches` widens the conditional branches that do not reach, `cg_resolve_fixups` and `cg_resolve_table_fixups` write the
places of the blocks into the code and the data. Positions are far below 2^31, so the 32-bit arithmetic on them is exact.
-/

namespace CronoVM

open Checked Ir

/-! ## Blocks and fixups -/

/-- `struct cg_fixup`; the target is the id of a block. -/
structure Fixup where
  instIndex : Nat
  target : Nat
  shift : Nat
  bits : Nat
  deriving DecidableEq

/-- `struct cg_table_fixup`. -/
structure TableFixup where
  dataOff : Nat
  target : Nat
  deriving DecidableEq

/-- The fields of `struct cg` that belong to the function being emitted, with the data of the module. -/
structure CgFn extends Cg where
  curBlock : Nat
  blocks : List Nat
  blockOffsets : List Nat
  fixups : List Fixup
  tableFixups : List TableFixup
  /-- `globals->data_bytes`, `data_size` of them. -/
  dataBytes : List Byte

/-- `cg_find_block`. -/
def CgFn.cgFindBlock (cg : CgFn) (bb : Nat) : Option Nat := cg.blocks.idxOf? bb

/-- `block_offsets` of a block by its id. -/
def CgFn.offsetOf (cg : CgFn) (bb : Nat) : Nat := cg.blockOffsets.getD ((cg.cgFindBlock bb).getD 0) 0

/-! ## Relaxation -/

/-- `cg_fen_add`. -/
def cgFenAdd (bit : Nat → Nat) (n pos : Nat) : Nat → Nat := Fenwick.addFrom 32 n n (pos + 1) bit

/-- `cg_fen_below`. -/
def cgFenBelow (bit : Nat → Nat) (x : Nat) : Nat := Fenwick.sumFrom 32 bit x x 0

/-- `relaxed`, `bit` and `changed`. -/
structure Relax where
  relaxed : Nat → Bool
  bit : Nat → Nat
  changed : Bool

def Relax.start : Relax := { relaxed := fun _ => false, bit := fun _ => 0, changed := false }

/-- `fixups[i]`. -/
def CgFn.fixup (cg : CgFn) (i : Nat) : Fixup := cg.fixups.getD i { instIndex := 0, target := 0, shift := 0, bits := 0 }

/-- The displacement of a branch with the branches relaxed so far. -/
def relaxRel (cg : CgFn) (bit : Nat → Nat) (i : Nat) : Int :=
  let origTarget := cg.offsetOf (cg.fixup i).target
  let origPcAfter := (cg.fixup i).instIndex + 1
  ((origTarget + cgFenBelow bit origTarget : Nat) : Int) - ((origPcAfter + cgFenBelow bit origPcAfter : Nat) : Int)

/-- The turn of a pass for fixup `i`. -/
def relaxTurn (cg : CgFn) (s : Relax) (i : Nat) : Relax :=
  if (cg.fixup i).bits ≠ 8 ∨ s.relaxed i = true then s
  else if relaxRel cg s.bit i < -128 ∨ relaxRel cg s.bit i > 127 then
    { relaxed := Function.update s.relaxed i true, bit := cgFenAdd s.bit cg.code.length (cg.fixup i).instIndex, changed := true }
  else s

/-- One pass. -/
def relaxPass (cg : CgFn) (s : Relax) : Relax := (List.range cg.fixups.length).foldl (relaxTurn cg) { s with changed := false }

/-- `for (it = 0; it <= fixup_count; ++it)`, with what is left of its turns. -/
def relaxPasses (cg : CgFn) : Nat → Relax → Relax
  | 0, s => s
  | k + 1, s => if (relaxPass cg s).changed = true then relaxPasses cg k (relaxPass cg s) else relaxPass cg s

/-- `extra[op]`. -/
def extraAt (cg : CgFn) (relaxed : Nat → Bool) (op : Nat) : Nat :=
  (List.range cg.fixups.length).countP fun f => relaxed f && (cg.fixup f).instIndex == op

/-- `new_code` and `new_pos_of`. -/
structure Rebuilt where
  newCode : List Word
  newPosOf : List Nat

/-- The turn of the rebuild for instruction `op`. -/
def rebuildTurn (code : List Word) (extra : Nat → Nat) (r : Rebuilt) (op : Nat) : Rebuilt :=
  { newCode := r.newCode ++ code.getD op 0 :: List.replicate (extra op) (encI24 .jmp 0), newPosOf := r.newPosOf ++ [r.newCode.length] }

/-- The code with the placeholders for the relaxed branches. -/
def rebuild (code : List Word) (extra : Nat → Nat) : Rebuilt :=
  (List.range code.length).foldl (rebuildTurn code extra) { newCode := [], newPosOf := [] }

/-- `enc_br`, by the byte of the opcode. -/
def encBrByte (op a b off : Byte) : Word := op.setWidth 32 ||| (a.setWidth 32 <<< 8) ||| (b.setWidth 32 <<< 16) ||| (off.setWidth 32 <<< 24)

/-- The branch with the opposite condition that skips one instruction. -/
def flipBranch (orig : Word) : Word :=
  let op := instOp orig
  let newOp := if op = Opcode.bne.code then Opcode.beq.code else if op = Opcode.beq.code then Opcode.bne.code else op
  encBrByte newOp (instA orig) (instB orig) 1

/-- The fixup at its new place; where its branch is relaxed, it is the one of the inserted jump. -/
def moveFixup (newPosOf : List Nat) (relaxed : Bool) (fx : Fixup) : Fixup :=
  if relaxed = true then { fx with instIndex := newPosOf.getD fx.instIndex 0 + 1, shift := 8, bits := 24 }
  else { fx with instIndex := newPosOf.getD fx.instIndex 0 }

/-- The function with the branches in `relaxed` widened. -/
def rewriteRelaxed (cg : CgFn) (relaxed : Nat → Bool) : CgFn :=
  let r := rebuild cg.code (extraAt cg relaxed)
  let flips := (List.range cg.fixups.length).filter relaxed
  { cg with
    code := flips.foldl (fun code f => code.modify (r.newPosOf.getD (cg.fixup f).instIndex 0) flipBranch) r.newCode
    fixups := (List.range cg.fixups.length).map fun f => moveFixup r.newPosOf (relaxed f) (cg.fixup f)
    blockOffsets := cg.blockOffsets.map fun orig => if orig < cg.code.length then r.newPosOf.getD orig 0 else r.newCode.length }

/-- `cg_relax_branches`. -/
def cgRelaxBranches (cg : CgFn) : Except CgError CgFn :=
  if cg.fixups = [] then .ok cg
  else if ∃ fx ∈ cg.fixups, fx.bits = 8 ∧ cg.cgFindBlock fx.target = none then .error .fixupTarget
  else
    let s := relaxPasses cg (cg.fixups.length + 1) Relax.start
    let relaxCount := (List.range cg.fixups.length).countP s.relaxed
    if relaxCount = 0 then .ok cg else .ok (rewriteRelaxed cg s.relaxed)

/-! ## Resolution -/

/-- The displacement of a fixup. -/
def fixupRel (cg : CgFn) (fx : Fixup) (b : Nat) : Int := (cg.blockOffsets.getD b 0 : Int) - ((fx.instIndex + 1 : Nat) : Int)

/-- The turn of the loop over the fixups. -/
def resolveFixup (cg : CgFn) (code : List Word) (fx : Fixup) : Except CgError (List Word) :=
  match cg.cgFindBlock fx.target with
  | none => .error .fixupTarget
  | some b =>
    let rel := fixupRel cg fx b
    let maxv : Int := 2 ^ (fx.bits - 1) - 1
    if rel < -maxv - 1 ∨ rel > maxv then .error .branchRange
    else
      let mask : Word := if fx.bits = 32 then 0xFFFFFFFF else ((1 : Word) <<< fx.bits) - 1
      .ok (code.modify fx.instIndex fun w => w ||| ((BitVec.ofInt 32 rel &&& mask) <<< fx.shift))

/-- `cg_resolve_fixups`. -/
def cgResolveFixups (cg : CgFn) : Except CgError CgFn := do
  let code ← cg.fixups.foldlM (resolveFixup cg) cg.code
  pure { cg with code := code }

/-- The turn of the loop over the table fixups. -/
def resolveTableFixup (cg : CgFn) (data : List Byte) (fx : TableFixup) : Except CgError (List Byte) :=
  match cg.cgFindBlock fx.target with
  | none => .error .tableFixupTarget
  | some b =>
    let off : Word := BitVec.ofNat 32 (cg.blockOffsets.getD b 0)
    .ok ((((data.set fx.dataOff (leByte off 0)).set (fx.dataOff + 1) (leByte off 1)).set (fx.dataOff + 2) (leByte off 2)).set
      (fx.dataOff + 3) (leByte off 3))

/-- `cg_resolve_table_fixups`. -/
def cgResolveTableFixups (cg : CgFn) : Except CgError CgFn := do
  let data ← cg.tableFixups.foldlM (resolveTableFixup cg) cg.dataBytes
  pure { cg with dataBytes := data }

/-- The end of `cg_function`. -/
def cgFinish (cg : CgFn) : Except CgError CgFn := do
  let cg ← cgRelaxBranches cg
  let cg ← cgResolveFixups cg
  cgResolveTableFixups cg

end CronoVM
