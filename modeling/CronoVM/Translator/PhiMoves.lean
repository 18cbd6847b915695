import CronoVM.Translator.Emit

/-!
# Phi moves

`cg_emit_phi_moves`: the moves of an edge are collected as a parallel copy and put in sequence. The arrays are lists with the bounds of
the source; a write outside them is out of bounds, and so is a loop that takes more turns than it is given.
-/

namespace CronoVM

open Checked Ir

/-! ## Locations -/

/-- A location of a phi move: a register, or a value-spill slot (`PHI_SLOT_FLAG`). -/
inductive Loc where
  | reg (r : Byte)
  | slot (k : Nat)
  deriving DecidableEq

/-- `cg_phi_dst_loc`. -/
def cgPhiDstLoc (phi : Home) : Loc :=
  match phi.valSlot with
  | some k => .slot k
  | none => .reg phi.reg

/-- `cg_phi_src_loc`. -/
def cgPhiSrcLoc (src : Val) : Emit Loc := do
  let cg ← Exec.get
  match (cg.lookup src).bind Home.valSlot with
  | some k => pure (.slot k)
  | none => do
    let r ← cgRegFor src
    pure (.reg r)

/-- `cg_phi_read_to`. -/
def cgPhiReadTo (src : Loc) (dst : Byte) : Emit Unit := do
  let cg ← Exec.get
  match src with
  | .slot k => cgLdwSpOff dst (cg.valSlotOff k)
  | .reg r => Exec.when (r ≠ dst) (cgEmit (encR .mov dst r 0))

/-- `cg_phi_write_from`. -/
def cgPhiWriteFrom (dst : Loc) (src : Byte) : Emit Unit := do
  let cg ← Exec.get
  match dst with
  | .slot k => cgStwSpOff (cg.valSlotOff k) src
  | .reg r => Exec.when (r ≠ src) (cgEmit (encR .mov r src 0))

/-- `cg_phi_copy_loc`. -/
def cgPhiCopyLoc (dst src : Loc) (stage : Byte) : Emit Unit := Exec.when (src ≠ dst)
  (match src, dst with
  | .slot _, .slot _ => do
    cgPhiReadTo src stage
    cgPhiWriteFrom dst stage
  | .slot _, .reg d => cgPhiReadTo src d
  | .reg s, .slot _ => cgPhiWriteFrom dst s
  | .reg s, .reg d => cgEmit (encR .mov d s 0))

/-- `cg_phi_emit_const`. -/
def cgPhiEmitConst (dst : Loc) (cv : Val) : Emit Unit := do
  let cg ← Exec.get
  let r ← cgRegFor cv
  cgPhiWriteFrom dst r
  Exec.modify fun c => { c with nextReg := cg.nextReg }

/-- `cg_phi_emit_word`. -/
def cgPhiEmitWord (dst : Loc) (w : Word) (stage : Byte) : Emit Unit :=
  match dst with
  | .slot _ => do
    cgEmitLoadConst32 stage w
    cgPhiWriteFrom dst stage
  | .reg r => cgEmitLoadConst32 r w

/-! ## The moves of an edge -/

/-- Where the value of a move comes from: `SRC_LOC`, `SRC_CONST`, `SRC_WORD`. -/
inductive MoveSrc where
  | loc (src : Loc)
  | const (cv : Val)
  | word (w : Word)
  deriving DecidableEq

structure PhiMove where
  dst : Loc
  src : MoveSrc
  deriving DecidableEq

/-- `moves[m]`. -/
def moveAt (moves : List PhiMove) (m : Nat) : PhiMove := moves.getD m { dst := .reg 0, src := .word 0 }

/-- The size of `moves`. -/
def phiMaxMoves : Nat := 1024

/-- `MAXLOC`. -/
def phiMaxLoc : Nat := 2 * 1024 + 1

/-- `moves[nmoves++] = m;`. -/
def pushMove (moves : List PhiMove) (m : PhiMove) : Emit (List PhiMove) := do
  Exec.demand (moves.length < phiMaxMoves)
  pure (moves ++ [m])

/-- `if (src != dst) moves[nmoves++] = …;`. -/
def pushLocMove (moves : List PhiMove) (dst src : Loc) : Emit (List PhiMove) :=
  if src ≠ dst then pushMove moves { dst, src := .loc src } else pure moves

/-- The moves of a wide phi with its words at slot `d`. -/
def collectWide (moves : List PhiMove) (d : Nat) (sval : Val) : Emit (List PhiMove) := do
  let cg ← Exec.get
  match (cg.lookup sval).bind Home.i64Slot with
  | some s => do
    let moves ← pushLocMove moves (.slot d) (.slot s)
    pushLocMove moves (.slot (d + 1)) (.slot (s + 1))
  | none =>
    match sval.cgWideConstWords with
    | some (lo, hi) => do
      let moves ← pushMove moves { dst := .slot d, src := .word lo }
      pushMove moves { dst := .slot (d + 1), src := .word hi }
    | none =>
      if sval.isUndef = true then do
        let moves ← pushMove moves { dst := .slot d, src := .loc (.reg cg.zeroReg) }
        pushMove moves { dst := .slot (d + 1), src := .loc (.reg cg.zeroReg) }
      else
        Exec.stop .widePhiSource

/-- The move of a scalar phi. -/
def collectScalar (moves : List PhiMove) (dst : Loc) (sval : Val) : Emit (List PhiMove) := do
  let cg ← Exec.get
  if (cg.lookup sval).isSome then do
    let src ← cgPhiSrcLoc sval
    pushLocMove moves dst src
  else if sval.isUndef = true then
    pushLocMove moves dst (.reg cg.zeroReg)
  else
    pushMove moves { dst, src := .const sval }

/-- The incoming value of a phi on the edge from `pred`. -/
def incomingFrom (phi : Inst) (pred : Nat) : Option Val := ((phi.incoming.zip phi.operands).find? fun e => e.1 = pred).map Prod.snd

/-- The turn of the collection for one phi. -/
def collectPhi (pred : Nat) (moves : List PhiMove) (phi : Inst) : Emit (List PhiMove) := do
  if phi.isEh = true then pure moves
  else
    match incomingFrom phi pred with
    | none => pure moves
    | some sval => do
      let cg ← Exec.get
      match cg.home? phi.result with
      | none => Exec.stop .phiNotAllocated
      | some home => do
        Exec.stopIf (moves.length + 2 > phiMaxMoves) .tooManyPhiMoves
        match home.i64Slot with
        | some d => collectWide moves d sval
        | none => collectScalar moves (cgPhiDstLoc home) sval

/-- The moves of the phis of an edge. -/
def collectPhis (pred : Nat) : List Inst → List PhiMove → Emit (List PhiMove)
  | [], moves => pure moves
  | phi :: phis, moves => do
    let moves ← collectPhi pred moves phi
    collectPhis pred phis moves

/-! ## The sequence -/

/-- The arrays of the sequence: `Lv`, `loc_cur`, `predmove`, `done`, `inready`, and the stacks `ready` and `todo`, the top first. `emitted`
is not of the source: the moves in the order of their emission. -/
structure PhiSeq where
  lv : List Loc
  locCur : Nat → Option Nat
  predmove : Nat → Option Nat
  done : Nat → Bool
  inready : Nat → Bool
  ready : List Nat
  todo : List Nat
  emitted : List Nat

def PhiSeq.empty : PhiSeq :=
  { lv := [], locCur := fun _ => none, predmove := fun _ => none, done := fun _ => false, inready := fun _ => false, ready := [],
    todo := [], emitted := [] }

/-- `cg_loc_intern`. -/
def cgLocIntern (s : PhiSeq) (v : Loc) : Emit (PhiSeq × Nat) :=
  match s.lv.idxOf? v with
  | some k => pure (s, k)
  | none => do
    Exec.demand (s.lv.length < phiMaxLoc)
    pure ({ s with lv := s.lv ++ [v] }, s.lv.length)

/-- `ready[rn++] = x; inready[x] = 1;`. -/
def PhiSeq.pushReady (s : PhiSeq) (x : Nat) : PhiSeq :=
  { s with ready := x :: s.ready, inready := Function.update s.inready x true }

/-- `pred[dst] = move; loc[src] = src; to_do.push(dst)`, for move `m`. -/
def internMove (moves : List PhiMove) (s : PhiSeq) (m : Nat) : Emit PhiSeq := do
  let move := moveAt moves m
  let (s, di) ← cgLocIntern s move.dst
  Exec.demand (s.todo.length < phiMaxLoc)
  let s := { s with predmove := Function.update s.predmove di (some m), todo := di :: s.todo }
  match move.src with
  | .loc src => do
    let (s, si) ← cgLocIntern s src
    pure { s with locCur := Function.update s.locCur si (some si) }
  | _ => pure s

/-- The turn of the second loop for move `m`: its destination is ready if nobody reads it. -/
def initReady (moves : List PhiMove) (s : PhiSeq) (m : Nat) : Emit PhiSeq := do
  let move := moveAt moves m
  let (s, di) ← cgLocIntern s move.dst
  if s.locCur di = none ∧ s.inready di = false then do
    Exec.demand (s.ready.length < phiMaxLoc)
    pure (s.pushReady di)
  else
    pure s

/-- `CG_PHI_PUSH`. -/
def cgPhiPush (s : PhiSeq) (x : Nat) : Emit PhiSeq :=
  if s.done x = false ∧ s.inready x = false then do
    Exec.stopIf (s.ready.length ≥ phiMaxLoc) .phiReadyOverflow
    pure (s.pushReady x)
  else
    pure s

/-- The location with index `k`. -/
def PhiSeq.loc (s : PhiSeq) (k : Nat) : Loc := s.lv.getD k (.reg 0)

/-- Move `m`, whose destination `b` is ready. -/
def emitMove (moves : List PhiMove) (stage : Byte) (s : PhiSeq) (b m : Nat) : Emit PhiSeq := do
  let move := moveAt moves m
  let s := { s with emitted := s.emitted ++ [m] }
  match move.src with
  | .const cv => do
    cgPhiEmitConst (s.loc b) cv
    pure { s with done := Function.update s.done b true }
  | .word w => do
    cgPhiEmitWord (s.loc b) w stage
    pure { s with done := Function.update s.done b true }
  | .loc src => do
    let (s, a) ← cgLocIntern s src
    match s.locCur a with
    | none => do
      Exec.demand False
      pure s
    | some c => do
      cgPhiCopyLoc (s.loc b) (s.loc c) stage
      let s := { s with done := Function.update s.done b true, locCur := Function.update s.locCur a (some b) }
      if a = c ∧ s.predmove a ≠ none then cgPhiPush s a else pure s

/-- One turn of the loop over `ready`: none when it is empty. -/
def drainTurn (moves : List PhiMove) (stage : Byte) (s : PhiSeq) : Emit (Option PhiSeq) :=
  match s.ready with
  | [] => pure none
  | b :: ready => do
    let s := { s with ready, inready := Function.update s.inready b false }
    if s.done b = true then pure (some s)
    else
      match s.predmove b with
      | none => pure (some { s with done := Function.update s.done b true })
      | some m => do
        let s ← emitMove moves stage s b m
        pure (some s)

/-- `while (rn > 0)`, for at most `fuel` turns. -/
def drain (moves : List PhiMove) (stage : Byte) : Nat → PhiSeq → Emit PhiSeq
  | 0, _ => do
    Exec.demand False
    pure PhiSeq.empty
  | fuel + 1, s => do
    let r ← drainTurn moves stage s
    match r with
    | none => pure s
    | some s => drain moves stage fuel s

/-- `while (tn > 0)`. -/
def sequenceLoop (moves : List PhiMove) (spareIdx : Nat) (stage : Byte) : List Nat → PhiSeq → Emit PhiSeq
  | [], s => pure s
  | b :: todo, s => do
    let s ← drain moves stage (moves.length + 2) s
    if s.done b = true then sequenceLoop moves spareIdx stage todo s
    else do
      cgPhiCopyLoc (s.loc spareIdx) (s.loc b) stage
      let s := { s with locCur := Function.update s.locCur b (some spareIdx) }
      let s ← cgPhiPush s b
      sequenceLoop moves spareIdx stage todo s

/-- The sequence of a list of moves; what it returns is for its statements only. -/
def sequenceMoves (moves : List PhiMove) : Emit (List Nat) := do
  let spare ← cgAllocReg
  let stage ← cgAllocReg
  let (s, spareIdx) ← cgLocIntern PhiSeq.empty (.reg spare)
  let s ← Exec.forRange moves.length (fun m s => internMove moves s m) s
  let s ← Exec.forRange moves.length (fun m s => initReady moves s m) s
  let s ← sequenceLoop moves spareIdx stage s.todo s
  pure s.emitted

/-- `cg_emit_phi_moves` for the edge from `pred` to `target`; it returns the moves and the order of their emission. -/
def cgEmitPhiMoves (pred : Nat) (target : Ir.Block) : Emit (List PhiMove × List Nat) := do
  let moves ← collectPhis pred target.phis []
  if moves = [] then pure ([], [])
  else do
    let emitted ← sequenceMoves moves
    pure (moves, emitted)

end CronoVM
