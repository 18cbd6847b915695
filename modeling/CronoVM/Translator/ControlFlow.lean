import CronoVM.Lib.DataFlow
import CronoVM.Lemmas.PreAlloc
import CronoVM.Translator.Liveness

/-!
# Control flow

What a function of LLVM IR means for the passes: the points between its instructions, the moves from one to the next, and the rules that
the IR keeps. The phis of a block are taken on the edges into it, all at once.
-/

namespace CronoVM.Ir

/-- A block, and how many of its instructions after the phis have run. -/
structure Point where
  block : Nat
  pos : Nat
  deriving DecidableEq

/-- An instruction that is no phi, or the way from a block to a successor with the phis there. -/
inductive Move where
  | inst (i : Inst)
  | edge (pred succ : Block)

namespace Move

/-- The values that a move reads. -/
def uses : Move → Local → Prop
  | .inst i, v => .loc v ∈ i.operands
  | .edge pred succ, v => ∃ phi ∈ succ.phis, incomingFrom phi pred.id = some (.loc v)

/-- The values that a move gives. -/
def defs : Move → Local → Prop
  | .inst i, v => v = i.result
  | .edge _ succ, v => ∃ phi ∈ succ.phis, v = phi.result

end Move

namespace Func

variable (fn : Func)

inductive Moves : Point → Move → Point → Prop
  | inst {b : Block} {k : Nat} {i : Inst} : b ∈ fn.blocks → b.body[k]? = some i → Moves ⟨b.id, k⟩ (.inst i) ⟨b.id, k + 1⟩
  | edge {pred succ : Block} : pred ∈ fn.blocks → succ ∈ fn.blocks → succ.id ∈ pred.successors →
    Moves ⟨pred.id, pred.body.length⟩ (.edge pred succ) ⟨succ.id, 0⟩

/-- The entry block. -/
def entryId : Nat := (fn.blocks.head?.map Block.id).getD 0

/-- The function as a graph: it begins at the entry, with its parameters. -/
def graph : Flow.Graph Point Move Local where
  start := ⟨fn.entryId, 0⟩
  given v := ∃ k, v = .arg k
  move := fn.Moves
  uses := Move.uses
  defs := Move.defs

/-- The rules of the IR: the names are distinct, the phis of a block come first, no edge leads to the entry, and each use of a value comes
after its definition on every path. -/
structure Ssa : Prop extends fn.WellFormed where
  blockIds : (fn.blocks.map Block.id).Nodup
  phisFirst : ∀ b ∈ fn.blocks, b.insts.Pairwise fun i j => i.op ≠ .phi → j.op ≠ .phi
  entry : ∀ b ∈ fn.blocks, fn.entryId ∉ b.successors
  strict : fn.graph.Strict

/-! ## A check -/

/-- The values that an instruction reads are among those set. -/
def readsOk (set : List Local) : Val → Bool
  | .loc l => l ∈ set
  | _ => true

/-- A certificate for the rules of the IR: the values that are set at each point, whatever the path. -/
def ssaCheck (set : Point → List Local) : Bool :=
  decide (fn.insts.map Inst.id).Nodup && (fn.insts.all fun i => !i.ty.isVector || decide (0 < i.ty.vecLanes)) &&
  decide (fn.blocks.map Block.id).Nodup &&
  (fn.blocks.all fun b => decide (b.insts.Pairwise fun i j => i.op ≠ .phi → j.op ≠ .phi) && decide (fn.entryId ∉ b.successors)) &&
  ((set ⟨fn.entryId, 0⟩).all fun l => match l with
    | .arg _ => true
    | .inst _ => false) &&
  fn.blocks.all fun b =>
    (b.body.zipIdx.all fun e => e.1.operands.all (readsOk (set ⟨b.id, e.2⟩)) &&
      (set ⟨b.id, e.2 + 1⟩).all fun l => l = e.1.result || l ∈ set ⟨b.id, e.2⟩) &&
    fn.blocks.all fun c => !(c.id ∈ b.successors : Bool) ||
      (c.phis.all fun phi => ((incomingFrom phi b.id).all (readsOk (set ⟨b.id, b.body.length⟩)))) &&
        (set ⟨c.id, 0⟩).all fun l => (c.phis.any fun phi => l = phi.result) || l ∈ set ⟨b.id, b.body.length⟩

end Func

end CronoVM.Ir
