import CronoVM.Translator.Emit
import CronoVM.Translator.Globals

/-!
# Addresses

`case LLVMGetElementPtr`: what constant indices add to an address is folded, what the others add is computed.
-/

namespace CronoVM

open Checked Ir
open Globals (TargetData)

/-- The indices of a GEP instruction from the second on. -/
inductive GepIndices : Globals.Ty → Type where
  | nil {t : Globals.Ty} : GepIndices t
  | elem {n : Nat} {t : Globals.Ty} (idx : Val) (rest : GepIndices t) : GepIndices (.array n t)
  | field {p : Bool} {n : Nat} {fs : Fin n → Globals.Ty} (fi : Fin n) (rest : GepIndices (fs fi)) : GepIndices (.struct p n fs)
  /-- An index into a struct that is no constant, or not into an array or a struct. -/
  | stop {t : Globals.Ty} : GepIndices t

/-- The constant offset so far, and the register of the rest if there is any. -/
structure GepSum where
  constOff : Int
  dynReg : Option Byte

/-- `stride`, a `uint32_t`. -/
def gepStride (td : TargetData) (t : Globals.Ty) : Nat := td.abiSize t % 2 ^ 32

/-- An index with its stride. -/
def cgGepStep (stride : Nat) (v : Val) (s : GepSum) : Emit GepSum :=
  match v with
  | .const (.int width bits) => pure { s with constOff := s.constOff + (BitVec.ofNat width bits).toInt * stride }
  | _ => do
    let idxR ← cgRegFor v
    let strideR ← cgConstReg (BitVec.ofNat 32 stride)
    let stepR ← cgAllocReg
    cgEmit (encR .mul stepR idxR strideR)
    match s.dynReg with
    | none => pure { s with dynReg := some stepR }
    | some dynReg => do
      let sumR ← cgAllocReg
      cgEmit (encR .add sumR dynReg stepR)
      pure { s with dynReg := some sumR }

/-- The loop over the indices from the second on. -/
def cgGepWalk (td : TargetData) : {t : Globals.Ty} → GepIndices t → GepSum → Emit GepSum
  | _, .nil, s => pure s
  | _, .elem (t := t) idx rest, s => do
    let s ← cgGepStep (gepStride td t) idx s
    cgGepWalk td rest s
  | _, @GepIndices.field p n fs fi rest, s => cgGepWalk td rest { s with constOff := s.constOff + td.offsetOfElement p n fs fi }
  | _, .stop, _ => Exec.stop .gepIndex

/-- The sum of the indices of a GEP with this source element type. -/
def cgGepSum (td : TargetData) (source : Globals.Ty) : Option (Val × GepIndices source) → Emit GepSum
  | none => pure ⟨0, none⟩
  | some (first, rest) => do
    let s ← cgGepStep (gepStride td source) first ⟨0, none⟩
    cgGepWalk td rest s

/-- The base with the constant offset. -/
def cgGepConst (base : Byte) (constOff : Int) : Emit Byte :=
  if constOff = 0 then pure base
  else do
    Exec.stopIf (constOff < -2147483648 ∨ constOff > 2147483647) .gepTooWide
    let offR ← cgConstReg (BitVec.ofInt 32 constOff)
    let sumR ← cgAllocReg
    cgEmit (encR .add sumR base offR)
    pure sumR

/-- `case LLVMGetElementPtr`. -/
def cgGetElementPtr (td : TargetData) (source : Globals.Ty) (base : Val) (indices : Option (Val × GepIndices source)) (dst : Byte) :
    Emit Unit := do
  let baseR ← cgRegFor base
  let s ← cgGepSum td source indices
  let cur ← cgGepConst baseR s.constOff
  match s.dynReg with
  | some dynReg => cgEmit (encR .add dst cur dynReg)
  | none => Exec.when (cur ≠ dst) (cgEmit (encR .mov dst cur 0))

end CronoVM
