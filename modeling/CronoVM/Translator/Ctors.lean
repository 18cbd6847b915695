import CronoVM.Translator.Emit
import CronoVM.Translator.Writer

/-!
# Global constructors

`cg_collect_global_ctors`: the functions of `llvm.global_ctors` sorted by priority. The prologue of the entry function calls them.
-/

namespace CronoVM

open Checked

/-- The function of an element of `llvm.global_ctors`, under the bitcasts that older modules wrap it in. -/
inductive CtorFn where
  | bitCast (v : CtorFn)
  | func (id : Nat)
  | other

/-- An element of `llvm.global_ctors`: its `i32` and its function, if these operands are there. -/
structure CtorElem where
  priority : Option Word
  fn : Option CtorFn

/-- The loop that strips bitcasts. -/
def CtorFn.strip : CtorFn → CtorFn
  | .bitCast v => v.strip
  | v => v

/-- The priority and the function index of an element that is not skipped. -/
def ctorOf? (funcs : List Nat) (e : CtorElem) : Option (Int × Nat) :=
  match e.fn with
  | none => none
  | some fv =>
    match fv.strip with
    | .func id =>
      match funcs.idxOf? id with
      | none => none
      | some fi => some (match e.priority with | some pv => pv.toInt | none => 65535, fi)
    | _ => none

/-- The inner loop of the insertion sort, on the array from its end. -/
def ctorShift (x : Int × Nat) : List (Int × Nat) → List (Int × Nat)
  | [] => [x]
  | y :: ys => if y.1 > x.1 then y :: ctorShift x ys else x :: y :: ys

/-- One round of the insertion sort. -/
def ctorInsert (arr : List (Int × Nat)) (x : Int × Nat) : List (Int × Nat) := (ctorShift x arr.reverse).reverse

/-- The sorted array of `cg_collect_global_ctors`, with the priorities; no elements if there is no `llvm.global_ctors`. -/
def sortedCtors (funcs : List Nat) (elems : List (Option CtorElem)) : List (Int × Nat) :=
  elems.foldl (fun arr e => match e.bind (ctorOf? funcs) with | some x => ctorInsert arr x | none => arr) []

/-- `cg_collect_global_ctors`: `ctor_idx`. -/
def cgCollectGlobalCtors (funcs : List Nat) (elems : List (Option CtorElem)) : List Nat := (sortedCtors funcs elems).map Prod.snd

/-- The calls of the constructors. -/
def cgCtorCalls : List Nat → Emit Unit
  | [] => pure ()
  | c :: cs => do
    cgEmit (encI24 .call (BitVec.ofNat 32 (cvmFnSlot c)))
    cgCtorCalls cs

/-- The prologue of `cg_function` for a function without parameters, up to the allocas. -/
def cgPrologue (isEntry : Bool) (ctorIdx : List Nat) : Emit Unit := do
  let cg ← Exec.get
  cgSpSub (BitVec.ofNat 32 cg.frameBytes)
  cgEmit (encI16 .movi cg.zeroReg 0)
  Exec.when (isEntry = true ∧ ctorIdx.length > 0) (cgCtorCalls ctorIdx)

end CronoVM
