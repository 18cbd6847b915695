import CronoVM.Lemmas.Narrow
import CronoVM.Theorems.Safety

/-!
# Narrow arithmetic is right

Straight-line sequences of integer instructions compute the results of the IR modulo the width of each value, whatever the registers
have above it.
-/

namespace CronoVM

open Checked Ir NarrowInt

/-- The code of a sequence of integer instructions leaves in the home of each live value the bits it has in the IR, where it has any; a
value of 32 bits is the whole word. Only homes of results and scratch registers change. -/
theorem narrow_arithmetic {κ W : Type} (img : Image κ) (host : Host κ W) (hcode : img.code.length = img.codeCount.toNat) {cg cg' : Cg}
    (hok : cg.Ok) {f : Frame κ W} (hin : InFrame cg img f) {fn : Func} {is : List Inst} (hnarrow : ∀ i ∈ is, i.IsNarrow fn)
    (htyped : ∀ i ∈ is, fn.typeOf (.loc i.result) = i.ty) (live : Local → Prop) (hapart : ResultsApart cg live is) {env env' : Env}
    (hstart : ∀ l, ReadBy is l ∨ live l → Holds fn cg f env l) (hrun : cgScalarInsts fn is cg = .val () cg')
    (heval : evalInsts fn is env = some env') : ∃ ws f', cg'.code = cg.code ++ ws ∧ RunsTo img host ws f f' ∧
      f.ChangesOnly cg cg.ssaRegHigh (ResultLoc cg is) f' ∧ ∀ l x w, live l → env' l = some x → fn.typeOf (.loc l) = .int w → w ≤ 32 →
        (operandWord cg' f' (.loc l)).setWidth w = BitVec.ofNat w x ∧ (w = 32 → operandWord cg' f' (.loc l) = BitVec.ofNat 32 x) := by
  obtain ⟨f', ⟨ws, n, hcg', hruns⟩, hch, hlive⟩ := narrow_run host hcode hok hin hnarrow htyped hapart hstart hrun heval
  refine ⟨ws, f', by rw [hcg'], hruns, hch, fun l x w hl hx hty hw => ?_⟩
  have hbits := hlive l hl x w hx hty hw
  refine ⟨hbits, ?_⟩
  rintro rfl
  rwa [BitVec.setWidth_eq] at hbits

/-- The quotient of a sum of two bytes and 3, as a word. -/
def sampleNarrowInsts : List Inst := [
  { id := 1, op := .add, ty := .int 8, operands := [.loc (.arg 0), .loc (.arg 1)] },
  { id := 2, op := .udiv, ty := .int 8, operands := [.loc (.inst 1), .const (.int 8 3)] },
  { id := 3, op := .zext, ty := .int 32, operands := [.loc (.inst 2)] }]

def sampleNarrowFn : Func where
  name := "third"
  params := [.int 8, .int 8]
  vararg := false
  blocks := [{ id := 0, insts := sampleNarrowInsts }]

/-- The bytes are in R0 and R1, the sum in R2, the quotient in slot 0 and the word in R3. -/
def sampleNarrowCg : Cg where
  code := []
  map := [(.arg 0, { reg := 0 }), (.arg 1, { reg := 1 }), (.inst 1, { reg := 2 }), (.inst 2, { reg := 0, valSlot := some 0 }),
    (.inst 3, { reg := 3 })]
  nextReg := 4
  freeList := []
  zeroReg := cgRegZero
  allocaBytes := 0
  spillBytes := 0
  valSpillCount := 1
  frameBytes := 4
  ssaRegHigh := 4
  globals := []
  funcs := []

/-- The code generator after them. -/
def sampleNarrowDone : Cg :=
  match cgScalarInsts sampleNarrowFn sampleNarrowInsts sampleNarrowCg with
  | .val _ cg => cg
  | _ => sampleNarrowCg

def sampleNarrowImage : Image Unit := codeImage sampleNarrowDone.code

/-- The bytes 16 and 245, the first with ones above it. -/
def sampleNarrowFrame : Frame Unit Unit where
  regs r := if r = 0 then 0xFFFFFF10 else if r = 1 then 0xF5 else 0
  heap := sampleNarrowImage.heap
  importFns := []
  world := ()
  pc := 0

def sampleNarrowEnv : Env
  | .arg 0 => some 16
  | .arg 1 => some 245
  | _ => none

/-- The results are in registers of their own. -/
theorem sampleNarrow_apart : ResultsApart sampleNarrowCg (· = .inst 3) sampleNarrowInsts := by
  refine ⟨?_, ?_, ?_, trivial⟩
  · rintro l (⟨i, hi, hl⟩ | rfl) hne home home' hhome hhome'
    · simp only [List.mem_cons, List.not_mem_nil, or_false] at hi
      obtain rfl := Option.some.inj hhome'
      rcases hi with rfl | rfl
      · simp only [List.mem_cons, Val.loc.injEq, reduceCtorEq, List.not_mem_nil, or_false] at hl
        exact absurd hl hne
      · simp only [List.mem_cons, Val.loc.injEq, List.not_mem_nil, or_false] at hl
        subst hl
        obtain rfl := Option.some.inj hhome
        decide
    · obtain rfl := Option.some.inj hhome
      obtain rfl := Option.some.inj hhome'
      decide
  · rintro l (⟨i, hi, hl⟩ | rfl) hne home home' hhome hhome'
    · obtain rfl := List.mem_singleton.mp hi
      exact absurd (Val.loc.inj (List.mem_singleton.mp hl)) hne
    · obtain rfl := Option.some.inj hhome
      obtain rfl := Option.some.inj hhome'
      decide
  · rintro l (⟨i, hi, _⟩ | rfl) hne
    · exact absurd hi List.not_mem_nil
    · exact absurd rfl hne

/-- The low bits of R0 and R1 are the bytes. -/
theorem sampleNarrow_holds (l : Local) : Holds sampleNarrowFn sampleNarrowCg sampleNarrowFrame sampleNarrowEnv l := by
  intro x w hx hty hw
  match l, hx with
  | .arg 0, rfl =>
    obtain rfl : 8 = w := Ty.int.inj hty
    rfl
  | .arg 1, rfl =>
    obtain rfl : 8 = w := Ty.int.inj hty
    rfl

/-- 16 + 245 is 5 as a byte, and a third of it is 1, whatever is above the byte. -/
theorem narrow_arithmetic_sampleNarrow : ∃ f', RunsTo sampleNarrowImage quietHost sampleNarrowDone.code sampleNarrowFrame f' ∧
    operandWord sampleNarrowDone f' (.loc (.inst 3)) = 1 := by
  have hok : sampleNarrowCg.Ok := .of_map rfl rfl (by decide) (by decide) (by decide) (by decide)
  have hrun : cgScalarInsts sampleNarrowFn sampleNarrowInsts sampleNarrowCg = .val () sampleNarrowDone := rfl
  have hnarrow : ∀ i ∈ sampleNarrowInsts, i.IsNarrow sampleNarrowFn := by
    intro i hi
    simp only [sampleNarrowInsts, List.mem_cons, List.not_mem_nil, or_false] at hi
    rcases hi with rfl | rfl | rfl
    · exact .binary .add 8 rfl (by decide) (by decide) nofun rfl rfl rfl
    · exact .binary .udiv 8 rfl (by decide) (by decide) nofun rfl rfl rfl
    · exact .zext 8 32 rfl (by decide) (by decide) (by decide) rfl rfl
  obtain ⟨ws, f', hcode, hruns, _, hlive⟩ := narrow_arithmetic sampleNarrowImage quietHost rfl hok (f := sampleNarrowFrame)
    ⟨rfl, by decide⟩ hnarrow (by decide) (· = .inst 3) sampleNarrow_apart (fun l _ => sampleNarrow_holds l) hrun rfl
  rw [show ws = sampleNarrowDone.code from hcode.symm] at hruns
  exact ⟨f', hruns, (hlive (.inst 3) 1 32 rfl rfl rfl (by decide)).2 rfl⟩

end CronoVM
