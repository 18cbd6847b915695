import CronoVM.Lemmas.GlobalImage
import CronoVM.Lemmas.Results
import CronoVM.Lemmas.Alu
import CronoVM.Translator.Gep

/-!
# The sum of the indices

The folded part of a GEP and the register of the rest add up to what the indices add to the address.
-/

namespace CronoVM

open Checked Ir
open Globals (TargetData GepPath)

variable {κ W : Type}

/-! ## What the indices are -/

/-- The word of an index: a constant is extended with its sign. -/
def indexWord (cg : Cg) (f : Frame κ W) : Val → Word
  | .const (.int width bits) => BitVec.ofInt 32 (BitVec.ofNat width bits).toInt
  | v => operandWord cg f v

/-- The indices of an instruction have these values, where a value is a word. -/
inductive SameIndices (word : Val → Word) : {t : Globals.Ty} → GepPath t → GepIndices t → Prop where
  | nil {t : Globals.Ty} : SameIndices word (.nil : GepPath t) .nil
  | elem {n : Nat} {t : Globals.Ty} {ci : Int} {idx : Val} {path : GepPath t} {rest : GepIndices t} :
      word idx = BitVec.ofInt 32 ci → SameIndices word path rest → SameIndices word (.elem ci path : GepPath (.array n t)) (.elem idx rest)
  | field {p : Bool} {n : Nat} {fs : Fin n → Globals.Ty} {fi : Fin n} {path : GepPath (fs fi)} {rest : GepIndices (fs fi)} :
      SameIndices word path rest → SameIndices word (.field fi path : GepPath (.struct p n fs)) (.field fi rest)

/-- What a constant index adds to the folded part. -/
def constPart (stride : Nat) : Val → Int
  | .const (.int width bits) => (BitVec.ofNat width bits).toInt * stride
  | _ => 0

/-- The folded part of the indices from the second on. -/
def GepIndices.constPart (td : TargetData) : {t : Globals.Ty} → GepIndices t → Int
  | _, .nil => 0
  | _, .elem (t := t) idx rest => CronoVM.constPart (gepStride td t) idx + rest.constPart td
  | _, @GepIndices.field p n fs fi rest => td.offsetOfElement p n fs fi + rest.constPart td
  | _, .stop => 0

/-- The index is put into a register. -/
def Ir.Val.isDynamic : Val → Bool
  | .const (.int _ _) => false
  | _ => true

/-- The indices from the second on that are. -/
def GepIndices.dynamics : {t : Globals.Ty} → GepIndices t → List Val
  | _, .nil => []
  | _, .elem idx rest => [idx].filter Ir.Val.isDynamic ++ rest.dynamics
  | _, .field _ rest => rest.dynamics
  | _, .stop => []

/-- The registers of such indices, of their strides, the products and the sums. -/
def Cg.indexRegs (cg : Cg) (idxs : List Val) : Nat := (idxs.map fun v => cg.regsTaken v + 3).sum

/-- One of them is rejected. -/
def Cg.RejectsOne (cg : Cg) (vs : List Val) (e : CgError) : Prop := ∃ v ∈ vs, cg.Rejects v e

section dynamics

variable {cg cg' : Cg} {us vs : List Val} {e : CgError}

theorem Cg.indexRegs_append (cg : Cg) (us vs : List Val) : cg.indexRegs (us ++ vs) = cg.indexRegs us + cg.indexRegs vs := by
  simp only [Cg.indexRegs, List.map_append, List.sum_append]

theorem Cg.SameTables.indexRegs (h : cg.SameTables cg') (vs : List Val) : cg'.indexRegs vs = cg.indexRegs vs := by
  unfold Cg.indexRegs
  congr 1
  exact List.map_congr_left fun v _ => by rw [h.regsTaken]

theorem Cg.RejectsOne.append_left (h : cg.RejectsOne us e) : cg.RejectsOne (us ++ vs) e := by
  obtain ⟨v, hv, hrej⟩ := h
  exact ⟨v, List.mem_append_left vs hv, hrej⟩

theorem Cg.RejectsOne.append_right (h : cg.RejectsOne vs e) : cg.RejectsOne (us ++ vs) e := by
  obtain ⟨v, hv, hrej⟩ := h
  exact ⟨v, List.mem_append_right us hv, hrej⟩

theorem Cg.SameTables.rejectsOne (h : cg.SameTables cg') (hrej : cg'.RejectsOne vs e) : cg.RejectsOne vs e := by
  obtain ⟨v, hv, hrej⟩ := hrej
  exact ⟨v, hv, h.rejects hrej⟩

end dynamics

section sum

variable {img : Image κ} (host : Host κ W) {cg cg₁ : Cg} {f f₁ : Frame κ W} {total : Word} {s : GepSum}

/-- The sum so far is a word. -/
def SumAt (cg : Cg) (f : Frame κ W) (total : Word) (s : GepSum) : Prop :=
  match s.dynReg with
  | none => BitVec.ofInt 32 s.constOff = total
  | some r => Held r cg.nextReg ∧ BitVec.ofInt 32 s.constOff + f.regs r = total

theorem SumAt.after (h : SumAt cg f total s) (hprep : Prepares img host cg f cg₁ f₁) : SumAt cg₁ f₁ total s := by
  unfold SumAt at h ⊢
  cases hdyn : s.dynReg with
  | none =>
    rw [hdyn] at h
    exact h
  | some r =>
    rw [hdyn] at h
    exact ⟨hprep.held h.1, by rw [hprep.regs h.1]; exact h.2⟩

/-- A constant added to the folded part. -/
theorem SumAt.add_const (h : SumAt cg f total s) (k : Int) : SumAt cg f (total + BitVec.ofInt 32 k) { s with constOff := s.constOff + k } := by
  unfold SumAt at h ⊢
  cases hdyn : s.dynReg with
  | none =>
    rw [hdyn] at h
    dsimp only
    rw [BitVec.ofInt_add, h]
  | some r =>
    rw [hdyn] at h
    refine ⟨h.1, ?_⟩
    dsimp only
    rw [BitVec.ofInt_add, ← h.2]
    ac_rfl

theorem indexWord_after (hprep : Prepares img host cg f cg₁ f₁) (hok : cg.Ok) (v : Val) : indexWord cg₁ f₁ v = indexWord cg f v := by
  unfold indexWord
  split
  · rfl
  · exact hprep.operandWord_eq hok v

/-- A product with a stride that was cut to 32 bits. -/
theorem ofInt_mul_stride (ci : Int) (n : Nat) : BitVec.ofInt 32 ci * BitVec.ofNat 32 (n % 2 ^ 32) = BitVec.ofInt 32 (ci * n) := by
  have hstride : BitVec.ofNat 32 (n % 2 ^ 32) = BitVec.ofInt 32 n := by
    rw [BitVec.ofInt_natCast]
    apply BitVec.eq_of_toNat_eq
    rw [BitVec.toNat_ofNat, BitVec.toNat_ofNat, Nat.mod_mod]
  rw [hstride, ← BitVec.ofInt_mul]

/-- What follows an operand in a register, and the registers it took. -/
theorem wp_taken {α : Type} {m : Emit Byte} {k : Byte → Emit α} {v : Word} {n : Nat} {Why : CgError → Prop} {Q : α → Cg → Prop}
    {E E' : CgError → Cg → Prop} (h : Exec.wp m (GivesReg img host cg f v) E' cg) (ht : Takes m n Why cg)
    (hE : ∀ e cg', cg.Stops Why n e cg' → E e cg')
    (hk : ∀ r cg₁ f₁, Prepares img host cg f cg₁ f₁ → f₁.regs r = v → Held r cg₁.nextReg → cg₁.nextReg ≤ cg.nextReg + n →
      Exec.wp (k r) Q E cg₁) : Exec.wp (m >>= k) Q E cg := by
  rw [Exec.wp_bind]
  refine Exec.wp_mono ?_ (fun e cg' he => hE e cg' he.2) (Exec.wp_and h ht)
  rintro r cg₁ ⟨hgives, -, hnext⟩
  obtain ⟨f₁, hprep, hval, hheld⟩ := hgives.prepares
  exact hk r cg₁ f₁ hprep hval hheld hnext

variable (hcode : img.code.length = img.codeCount.toNat)
include hcode

/-- A function of two registers in a fresh one, and what follows. -/
theorem wp_aluThen {α : Type} {op : Opcode} {g : Word → Word → Word} (hg : aluOp op = some g) (hpool : cg.freeList = [])
    {a b : Byte} {k : Byte → Emit α} {Q : α → Cg → Prop} {E : CgError → Cg → Prop} (hE : cg.Lacks 1 → E .scratchExhausted cg)
    (hk : ∀ r cg₁ f₁, Prepares img host cg f cg₁ f₁ → f₁.regs r = g (f.regs a) (f.regs b) → Held r cg₁.nextReg →
      cg₁.nextReg = cg.nextReg + 1 → Exec.wp (k r) Q E cg₁) :
    Exec.wp (do
      let r ← cgAllocReg
      cgEmit (encR op r a b)
      k r) Q E cg := by
  rw [Exec.wp_bind, wp_cgAllocReg hpool]
  refine ⟨fun hfull => hE (Nat.add_lt_add_right hfull 1), fun hroom => ?_⟩
  rw [Exec.wp_bind, wp_cgEmit]
  have hrun := runs_alu (f := f) host hcode hg (BitVec.ofNat 8 cg.nextReg) a b
  obtain ⟨f₁, hprep, hval, hheld⟩ := (GivesReg.of_runs hroom hrun).prepares
  exact hk _ _ f₁ hprep hval hheld rfl

/-- An index with its stride. -/
theorem wp_cgGepStep (hok : cg.Ok) (hin : InFrame cg img f) (hsum : SumAt cg f total s) (stride : Nat) (v : Val) :
    Exec.wp (cgGepStep stride v s)
      (fun s' cg' => ∃ f', Prepares img host cg f cg' f' ∧ SumAt cg' f' (total + indexWord cg f v * BitVec.ofNat 32 stride) s' ∧
        s'.constOff = s.constOff + constPart stride v ∧ cg'.nextReg ≤ cg.nextReg + cg.indexRegs ([v].filter Ir.Val.isDynamic))
      (cg.Stops (cg.RejectsOne ([v].filter Ir.Val.isDynamic)) (cg.indexRegs ([v].filter Ir.Val.isDynamic))) cg := by
  have hdynamic : (∀ width bits, v ≠ .const (.int width bits)) → Exec.wp (cgGepStep stride v s)
      (fun s' cg' => ∃ f', Prepares img host cg f cg' f' ∧ SumAt cg' f' (total + indexWord cg f v * BitVec.ofNat 32 stride) s' ∧
        s'.constOff = s.constOff + constPart stride v ∧ cg'.nextReg ≤ cg.nextReg + cg.indexRegs ([v].filter Ir.Val.isDynamic))
      (cg.Stops (cg.RejectsOne ([v].filter Ir.Val.isDynamic)) (cg.indexRegs ([v].filter Ir.Val.isDynamic))) cg := by
    intro hv
    have hfilter : [v].filter Ir.Val.isDynamic = [v] := by
      refine List.filter_eq_self.mpr fun u hu => ?_
      rw [List.mem_singleton.mp hu]
      unfold Ir.Val.isDynamic
      split
      · exact absurd rfl (hv _ _)
      · rfl
    have hregs : cg.indexRegs [v] = cg.regsTaken v + 3 := List.sum_singleton
    rw [hfilter, hregs]
    have hword : indexWord cg f v = operandWord cg f v := by
      unfold indexWord
      split
      · exact absurd rfl (hv _ _)
      · rfl
    have hpart : constPart stride v = 0 := by
      unfold constPart
      split
      · exact absurd rfl (hv _ _)
      · rfl
    have hstep : cgGepStep stride v s = (do
        let idxR ← cgRegFor v
        let strideR ← cgConstReg (BitVec.ofNat 32 stride)
        let stepR ← cgAllocReg
        cgEmit (encR .mul stepR idxR strideR)
        match s.dynReg with
        | none => pure { s with dynReg := some stepR }
        | some dynReg => do
          let sumR ← cgAllocReg
          cgEmit (encR .add sumR dynReg stepR)
          pure { s with dynReg := some sumR }) := by
      unfold cgGepStep
      split
      · exact absurd rfl (hv _ _)
      · rfl
    rw [hstep, hword, hpart, Int.add_zero]
    have hwhy : ∀ {e}, cg.Rejects v e → cg.RejectsOne [v] e := fun hrej => ⟨v, List.mem_singleton_self v, hrej⟩
    refine wp_taken host (wp_cgRegFor host hcode hok hin v) (takes_cgRegFor hok.pool v) (fun e cg' he => he.mono hwhy (by omega))
      fun idxR cg₁ f₁ hprep₁ hidx hheld₁ hnext₁ => ?_
    have hok₁ := hprep₁.ok hok
    refine wp_taken host (wp_cgConstReg (f := f₁) host hcode hok₁.pool _) (takes_cgConstReg hok₁.pool _)
      (fun e cg' he => he.before hnext₁ False.elim (by omega)) fun strideR cg₂ f₂ hprep₂ hstride hheld₂ hnext₂ => ?_
    have hok₂ := hprep₂.ok hok₁
    refine wp_aluThen (f := f₂) host hcode (rfl : aluOp .mul = some _) hok₂.pool (fun hfull => Or.inr ⟨rfl, ?_⟩)
      fun stepR cg₃ f₃ hprep₃ hmul hheld₃ hnext₃ => ?_
    · exact ((hfull.before hnext₂).before hnext₁).mono (by omega)
    have hok₃ := hprep₃.ok hok₂
    have hprep := (hprep₁.trans hcode hprep₂).trans hcode hprep₃
    have hstepWord : f₃.regs stepR = operandWord cg f v * BitVec.ofNat 32 stride := by
      rw [hmul, hstride, hprep₂.regs hheld₁, hidx]
    have hsum₃ := hsum.after host hprep
    unfold SumAt at hsum₃
    cases hdyn : s.dynReg with
    | none =>
      rw [hdyn] at hsum₃
      refine ⟨f₃, hprep, ⟨hheld₃, ?_⟩, rfl, by omega⟩
      rw [hstepWord, hsum₃]
    | some dynReg =>
      rw [hdyn] at hsum₃
      dsimp only
      refine wp_aluThen (f := f₃) host hcode (rfl : aluOp .add = some _) hok₃.pool (fun hfull => Or.inr ⟨rfl, ?_⟩)
        fun sumR cg₄ f₄ hprep₄ hadd hheld₄ hnext₄ => ?_
      · exact (((hfull.before (Nat.le_of_eq hnext₃)).before hnext₂).before hnext₁).mono (by omega)
      refine ⟨f₄, hprep.trans hcode hprep₄, ⟨hheld₄, ?_⟩, rfl, by omega⟩
      rw [hadd, hstepWord, ← hsum₃.2]
      ac_rfl
  cases v with
  | loc l => exact hdynamic fun _ _ h => by cases h
  | block id => exact hdynamic fun _ _ h => by cases h
  | const c =>
    cases c with
    | int width bits =>
      refine ⟨f, .refl hok.next_le, ?_, rfl, Nat.le_add_right _ _⟩
      have hadd := hsum.add_const ((BitVec.ofNat width bits).toInt * stride)
      have hword : indexWord cg f (.const (.int width bits)) * BitVec.ofNat 32 stride =
          BitVec.ofInt 32 ((BitVec.ofNat width bits).toInt * stride) := by
        rw [BitVec.ofInt_mul, BitVec.ofInt_natCast]
        rfl
      rw [hword]
      exact hadd
    | _ => exact hdynamic fun _ _ h => by cases h

/-- The loop over the indices from the second on. -/
theorem wp_cgGepWalk (td : TargetData) (hok : cg.Ok) (hin : InFrame cg img f) (hsum : SumAt cg f total s) {word : Val → Word}
    (hwords : ∀ v, indexWord cg f v = word v) {t : Globals.Ty} {path : GepPath t} {idx : GepIndices t} (hsame : SameIndices word path idx)
    {off : Int} (hoff : path.offset td = some off) :
    Exec.wp (cgGepWalk td idx s)
      (fun s' cg' => ∃ f', Prepares img host cg f cg' f' ∧ SumAt cg' f' (total + BitVec.ofInt 32 off) s' ∧
        s'.constOff = s.constOff + idx.constPart td ∧ cg'.nextReg ≤ cg.nextReg + cg.indexRegs idx.dynamics)
      (cg.Stops (cg.RejectsOne idx.dynamics) (cg.indexRegs idx.dynamics)) cg := by
  induction hsame generalizing cg f total s off with
  | nil =>
    have hzero : off = 0 := (Option.some.inj hoff).symm
    rw [cgGepWalk, hzero]
    refine ⟨f, .refl hok.next_le, ?_, (Int.add_zero _).symm, Nat.le_add_right _ _⟩
    rw [show BitVec.ofInt 32 0 = 0#32 from rfl, BitVec.add_zero]
    exact hsum
  | @elem n t ci idx path rest hword hrest ih =>
    obtain ⟨off', hoff', rfl⟩ := Option.map_eq_some_iff.mp hoff
    have hregs := cg.indexRegs_append ([idx].filter Ir.Val.isDynamic) rest.dynamics
    rw [cgGepWalk, Exec.wp_bind, GepIndices.dynamics]
    refine Exec.wp_mono ?_ (fun _ _ he => he.mono (·.append_left) (by omega)) (wp_cgGepStep host hcode hok hin hsum (gepStride td t) idx)
    rintro s₁ cg₁ ⟨f₁, hprep₁, hsum₁, hconst₁, hnext₁⟩
    have htables := Cg.SameTables.of_emitted hprep₁.emitted
    have hregs₁ := htables.indexRegs rest.dynamics
    refine Exec.wp_mono ?_ (fun _ _ he => he.before hnext₁ (fun hrej => (htables.rejectsOne hrej).append_right) (by omega))
      (ih (hprep₁.ok hok) (hprep₁.inFrame hin) hsum₁ (fun v => (indexWord_after host hprep₁ hok v).trans (hwords v)) hoff')
    rintro s₂ cg₂ ⟨f₂, hprep₂, hsum₂, hconst₂, hnext₂⟩
    refine ⟨f₂, hprep₁.trans hcode hprep₂, ?_, ?_, by omega⟩
    · have htotal : total + indexWord cg f idx * BitVec.ofNat 32 (gepStride td t) + BitVec.ofInt 32 off' =
          total + BitVec.ofInt 32 (ci * td.abiSize t + off') := by
        rw [hwords, hword, gepStride, ofInt_mul_stride, BitVec.ofInt_add, BitVec.add_assoc]
      rw [← htotal]
      exact hsum₂
    · rw [hconst₂, hconst₁, GepIndices.constPart, Int.add_assoc]
  | @field p n fs fi path rest hrest ih =>
    obtain ⟨off', hoff', rfl⟩ := Option.map_eq_some_iff.mp hoff
    rw [cgGepWalk]
    refine Exec.wp_mono ?_ (fun _ _ he => he) (ih hok hin (hsum.add_const (td.offsetOfElement p n fs fi)) hwords hoff')
    rintro s₁ cg₁ ⟨f₁, hprep₁, hsum₁, hconst₁, hnext₁⟩
    refine ⟨f₁, hprep₁, ?_, ?_, hnext₁⟩
    · rw [BitVec.ofInt_add, ← BitVec.add_assoc]
      exact hsum₁
    · rw [hconst₁, GepIndices.constPart]
      exact Int.add_assoc _ _ _

end sum

end CronoVM
