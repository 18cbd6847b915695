import CronoVM.Lemmas.Advance

/-!
# Positions

How the machine runs a finished function, in the positions its code has before relaxation: `GoesVia` says that the function goes on from
one position to another. Straight code, branches and local skips have their rules.
-/

namespace CronoVM

open Checked Ir

variable {κ W : Type}

/-- The function `cg` is finished, and its code is that of the image. -/
structure InImage (cg cg₂ : CgFn) (img : Image κ) : Prop where
  wf : cg.BranchesWf
  finished : cgFinish cg = .ok cg₂
  code : img.code.length = img.codeCount.toNat
  hasAt : HasAt img.code 0 cg₂.code

/-- The function goes on from position `p` to position `q`; it reads nothing of memory but the `n` bytes from `a` on. -/
def GoesVia (cg : CgFn) (img : Image κ) (host : Host κ W) (a n p : Nat) (f : Frame κ W) (q : Nat) (f' : Frame κ W) : Prop :=
  Exec.ReachesVia (ReadsWithin img a n) (Threaded.step img host) { f with pc := BitVec.ofNat 32 (finalPlace cg p) }
    { f' with pc := BitVec.ofNat 32 (finalPlace cg q) }

/-- The function goes on from position `p` to position `q`. -/
def Goes (cg : CgFn) (img : Image κ) (host : Host κ W) (p : Nat) (f : Frame κ W) (q : Nat) (f' : Frame κ W) : Prop :=
  Exec.Reaches (Threaded.step img host) { f with pc := BitVec.ofNat 32 (finalPlace cg p) } { f' with pc := BitVec.ofNat 32 (finalPlace cg q) }

section rules

variable {cg cg₂ : CgFn} {img : Image κ} {host : Host κ W} {a n p q r : Nat} {f g h : Frame κ W} {ws : List Word}

theorem GoesVia.refl : GoesVia cg img host a n p f p f := Exec.ReachesVia.refl

theorem GoesVia.trans (hfg : GoesVia cg img host a n p f q g) (hgh : GoesVia cg img host a n q g r h) :
    GoesVia cg img host a n p f r h :=
  Exec.ReachesVia.trans hfg hgh

theorem GoesVia.goes (h : GoesVia cg img host a n p f q g) : Goes cg img host p f q g := Exec.ReachesVia.reaches h

theorem Goes.trans (hfg : Goes cg img host p f q g) (hgh : Goes cg img host q g r h) : Goes cg img host p f r h :=
  Exec.Reaches.trans hfg hgh

/-- Straight code stays together. -/
theorem Linked.hasAt_plain {ins : Nat → Bool} {final : List Word} (hl : Linked cg ins final) (hat : HasAt cg.code p ws)
    (hnone : ∀ fx ∈ cg.fixups, p ≤ fx.instIndex → fx.instIndex < p + ws.length → False) :
    HasAt final (placeOf ins p) ws ∧ placeOf ins (p + ws.length) = placeOf ins p + ws.length := by
  have hins : ∀ x, p ≤ x → x < p + ws.length → ins x = false := by
    intro x hlo hhi
    rw [Bool.eq_false_iff]
    intro hw
    obtain ⟨fx, hfx, hpos, _⟩ := hl.widened x hw
    exact hnone fx hfx (hpos ▸ hlo) (hpos ▸ hhi)
  have hplace : ∀ k ≤ ws.length, placeOf ins (p + k) = placeOf ins p + k := by
    intro k hk
    have heq := placeOf_eq_add (Nat.le_add_right p k) fun x hlo hhi => hins x hlo (by omega)
    rwa [Nat.add_sub_cancel_left] at heq
  have hend := hat.length_le
  refine ⟨HasAt.of_getElem? ?_ fun k hk => ?_, hplace _ (Nat.le_refl _)⟩
  · have hmono : placeOf ins (p + ws.length) + (cg.code.length - (p + ws.length)) ≤ placeOf ins cg.code.length := placeOf_add_le hend
    rw [hplace _ (Nat.le_refl _)] at hmono
    rw [hl.length]
    omega
  · rw [← hplace k (Nat.le_of_lt hk), hl.plain (p + k) (by omega) ?_, hat.getElem? hk]
    rintro fx hfx hpos
    exact hnone fx hfx (by omega) (by omega)

variable (himg : InImage cg cg₂ img)
include himg

/-- Straight code of the function stands together in the image. -/
theorem InImage.plain (hat : HasAt cg.code p ws) (hnone : ∀ fx ∈ cg.fixups, p ≤ fx.instIndex → fx.instIndex < p + ws.length → False) :
    HasAt img.code (BitVec.ofNat 32 (finalPlace cg p)).toNat ws ∧
      BitVec.ofNat 32 (finalPlace cg (p + ws.length)) = BitVec.ofNat 32 (finalPlace cg p) + BitVec.ofNat 32 ws.length := by
  obtain ⟨hlinked, _⟩ := cgFinish_ok himg.wf himg.finished
  obtain ⟨hfinal, hplace⟩ := hlinked.hasAt_plain hat hnone
  have himgAt : HasAt img.code (finalPlace cg p) ws := by
    have h0 := himg.hasAt.trans hfinal
    rwa [Nat.zero_add] at h0
  have hlt := himgAt.length_le
  have hcount := img.codeCount.isLt
  have hcode := himg.code
  have hnat : (BitVec.ofNat 32 (finalPlace cg p)).toNat = finalPlace cg p := by
    rw [BitVec.toNat_ofNat, Nat.mod_eq_of_lt (by omega)]
  refine ⟨by rwa [hnat], ?_⟩
  rw [finalPlace, hplace, BitVec.ofNat_add]
  rfl

/-- Straight code. -/
theorem GoesVia.straight (hat : HasAt cg.code p ws) (hnone : ∀ fx ∈ cg.fixups, p ≤ fx.instIndex → fx.instIndex < p + ws.length → False)
    (hrun : RunsReading img host a n ws f g) : GoesVia cg img host a n p f (p + ws.length) g := by
  obtain ⟨himgAt, hq⟩ := himg.plain hat hnone
  unfold GoesVia
  rw [hq]
  exact hrun _ himgAt

/-- Straight code, whatever it reads. -/
theorem Goes.straight (hat : HasAt cg.code p ws) (hnone : ∀ fx ∈ cg.fixups, p ≤ fx.instIndex → fx.instIndex < p + ws.length → False)
    (hrun : RunsTo img host ws f g) : Goes cg img host p f (p + ws.length) g := by
  obtain ⟨himgAt, hq⟩ := himg.plain hat hnone
  unfold Goes
  rw [hq]
  exact hrun _ himgAt

/-- A branch that waits for its block. -/
theorem GoesVia.branch {fx : Fixup} (hfx : fx ∈ cg.fixups) : GoesVia cg img host a n fx.instIndex f (branchNext cg f fx) f := by
  obtain ⟨hlinked, _⟩ := cgFinish_ok himg.wf himg.finished
  exact hlinked.via_fixup host himg.code himg.hasAt himg.wf hfx

/-- A jump to the position a register has. -/
theorem GoesVia.indirect {ra : Byte} (hat : cg.code[p]? = some (encR .jmpr ra 0 0)) (hnone : ∀ fx ∈ cg.fixups, fx.instIndex ≠ p)
    (hq : q < cg.code.length) (hreg : f.regs ra = BitVec.ofNat 32 (finalPlace cg q)) : GoesVia cg img host a n p f q f := by
  obtain ⟨hlinked, _⟩ := cgFinish_ok himg.wf himg.finished
  obtain ⟨hp, _⟩ := List.getElem?_eq_some_iff.mp hat
  have hfinal : img.code[finalPlace cg p]? = some (encR .jmpr ra 0 0) := by
    refine Linked.image_at himg.hasAt ?_
    rw [finalPlace, hlinked.plain p hp hnone, hat]
  have hplace : finalPlace cg q < img.codeCount.toNat := by
    have hlt : finalPlace cg q < placeOf (widened cg (relaxedOf cg)) cg.code.length := placeOf_lt hq
    have hle := himg.hasAt.length_le
    rw [← hlinked.length] at hlt
    rw [← himg.code]
    omega
  have hin : f.regs ra < img.codeCount := by
    rw [hreg, BitVec.lt_def, BitVec.toNat_ofNat, Nat.mod_eq_of_lt (by omega)]
    exact hplace
  have hread : ReadsWithin img a n { f with pc := BitVec.ofNat 32 (finalPlace cg p) } :=
    readsWithin_of (by rwa [toNat_pc himg.code hfinal]) (instOp_encR .jmpr ra 0 0) (by decide)
  have hstep : Threaded.step img host { f with pc := BitVec.ofNat 32 (finalPlace cg p) } = .val () { f with pc := f.regs ra } :=
    step_jmpr himg.code hfinal hin
  rw [hreg] at hstep
  exact .step .refl hread hstep

/-- A conditional branch over the next `d` instructions. -/
theorem GoesVia.skip {op : Opcode} {ra rb : Byte} {d : Nat} (hop : op = .bne ∨ op = .beq) (hd : d ≤ 127)
    (hat : cg.code[p]? = some (encBr op ra rb (BitVec.ofInt 8 d))) (hend : p + 1 + d ≤ cg.code.length)
    (hnone : ∀ fx ∈ cg.fixups, p ≤ fx.instIndex → fx.instIndex < p + 1 + d → False) :
    GoesVia cg img host a n p f (if CondHolds op (f.regs ra) (f.regs rb) then p + 1 + d else p + 1) f := by
  obtain ⟨hlinked, _⟩ := cgFinish_ok himg.wf himg.finished
  have hins : ∀ x, p ≤ x → x < p + 1 + d → widened cg (relaxedOf cg) x = false := by
    intro x hlo hhi
    rw [Bool.eq_false_iff]
    intro hw
    obtain ⟨fx, hfx, hpos, _⟩ := hlinked.widened x hw
    exact hnone fx hfx (hpos ▸ hlo) (hpos ▸ hhi)
  have hfinal : img.code[finalPlace cg p]? = some (encBr op ra rb (BitVec.ofInt 8 d)) := by
    refine Linked.image_at himg.hasAt ?_
    rw [finalPlace, hlinked.plain p (by omega) ?_, hat]
    rintro fx hfx hpos
    exact hnone fx hfx (by omega) (by omega)
  have hnext : finalPlace cg (p + 1) = finalPlace cg p + 1 := by
    rw [finalPlace, placeOf_succ, hins p (Nat.le_refl _) (by omega), if_neg (by decide)]
    rfl
  have htarget : finalPlace cg (p + 1 + d) = finalPlace cg p + 1 + d := by
    have heq := placeOf_eq_add (show p ≤ p + 1 + d by omega) fun x hlo hhi => hins x hlo hhi
    rw [finalPlace, heq, finalPlace]
    omega
  have hvia : Exec.ReachesVia (ReadsWithin img a n) (Threaded.step img host) { f with pc := BitVec.ofNat 32 (finalPlace cg p) }
      { f with pc := BitVec.ofNat 32 (if CondHolds op (f.regs ra) (f.regs rb) then finalPlace cg p + 1 + d else finalPlace cg p + 1) } :=
    via_branch host himg.code hop hfinal (by omega) (by omega) (by push_cast; omega)
  unfold GoesVia
  rw [← htarget, ← hnext] at hvia
  rw [apply_ite (fun x => BitVec.ofNat 32 (finalPlace cg x))]
  rwa [apply_ite (BitVec.ofNat 32)] at hvia

end rules

end CronoVM
