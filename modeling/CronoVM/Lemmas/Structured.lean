import CronoVM.Lemmas.Jumps

/-!
# Conditionals and loops

The translator writes small conditionals and loops with displacements it knows. They run as straight-line code does: through to the word
behind them, in a number of steps that the turns bound.
-/

namespace CronoVM

open Checked Vm

variable {κ W : Type} {img : Image κ} {host : Host κ W} {f f₁ g : Frame κ W} {ws us : List Word} {c z : Byte}

/-! ## Code -/

/-- Words that are skipped if two registers are equal. -/
def skipIfEq (c z : Byte) (ws : List Word) : List Word := encBr .beq c z (BitVec.ofInt 8 ws.length) :: ws

/-- `us` if two registers are equal, else `ws`. -/
def ifEq (c z : Byte) (ws us : List Word) : List Word :=
  skipIfEq c z (ws ++ [encI24 .jmp (BitVec.ofInt 32 us.length)]) ++ us

/-- `ws` as long as two registers are different. -/
def untilEq (c z : Byte) (ws : List Word) : List Word :=
  skipIfEq c z (ws ++ [encI24 .jmp (BitVec.ofInt 32 (-(ws.length + 2)))])

/-- Words that are skipped if two registers are different. -/
def skipIfNe (c z : Byte) (ws : List Word) : List Word := encBr .bne c z (BitVec.ofInt 8 ws.length) :: ws

/-- `pre`, then out of the loop behind `us` if two registers are different, else `ws` and back. -/
def breakIfNe (c z : Byte) (pre ws us : List Word) : List Word :=
  pre ++ skipIfNe c z (ws ++ [encI24 .jmp (BitVec.ofInt 32 (-(pre.length + 1 + (ws.length + 1))))] ++ us)

/-! ## Runs -/

/-- A run that stands at a place, with its pc as a number. -/
theorem RunsTo.at (h : RunsTo img host ws f g) {pc : Nat} (hat : HasAt img.code pc ws) (hcode : img.code.length = img.codeCount.toNat) :
    Exec.Reaches (Threaded.step img host) { f with pc := BitVec.ofNat 32 pc } { g with pc := BitVec.ofNat 32 (pc + ws.length) } := by
  have hend := hat.length_le
  have hlt := img.codeCount.isLt
  have hpc : (BitVec.ofNat 32 pc).toNat = pc := by
    rw [BitVec.toNat_ofNat]
    exact Nat.mod_eq_of_lt (by omega)
  rw [BitVec.ofNat_add]
  exact h _ (by rwa [hpc])

/-- A run is told by where it is from any place. -/
theorem RunsTo.of_at (h : ∀ pc : Nat, HasAt img.code pc ws →
    Exec.Reaches (Threaded.step img host) { f with pc := BitVec.ofNat 32 pc } { g with pc := BitVec.ofNat 32 (pc + ws.length) }) :
    RunsTo img host ws f g := by
  intro pc hat
  have hpc : BitVec.ofNat 32 pc.toNat = pc := by rw [BitVec.ofNat_toNat, BitVec.setWidth_eq]
  have hrun := h pc.toNat hat
  rwa [BitVec.ofNat_add, hpc] at hrun

section runs

variable (hcode : img.code.length = img.codeCount.toNat)
include hcode

theorem runs_skipIfNe (hlen : ws.length ≤ 127) (hrun : f.regs c = f.regs z → RunsTo img host ws f g) (hskip : f.regs c ≠ f.regs z → f = g) :
    RunsTo img host (skipIfNe c z ws) f g := by
  refine .of_at fun pc hat => ?_
  have hbne : Threaded.step img host { f with pc := BitVec.ofNat 32 pc } =
      .val () { f with pc := BitVec.ofNat 32 (if f.regs c ≠ f.regs z then pc + 1 + ws.length else pc + 1) } :=
    step_bne hcode hat.head (by omega) (by omega) (by omega)
  have hlen' : pc + (skipIfNe c z ws).length = pc + 1 + ws.length := by
    rw [skipIfNe, List.length_cons]
    omega
  rw [hlen']
  by_cases heq : f.regs c = f.regs z
  · rw [if_neg (not_not_intro heq)] at hbne
    exact (Exec.Reaches.step .refl hbne).trans ((hrun heq).at hat.tail hcode)
  · rw [if_pos heq] at hbne
    obtain rfl := hskip heq
    exact .step .refl hbne

/-- One of two pieces of code. -/
theorem runs_ifEq (hlen : ws.length ≤ 126) (hlen' : us.length ≤ 8388607) (hws : f.regs c ≠ f.regs z → RunsTo img host ws f g)
    (hus : f.regs c = f.regs z → RunsTo img host us f g) : RunsTo img host (ifEq c z ws us) f g := by
  refine .of_at fun pc hat => ?_
  have hskip : (ws ++ [encI24 .jmp (BitVec.ofInt 32 us.length)]).length = ws.length + 1 := List.length_append
  have hbeq : Threaded.step img host { f with pc := BitVec.ofNat 32 pc } =
      .val () { f with pc := BitVec.ofNat 32 (if f.regs c = f.regs z then pc + 1 + (ws.length + 1) else pc + 1) } :=
    step_beq hcode hat.left.head (by omega) (by omega) (by omega)
  have hall : pc + (ifEq c z ws us).length = pc + 1 + (ws.length + 1) + us.length := by
    rw [ifEq, skipIfEq, List.length_append, List.length_cons, hskip]
    omega
  have hright : HasAt img.code (pc + 1 + (ws.length + 1)) us := by
    have hafter := hat.right
    rwa [skipIfEq, List.length_cons, hskip, Nat.add_comm (ws.length + 1) 1, ← Nat.add_assoc] at hafter
  rw [hall]
  by_cases heq : f.regs c = f.regs z
  · rw [if_pos heq] at hbeq
    exact (Exec.Reaches.step .refl hbeq).trans ((hus heq).at hright hcode)
  · rw [if_neg heq] at hbeq
    have hbody := hat.left.tail
    have hjmp : Threaded.step img host { g with pc := BitVec.ofNat 32 (pc + 1 + ws.length) } =
        .val () { g with pc := BitVec.ofNat 32 (pc + 1 + (ws.length + 1) + us.length) } :=
      step_jmp hcode hbody.right.head (by omega) (by omega) (by omega)
    exact (Exec.Reaches.step .refl hbeq).trans (((hws heq).at hbody.left hcode).step hjmp)

end runs

/-! ## Runs with a bound -/

/-- The machine runs through `ws` in at most `n` steps, wherever it stands in the code. -/
def RunsIn (img : Image κ) (host : Host κ W) (n : Nat) (ws : List Word) (f f' : Frame κ W) : Prop :=
  ∀ pc : Word, HasAt img.code pc.toNat ws →
    Exec.Within (Threaded.step img host) n { f with pc := pc } { f' with pc := pc + BitVec.ofNat 32 ws.length }

namespace RunsIn

variable {m n : Nat}

theorem nil : RunsIn img host 0 [] f f := fun pc _ => by
  have hpc : pc + BitVec.ofNat 32 ([] : List Word).length = pc := BitVec.add_zero pc
  rw [hpc]
  exact .refl 0 _

theorem of_steps {w : Word} (h : Steps img host w f g) : RunsIn img host 1 [w] f g := fun pc hat => .one (h pc hat)

theorem mono (h : RunsIn img host m ws f g) (hle : m ≤ n) : RunsIn img host n ws f g := fun pc hat => (h pc hat).mono hle

theorem runsTo (h : RunsIn img host n ws f g) : RunsTo img host ws f g := fun pc hat => (h pc hat).reaches

/-- One run after the other. -/
theorem append (hcode : img.code.length = img.codeCount.toNat) (hws : RunsIn img host m ws f f₁) (hus : RunsIn img host n us f₁ g) :
    RunsIn img host (m + n) (ws ++ us) f g := by
  intro pc hat
  have hend := hat.left.length_le
  have hlt := img.codeCount.isLt
  have hpc : (pc + BitVec.ofNat 32 ws.length).toNat = pc.toNat + ws.length := by
    rw [BitVec.toNat_add, BitVec.toNat_ofNat]
    omega
  have hsum : pc + BitVec.ofNat 32 (ws ++ us).length = pc + BitVec.ofNat 32 ws.length + BitVec.ofNat 32 us.length := by
    rw [List.length_append, BitVec.ofNat_add, BitVec.add_assoc]
  rw [hsum]
  exact (hws pc hat.left).trans (hus _ (by rw [hpc]; exact hat.right))

/-- A run that stands at a place, with its pc as a number. -/
theorem atPc (h : RunsIn img host n ws f g) {pc : Nat} (hat : HasAt img.code pc ws) (hcode : img.code.length = img.codeCount.toNat) :
    Exec.Within (Threaded.step img host) n { f with pc := BitVec.ofNat 32 pc } { g with pc := BitVec.ofNat 32 (pc + ws.length) } := by
  have hend := hat.length_le
  have hlt := img.codeCount.isLt
  have hpc : (BitVec.ofNat 32 pc).toNat = pc := by
    rw [BitVec.toNat_ofNat]
    exact Nat.mod_eq_of_lt (by omega)
  rw [BitVec.ofNat_add]
  exact h _ (by rwa [hpc])

/-- A run is told by where it is from any place. -/
theorem of_at (h : ∀ pc : Nat, HasAt img.code pc ws →
    Exec.Within (Threaded.step img host) n { f with pc := BitVec.ofNat 32 pc } { g with pc := BitVec.ofNat 32 (pc + ws.length) }) :
    RunsIn img host n ws f g := by
  intro pc hat
  have hpc : BitVec.ofNat 32 pc.toNat = pc := by rw [BitVec.ofNat_toNat, BitVec.setWidth_eq]
  have hrun := h pc.toNat hat
  rwa [BitVec.ofNat_add, hpc] at hrun

end RunsIn

/-- The turns of a loop: as long as two registers are different, `ws` is run, in at most `n` steps. -/
inductive Loops (img : Image κ) (host : Host κ W) (n : Nat) (c z : Byte) (ws : List Word) : Nat → Frame κ W → Frame κ W → Prop where
  | done {f : Frame κ W} (heq : f.regs c = f.regs z) : Loops img host n c z ws 0 f f
  | turn {t : Nat} {f f₁ g : Frame κ W} (hne : f.regs c ≠ f.regs z) (hrun : RunsIn img host n ws f f₁)
      (hrest : Loops img host n c z ws t f₁ g) : Loops img host n c z ws (t + 1) f g

/-- The turns of a loop that is left in the middle. -/
inductive Breaks (img : Image κ) (host : Host κ W) (m n : Nat) (c z : Byte) (pre ws : List Word) : Nat → Frame κ W → Frame κ W → Prop where
  | done {f g : Frame κ W} (hpre : RunsIn img host m pre f g) (hne : g.regs c ≠ g.regs z) : Breaks img host m n c z pre ws 0 f g
  | turn {t : Nat} {f f₁ f₂ g : Frame κ W} (hpre : RunsIn img host m pre f f₁) (heq : f₁.regs c = f₁.regs z)
      (hrun : RunsIn img host n ws f₁ f₂) (hrest : Breaks img host m n c z pre ws t f₂ g) : Breaks img host m n c z pre ws (t + 1) f g

section bounded

variable {m n t : Nat}

variable (hcode : img.code.length = img.codeCount.toNat)
include hcode

/-- The first words are skipped or all are run. -/
theorem runsIn_skipInto (hlen : ws.length ≤ 127) (hrun : f.regs c ≠ f.regs z → RunsIn img host n (ws ++ us) f g)
    (hskip : f.regs c = f.regs z → RunsIn img host n us f g) : RunsIn img host (n + 1) (skipIfEq c z ws ++ us) f g := by
  refine .of_at fun pc hat => ?_
  have hbeq : Threaded.step img host { f with pc := BitVec.ofNat 32 pc } =
      .val () { f with pc := BitVec.ofNat 32 (if f.regs c = f.regs z then pc + 1 + ws.length else pc + 1) } :=
    step_beq hcode hat.head (by omega) (by omega) (by omega)
  have hlen' : pc + (skipIfEq c z ws ++ us).length = pc + 1 + (ws ++ us).length := by
    rw [skipIfEq, List.cons_append, List.length_cons]
    omega
  rw [hlen', Nat.add_comm n 1]
  by_cases heq : f.regs c = f.regs z
  · rw [if_pos heq] at hbeq
    have hright : HasAt img.code (pc + 1 + ws.length) us := hat.tail.right
    have hrest := (hskip heq).atPc hright hcode
    rw [Nat.add_assoc (pc + 1), ← List.length_append] at hrest
    exact (Exec.Within.one hbeq).trans hrest
  · rw [if_neg heq] at hbeq
    exact (Exec.Within.one hbeq).trans ((hrun heq).atPc hat.tail hcode)

/-- A loop runs turn by turn. -/
theorem runsIn_untilEq (hlen : ws.length ≤ 126) (h : Loops img host n c z ws t f g) :
    RunsIn img host (t * (n + 2) + 1) (untilEq c z ws) f g := by
  refine .of_at fun pc hat => ?_
  have hskip : (ws ++ [encI24 .jmp (BitVec.ofInt 32 (-(ws.length + 2)))]).length = ws.length + 1 := List.length_append
  have hall : pc + (untilEq c z ws).length = pc + 1 + (ws.length + 1) := by
    rw [untilEq, skipIfEq, List.length_cons, hskip]
    omega
  rw [hall]
  have hbeq : ∀ f : Frame κ W, Threaded.step img host { f with pc := BitVec.ofNat 32 pc } =
      .val () { f with pc := BitVec.ofNat 32 (if f.regs c = f.regs z then pc + 1 + (ws.length + 1) else pc + 1) } := fun f =>
    step_beq hcode hat.head (by omega) (by omega) (by omega)
  induction h with
  | @done f heq =>
    have hexit := hbeq f
    rw [if_pos heq] at hexit
    rw [Nat.zero_mul]
    exact .one hexit
  | @turn t f f₁ g hne hrun _ ih =>
    have henter := hbeq f
    rw [if_neg hne] at henter
    have hbody := hat.tail
    have hback : Threaded.step img host { f₁ with pc := BitVec.ofNat 32 (pc + 1 + ws.length) } =
        .val () { f₁ with pc := BitVec.ofNat 32 pc } :=
      step_jmp hcode hbody.right.head (by omega) (by omega) (by omega)
    have hturn := (Exec.Within.one henter).trans ((hrun.atPc hbody.left hcode).step hback)
    refine (hturn.trans ih).mono ?_
    rw [Nat.succ_mul]
    omega

/-- A loop that is left in the middle skips what is behind it. -/
theorem runsIn_breakIfNe {pre : List Word} (hlen : ws.length + 1 + us.length ≤ 127) (hpre : pre.length ≤ 127)
    (h : Breaks img host m n c z pre ws t f g) : RunsIn img host (t * (m + n + 2) + m + 1) (breakIfNe c z pre ws us) f g := by
  refine .of_at fun pc hat => ?_
  have hbody : (ws ++ [encI24 .jmp (BitVec.ofInt 32 (-(pre.length + 1 + (ws.length + 1))))] ++ us).length = ws.length + 1 + us.length := by
    rw [List.length_append, List.length_append, List.length_singleton]
  have hall : pc + (breakIfNe c z pre ws us).length = pc + pre.length + 1 + (ws.length + 1 + us.length) := by
    rw [breakIfNe, skipIfNe, List.length_append, List.length_cons, hbody]
    omega
  rw [hall]
  have hbne : ∀ f : Frame κ W, Threaded.step img host { f with pc := BitVec.ofNat 32 (pc + pre.length) } = .val () { f with
      pc := BitVec.ofNat 32 (if f.regs c ≠ f.regs z then pc + pre.length + 1 + (ws.length + 1 + us.length) else pc + pre.length + 1) } :=
    fun f => step_bne hcode hat.right.head (by omega) (by omega) (by omega)
  induction h with
  | @done f g hrun hne =>
    have hexit := hbne g
    rw [if_pos hne] at hexit
    rw [Nat.zero_mul, Nat.zero_add]
    exact (hrun.atPc hat.left hcode).step hexit
  | @turn t f f₁ f₂ g hrun heq hrun' _ ih =>
    have hstay := hbne f₁
    rw [if_neg (not_not_intro heq)] at hstay
    have hturn := hat.right.tail.left
    have hback : Threaded.step img host { f₂ with pc := BitVec.ofNat 32 (pc + pre.length + 1 + ws.length) } =
        .val () { f₂ with pc := BitVec.ofNat 32 pc } :=
      step_jmp hcode hturn.right.head (by omega) (by omega) (by omega)
    have hround := ((hrun.atPc hat.left hcode).step hstay).trans ((hrun'.atPc hturn.left hcode).step hback)
    refine (hround.trans ih).mono ?_
    rw [Nat.succ_mul]
    omega

end bounded

end CronoVM
