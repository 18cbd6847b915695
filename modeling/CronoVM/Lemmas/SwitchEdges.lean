import CronoVM.Lemmas.FreshRegister
import CronoVM.Lemmas.PhiEdge
import CronoVM.Lemmas.SwitchSelect

/-!
# The phi moves of a switch

All successors' phi moves stand before the dispatch, so the words in the locations go through one parallel copy after the other.
-/

namespace CronoVM

open Checked Ir

variable {κ W : Type}

/-! ## Copies of words -/

/-- The word a move brings, with `env` in the locations and constants as in `f`. -/
def PhiMove.wordIn (cg : Cg) (f : Frame κ W) (env : Loc → Word) (m : PhiMove) : Word :=
  match m.src with
  | .loc l => env l
  | .const cv => operandWord cg f cv
  | .word w => w

/-- What a parallel copy makes of the words in the locations. -/
def copyWords (cg : Cg) (f : Frame κ W) (moves : List PhiMove) (env : Loc → Word) (l : Loc) : Word :=
  match moves.find? fun m => m.dst = l with
  | some m => m.wordIn cg f env
  | none => env l

/-- The moves of the edge to block `s`. -/
def succMoves (cg : Cg) (fn : Func) (pred s : Nat) : List PhiMove := edgeMoves cg pred (fn.block s).phis

/-- What the copies of all edges make of the words, one after the other. -/
def edgesWords (cg : Cg) (f : Frame κ W) (fn : Func) (pred : Nat) (succs : List Nat) (env : Loc → Word) : Loc → Word :=
  succs.foldl (fun env s => copyWords cg f (succMoves cg fn pred s) env) env

section copy

variable {cg : Cg} {f g : Frame κ W} {moves : List PhiMove} {env : Loc → Word} {l : Loc}

theorem copyWords_of_mem (hdistinct : DistinctDsts moves) {m : PhiMove} (hm : m ∈ moves) :
    copyWords cg f moves env m.dst = m.wordIn cg f env := by
  unfold copyWords
  cases hfind : moves.find? fun m' => m'.dst = m.dst with
  | none => exact absurd (List.find?_eq_none.mp hfind m hm) (by simp)
  | some m' =>
    have hdst : m'.dst = m.dst := by simpa using List.find?_some hfind
    rw [List.inj_on_of_nodup_map hdistinct (List.mem_of_find?_eq_some hfind) hm hdst]

theorem copyWords_of_not_mem (hnot : ¬DstOf moves l) : copyWords cg f moves env l = env l := by
  unfold copyWords
  cases hfind : moves.find? fun m => m.dst = l with
  | none => rfl
  | some m =>
    have hdst : m.dst = l := by simpa using List.find?_some hfind
    exact absurd ⟨m, List.mem_of_find?_eq_some hfind, hdst.symm⟩ hnot

/-- The moves of locations to themselves do nothing. -/
theorem copyWords_filter (hdistinct : DistinctDsts moves) :
    copyWords cg f (moves.filter PhiMove.moves) env l = copyWords cg f moves env l := by
  have hdistinct' : DistinctDsts (moves.filter PhiMove.moves) := List.Nodup.sublist (List.filter_sublist.map PhiMove.dst) hdistinct
  by_cases hdst : DstOf (moves.filter PhiMove.moves) l
  · obtain ⟨m, hm, rfl⟩ := hdst
    rw [copyWords_of_mem hdistinct' hm, copyWords_of_mem hdistinct (List.mem_filter.mp hm).1]
  · rw [copyWords_of_not_mem hdst]
    by_cases hself : DstOf moves l
    · obtain ⟨m, hm, rfl⟩ := hself
      have hmoves : ¬m.moves = true := fun h => hdst ⟨m, List.mem_filter.mpr ⟨hm, h⟩, rfl⟩
      have hsrc : m.src = .loc m.dst := by simpa [PhiMove.moves] using hmoves
      rw [copyWords_of_mem hdistinct hm, PhiMove.wordIn, hsrc]
    · rw [copyWords_of_not_mem hself]

/-- A copy depends only on the words in its locations. -/
theorem copyWords_congr {hi : Nat} {env' : Loc → Word} (hmoves : ∀ m ∈ moves, ∀ l, m.src = .loc l → Loc.Ok cg hi l)
    (henv : ∀ l, Loc.Ok cg hi l → env l = env' l) (hl : Loc.Ok cg hi l) : copyWords cg f moves env l = copyWords cg f moves env' l := by
  unfold copyWords
  cases hfind : moves.find? fun m => m.dst = l with
  | none => exact henv l hl
  | some m =>
    dsimp only
    unfold PhiMove.wordIn
    cases hsrc : m.src with
    | loc l' => exact henv l' (hmoves m (List.mem_of_find?_eq_some hfind) l' hsrc)
    | const cv => rfl
    | word w => rfl

end copy

section inPlace

variable {cg : Cg} {f : Frame κ W} {fn : Func} {pred t : Nat} {succs : List Nat} {env : Loc → Word}

/-- Where all moves are of locations to themselves, nothing changes. -/
theorem copyWords_in_place {moves : List PhiMove} (hplace : ∀ m ∈ moves, m.moves = false) : copyWords cg f moves env = env := by
  funext l
  unfold copyWords
  cases hfind : moves.find? fun m => m.dst = l with
  | none => rfl
  | some m =>
    have hdst : m.dst = l := by simpa using List.find?_some hfind
    have hsrc : m.src = .loc m.dst := by simpa [PhiMove.moves] using hplace m (List.mem_of_find?_eq_some hfind)
    dsimp only
    rw [PhiMove.wordIn, hsrc, hdst]

theorem edgesWords_in_place (hplace : ∀ s ∈ succs, ∀ m ∈ succMoves cg fn pred s, m.moves = false) :
    edgesWords cg f fn pred succs env = env := by
  induction succs generalizing env with
  | nil => rfl
  | cons s succs ih =>
    have hrest : edgesWords cg f fn pred succs (copyWords cg f (succMoves cg fn pred s) env) = _ :=
      ih fun s' hs' => hplace s' (List.mem_cons_of_mem s hs')
    exact hrest.trans (copyWords_in_place (hplace s List.mem_cons_self))

/-- If the moves of all other edges are in place, and `t` is the target once or its copy may be repeated, only the copy of `t` counts. -/
theorem edgesWords_of_in_place (ht : t ∈ succs)
    (hothers : ∀ s ∈ succs, s ≠ t → ∀ m ∈ succMoves cg fn pred s, m.moves = false)
    (hagain : succs.count t = 1 ∨ ∀ env : Loc → Word, copyWords cg f (succMoves cg fn pred t) (copyWords cg f (succMoves cg fn pred t) env) =
      copyWords cg f (succMoves cg fn pred t) env) :
    edgesWords cg f fn pred succs env = copyWords cg f (succMoves cg fn pred t) env := by
  induction succs generalizing env with
  | nil => exact absurd ht List.not_mem_nil
  | cons s succs ih =>
    have hothers' : ∀ s' ∈ succs, s' ≠ t → ∀ m ∈ succMoves cg fn pred s', m.moves = false :=
      fun s' hs' => hothers s' (List.mem_cons_of_mem s hs')
    by_cases hs : s = t
    · subst hs
      by_cases hmore : s ∈ succs
      · have htwice := hagain.resolve_left fun hone => by
          rw [List.count_cons_self] at hone
          have := List.count_pos_iff.mpr hmore
          omega
        exact (ih hmore hothers' (Or.inr htwice)).trans (htwice env)
      · exact edgesWords_in_place fun s' hs' => hothers' s' hs' fun he => hmore (he ▸ hs')
    · have hsame : copyWords cg f (succMoves cg fn pred s) env = env := copyWords_in_place (hothers s List.mem_cons_self hs)
      have hrest : edgesWords cg f fn pred succs env = _ := ih ((List.mem_cons.mp ht).resolve_left (Ne.symm hs)) hothers'
        (hagain.imp_left fun hone => by rwa [List.count_cons_of_ne hs] at hone)
      exact (congrArg (edgesWords cg f fn pred succs) hsame).trans hrest

end inPlace

/-! ## One edge -/

section edge

variable {cg cg' : Cg} {img : Image κ} {host : Host κ W} {f f' f₀ : Frame κ W} {moves : List PhiMove}

/-- A constant is the same in each frame that agrees in the zero register. -/
theorem operandWord_const {cv : Val} (hnone : cg.lookup cv = none) (hzero : f'.regs cg.zeroReg = f.regs cg.zeroReg) :
    operandWord cg f' cv = operandWord cg f cv := by
  cases cv with
  | loc l =>
    have hhome : cg.home? l = none := hnone
    simp only [operandWord, hhome, Option.map_none, Option.getD_none]
  | block id => rfl
  | const c => simp only [operandWord, hzero]

theorem MovesOk.sp_not_dst {n : Nat} (hmoves : MovesOk cg n moves) (hn : n ≤ cgMaxEmitReg + 1) : ¬DstOf moves (.reg regSp) := by
  rintro ⟨m, hm, he⟩
  have hdst := (hmoves.each m hm).dst_ok
  rw [← he] at hdst
  exact hdst.ne_sp hn rfl

theorem MovesOk.zero_not_dst {n : Nat} (hok : cg.Ok) (hmoves : MovesOk cg n moves) : ¬DstOf moves (.reg cg.zeroReg) :=
  hmoves.not_dst (Or.inl hok.zero)

/-- The words after the moves of an edge are those the copy makes. -/
theorem MovesDone.words (hok : cg.Ok) (hmoves : MovesOk cg cg.nextReg moves) (hdone : MovesDone img host cg f cg.nextReg moves cg' f')
    (hzero : f.regs cg.zeroReg = f₀.regs cg.zeroReg) {l : Loc} (hl : Loc.Ok cg cg.nextReg l) :
    locWord cg f' l = copyWords cg f₀ moves (locWord cg f) l := by
  by_cases hdst : DstOf moves l
  · obtain ⟨m, hm, rfl⟩ := hdst
    rw [hdone.values m hm, copyWords_of_mem hmoves.distinct hm, PhiMove.value, PhiMove.wordIn]
    cases hsrc : m.src with
    | loc l => rfl
    | const cv => exact operandWord_const ((hmoves.each m hm).no_home cv hsrc) hzero
    | word w => rfl
  · rw [hdone.changes.locWord_eq hok.next_le (hmoves.sp_not_dst hok.next_le) hl hdst, copyWords_of_not_mem hdst]

end edge

/-! ## All edges -/

/-- What the code of all edges has done: it is straight code, the words in the locations are those of the copies, and only destinations
of the edges and scratch registers have changed. -/
structure EdgesDone (img : Image κ) (host : Host κ W) (cg : Cg) (fn : Func) (pred : Nat) (succs : List Nat) (f : Frame κ W) (cg' : Cg)
    (f' : Frame κ W) : Prop where
  emitted : Emitted img host cg cg' f f'
  next_ge : cg.nextReg ≤ cg'.nextReg
  next_le : cg'.nextReg ≤ cgMaxEmitReg + 1
  words : ∀ l, Loc.Ok cg cg.nextReg l → locWord cg f' l = edgesWords cg f fn pred succs (locWord cg f) l
  changes : f.ChangesOnly cg cg.nextReg (fun l => ∃ s ∈ succs, DstOf (succMoves cg fn pred s) l) f'

section edges

variable {img : Image κ} {host : Host κ W} {cg cg' : Cg} {f f' : Frame κ W} {fn : Func} {pred : Nat} {succs : List Nat}

theorem edgesWords_congr {hi : Nat} {env env' : Loc → Word}
    (hmoves : ∀ s ∈ succs, ∀ m ∈ succMoves cg fn pred s, ∀ l, m.src = .loc l → Loc.Ok cg hi l)
    (henv : ∀ l, Loc.Ok cg hi l → env l = env' l) {l : Loc} (hl : Loc.Ok cg hi l) :
    edgesWords cg f fn pred succs env l = edgesWords cg f fn pred succs env' l := by
  induction succs generalizing env env' with
  | nil => exact henv l hl
  | cons s succs ih =>
    refine ih (fun s' hs' => hmoves s' (List.mem_cons_of_mem s hs')) fun l hl => ?_
    exact copyWords_congr (hmoves s List.mem_cons_self) henv hl

/-- Constants are taken from the first frame, where the zero register stays. -/
theorem edgesWords_frame (hok : cg.Ok) (hzero : f'.regs cg.zeroReg = f.regs cg.zeroReg) (env : Loc → Word) :
    edgesWords cg f' fn pred succs env = edgesWords cg f fn pred succs env := by
  unfold edgesWords
  congr 1
  funext env s l
  unfold copyWords
  cases hfind : (succMoves cg fn pred s).find? fun m => m.dst = l with
  | none => rfl
  | some m =>
    have hmem : m ∈ edgeMoves cg pred (fn.block s).phis := List.mem_of_find?_eq_some hfind
    obtain ⟨_, _, hconst⟩ := edgeMove_ok hok hmem
    dsimp only
    unfold PhiMove.wordIn
    cases hsrc : m.src with
    | loc l => rfl
    | const cv => exact operandWord_const (hconst cv hsrc) hzero
    | word w => rfl

/-- Emission changes no move. -/
theorem edgesWords_emitted {f₀ : Frame κ W} (hem : Emitted img host cg cg' f f') (env : Loc → Word) :
    edgesWords cg' f₀ fn pred succs env = edgesWords cg f₀ fn pred succs env := by
  have hop := hem.operandWord_eq f₀
  obtain ⟨ws, n, rfl, _⟩ := hem
  have hword : ∀ (env : Loc → Word) (m : PhiMove), m.wordIn { cg with code := cg.code ++ ws, nextReg := n } f₀ env = m.wordIn cg f₀ env := by
    intro env m
    unfold PhiMove.wordIn
    cases m.src with
    | loc l => rfl
    | const cv => exact hop cv
    | word w => rfl
  unfold edgesWords
  congr 1
  funext env s l
  unfold copyWords
  simp only [hword]
  rfl

variable (host) in
/-- The code of all edges. -/
theorem edgesDone_of_run (hcode : img.code.length = img.codeCount.toNat) (hok : cg.Ok) (hin : InFrame cg img f)
    (hdistinct : ∀ s ∈ succs, DistinctDsts (succMoves cg fn pred s)) (hrun : cgEmitAllPhiMoves fn pred succs cg = .val () cg') :
    ∃ f', EdgesDone img host cg fn pred succs f cg' f' := by
  induction succs generalizing cg f with
  | nil =>
    cases show Outcome.val () cg = .val () cg' from hrun
    exact ⟨f, .refl, Nat.le_refl _, hok.next_le, fun _ _ => rfl, .refl⟩
  | cons s succs ih =>
    obtain ⟨r, cg₁, hfirst, hrest⟩ := Exec.of_bind hrun
    obtain ⟨hmoves, _, hge₁, hle₁, hmovesOk, f₁, hdone⟩ :=
      Exec.of_wp (wp_cgEmitPhiMoves host hcode hok hin (hdistinct s List.mem_cons_self)) hfirst
    have hem := hdone.emitted
    have hwords : ∀ l, Loc.Ok cg cg.nextReg l → locWord cg f₁ l = copyWords cg f r.1 (locWord cg f) l :=
      fun l hl => hdone.words hok hmovesOk rfl hl
    have hchanges := hdone.changes
    rw [hmoves] at hmovesOk hwords hchanges
    have hzero : f₁.regs cg.zeroReg = f.regs cg.zeroReg :=
      hchanges.regs _ (hok.zero ▸ not_scratch_of_gt (Or.inl rfl)) (hmovesOk.zero_not_dst hok)
    have hspdst := hmovesOk.sp_not_dst hok.next_le
    have hin₁ : InFrame cg img f₁ := hchanges.inFrame hspdst hin
    obtain ⟨ws, n, rfl, _⟩ := id hem
    have hok₁ : Cg.Ok { cg with code := cg.code ++ ws, nextReg := n } :=
      { hok with
        high_le := Nat.le_trans hok.high_le hge₁
        next_le := hle₁ }
    obtain ⟨f₂, hdone₂⟩ := ih hok₁ ⟨hin₁.size, hin₁.fits⟩ (fun s' hs' => hdistinct s' (List.mem_cons_of_mem s hs')) hrest
    refine ⟨f₂, hem.trans hcode hdone₂.emitted, Nat.le_trans hge₁ hdone₂.next_ge, hdone₂.next_le, ?_, ?_⟩
    · intro l hl
      have hl₂ := hdone₂.words l (hl.mono hge₁)
      rw [edgesWords_emitted hem, edgesWords_frame hok hzero] at hl₂
      refine hl₂.trans (edgesWords_congr (fun s' hs' m hm => (edgeMove_ok hok hm).2.1) (fun l hl => ?_) hl)
      exact (hwords l hl).trans (copyWords_filter (hdistinct s List.mem_cons_self))
    · have hsp : ¬∃ s' ∈ s :: succs, DstOf (succMoves cg fn pred s') (.reg regSp) := by
        rintro ⟨s', _, m, hm, he⟩
        have hdst := (edgeMove_ok hok hm).1.1
        rw [← he] at hdst
        exact hdst.ne_sp hok.next_le rfl
      have h₁ : f.ChangesOnly cg cg.nextReg (fun l => ∃ s' ∈ s :: succs, DstOf (succMoves cg fn pred s') l) f₁ := by
        refine hchanges.mono (Nat.le_refl _) ?_
        rintro l ⟨m, hm, he⟩
        exact ⟨s, List.mem_cons_self, m, (List.mem_filter.mp hm).1, he⟩
      have hrest : f₁.ChangesOnly cg n (fun l => ∃ s' ∈ succs, DstOf (succMoves cg fn pred s') l) f₂ := { hdone₂.changes with }
      have h₂ : f₁.ChangesOnly cg cg.nextReg (fun l => ∃ s' ∈ s :: succs, DstOf (succMoves cg fn pred s') l) f₂ := by
        refine hrest.mono hge₁ ?_
        rintro l ⟨s', hs', hdst⟩
        exact ⟨s', List.mem_cons_of_mem s hs', hdst⟩
      exact h₁.trans hsp h₂

end edges

/-! ## The register of the condition -/

/-- The word the dispatch finds in the register of the condition, with `env` in the locations after the moves. -/
def condWord (cg : Cg) (f : Frame κ W) (env : Loc → Word) (cond : Val) : Word :=
  match cg.lookup cond with
  | some home => if home.valSlot = none then env (.reg home.reg) else operandWord cg f cond
  | none => operandWord cg f cond

section before

variable {img : Image κ} {host : Host κ W} {cg cg₁ cg₂ : Cg} {f : Frame κ W} {fn : Func} {pred : Nat} {succs : List Nat} {cond : Val} {r : Byte}

/-- What the code before the dispatch has done. -/
structure BeforeDispatch (img : Image κ) (host : Host κ W) (cg : Cg) (fn : Func) (pred : Nat) (succs : List Nat) (cond : Val) (r : Byte)
    (f : Frame κ W) (cg₂ : Cg) (f₂ : Frame κ W) : Prop where
  edges : EdgesDone img host cg fn pred succs f cg₂ f₂
  held : Held r cg₂.nextReg
  cond : f₂.regs r = condWord cg f (edgesWords cg f fn pred succs (locWord cg f)) cond

/-- A register that is no home keeps its word through the moves. -/
theorem EdgesDone.fresh_kept {f₂ : Frame κ W} (hok : cg.Ok) (hdone : EdgesDone img host cg₁ fn pred succs f cg₂ f₂)
    (hsame : ∀ s, succMoves cg₁ fn pred s = succMoves cg fn pred s) (hle : cg₁.nextReg ≤ cgMaxEmitReg + 1)
    (hr : Held r cg₁.nextReg) (hfresh : cg.nextReg ≤ r.toNat ∨ r = cg.zeroReg) : f₂.regs r = f.regs r := by
  refine hdone.changes.regs r (hr.not_scratch hle) ?_
  rintro ⟨s, _, m, hm, he⟩
  rw [hsame] at hm
  obtain ⟨⟨hdst, hne⟩, _⟩ := edgeMove_ok hok hm
  rw [← he] at hdst hne
  rcases hfresh with hge | rfl
  · rcases hdst with hlt | hz
    · omega
    · exact hne (congrArg Loc.reg hz)
  · exact hne (congrArg Loc.reg hok.zero)

/-- A value in a register is found there. -/
theorem cgRegFor_home {home : Home} (hlookup : cg.lookup cond = some home) (hslot : home.valSlot = none) :
    cgRegFor cond cg = .val home.reg cg := by
  unfold cgRegFor
  rw [Exec.run_bind, Exec.run_get]
  simp only [hlookup, hslot]
  rfl

variable (host) in
theorem beforeDispatch_of_run (hcode : img.code.length = img.codeCount.toNat) (hok : cg.Ok) (hin : InFrame cg img f)
    (hdistinct : ∀ s ∈ succs, DistinctDsts (succMoves cg fn pred s)) (hcond : cgRegFor cond cg = .val r cg₁)
    (hrun : cgEmitAllPhiMoves fn pred succs cg₁ = .val () cg₂) : ∃ f₂, BeforeDispatch img host cg fn pred succs cond r f cg₂ f₂ := by
  obtain ⟨f₁, hem, hag, hge₁, hle₁, hval, hheld⟩ := Exec.of_wp (wp_cgRegFor host hcode hok hin cond) hcond
  obtain ⟨ws, n, rfl, _⟩ := id hem
  have hok₁ : Cg.Ok { cg with code := cg.code ++ ws, nextReg := n } :=
    { hok with
      high_le := Nat.le_trans hok.high_le hge₁
      next_le := hle₁ }
  have hsp : f₁.regs regSp = f.regs regSp := hag.regs _ (not_scratch_of_gt (Or.inr rfl))
  have hzero : f₁.regs cg.zeroReg = f.regs cg.zeroReg := hag.regs _ (hok.zero ▸ not_scratch_of_gt (Or.inl rfl))
  have hin₁ : InFrame cg img f₁ := ⟨hag.heap ▸ hin.size, hsp ▸ hin.fits⟩
  obtain ⟨f₂, hdone⟩ := edgesDone_of_run host hcode hok₁ ⟨hin₁.size, hin₁.fits⟩ hdistinct hrun
  have hwords : ∀ l, Loc.Ok cg cg.nextReg l → locWord cg f₂ l = edgesWords cg f fn pred succs (locWord cg f) l := by
    intro l hl
    have hl₂ := hdone.words l (hl.mono hge₁)
    rw [edgesWords_emitted hem, edgesWords_frame hok hzero] at hl₂
    exact hl₂.trans (edgesWords_congr (fun s' hs' m hm => (edgeMove_ok hok hm).2.1)
      (fun l hl => locWord_agrees hok.next_le hag hl) hl)
  refine ⟨f₂, ⟨hem.trans hcode hdone.emitted, Nat.le_trans hge₁ hdone.next_ge, hdone.next_le, hwords, ?_⟩, ?_, ?_⟩
  · have h₁ : f.ChangesOnly cg cg.nextReg (fun l => ∃ s ∈ succs, DstOf (succMoves cg fn pred s) l) f₁ :=
      ⟨hag.imports, hag.world, fun r hs _ => hag.regs r hs, by rw [hag.heap], fun p _ => by rw [hag.heap]⟩
    have hrest : f₁.ChangesOnly cg n (fun l => ∃ s ∈ succs, DstOf (succMoves cg fn pred s) l) f₂ := { hdone.changes with }
    refine h₁.trans ?_ (hrest.mono hge₁ fun _ h => h)
    rintro ⟨s, _, m, hm, he⟩
    have hdst := (edgeMove_ok hok hm).1.1
    rw [← he] at hdst
    exact hdst.ne_sp hok.next_le rfl
  · exact hheld.imp_left fun hlt => Nat.lt_of_lt_of_le hlt hdone.next_ge
  · unfold condWord
    cases hlookup : cg.lookup cond with
    | none =>
      have hfresh := Exec.of_wp (wp_cgRegFor_fresh hok.pool fun home h => by rw [hlookup] at h; nomatch h) hcond
      exact (hdone.fresh_kept hok (fun _ => rfl) hle₁ hheld hfresh.1).trans hval
    | some home =>
      dsimp only
      by_cases hslot : home.valSlot = none
      · have hreg : home.reg = r := by
          rw [cgRegFor_home hlookup hslot] at hcond
          exact (Outcome.val.inj hcond).1
        obtain ⟨l, hl⟩ := lookup_home hlookup
        rw [if_pos hslot, ← hreg]
        exact hwords (.reg home.reg) (Or.inl (Nat.lt_of_lt_of_le (hok.reg_lt l home hl) hok.high_le))
      · have hfresh := Exec.of_wp (wp_cgRegFor_fresh hok.pool fun home' h => by
          rw [hlookup] at h
          exact Option.some.inj h ▸ hslot) hcond
        rw [if_neg hslot]
        exact (hdone.fresh_kept hok (fun _ => rfl) hle₁ hheld hfresh.1).trans hval

end before

end CronoVM
