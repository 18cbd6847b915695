import CronoVM.Lemmas.Ctors
import CronoVM.Lemmas.Calls
import CronoVM.Theorems.Globals
import CronoVM.Theorems.StackOverflow
import CronoVM.Translator.Function

/-!
# Global constructors run once

The calls of the constructors stand in the prologue of the entry function, without a guard: each call of the entry function runs them
again. In a run that enters the code of the entry function only to go on where it was left, each constructor is entered once, in ascending
priority, and the one before has come back.
-/

namespace CronoVM

open Checked Vm

variable {κ W : Type}

/-! ## What the translator writes -/

/-- The code of the entry function: where it starts, where the calls of the constructors and its body start, and where it ends. -/
structure EntryCode where
  start : Nat
  calls : Nat
  body : Nat
  stop : Nat

namespace EntryCode

variable (e : EntryCode)

/-- A place in the start-up code. -/
def InStart (p : Nat) : Prop := e.start ≤ p ∧ p < e.body

def InBody (p : Nat) : Prop := e.body ≤ p ∧ p < e.stop

def Has (p : Nat) : Prop := e.start ≤ p ∧ p < e.stop

/-- A place of a call of a constructor. -/
def IsCall (p : Nat) : Prop := e.calls ≤ p ∧ p < e.body

instance : DecidablePred e.InBody := fun p => inferInstanceAs (Decidable (e.body ≤ p ∧ p < e.stop))

instance : DecidablePred e.Has := fun p => inferInstanceAs (Decidable (e.start ≤ p ∧ p < e.stop))

instance : DecidablePred e.IsCall := fun p => inferInstanceAs (Decidable (e.calls ≤ p ∧ p < e.body))

end EntryCode

/-- What the translator writes for a module with the functions `funcs` and the elements `elems` of `llvm.global_ctors`: the table of the
functions, which a call needs, and the code of the entry function, a prologue with the calls before its body. -/
structure EntryWritten (src : BinSource) (funcs : List Nat) (elems : List (Option CtorElem)) (e : EntryCode) : Prop where
  length_funcs : src.funcs.length = funcs.length
  slots : cvmFnSlot funcs.length < 2 ^ 24
  emitFuncs : cgCollectGlobalCtors funcs elems ≠ [] → src.emitFuncs = true
  start : e.start = src.entry.toNat
  code : ∃ cg cg' ws rest, cgPrologue true (cgCollectGlobalCtors funcs elems) cg = .val () cg' ∧ cg'.code = cg.code ++ ws ∧
    HasAt src.code e.start (ws ++ rest) ∧ e.body = e.start + ws.length ∧ e.calls + (cgCollectGlobalCtors funcs elems).length = e.body ∧
    e.stop = e.body + rest.length

/-- The file has the code and the functions that `cg_function` writes for the functions of a module, with `ctors` for the entry function. -/
def Translated (src : BinSource) (mi : ModInfo) (srcs : List FnSource) (entry : Nat) (ctors : List Nat) : Prop :=
  ∃ cg cg' entries, cgFunctions mi (fun k => if k = entry then ctors else []) srcs 0 cg = .val entries cg' ∧ cg.code = [] ∧
    cg.funcs = srcs.map FnSource.id ∧ src.code = cg'.code ∧ src.funcs = entries.map fun e => BitVec.ofNat 32 e.entryOffset

/-! ## Watching a run -/

/-- What the start-up code does with constructors: it enters one, and a call comes back behind it. -/
inductive CtorEvent where
  | enter (target : Word)
  | back (place : Nat)
  deriving DecidableEq

/-- What a run has shown of the entry function: its place where control was last, and the events of its start-up code. -/
structure Watch where
  last : Nat
  events : List CtorEvent

/-- A step is watched. -/
def Watch.next (e : EntryCode) (w : Watch) (p : Nat) (pc : Word) : Watch where
  last := if e.Has pc.toNat then pc.toNat else w.last
  events :=
    if e.IsCall p then w.events ++ [.enter pc]
    else if e.Has pc.toNat ∧ pc.toNat = w.last + 1 ∧ e.IsCall w.last then w.events ++ [.back pc.toNat]
    else w.events

/-- The runs of an image from a state at the start of the entry function, watched. -/
inductive WatchedRun (build : Build) (img : Image κ) (host : Host κ W) (e : EntryCode) (ok : Watch → Frame κ W → Frame κ W → Prop)
    (f₀ : Frame κ W) : Frame κ W → Watch → Prop where
  | start : WatchedRun build img host e ok f₀ f₀ ⟨e.start, []⟩
  | step {f g : Frame κ W} {w : Watch} : WatchedRun build img host e ok f₀ f w → build.step img host f = .val () g → ok w f g →
      WatchedRun build img host e ok f₀ g (w.next e f.pc.toNat g.pc)

/-- The events of constructors that are called one after the other from place `p` on. -/
def ctorScript (entryOf : Nat → Word) : Nat → List Nat → List CtorEvent
  | _, [] => []
  | p, c :: cs => .enter (entryOf c) :: .back (p + 1) :: ctorScript entryOf (p + 1) cs

/-- Each constructor is entered at most once and in order, the one before having come back, and in the body all of them have. -/
structure RunsOnce (e : EntryCode) (script : List CtorEvent) (f : Frame κ W) (w : Watch) : Prop where
  ordered : w.events <+: script
  finished : e.InBody f.pc.toNat → w.events = script

/-- The step calls nothing in the code of the entry function, and if it is no call, it gets into this code only right behind the place
where control last was in it, or from its body, once that has begun, into its body. -/
structure StaysOut (e : EntryCode) (img : Image κ) (w : Watch) (f g : Frame κ W) : Prop where
  calls : ∀ fid, NextCall img f fid → ¬ e.Has g.pc.toNat
  others : (∀ fid, ¬ NextCall img f fid) → e.Has g.pc.toNat → g.pc.toNat = w.last + 1 ∨ (e.InBody w.last ∧ e.InBody g.pc.toNat)

namespace CtorsAux

open CallsAux

variable {build : Build} {img : Image κ} {host : Host κ W} {e : EntryCode} {f g f₀ : Frame κ W} {w : Watch}

/-! ## Scripts -/

/-- Two events for each constructor. -/
theorem length_ctorScript (entryOf : Nat → Word) (p : Nat) (cs : List Nat) : (ctorScript entryOf p cs).length = 2 * cs.length := by
  induction cs generalizing p with
  | nil => rfl
  | cons c cs ih =>
    rw [ctorScript, List.length_cons, List.length_cons, ih, List.length_cons]
    omega

/-- The script of two lists, one behind the other. -/
theorem ctorScript_append (entryOf : Nat → Word) (p : Nat) (cs ds : List Nat) :
    ctorScript entryOf p (cs ++ ds) = ctorScript entryOf p cs ++ ctorScript entryOf (p + cs.length) ds := by
  induction cs generalizing p with
  | nil => rfl
  | cons c cs ih =>
    rw [List.cons_append, ctorScript, ctorScript, ih, List.length_cons, Nat.add_assoc p 1, Nat.add_comm 1]
    rfl

/-- The script of one more constructor. -/
theorem ctorScript_take_succ (entryOf : Nat → Word) (p : Nat) {cs : List Nat} {k : Nat} (hk : k < cs.length) :
    ctorScript entryOf p (cs.take (k + 1)) = ctorScript entryOf p (cs.take k) ++ [.enter (entryOf (cs.getD k 0)), .back (p + k + 1)] := by
  have hmin : min k cs.length = k := Nat.min_eq_left (Nat.le_of_lt hk)
  have hget : cs.getD k 0 = cs[k] := by rw [List.getD_eq_getElem?_getD, List.getElem?_eq_getElem hk, Option.getD_some]
  rw [List.take_succ_eq_append_getElem hk, ctorScript_append, List.length_take, hmin, hget]
  rfl

/-- The script of the first constructors is a first part of the whole one. -/
theorem ctorScript_take_prefix (entryOf : Nat → Word) (p : Nat) (cs : List Nat) (k : Nat) :
    ctorScript entryOf p (cs.take k) <+: ctorScript entryOf p cs := by
  refine ⟨ctorScript entryOf (p + (cs.take k).length) (cs.drop k), ?_⟩
  rw [← ctorScript_append, List.take_append_drop]

/-! ## The calls of the start-up code -/

/-- A call that was made has gone where the table says. -/
theorem callTo_val {fid : Word} (h : callTo img fid f = .val () g) : fid ≠ 0 ∧ fid < img.funcCount ∧ g.pc = img.funcTable.getD fid.toNat 0 := by
  have hwlp : Exec.wlp (callTo img fid) (fun _ g => fid ≠ 0 ∧ fid < img.funcCount ∧ g.pc = img.funcTable.getD fid.toNat 0) f := by
    simp only [callTo, Exec.wlp_bind, wlp_failIf, wlp_reg, wlp_setReg, wlp_getPc, wlp_setPc, wlp_funcOffset, store32, wlp_writeAt]
    exact fun hne hlt _ _ _ => ⟨hne, BitVec.not_le.mp hlt, trivial⟩
  exact hwlp () g h

/-- The image has the calls of the constructors `cs` in the code of the entry, and their entries in the table. -/
structure HasCalls (img : Image κ) (e : EntryCode) (entryOf : Nat → Word) (cs : List Nat) : Prop where
  start_le : e.start ≤ e.calls
  length : e.calls + cs.length = e.body
  body_le : e.body ≤ e.stop
  code : ∀ k < cs.length, img.code[e.calls + k]? = some (ctorCall (cs.getD k 0))
  slot : ∀ k < cs.length, cvmFnSlot (cs.getD k 0) < 2 ^ 24
  target : ∀ k < cs.length, img.funcTable.getD (cvmFnSlot (cs.getD k 0)) 0 = entryOf (cs.getD k 0)

variable {entryOf : Nat → Word} {cs : List Nat}

/-- The call of a constructor names its slot. -/
theorem instImm24_ctorCall {c : Nat} (hc : cvmFnSlot c < 2 ^ 24) : instImm24 (ctorCall c) = BitVec.ofNat 32 (cvmFnSlot c) := by
  have hmask : (0xFFFFFF#32).toNat = 2 ^ 24 - 1 := rfl
  rw [ctorCall, instImm24_encI24]
  apply BitVec.eq_of_toNat_eq
  rw [BitVec.toNat_and]
  change (BitVec.ofNat 32 (cvmFnSlot c)).toNat &&& (0xFFFFFF#32).toNat = _
  rw [hmask, Nat.and_two_pow_sub_one_eq_mod, BitVec.toNat_ofNat]
  omega

/-- A call of the start-up code goes into its constructor. -/
theorem start_call (h : HasCalls img e entryOf cs) (himg : img.Wf) (hcall : e.IsCall f.pc.toNat) (hstep : build.step img host f = .val () g) :
    (∃ fid, NextCall img f fid) ∧ g.pc = entryOf (cs.getD (f.pc.toNat - e.calls) 0) := by
  have hlen := h.length
  have hk : f.pc.toNat - e.calls < cs.length := by
    have := hcall.2
    have := hcall.1
    omega
  have hplace : e.calls + (f.pc.toNat - e.calls) = f.pc.toNat := Nat.add_sub_cancel' hcall.1
  have hword := h.code _ hk
  rw [hplace] at hword
  have hnext : NextCall img f (BitVec.ofNat 32 (cvmFnSlot (cs.getD (f.pc.toNat - e.calls) 0))) := by
    refine ⟨ctorCall (cs.getD (f.pc.toNat - e.calls) 0), Or.inl ⟨⟨?_, ?_⟩, ?_⟩⟩
    · rw [List.getD_eq_getElem?_getD, hword, Option.getD_some]
    · rw [ctorCall, instOp_encI24]
    · exact (instImm24_ctorCall (h.slot _ hk)).symm
  refine ⟨⟨_, hnext⟩, ?_⟩
  rw [step_nextCall himg hnext] at hstep
  have hslot : (BitVec.ofNat 32 (cvmFnSlot (cs.getD (f.pc.toNat - e.calls) 0))).toNat = cvmFnSlot (cs.getD (f.pc.toNat - e.calls) 0) := by
    rw [BitVec.toNat_ofNat]
    exact Nat.mod_eq_of_lt (Nat.lt_trans (h.slot _ hk) (by decide))
  rw [(callTo_val hstep).2.2, hslot]
  exact h.target _ hk

/-! ## Runs -/

/-- A step into the code of the entry function is the last place in it. -/
theorem next_last_of_has {p : Nat} {pc : Word} (h : e.Has pc.toNat) : (w.next e p pc).last = pc.toNat := if_pos h

/-- A step outside of this code leaves the last place. -/
theorem next_last_of_not {p : Nat} {pc : Word} (h : ¬ e.Has pc.toNat) : (w.next e p pc).last = w.last := if_neg h

/-- A call of the start-up code is an event. -/
theorem next_events_call {p : Nat} (pc : Word) (h : e.IsCall p) : (w.next e p pc).events = w.events ++ [.enter pc] := if_pos h

/-- So is the return behind it. -/
theorem next_events_back {p : Nat} {pc : Word} (hp : ¬ e.IsCall p) (h : e.Has pc.toNat) (hplace : pc.toNat = w.last + 1)
    (hlast : e.IsCall w.last) : (w.next e p pc).events = w.events ++ [.back pc.toNat] :=
  (if_neg hp).trans (if_pos ⟨h, hplace, hlast⟩)

/-- All other steps are none. -/
theorem next_events_else {p : Nat} {pc : Word} (hp : ¬ e.IsCall p) (h : ¬ (e.Has pc.toNat ∧ e.IsCall w.last)) :
    (w.next e p pc).events = w.events :=
  (if_neg hp).trans (if_neg fun hall => h ⟨hall.1, hall.2.2⟩)

/-- How far a run has come: the start-up code has called the constructors before the place where control was last; it has entered the one
there too, if control has left it for it; in the body it has called all of them. -/
structure Progress (e : EntryCode) (entryOf : Nat → Word) (cs : List Nat) (f : Frame κ W) (w : Watch) : Prop where
  here : e.Has f.pc.toNat → f.pc.toNat = w.last
  stage : (e.InStart w.last ∧ (e.Has f.pc.toNat ∨ ¬ e.IsCall w.last) ∧
      w.events = ctorScript entryOf e.calls (cs.take (w.last - e.calls))) ∨
    (e.IsCall w.last ∧ ¬ e.Has f.pc.toNat ∧
      w.events = ctorScript entryOf e.calls (cs.take (w.last - e.calls)) ++ [.enter (entryOf (cs.getD (w.last - e.calls) 0))]) ∨
    (e.InBody w.last ∧ w.events = ctorScript entryOf e.calls cs)

/-- The calls are one for each constructor. -/
theorem index_lt (hcalls : HasCalls img e entryOf cs) {p : Nat} (hp : e.IsCall p) : p - e.calls < cs.length := by
  have hlen := hcalls.length
  obtain ⟨hlow, hhigh⟩ := hp
  omega

/-- A run that has come so far has called a first part of the constructors. -/
theorem Progress.runsOnce (hcalls : HasCalls img e entryOf cs) (h : Progress e entryOf cs f w) :
    RunsOnce e (ctorScript entryOf e.calls cs) f w := by
  have hlen := hcalls.length
  constructor
  · rcases h.stage with ⟨-, -, hevents⟩ | ⟨hlast, -, hevents⟩ | ⟨-, hevents⟩
    · rw [hevents]
      exact ctorScript_take_prefix entryOf e.calls cs _
    · have hnext := ctorScript_take_prefix entryOf e.calls cs (w.last - e.calls + 1)
      rw [ctorScript_take_succ entryOf e.calls (index_lt hcalls hlast)] at hnext
      refine List.IsPrefix.trans ⟨[.back (e.calls + (w.last - e.calls) + 1)], ?_⟩ hnext
      rw [hevents]
      exact List.append_assoc ..
    · exact hevents ▸ List.prefix_refl _
  · intro hbody
    have hstart := hcalls.start_le
    have hhas : e.Has f.pc.toNat := ⟨Nat.le_trans (by omega) hbody.1, hbody.2⟩
    rw [h.here hhas] at hbody
    rcases h.stage with ⟨hlast, -⟩ | ⟨hlast, -⟩ | ⟨-, hevents⟩
    · exact absurd hlast.2 (Nat.not_lt.mpr hbody.1)
    · exact absurd hlast.2 (Nat.not_lt.mpr hbody.1)
    · exact hevents

/-- Coming to the place behind the one where control was last. -/
theorem stage_next (hcalls : HasCalls img e entryOf cs) (hhas : e.Has g.pc.toNat) (hplace : g.pc.toNat = w.last + 1) (hstart : e.InStart w.last)
    {p : Nat} (hevents : (w.next e p g.pc).events = ctorScript entryOf e.calls (cs.take (w.last + 1 - e.calls))) :
    Progress e entryOf cs g (w.next e p g.pc) := by
  have hlen := hcalls.length
  have hlast : (w.next e p g.pc).last = w.last + 1 := (next_last_of_has hhas).trans hplace
  refine ⟨fun _ => (next_last_of_has hhas).symm, ?_⟩
  rw [hlast, hevents]
  by_cases hmore : w.last + 1 < e.body
  · exact Or.inl ⟨⟨Nat.le_succ_of_le hstart.1, hmore⟩, Or.inl hhas, rfl⟩
  · have hdone : w.last + 1 = e.body := Nat.le_antisymm hstart.2 (Nat.not_lt.mp hmore)
    rw [hplace] at hhas
    refine Or.inr (Or.inr ⟨⟨Nat.le_of_eq hdone.symm, hhas.2⟩, ?_⟩)
    rw [List.take_of_length_le (by omega)]

/-- One step of a run that stays out of the code of the entry function. -/
theorem progress_step (hcalls : HasCalls img e entryOf cs) (himg : img.Wf) (h : Progress e entryOf cs f w)
    (hstep : build.step img host f = .val () g) (hok : StaysOut e img w f g) : Progress e entryOf cs g (w.next e f.pc.toNat g.pc) := by
  have hlen := hcalls.length
  have hle := hcalls.start_le
  -- a step into the code of the entry is no call
  have hinto : e.Has g.pc.toNat → g.pc.toNat = w.last + 1 ∨ (e.InBody w.last ∧ e.InBody g.pc.toNat) := by
    intro hhas
    exact hok.others (fun fid hnext => hok.calls fid hnext hhas) hhas
  have hcallHas : ∀ p, e.IsCall p → e.Has p := fun p hp => ⟨Nat.le_trans hle hp.1, Nat.lt_of_lt_of_le hp.2 hcalls.body_le⟩
  rcases h.stage with ⟨hstart, hhere, hevents⟩ | ⟨hlast, hout, hevents⟩ | ⟨hin, hevents⟩
  · have hbehind : e.Has g.pc.toNat → g.pc.toNat = w.last + 1 := by
      intro hhas
      exact (hinto hhas).resolve_right fun hboth => absurd hstart.2 (Nat.not_lt.mpr hboth.1.1)
    by_cases hcall : e.IsCall f.pc.toNat
    · -- the start-up code enters a constructor
      obtain ⟨⟨fid, hnext⟩, hpc⟩ := start_call hcalls himg hcall hstep
      have hnot := hok.calls fid hnext
      have hplace := h.here (hcallHas _ hcall)
      refine ⟨fun hhas => absurd hhas hnot, Or.inr (Or.inl ?_)⟩
      rw [next_last_of_not hnot, next_events_call _ hcall, hevents]
      rw [hplace] at hcall hpc
      refine ⟨hcall, hnot, ?_⟩
      rw [hpc]
    · have hlast : ¬ e.IsCall w.last := by
        rcases hhere with hhas | hlast
        · rw [← h.here hhas]
          exact hcall
        · exact hlast
      have hsame : (w.next e f.pc.toNat g.pc).events = w.events := next_events_else hcall fun hboth => hlast hboth.2
      by_cases hhas : e.Has g.pc.toNat
      · refine stage_next hcalls hhas (hbehind hhas) hstart ?_
        have hbefore : w.last < e.calls := by
          by_contra hge
          exact hlast ⟨Nat.not_lt.mp hge, hstart.2⟩
        have hnone : w.last + 1 - e.calls = w.last - e.calls := by omega
        rw [hsame, hevents, hnone]
      · refine ⟨fun hhas' => absurd hhas' hhas, Or.inl ?_⟩
        rw [next_last_of_not hhas, hsame]
        exact ⟨hstart, Or.inr hlast, hevents⟩
  · have hcall : ¬ e.IsCall f.pc.toNat := fun hcall => hout (hcallHas _ hcall)
    by_cases hhas : e.Has g.pc.toNat
    · -- a constructor has come back
      have hplace : g.pc.toNat = w.last + 1 :=
        (hinto hhas).resolve_right fun hboth => absurd hlast.2 (Nat.not_lt.mpr hboth.1.1)
      refine stage_next hcalls hhas hplace ⟨Nat.le_trans hle hlast.1, hlast.2⟩ ?_
      have hsucc : w.last + 1 - e.calls = w.last - e.calls + 1 := Nat.sub_add_comm hlast.1
      have hback : e.calls + (w.last - e.calls) + 1 = g.pc.toNat := by
        rw [Nat.add_sub_cancel' hlast.1, hplace]
      rw [next_events_back hcall hhas hplace hlast, hevents, hsucc, ctorScript_take_succ entryOf e.calls (index_lt hcalls hlast), hback]
      exact List.append_assoc ..
    · refine ⟨fun hhas' => absurd hhas' hhas, Or.inr (Or.inl ?_)⟩
      rw [next_last_of_not hhas, next_events_else hcall fun hboth => hhas hboth.1]
      exact ⟨hlast, hhas, hevents⟩
  · -- in the body nothing is entered any more
    have hcall : ¬ e.IsCall f.pc.toNat := by
      intro hcall
      rw [h.here (hcallHas _ hcall)] at hcall
      exact absurd hcall.2 (Nat.not_lt.mpr hin.1)
    have hlast : ¬ e.IsCall w.last := fun hlast => absurd hlast.2 (Nat.not_lt.mpr hin.1)
    refine ⟨fun hhas => (next_last_of_has hhas).symm, Or.inr (Or.inr ?_)⟩
    rw [next_events_else hcall fun hboth => hlast hboth.2]
    refine ⟨?_, hevents⟩
    by_cases hhas : e.Has g.pc.toNat
    · rw [next_last_of_has hhas]
      rcases hinto hhas with hnext | ⟨-, hin'⟩
      · exact ⟨by rw [hnext]; exact Nat.le_succ_of_le hin.1, hhas.2⟩
      · exact hin'
    · rw [next_last_of_not hhas]
      exact hin

/-- A whole run, by induction on its steps. -/
theorem progress_of_run (hcalls : HasCalls img e entryOf cs) (himg : img.Wf) (hstart : f₀.pc.toNat = e.start)
    (hrun : WatchedRun build img host e (StaysOut e img) f₀ f w) (hsome : e.start < e.body) : Progress e entryOf cs f w := by
  induction hrun with
  | start =>
    refine ⟨fun _ => hstart, Or.inl ⟨⟨Nat.le_refl _, hsome⟩, Or.inl ⟨Nat.le_of_eq hstart.symm, ?_⟩, ?_⟩⟩
    · rw [hstart]
      exact Nat.lt_of_lt_of_le hsome hcalls.body_le
    · have hnone : e.start - e.calls = 0 := Nat.sub_eq_zero_of_le hcalls.start_le
      dsimp only
      rw [hnone, List.take_zero]
      rfl
  | step _ hstep hok ih => exact progress_step hcalls himg ih hstep hok

/-! ## The written file -/

/-- A run from the entry point starts at the entry of the image. -/
theorem pc_of_start {args : List Word} (hstart : Start.run .runArgs build img host args 0 f = .val () f₀) : f₀.pc = img.entry := by
  have hwlp : Exec.wlp (Start.run .runArgs build img host args 0) (fun _ g => g.pc = img.entry) f := by
    simp only [Start.run, Start.pc, cvmExecAt, enter, Exec.iterate, Exec.wlp_bind, Exec.wlp_pure, Exec.wlp_ite, Exec.wlp_demand,
      Exec.wlp_modify, wlp_failIf, wlp_setReg, store32, wlp_writeAt]
    exact fun _ _ _ _ => ⟨fun _ _ => trivial, fun _ => trivial⟩
  exact hwlp () f₀ hstart

/-- Every constructor is a function of the module. -/
theorem lt_of_mem_ctors {funcs : List Nat} {elems : List (Option CtorElem)} {c : Nat} (h : c ∈ cgCollectGlobalCtors funcs elems) :
    c < funcs.length := by
  obtain ⟨x, hx, rfl⟩ := List.mem_map.mp h
  obtain ⟨elem, -, helem⟩ := List.mem_filterMap.mp ((sortedCtors_sorted funcs elems).perm.mem_iff.mp hx)
  obtain ⟨elem, rfl, hentry⟩ := Option.bind_eq_some_iff.mp helem
  unfold ctorOf? at hentry
  split at hentry
  · nomatch hentry
  · split at hentry
    · split at hentry
      · nomatch hentry
      · rename_i fi hidx
        rw [← Option.some.inj hentry]
        exact (List.idxOf?_eq_some_iff.mp hidx).1
    · nomatch hentry

/-- The image of a written file has the calls of the constructors in front of the body. -/
theorem hasCalls_of_written {src : BinSource} {funcs : List Nat} {elems : List (Option CtorElem)} (h : EntryWritten src funcs elems e)
    (hcarries : Carries src img) :
    HasCalls img e (fun c => src.funcs.getD c 0) (cgCollectGlobalCtors funcs elems) ∧ e.start < e.body := by
  obtain ⟨cg, cg', ws, rest, hrun, hws, hat, hbody, hcalls, hstop⟩ := h.code
  obtain ⟨front, hfront, hcode⟩ := cgPrologue_code hrun
  have hsplit : ws = front ++ (cgCollectGlobalCtors funcs elems).map ctorCall := List.append_cancel_left (hws.symm.trans hcode)
  have hlen : ws.length = front.length + (cgCollectGlobalCtors funcs elems).length := by
    rw [hsplit, List.length_append, List.length_map]
  have hfuncs : ∀ k < (cgCollectGlobalCtors funcs elems).length, (cgCollectGlobalCtors funcs elems).getD k 0 < funcs.length := by
    intro k hk
    rw [List.getD_eq_getElem?_getD, List.getElem?_eq_getElem hk, Option.getD_some]
    exact lt_of_mem_ctors (List.getElem_mem hk)
  refine ⟨⟨by omega, hcalls, by omega, ?_, ?_, ?_⟩, by omega⟩
  · intro k hk
    rw [hsplit] at hat
    have hplace : e.start + front.length = e.calls := by omega
    have hword := hat.left.right.getElem? (k := k) (by rw [List.length_map]; exact hk)
    rw [hplace] at hword
    rw [hcarries.code, hword, List.getElem?_map, List.getElem?_eq_getElem hk, List.getD_eq_getElem?_getD, List.getElem?_eq_getElem hk]
    rfl
  · intro k hk
    have := hfuncs k hk
    have := h.slots
    unfold cvmFnSlot at *
    omega
  · intro k hk
    have hc := hfuncs k hk
    rw [← h.length_funcs] at hc
    have hemit : src.emitFuncs = true := h.emitFuncs (List.ne_nil_of_length_pos (Nat.zero_lt_of_lt hk))
    rw [List.getD_eq_getElem?_getD, cvmFnSlot, hcarries.func_offset hemit _ hc, Option.getD_some]
    rw [List.getD_eq_getElem?_getD (l := src.funcs), List.getElem?_eq_getElem hc, Option.getD_some]

end CtorsAux

/-- The events of a run are those of the constructors of the module: each of them in ascending priority, those of one priority in the
order of the list. -/
def CtorsRunOnce (src : BinSource) (funcs : List Nat) (elems : List (Option CtorElem)) (e : EntryCode) (g : Frame κ W) (w : Watch) : Prop :=
  ∃ ctors arr, ListedCtors funcs elems ctors ∧ SortedByPriority ctors arr ∧
    RunsOnce e (ctorScript (fun c => src.funcs.getD c 0) e.calls (arr.map Prod.snd)) g w

namespace CtorsAux

/-! ## An entry that calls itself -/

/-- `void main(void) { main(); }` -/
def mainFn : Ir.Func where
  name := "main"
  params := []
  vararg := false
  blocks := [⟨0, [{ id := 0, op := .call, ty := .void, operands := [.const (.func 0)], callee := "main" },
    { id := 1, op := .ret, ty := .void, operands := [] }]⟩]

/-- `void init(void) {}`, the constructor. -/
def initFn : Ir.Func where
  name := "init"
  params := []
  vararg := false
  blocks := [⟨0, [{ id := 0, op := .ret, ty := .void, operands := [] }]⟩]

def mainSrcs : List FnSource :=
  [{ id := 0, fn := mainFn, gep := fun _ => none, varargCall := fun _ => false },
    { id := 1, fn := initFn, gep := fun _ => none, varargCall := fun _ => false }]

def mainElems : List (Option CtorElem) := [some { priority := some 65535, fn := some (.func 1) }]

def mainInfo : ModInfo where
  td := Globals.target32
  funcByName _ := none

/-- The code generator before the first function. -/
def mainCg : CgFn :=
  { code := [], map := [], nextReg := 8, freeList := [], zeroReg := cgRegZero, allocaBytes := 0, spillBytes := 0, valSpillCount := 0,
    frameBytes := 0, ssaRegHigh := 8, globals := [], funcs := [0, 1], curBlock := 0, blocks := [], blockOffsets := [], fixups := [],
    tableFixups := [], dataBytes := [] }

/-- The file of the module. -/
def recursiveMain : BinSource :=
  { code := [encI16 .movi cgRegZero 0, encI24 .call 4, encI24 .call 2, encR .ret 0 0 0, encI16 .movi cgRegZero 0, encR .ret 0 0 0],
    data := [], heapReserve := 0, stackReserve := 64, imports := [], funcs := [0, 4], emitFuncs := true, regions := [], rom := [],
    metadata := [], sealed := false, entry := 0 }

def mainCode : EntryCode := ⟨0, 1, 2, 4⟩

theorem recursiveMain_valid : recursiveMain.Valid :=
  .of_bare rfl rfl (by decide) (by decide) (by simp [recursiveMain]) (by decide) (by decide +kernel) (by decide)

theorem recursiveMain_loads : ∃ (img : Image Unit) (t : LoadState Nat),
    cvmLoadEx bumpAllocator (writeBin recursiveMain) (LoadState.start 0) = .val img t :=
  Outcome.exists_of_isVal (by decide +kernel)

theorem recursiveMain_translated : Translated recursiveMain mainInfo mainSrcs 0 (cgCollectGlobalCtors [0, 1] mainElems) := by
  have hrun : (cgFunctions mainInfo (fun k => if k = 0 then cgCollectGlobalCtors [0, 1] mainElems else []) mainSrcs 0 mainCg).holds
      (fun entries cg => cg.code == recursiveMain.code && entries == [⟨0, 0⟩, ⟨4, 0⟩]) = true := by decide +kernel
  obtain ⟨entries, cg, hcg, hall⟩ := Outcome.exists_of_holds hrun
  obtain ⟨hcode, hentries⟩ := (Bool.and_eq_true _ _).mp hall
  obtain rfl : entries = [⟨0, 0⟩, ⟨4, 0⟩] := eq_of_beq hentries
  exact ⟨mainCg, cg, _, hcg, rfl, rfl, (eq_of_beq hcode).symm, rfl⟩

theorem recursiveMain_written : EntryWritten recursiveMain [0, 1] mainElems mainCode where
  length_funcs := rfl
  slots := by decide
  emitFuncs _ := rfl
  start := rfl
  code := ⟨mainCg.toCg, mainCg.toCg.emit [encI16 .movi cgRegZero 0, encI24 .call 4], [encI16 .movi cgRegZero 0, encI24 .call 4],
    [encI24 .call 2, encR .ret 0 0 0], by rfl, rfl, ⟨[], [encI16 .movi cgRegZero 0, encR .ret 0 0 0], rfl, rfl⟩, rfl, by decide, rfl⟩

/-- The next instruction is a call. -/
def isCallNext (img : Image Unit) (f : Frame Unit Unit) : Bool :=
  instOp (img.code.getD f.pc.toNat 0) = Opcode.call.code ∨ instOp (img.code.getD f.pc.toNat 0) = Opcode.callr.code

/-- The test finds each call. -/
theorem isCallNext_of_nextCall {img : Image Unit} {f : Frame Unit Unit} {fid : Word} (h : NextCall img f fid) : isCallNext img f = true := by
  obtain ⟨w, ⟨⟨hw, hop⟩, -⟩ | ⟨⟨hw, hop⟩, -⟩⟩ := h
  · rw [← hw] at hop
    exact decide_eq_true (Or.inl hop)
  · rw [← hw] at hop
    exact decide_eq_true (Or.inr hop)

/-- What the test finds is a call. -/
theorem nextCall_of_isCallNext {img : Image Unit} {f : Frame Unit Unit} (h : isCallNext img f = true) : ∃ fid, NextCall img f fid := by
  rcases of_decide_eq_true h with hop | hop
  · exact ⟨_, _, Or.inl ⟨⟨rfl, hop⟩, rfl⟩⟩
  · exact ⟨_, _, Or.inr ⟨⟨rfl, hop⟩, rfl⟩⟩

/-- `StaysOut`, computed. -/
def staysOut (e : EntryCode) (img : Image Unit) (w : Watch) (f g : Frame Unit Unit) : Bool :=
  if isCallNext img f = true then ¬ e.Has g.pc.toNat
  else e.Has g.pc.toNat → g.pc.toNat = w.last + 1 ∨ (e.InBody w.last ∧ e.InBody g.pc.toNat)

/-- The test is enough for the condition on a step. -/
theorem staysOut_spec {e : EntryCode} {img : Image Unit} {w : Watch} {f g : Frame Unit Unit} (h : staysOut e img w f g = true) :
    StaysOut e img w f g := by
  unfold staysOut at h
  by_cases hcall : isCallNext img f = true
  · rw [if_pos hcall] at h
    obtain ⟨fid, hnext⟩ := nextCall_of_isCallNext hcall
    exact ⟨fun _ _ => of_decide_eq_true h, fun hnone => absurd hnext (hnone fid)⟩
  · rw [if_neg hcall] at h
    exact ⟨fun _ hnext => absurd (isCallNext_of_nextCall hnext) hcall, fun _ => of_decide_eq_true h⟩

/-- `n` steps, watched, as long as they pass a check. -/
def watchSteps (check : Watch → Frame Unit Unit → Frame Unit Unit → Bool) (img : Image Unit) (e : EntryCode) :
    Nat → Frame Unit Unit → Watch → Option (Frame Unit Unit × Watch)
  | 0, f, w => some (f, w)
  | n + 1, f, w =>
    match Build.threaded.step img quietHost f with
    | .val _ g => if check w f g then watchSteps check img e n g (w.next e f.pc.toNat g.pc) else none
    | _ => none

/-- Steps that all pass a test are a run. -/
theorem watchSteps_run {check : Watch → Frame Unit Unit → Frame Unit Unit → Bool} {ok : Watch → Frame Unit Unit → Frame Unit Unit → Prop}
    (hcheck : ∀ w f g, check w f g = true → ok w f g) {img : Image Unit} {e : EntryCode} {f₀ f g : Frame Unit Unit} {w w' : Watch} {n : Nat}
    (hrun : WatchedRun .threaded img quietHost e ok f₀ f w) (h : watchSteps check img e n f w = some (g, w')) :
    WatchedRun .threaded img quietHost e ok f₀ g w' := by
  induction n generalizing f w with
  | zero =>
    rw [watchSteps, Option.some.injEq, Prod.mk.injEq] at h
    rw [← h.1, ← h.2]
    exact hrun
  | succ n ih =>
    rw [watchSteps] at h
    split at h
    · rename_i u g' hstep
      split at h
      · rename_i hpass
        exact ih (.step hrun hstep (hcheck _ _ _ hpass)) h
      · nomatch h
    · nomatch h

/-- A watched run of the loaded file. -/
def mainRun (check : Image Unit → Watch → Frame Unit Unit → Frame Unit Unit → Bool) (n : Nat) : Option (Frame Unit Unit × Watch) :=
  match (cvmLoadEx bumpAllocator (writeBin recursiveMain) (LoadState.start 0) : Outcome _ _ (Image Unit)) with
  | .val img _ =>
    match Start.run .runArgs .threaded img quietHost [] 0 (recursionStart img) with
    | .val _ f₀ => watchSteps (check img) img mainCode n f₀ ⟨0, []⟩
    | _ => none
  | _ => none

/-- A run of the file of `main` from the loader on. -/
theorem exists_mainRun {check : Image Unit → Watch → Frame Unit Unit → Frame Unit Unit → Bool}
    {ok : Image Unit → Watch → Frame Unit Unit → Frame Unit Unit → Prop} (hcheck : ∀ img w f g, check img w f g = true → ok img w f g)
    {n : Nat} {events : List CtorEvent} (hrun : (mainRun check n).map (fun r => r.2.events) = some events) :
    ∃ (img : Image Unit) (t : LoadState Nat) (f₀ g : Frame Unit Unit) (w : Watch),
      cvmLoadEx bumpAllocator (writeBin recursiveMain) (LoadState.start 0) = .val img t ∧
      Start.run .runArgs .threaded img quietHost [] 0 (recursionStart img) = .val () f₀ ∧
      WatchedRun .threaded img quietHost mainCode (ok img) f₀ g w ∧ w.events = events := by
  obtain ⟨img, t, hload⟩ := recursiveMain_loads
  unfold mainRun at hrun
  rw [hload] at hrun
  dsimp only at hrun
  cases hstart : Start.run .runArgs .threaded img quietHost [] 0 (recursionStart img) with
  | val u f₀ =>
    rw [hstart] at hrun
    obtain ⟨⟨g, w⟩, hsteps, hevents⟩ := Option.map_eq_some_iff.mp hrun
    exact ⟨img, t, f₀, g, w, hload, hstart, watchSteps_run (hcheck img) .start hsteps, hevents⟩
  | stop _ _ =>
    rw [hstart] at hrun
    nomatch hrun
  | oob =>
    rw [hstart] at hrun
    nomatch hrun

end CtorsAux

end CronoVM
