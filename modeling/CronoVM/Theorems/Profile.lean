import CronoVM.Interp.Profile
import CronoVM.Lemmas.Accepted

/-!
# Attribution by the profiler

`PROF_TICK` searches the slots below half the length of the function table. The translator's table ends with the slot of the last function,
so that this function is never found.
-/

namespace CronoVM

variable {funcOffsets : List Word} {pc : Word} {n : Nat}

/-- The table of a program with `n` functions: the entry of function `s` in slot `2 * s`, up to the last one, in ascending order. -/
structure FuncsLayout (funcOffsets : List Word) (n : Nat) : Prop where
  pos : 1 ≤ n
  length : funcOffsets.length = 2 * n + 1
  ascending : ∀ s, 1 ≤ s → s < n → profEntry funcOffsets s ≤ profEntry funcOffsets (s + 1)

/-- The function that an instruction is in. -/
structure Owns (funcOffsets : List Word) (n s : Nat) (pc : Word) : Prop where
  pos : 1 ≤ s
  le : s ≤ n
  entry_le : profEntry funcOffsets s ≤ pc
  lt_next : s = n ∨ pc < profEntry funcOffsets (s + 1)

/-- One more instruction for function `s`. -/
def Charged (p p' : Prof) (s : Nat) : Prop := s < p.counts.length ∧ p'.counts = p.counts.modify s (· + 1)

/-- Every instruction of a trace is charged to the function that it is in. -/
def ChargesOwners (funcOffsets : List Word) (codeCount : Word) (cap : BitVec 64) (n : Nat) (p : Prof) (trace : List Word) : Prop :=
  ∀ before pc behind, trace = before ++ pc :: behind → ∀ s, Owns funcOffsets n s pc →
    Charged (profRun funcOffsets codeCount cap p before) (profRun funcOffsets codeCount cap p (before ++ [pc])) s

namespace ProfileAux

/-! ## The search -/

/-- What the search finds among the slots below `ns`: the last entry at or before an instruction, or none. -/
structure Found (funcOffsets : List Word) (ns : Nat) (pc : Word) (r : Nat) : Prop where
  lt : r + 1 ≤ ns
  entry_le : 1 ≤ r → profEntry funcOffsets r ≤ pc
  lt_next : r + 1 < ns → pc < profEntry funcOffsets (r + 1)

/-- The search between two slots that enclose the pc ends at its function. -/
theorem profSearch_found {ns lo hi ans : Nat} (hans : ans + 1 = lo) (hlo : lo ≤ hi) (hhi : hi ≤ ns)
    (hbelow : 1 ≤ ans → profEntry funcOffsets ans ≤ pc) (habove : hi < ns → pc < profEntry funcOffsets hi) :
    Found funcOffsets ns pc (profSearch funcOffsets pc lo hi ans) := by
  induction lo, hi, ans using profSearch.induct funcOffsets pc with
  | case1 lo hi ans hlt m hle ih =>
    rw [profSearch, if_pos hlt]
    dsimp only
    rw [if_pos hle]
    exact ih rfl (by omega) hhi (fun _ => hle) habove
  | case2 lo hi ans hlt m hnot ih =>
    rw [profSearch, if_pos hlt]
    dsimp only
    rw [if_neg hnot]
    exact ih hans (by omega) (by omega) hbelow fun _ => BitVec.not_le.mp hnot
  | case3 lo hi ans hend =>
    have heq : ans + 1 = hi := by omega
    rw [profSearch, if_neg hend]
    exact ⟨heq ▸ hhi, hbelow, fun hlt => heq ▸ habove (heq ▸ hlt)⟩

section layout

variable (codeCount pc : Word) (cap : BitVec 64) (hlayout : FuncsLayout funcOffsets n)
include hlayout

/-- Half the length of the table is the number of its slots. -/
theorem half_length : funcOffsets.length / 2 = n := by
  have hlength := hlayout.length
  omega

/-- The functions stand one behind the other. -/
theorem entry_mono {s t : Nat} (hs : 1 ≤ s) (hst : s ≤ t) (ht : t ≤ n) : profEntry funcOffsets s ≤ profEntry funcOffsets t := by
  induction t with
  | zero => omega
  | succ t ih =>
    rcases Nat.lt_or_eq_of_le hst with hlt | rfl
    · exact BitVec.le_trans (ih (by omega) (by omega)) (hlayout.ascending t (by omega) (by omega))
    · exact BitVec.le_refl _

/-- The entries in order leave one answer. -/
theorem found_unique {r r' : Nat} (h : Found funcOffsets n pc r) (h' : Found funcOffsets n pc r') : r = r' := by
  have hbefore : ∀ {a b : Nat}, Found funcOffsets n pc a → Found funcOffsets n pc b → ¬a < b := by
    intro a b ha hb hlt
    have hble := hb.lt
    have hmono := entry_mono hlayout (Nat.succ_pos a) hlt (by omega)
    have hnext := ha.lt_next (by omega)
    exact BitVec.not_le.mpr (Nat.lt_of_lt_of_le hnext hmono) (hb.entry_le (by omega))
  have hlt := hbefore h h'
  have hgt := hbefore h' h
  omega

omit hlayout in
/-- A function before the last is what the search finds for its instructions. -/
theorem found_of_owns {s : Nat} (h : Owns funcOffsets n s pc) (hlt : s < n) : Found funcOffsets n pc s :=
  ⟨hlt, fun _ => h.entry_le, fun _ => h.lt_next.resolve_left (Nat.ne_of_lt hlt)⟩

/-! ## The cache -/

omit hlayout in
/-- The cached function is what the search would find for all of its range. -/
def CacheOk (funcOffsets : List Word) (n : Nat) (p : Prof) : Prop := ∀ pc, p.lo ≤ pc → pc < p.hi → Found funcOffsets n pc p.cur

/-- After a search the cache is right for the pc. -/
theorem cacheOk_profRefresh (p : Prof) : CacheOk funcOffsets n (profRefresh funcOffsets codeCount pc p) ∧
    Found funcOffsets n pc (profRefresh funcOffsets codeCount pc p).cur := by
  have hfound : Found funcOffsets n pc (profSearch funcOffsets pc 1 n 0) :=
    profSearch_found rfl hlayout.pos (Nat.le_refl n) (fun h => absurd h (by decide)) fun h => absurd h (Nat.lt_irrefl n)
  unfold profRefresh CacheOk
  rw [half_length hlayout]
  dsimp only
  generalize profSearch funcOffsets pc 1 n 0 = r at hfound ⊢
  refine ⟨fun pc' hlo hhi => ⟨hfound.lt, fun hr => ?_, fun hr => ?_⟩, hfound⟩
  · rwa [if_pos (Nat.ne_of_gt hr)] at hlo
  · rwa [if_pos hr] at hhi

/-- A tick charges what the search finds, whatever is cached. -/
theorem profTick_spec {p : Prof} (hcache : CacheOk funcOffsets n p) : ∃ r, Found funcOffsets n pc r ∧
    CacheOk funcOffsets n (profTick funcOffsets codeCount cap pc p).1 ∧
    (profTick funcOffsets codeCount cap pc p).1.counts = if r < p.counts.length then p.counts.modify r (· + 1) else p.counts := by
  unfold profTick
  dsimp only
  by_cases hmiss : pc < p.lo ∨ pc ≥ p.hi
  · obtain ⟨hcache', hfound⟩ := cacheOk_profRefresh codeCount pc hlayout p
    rw [if_pos hmiss]
    exact ⟨_, hfound, hcache', rfl⟩
  · rw [if_neg hmiss]
    have hlo : p.lo ≤ pc := BitVec.not_lt.mp fun h => hmiss (Or.inl h)
    have hhi : pc < p.hi := BitVec.not_le.mp fun h => hmiss (Or.inr h)
    exact ⟨p.cur, hcache pc hlo hhi, hcache, rfl⟩

/-- A sample leaves the number of counters. -/
theorem length_profTick {p : Prof} (hcache : CacheOk funcOffsets n p) :
    (profTick funcOffsets codeCount cap pc p).1.counts.length = p.counts.length := by
  obtain ⟨r, -, -, hcounts⟩ := profTick_spec codeCount pc cap hlayout hcache
  rw [hcounts]
  split
  · exact List.length_modify _ _ _
  · rfl

/-- The cache is right after every trace. -/
theorem profRun_spec {p : Prof} (hcache : CacheOk funcOffsets n p) (trace : List Word) :
    CacheOk funcOffsets n (profRun funcOffsets codeCount cap p trace) ∧
      (profRun funcOffsets codeCount cap p trace).counts.length = p.counts.length := by
  induction trace generalizing p with
  | nil => exact ⟨hcache, rfl⟩
  | cons pc trace ih =>
    obtain ⟨r, -, hcache', -⟩ := profTick_spec codeCount pc cap hlayout hcache
    have hrest := ih hcache'
    rw [length_profTick codeCount pc cap hlayout hcache] at hrest
    exact hrest

end layout

/-- One more sample. -/
theorem profRun_snoc (codeCount : Word) (cap : BitVec 64) (p : Prof) (before : List Word) (pc : Word) : profRun funcOffsets codeCount cap p (before ++ [pc]) =
    (profTick funcOffsets codeCount cap pc (profRun funcOffsets codeCount cap p before)).1 := by
  unfold profRun
  rw [List.foldl_append]
  rfl

/-- Different counters differ afterwards. -/
theorem modify_ne {counts : List (BitVec 64)} {r s : Nat} (hne : r ≠ s) (hs : s < counts.length) :
    (if r < counts.length then counts.modify r (· + 1) else counts) ≠ counts.modify s (· + 1) := by
  intro heq
  have hget : (counts.modify s (· + 1))[s]? = counts[s]? := by
    rw [← heq]
    split
    · exact List.getElem?_modify_ne _ _ hne
    · rfl
  rw [List.getElem?_modify_eq, List.getElem?_eq_getElem hs] at hget
  exact absurd (BitVec.add_right_eq_self.mp (Option.some.inj hget)) (by decide)

section layout

variable (codeCount pc : Word) (cap : BitVec 64) (hlayout : FuncsLayout funcOffsets n) {p : Prof} (hcache : CacheOk funcOffsets n p)
include hlayout hcache

/-- Nothing is charged to the last function. -/
theorem last_not_charged : ¬Charged p (profTick funcOffsets codeCount cap pc p).1 n := by
  obtain ⟨r, hfound, -, htick⟩ := profTick_spec codeCount pc cap hlayout hcache
  rintro ⟨hlt, hcounts⟩
  have hle := hfound.lt
  rw [htick] at hcounts
  exact modify_ne (by omega) hlt hcounts

/-- An instruction of another function is charged to it. -/
theorem charged_of_lt {s : Nat} (howns : Owns funcOffsets n s pc) (hbefore : pc < profEntry funcOffsets n) (hcount : n < p.counts.length) :
    Charged p (profTick funcOffsets codeCount cap pc p).1 s := by
  obtain ⟨r, hfound, -, htick⟩ := profTick_spec codeCount pc cap hlayout hcache
  have hlt : s < n := by
    refine Nat.lt_of_le_of_ne howns.le fun heq => ?_
    exact BitVec.not_le.mpr hbefore (heq ▸ howns.entry_le)
  have hr : r = s := found_unique pc hlayout hfound (found_of_owns pc howns hlt)
  rw [hr, if_pos (Nat.lt_trans hlt hcount)] at htick
  exact ⟨Nat.lt_trans hlt hcount, htick⟩

end layout

/-- The empty cache is right. -/
theorem cacheOk_start (funcOffsets : List Word) (n count : Nat) : CacheOk funcOffsets n (cvmProfileReset count) := fun _ _ hlt => absurd hlt BitVec.not_lt_zero

end ProfileAux

open ProfileAux

/-- All instructions of a trace are charged to their functions exactly if none of them is in the last function. -/
theorem charges_owners_iff (hlayout : FuncsLayout funcOffsets n) (codeCount : Word) (cap : BitVec 64) (trace : List Word) :
    ChargesOwners funcOffsets codeCount cap n (cvmProfileReset funcOffsets.length) trace ↔ ∀ pc ∈ trace, pc < profEntry funcOffsets n := by
  have hstart := cacheOk_start funcOffsets n funcOffsets.length
  constructor
  · intro hcharges pc hpc
    obtain ⟨before, behind, htrace⟩ := List.append_of_mem hpc
    obtain ⟨hcache, -⟩ := profRun_spec codeCount cap hlayout hstart before
    refine BitVec.not_le.mp fun hlast => ?_
    have hcharged := hcharges before pc behind htrace n ⟨hlayout.pos, Nat.le_refl n, hlast, Or.inl rfl⟩
    rw [profRun_snoc] at hcharged
    exact last_not_charged codeCount pc cap hlayout hcache hcharged
  · intro hbefore before pc behind htrace s howns
    obtain ⟨hcache, hlength⟩ := profRun_spec codeCount cap hlayout hstart before
    have hlast := hbefore pc (htrace ▸ List.mem_append_right before List.mem_cons_self)
    rw [profRun_snoc]
    refine charged_of_lt codeCount pc cap hlayout hcache howns hlast ?_
    rw [hlength, cvmProfileReset, List.length_replicate, hlayout.length]
    omega

/-! ## The translator's table -/

/-- The table that the translator writes for functions in ascending order. -/
theorem funcsLayout_funcsWords {src : BinSource} (hemit : src.emitFuncs = true) (hne : src.funcs ≠ [])
    (hascending : src.funcs.Pairwise fun a b => a ≤ b) : FuncsLayout src.funcsWords src.funcs.length := by
  have hpos : 0 < src.funcs.length := List.length_pos_iff.mpr hne
  have hentry : ∀ k, (hk : k < src.funcs.length) → profEntry src.funcsWords (k + 1) = src.funcs[k] := by
    intro k hk
    rw [profEntry, List.getD_eq_getElem?_getD, show (k + 1) * 2 = cvmFnSlot k from rfl, WrittenAux.funcsWords_slot hemit hk,
      List.getElem?_eq_getElem hk]
    rfl
  refine ⟨hpos, ?_, fun s hs hlt => ?_⟩
  · rw [WrittenAux.funcsWords_of hemit hne, WrittenAux.length_fillSlots, List.length_replicate, cvmFnSlot]
    omega
  · obtain ⟨k, rfl⟩ : ∃ k, s = k + 1 := ⟨s - 1, by omega⟩
    rw [hentry k (by omega), hentry (k + 1) hlt]
    exact List.pairwise_iff_getElem.mp hascending k (k + 1) (by omega) hlt (Nat.lt_succ_self k)

/-- The table of a program with functions at 0 and 3. -/
def twoFuncs : List Word := [0, 0, 0, 0, 3]

/-- The table of the two functions. -/
theorem twoFuncs_layout : FuncsLayout twoFuncs 2 :=
  ⟨by decide, rfl, fun s hs hlt => by
    obtain rfl : s = 1 := by omega
    decide⟩

/-- Both samples are charged to the first function. -/
theorem charges_owners_iff_first : ChargesOwners twoFuncs 5#32 0 2 (cvmProfileReset 5) [0#32, 2#32] := by
  refine (charges_owners_iff twoFuncs_layout 5#32 0 [0#32, 2#32]).mpr fun pc hpc => ?_
  rcases List.mem_cons.mp hpc with rfl | hpc
  · decide
  · rw [List.mem_singleton.mp hpc]
    decide

/-- The first instruction of the last function is charged to the one before. -/
theorem twoFuncs_last_lost : ¬ChargesOwners twoFuncs 5#32 0 2 (cvmProfileReset 5) [3#32] := fun hcharges =>
  last_not_charged 5#32 3#32 0 twoFuncs_layout (cacheOk_start twoFuncs 2 5)
    (hcharges [] 3#32 [] rfl 2 ⟨by decide, by decide, by decide, Or.inl rfl⟩)

end CronoVM
