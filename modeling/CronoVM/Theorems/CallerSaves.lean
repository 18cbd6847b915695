import CronoVM.Lemmas.LivePaths
import CronoVM.Theorems.Liveness

/-!
# What a caller saves

Around each instruction that becomes a call, the registers of all values that are live after it are saved, each in a slot of its own in the
part of the frame for them; the register of the result is not among them.
-/

namespace CronoVM

open Checked Ir

/-- The registers saved around the calls of a function are those its values need. -/
structure CallerSaves (fn : Func) (cg : Cg) (info : CallInfo) : Prop where
  complete : ∀ b ∈ fn.blocks, ∀ m i, b.body[m]? = some i → fn.isSpillPoint i = true → fn.graph.Reach ⟨b.id, m⟩ →
    ∀ v r, fn.graph.Live v ⟨b.id, m + 1⟩ → v ≠ i.result → cg.regOf v = some r → ∃ off, (r, off) ∈ info.saved cg i
  needed : ∀ b ∈ fn.blocks, ∀ m i, b.body[m]? = some i → fn.isSpillPoint i = true →
    ∀ r off, (r, off) ∈ info.saved cg i → cg.regOf i.result ≠ some r ∧ (bitGraph cg fn).Live (r.toNat - 8) ⟨b.id, m + 1⟩
  slots : ∀ i r off, (r, off) ∈ info.saved cg i →
    8 ≤ r.toNat ∧ r.toNat < cg.ssaRegHigh ∧ ∃ slot, off = BitVec.ofNat 32 (cg.allocaBytes + slot * 4) ∧ slot * 4 + 4 ≤ cg.spillBytes
  apart : ∀ i, (info.saved cg i).Pairwise fun e e' => e.1 ≠ e'.1 ∧ ∃ slot slot', slot ≠ slot' ∧
    e.2 = BitVec.ofNat 32 (cg.allocaBytes + slot * 4) ∧ e'.2 = BitVec.ofNat 32 (cg.allocaBytes + slot' * 4)
  invokes : ∀ i ∈ fn.insts, i.op = .invoke → ∀ v r, .loc v ∈ i.operands → cg.regOf v = some r →
    ∃ slot, info.slotOf (r.toNat - 8) = some slot ∧ slot * 4 + 4 ≤ cg.spillBytes

namespace CallerSavesAux

variable {fn : Func} {cg : Cg} {info : CallInfo}

/-- The state of the passes in front of the layout of the frame. -/
structure Passed (fn : Func) (cg : Cg) (info : CallInfo) (live : Nat → BlockLive) : Prop where
  regs : RegistersSound fn cg
  plain : ∀ v r, cg.regOf v = some r → cg.home? v = some { reg := r }
  high : cg.ssaRegHigh = cg.nextReg
  liveness : ∃ fuel, cgComputeLiveness cg fn fuel = some live
  everSpilled : info.everSpilled = (cgEverSpilled cg fn (cgComputeCallLiveouts cg fn live)).test
  callSpillSet : ∀ i, info.callSpillSet i = (cgCallSpillSet cg fn (cgComputeCallLiveouts cg fn live) i).test

variable {live : Nat → BlockLive}

/-- The bit of a register. -/
theorem Passed.bit (h : Passed fn cg info live) {v : Local} {r : Byte} (hr : cg.regOf v = some r) :
    cg.spillBitOf (.loc v) = some (r.toNat - 8) := by
  obtain ⟨hlow, hhigh, -⟩ := h.regs.range v r hr
  have hhome : cg.lookup (.loc v) = some { reg := r } := h.plain v r hr
  have hssa := h.high
  unfold Cg.spillBitOf
  rw [hhome]
  dsimp only
  rw [if_neg (by simp), if_neg (by omega)]

/-- A value with a bit in the spill sets is in the register of that bit. -/
theorem reg_of_bit {v : Local} {k : Nat} (hk : cg.spillBitOf (.loc v) = some k) :
    ∃ r, cg.regOf v = some r ∧ r.toNat = k + 8 := by
  unfold Cg.spillBitOf at hk
  split at hk
  · nomatch hk
  · rename_i home hhome
    obtain ⟨-, hk⟩ := Option.ite_none_left_eq_some.mp hk
    obtain ⟨hrange, hk⟩ := Option.ite_none_left_eq_some.mp hk
    obtain rfl := Option.some.inj hk
    have hne : home.reg ≠ cgRegSpilled := by
      intro heq
      rw [heq] at hrange
      exact hrange (Or.inl (by decide))
    refine ⟨home.reg, ?_, by omega⟩
    have hhome' : cg.home? v = some home := hhome
    unfold Cg.regOf
    rw [hhome', Option.bind_some, if_neg hne]

/-- Around a call the bits of the values that live through it are not taken by another value. -/
theorem Passed.noClobber (h : Passed fn cg info live) : fn.graph.NoClobber fun v => cg.spillBitOf (.loc v) := by
  intro p p' m v w k hreach hmove hdefs hlive hv hw
  obtain ⟨r, hr, hrk⟩ := reg_of_bit hv
  obtain ⟨r', hr', hrk'⟩ := reg_of_bit hw
  have heq : r = r' := BitVec.eq_of_toNat_eq (hrk.trans hrk'.symm)
  exact h.regs.noClobber hreach hmove hdefs hlive hr (heq ▸ hr')

/-- The registers saved around an instruction are those of its set, each in the slot of its bit. -/
theorem mem_saved {i : Inst} {r : Byte} {off : Word} : (r, off) ∈ info.saved cg i ↔
    ∃ k < cg.ssaRegHigh - 8, info.callSpillSet i k = true ∧ ∃ slot, info.slotOf k = some slot ∧ r = BitVec.ofNat 8 (8 + k) ∧
      off = BitVec.ofNat 32 (cg.allocaBytes + slot * 4) := by
  unfold CallInfo.saved
  simp only [List.mem_filterMap, List.mem_range, Option.ite_none_right_eq_some, Option.map_eq_some_iff, Prod.mk.injEq]
  constructor
  · rintro ⟨k, hk, hset, slot, hslot, rfl, rfl⟩
    exact ⟨k, hk, hset, slot, hslot, rfl, rfl⟩
  · rintro ⟨k, hk, hset, slot, hslot, rfl, rfl⟩
    exact ⟨k, hk, hset, slot, hslot, rfl, rfl⟩

/-- The bits of the sets stand for R8 to R252. -/
theorem toNat_reg {k : Nat} (hk : k < 245) : (BitVec.ofNat 8 (8 + k)).toNat = 8 + k := by
  rw [BitVec.toNat_ofNat]
  exact Nat.mod_eq_of_lt (by omega)

/-- The slot of a register that is saved somewhere. -/
theorem slot_lt {n k slot : Nat} (hk : k < n) (h : info.slotOf k = some slot) : slot * 4 + 4 ≤ (List.range n).countP info.everSpilled * 4 := by
  have hlt := slotOf_lt info hk h
  omega

/-- What the passes leave saves each value that is live after a call. -/
theorem Passed.callerSaves (hfn : fn.Ssa) (h : Passed fn cg info live) (hhigh : cg.ssaRegHigh ≤ 253) :
    CallerSaves fn (cg.layoutFrame fn info) info := by
  obtain ⟨fuel, hlive⟩ := h.liveness
  have hbytes : (cg.layoutFrame fn info).spillBytes = info.spillSlotCount cg.ssaRegHigh * 4 := rfl
  have hslots : ∀ {k : Nat}, info.everSpilled k = true → k < cg.ssaRegHigh - 8 →
      ∃ slot, info.slotOf k = some slot ∧ slot * 4 + 4 ≤ (cg.layoutFrame fn info).spillBytes := by
    intro k hever hk
    refine ⟨_, if_pos hever, ?_⟩
    rw [hbytes]
    exact slot_lt hk (if_pos hever)
  refine ⟨?_, ?_, ?_, ?_, ?_⟩
  · intro b hb m i hi hspill hreach v r hlv hne hr'
    have hr : cg.regOf v = some r := hr'
    have hmove : fn.Moves ⟨b.id, m⟩ (.inst i) ⟨b.id, m + 1⟩ := .inst hb hi
    have hbit := h.bit hr
    obtain ⟨hlow, hlt, -⟩ := h.regs.range v r hr
    have hssa := h.high
    have hset : info.callSpillSet i (r.toNat - 8) = true := by
      rw [h.callSpillSet, test_cgCallSpillSet hfn hlive hb hi hspill]
      refine ⟨hlv.image h.noClobber (hreach.move hmove) hbit, fun hown => ?_⟩
      obtain ⟨r', hr', hrk'⟩ := reg_of_bit hown
      obtain rfl : r = r' := BitVec.eq_of_toNat_eq (by omega)
      exact hne (h.regs.noClobber hreach hmove rfl hlv hr hr')
    have hever : info.everSpilled (r.toNat - 8) = true := by
      rw [h.everSpilled]
      rw [h.callSpillSet] at hset
      exact everSpilled_of_callSpillSet hset
    obtain ⟨slot, hslot, -⟩ := hslots hever (by omega)
    have hframe : (cg.layoutFrame fn info).ssaRegHigh = cg.ssaRegHigh := rfl
    refine ⟨_, mem_saved.mpr ⟨r.toNat - 8, by omega, hset, slot, hslot, BitVec.eq_of_toNat_eq ?_, rfl⟩⟩
    rw [toNat_reg (by omega)]
    omega
  · intro b hb m i hi hspill r off hmem
    obtain ⟨k, hk, hset, slot, -, rfl, -⟩ := mem_saved.mp hmem
    have hframe : (cg.layoutFrame fn info).ssaRegHigh = cg.ssaRegHigh := rfl
    have hreg := toNat_reg (k := k) (by omega)
    rw [h.callSpillSet, test_cgCallSpillSet hfn hlive hb hi hspill] at hset
    have hk' : (BitVec.ofNat 8 (8 + k)).toNat - 8 = k := by omega
    refine ⟨fun hown => hset.2 ?_, ?_⟩
    · have hown' : cg.regOf i.result = some (BitVec.ofNat 8 (8 + k)) := hown
      rw [h.bit hown', hk']
    · rw [hk']
      exact hset.1
  · intro i r off hmem
    obtain ⟨k, hk, -, slot, hslot, rfl, rfl⟩ := mem_saved.mp hmem
    have hframe : (cg.layoutFrame fn info).ssaRegHigh = cg.ssaRegHigh := rfl
    have hreg := toNat_reg (k := k) (by omega)
    refine ⟨by omega, by omega, slot, rfl, ?_⟩
    rw [hbytes]
    exact slot_lt hk hslot
  · intro i
    have hsaved : info.saved (cg.layoutFrame fn info) i = info.saved cg i := rfl
    rw [hsaved]
    have hrange : (List.range (cg.ssaRegHigh - 8)).Pairwise fun k k' => k < 245 ∧ k' < 245 ∧ k < k' := by
      refine List.Pairwise.imp_of_mem (R := fun k k' => k < k') ?_ List.pairwise_lt_range
      intro k k' hk hk' hlt
      have hk := List.mem_range.mp hk
      have hk' := List.mem_range.mp hk'
      omega
    unfold CallInfo.saved
    refine List.pairwise_filterMap.mpr (hrange.imp ?_)
    rintro k k' ⟨hk, hk', hlt⟩ e he e' he'
    obtain ⟨-, hslot⟩ := Option.ite_none_right_eq_some.mp he
    obtain ⟨-, hslot'⟩ := Option.ite_none_right_eq_some.mp he'
    obtain ⟨slot, hfirst, rfl⟩ := Option.map_eq_some_iff.mp hslot
    obtain ⟨slot', hsecond, rfl⟩ := Option.map_eq_some_iff.mp hslot'
    refine ⟨fun heq => ?_, slot, slot', ?_, rfl, rfl⟩
    · have hnat := congrArg BitVec.toNat heq
      dsimp only at hnat
      rw [toNat_reg hk, toNat_reg hk'] at hnat
      omega
    · rintro rfl
      exact hlt.ne (slotOf_inj info hfirst hsecond)
  · intro i hi hop v r hv hr'
    have hr : cg.regOf v = some r := hr'
    have hbit := h.bit hr
    obtain ⟨hlow, hlt, -⟩ := h.regs.range v r hr
    have hssa := h.high
    refine hslots ?_ (by omega)
    rw [h.everSpilled]
    exact (test_cgEverSpilled _ _).mpr (Or.inr ⟨i, hi, hop, .loc v, hv, hbit⟩)

/-- After the registers the other passes come through. -/
theorem cgPasses_eq (fn : Func) (funcByName : String → Option Nat) {cg₀ cg₁ : Cg} (h : cgPreAllocFunction fn cg₀ = .val () cg₁) :
    ∃ live, cgComputeLiveness { cg₁ with ssaRegHigh := cg₁.nextReg } fn (512 * fn.blocks.length + 1) = some live ∧
      cgPasses fn funcByName cg₀ = .val (cgCallInfo { cg₁ with ssaRegHigh := cg₁.nextReg } fn funcByName
          (cgComputeCallLiveouts { cg₁ with ssaRegHigh := cg₁.nextReg } fn live))
        (Cg.layoutFrame { cg₁ with ssaRegHigh := cg₁.nextReg } fn (cgCallInfo { cg₁ with ssaRegHigh := cg₁.nextReg } fn funcByName
          (cgComputeCallLiveouts { cg₁ with ssaRegHigh := cg₁.nextReg } fn live))) := by
  obtain ⟨live, hlive⟩ := cgComputeLiveness_exists { cg₁ with ssaRegHigh := cg₁.nextReg } fn (Nat.lt_succ_self (512 * fn.blocks.length))
  have hsome : (cgComputeLiveness { cg₁ with ssaRegHigh := cg₁.nextReg } fn (512 * fn.blocks.length + 1)).isSome = true := by
    rw [hlive]
    rfl
  refine ⟨live, hlive, ?_⟩
  unfold cgPasses
  rw [Exec.run_bind, h]
  dsimp only
  rw [Exec.run_bind, Exec.run_modify]
  dsimp only
  rw [Exec.run_bind, Exec.run_get]
  dsimp only
  rw [Exec.run_bind, Exec.run_demand_of _ hsome]
  dsimp only
  rw [Exec.run_bind, Exec.run_modify, hlive]
  rfl

/-- The passes that come through leave such a state. -/
theorem passed_of_run (hfn : fn.Ssa) {cg₀ : Cg} {funcByName : String → Option Nat} (hmap : cg₀.map = [])
    (h : cgPasses fn funcByName cg₀ = .val info cg) :
    ∃ cg₁ live, Passed fn cg₁ info live ∧ cg₁.ssaRegHigh ≤ 253 ∧ cg = cg₁.layoutFrame fn info := by
  cases hpre : cgPreAllocFunction fn cg₀ with
  | stop e cg₁ =>
    unfold cgPasses at h
    rw [Exec.run_bind, hpre] at h
    nomatch h
  | oob =>
    unfold cgPasses at h
    rw [Exec.run_bind, hpre] at h
    nomatch h
  | val u cg₁ =>
    obtain ⟨live, hlive, heq⟩ := cgPasses_eq fn funcByName hpre
    obtain ⟨rfl, rfl⟩ := Outcome.val.inj (heq.symm.trans h)
    obtain ⟨cg₂, hrun, rfl⟩ := FrameSlotsAux.preAlloc_run hpre
    have hcursor : Cursor fn (fn.allocSteps ++ []) cg₀.preAllocStart := (List.append_nil fn.allocSteps).symm ▸ cursor_start fn hmap
    obtain ⟨b, t, hregs⟩ := (hcursor.run hfn hrun).regs
    have hsound := RegistersAux.sound_of_regsAt hfn hregs
    refine ⟨{ cg₂ with freeList := [], ssaRegHigh := cg₂.nextReg }, live,
      ⟨⟨hsound.apart, hsound.noClobber, hsound.phis, hsound.range⟩, ?_, rfl, ⟨_, hlive⟩, rfl, fun _ => rfl⟩, hregs.high, rfl⟩
    intro v r hr
    obtain ⟨home, hhome, hreg⟩ := Option.bind_eq_some_iff.mp hr
    obtain ⟨hne, heq⟩ := Option.ite_none_left_eq_some.mp hreg
    obtain rfl := Option.some.inj heq
    obtain ⟨e, hfind, rfl⟩ := Option.map_eq_some_iff.mp hhome
    exact hhome.trans (congrArg some (hregs.plain e (List.mem_of_find?_eq_some hfind) hne))

end CallerSavesAux

open CallerSavesAux

/-- The passes in front of the emission note all registers that have to be saved around each call. -/
theorem caller_saves (fn : Func) (hfn : fn.Ssa) (funcByName : String → Option Nat) (cg cg' : Cg) (info : CallInfo) (hmap : cg.map = [])
    (h : cgPasses fn funcByName cg = .val info cg') : CallerSaves fn cg' info := by
  obtain ⟨cg₁, live, hpassed, hhigh, rfl⟩ := passed_of_run hfn hmap h
  exact hpassed.callerSaves hfn hhigh

theorem caller_saves_loop : ∃ cg info, cgPasses loopFn (fun _ => none) freshCg = .val info cg ∧ CallerSaves loopFn cg info := by
  obtain ⟨cg, hpre⟩ := loopFn_preAlloc
  obtain ⟨live, -, h⟩ := cgPasses_eq loopFn (fun _ => none) hpre
  exact ⟨_, _, h, caller_saves loopFn loopFn_ssa (fun _ => none) freshCg _ _ rfl h⟩

end CronoVM
