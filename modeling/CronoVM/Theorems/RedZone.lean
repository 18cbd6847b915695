import CronoVM.Lemmas.RedZone

/-!
# Red zone bookkeeping

`rz_del` empties a slot of the map without a mark, so that a pointer whose search went over that slot is no longer found. In runs without
such a deletion the map has the size of every live block, and the shadow is 1 exactly on the bytes of live blocks.
-/

namespace CronoVM

/-! ## Runs -/

/-- What a correct allocator over the heap `[hs, he)` answers to a call of a function with two registers, and the live blocks after it.
`realloc` to size 0 may free its block and return null. -/
inductive Serves (hs he : Word) (L : LiveBlocks) : RzKind → Word → Word → Word → LiveBlocks → Prop where
  | mallocNull (n x : Word) : Serves hs he L .malloc n x 0 L
  | malloc (n x res : Word) : L.Fresh hs he res n.toNat → Serves hs he L .malloc n x res (L.insert res n.toNat)
  | callocNull (n m : Word) : Serves hs he L .calloc n m 0 L
  | calloc (n m res : Word) : L.Fresh hs he res (n.toNat * m.toNat) → Serves hs he L .calloc n m res (L.insert res (n.toNat * m.toNat))
  | reallocNull (p n : Word) : Serves hs he L .realloc p n 0 L
  | reallocFree (p : Word) : Serves hs he L .realloc p 0 0 (L.erase p)
  | realloc (p n res : Word) : (L.erase p).Fresh hs he res n.toNat → Serves hs he L .realloc p n res ((L.erase p).insert res n.toNat)
  | free (p x res : Word) : Serves hs he L .free p x res (L.erase p)

/-- What happens inside a function: stores, and calls that return. -/
inductive Balanced : List RzEvent → Prop where
  | nil : Balanced []
  | store (addr sz : Word) {es : List RzEvent} : Balanced es → Balanced (.store addr sz :: es)
  | call (fid r0 r1 res : Word) {inner es : List RzEvent} :
      Balanced inner → Balanced es → Balanced (.call fid r0 r1 :: (inner ++ .ret res :: es))

/-- A condition on a call of the allocator: the map, the function, its first argument, the result, the live blocks before and after. -/
abbrev CallCondition : Type := (Nat → Word) → RzKind → Word → Word → LiveBlocks → LiveBlocks → Prop

/-- The states of the red zone, with the live blocks, in a run of a program over the heap `[hs, he)`: calls of other functions, returns,
stores, and hooked calls that a correct allocator serves, always with fewer live blocks than the map has slots. -/
inductive RedZoneRun (env : RzEnv) (hs he : Word) (ok : CallCondition) : RedZone → LiveBlocks → Prop where
  | start : RedZoneRun env hs he ok (rzSetup env hs he RedZone.initial) fun _ => none
  | call {z : RedZone} {L : LiveBlocks} (fid r0 r1 : Word) :
      RedZoneRun env hs he ok z L → rzKind z fid = none → RedZoneRun env hs he ok (rzCall z fid r0 r1) L
  | ret {z : RedZone} {L : LiveBlocks} (r0 : Word) : RedZoneRun env hs he ok z L → RedZoneRun env hs he ok (rzRet z r0) L
  | store {z : RedZone} {L : LiveBlocks} (addr sz : Word) : RedZoneRun env hs he ok z L → RedZoneRun env hs he ok (rzCheck z addr sz) L
  | served {z : RedZone} {L L' : LiveBlocks} (fid r0 r1 res : Word) (k : RzKind) {inner : List RzEvent} :
      RedZoneRun env hs he ok z L → rzKind z fid = some k → Serves hs he L k r0 r1 res L' → L'.FewerThan rzMapN.toNat →
      Balanced inner → ok z.key k r0 res L L' → RedZoneRun env hs he ok (rzRet (inner.foldl rzEvent (rzCall z fid r0 r1)) res) L'

/-- What the red zone reports is right: the sizes of live blocks and 0 for other addresses, a shadow of 1 exactly on the bytes of live
blocks, no report for a store inside a block and one for every store from the heap on with a byte of the heap outside all of them. -/
structure Accurate (hs he : Word) (z : RedZone) (L : LiveBlocks) : Prop where
  size : ∀ p s, L p = some s → (rzGet z p).toNat = s
  gone : ∀ p, L p = none → rzGet z p = 0
  shadow : ∀ a, hs.toNat ≤ a → a < he.toNat → (z.shadow (a - hs.toNat) = 1 ↔ L.Covers a)
  inside : ∀ p s addr sz, L p = some s → p.toNat ≤ addr.toNat → addr.toNat + sz.toNat ≤ p.toNat + s → rzCheck z addr sz = z
  outside : ∀ addr sz : Word, hs.toNat ≤ addr.toNat → addr.toNat + sz.toNat < 2 ^ 32 →
    (∃ a, addr.toNat ≤ a ∧ a < addr.toNat + sz.toNat ∧ a < he.toNat ∧ ¬ L.Covers a) → (rzCheck z addr sz).on = .reported

/-- Nothing is deleted from the map that another pointer's search goes over, and no block is freed by a `realloc` that returns null. -/
def KeepsChains : CallCondition := fun key k p res L L' =>
  (k = .free → ClearPath key p) ∧ (k = .realloc → if res = 0 then L' = L else res ≠ p → ClearPath key p)

namespace RedZoneAux

open LiveBlocks

variable {hs he : Word} {z : RedZone} {L L' : LiveBlocks}

/-! ## The allocator -/

/-- A correct allocator keeps the blocks apart and inside the heap. -/
theorem Serves.sound {k : RzKind} {r0 r1 res : Word} (h : L.Sound hs he) (hserves : Serves hs he L k r0 r1 res L') : L'.Sound hs he := by
  cases hserves with
  | mallocNull => exact h
  | malloc n x res hf => exact h.insert hf
  | callocNull => exact h
  | calloc n m res hf => exact h.insert hf
  | reallocNull => exact h
  | reallocFree => exact h.erase r0
  | realloc p n res hf => exact (h.erase r0).insert hf
  | free => exact h.erase r0

/-- There were fewer blocks before one was added. -/
theorem FewerThan.of_insert {p : Word} {s n : Nat} (h : (L.insert p s).FewerThan n) : L.FewerThan n := by
  obtain ⟨ps, hcard, hps⟩ := h
  refine ⟨ps, hcard, fun q hq => hps q ?_⟩
  by_cases hqp : q = p
  · rw [hqp, insert_self]
    exact Option.some_ne_none s
  · rw [insert_of_ne hqp]
    exact hq

/-- A byte of a block is one of the others, or one of the block that is taken away. -/
theorem covers_erase_or {p : Word} {a : Nat} : L.Covers a ↔ (L.erase p).Covers a ∨ (p.toNat ≤ a ∧ a < p.toNat + (L p).getD 0) := by
  cases hp : L p with
  | none =>
    rw [erase_of_none hp, Option.getD_none]
    refine ⟨Or.inl, fun h => h.elim id fun hrange => ?_⟩
    omega
  | some s =>
    have hsame : L = (L.erase p).insert p s := by
      rw [insert_erase]
      funext q
      by_cases hq : q = p
      · rw [hq, insert_self, hp]
      · rw [insert_of_ne hq]
    conv_lhs => rw [hsame]
    rw [covers_insert erase_self, Option.getD_some]

/-! ## Served calls -/

/-- The map and the shadow agree with the live blocks. -/
structure Follows (hs he : Word) (z : RedZone) (L : LiveBlocks) : Prop where
  heap : z.hs = hs ∧ z.he = he
  map : MapTracks z.key z.val L
  shadow : ShadowTracks z.shadow hs he L

/-- A range of the shadow is marked as the blocks are. -/
theorem follows_mark {a s : Word} {v : Byte} (h : Follows hs he z L) (hheap : hs.toNat ≤ a.toNat ∧ a.toNat + s.toNat ≤ he.toNat)
    (hin : ∀ b, a.toNat ≤ b → b < a.toNat + s.toNat → (L'.Covers b ∧ v = 1) ∨ (¬ L'.Covers b ∧ v = 0))
    (hout : ∀ b, ¬ (a.toNat ≤ b ∧ b < a.toNat + s.toNat) → (L'.Covers b ↔ L.Covers b)) :
    ShadowTracks (rzMark z a s v).shadow hs he L' := by
  obtain ⟨⟨rfl, rfl⟩, -, hshadow⟩ := h
  exact hshadow.mark hheap hin hout

/-- A new block is marked and put into the map. -/
theorem follows_put {p s : Word} (h : Follows hs he z L) (hf : L.Fresh hs he p s.toNat) (hfew : L.FewerThan rzMapN.toNat) :
    Follows hs he (rzPut (rzMark z p s 1) p s) (L.insert p s.toNat) := by
  have hmark : ShadowTracks (rzMark z p s 1).shadow hs he (L.insert p s.toNat) := by
    refine follows_mark h hf.inHeap (fun b hlow hhigh => Or.inl ⟨(covers_insert hf.unused).mpr (Or.inr ⟨hlow, hhigh⟩), rfl⟩)
      fun b hout => ?_
    rw [covers_insert hf.unused]
    exact ⟨fun hc => hc.resolve_right hout, Or.inl⟩
  rw [rzMark_eq] at hmark ⊢
  refine ⟨?_, MapTracks.rzPut (L := L) ?_ hf.ne_zero (Or.inr hfew) s, ?_⟩
  · rw [(rzPut_heap _ p s).1, (rzPut_heap _ p s).2]
    exact h.heap
  · exact h.map
  · rw [rzPut_shadow]
    exact hmark

/-- A block is unmarked with the size that the map has, and deleted. -/
theorem follows_del {p : Word} (h : Follows hs he z L) (hsound : L.Sound hs he) (hclear : ClearPath z.key p) :
    Follows hs he (rzDel (rzMark z p (rzGet z p) 0) p) (L.erase p) := by
  have hsize := h.map.rzGet_toNat p
  have hmark : ShadowTracks (rzMark z p (rzGet z p) 0).shadow hs he (L.erase p) := by
    cases hp : L p with
    | none =>
      rw [h.map.rzGet_of_dead hp, rzMark_zero, erase_of_none hp]
      exact h.shadow
    | some t =>
      rw [hp, Option.getD_some] at hsize
      subst hsize
      refine follows_mark h (hsound.inHeap p _ hp) (fun b hlow hhigh => Or.inr ⟨fun hc => ?_, rfl⟩) fun b hout => ?_
      · exact ((hsound.covers_erase hp).mp hc).2 ⟨hlow, hhigh⟩
      · rw [hsound.covers_erase hp]
        exact ⟨And.left, fun hc => ⟨hc, hout⟩⟩
  rw [rzMark_eq] at hmark ⊢
  refine ⟨?_, MapTracks.rzDel (L := L) ?_ hclear, ?_⟩
  · rw [(rzDel_heap _ p).1, (rzDel_heap _ p).2]
    exact h.heap
  · exact h.map
  · rw [rzDel_shadow]
    exact hmark

/-- A block that grows or shrinks in place. -/
theorem follows_resize {p n : Word} (h : Follows hs he z L) (hsound : L.Sound hs he) (hf : (L.erase p).Fresh hs he p n.toNat)
    (hfew : ((L.erase p).insert p n.toNat).FewerThan rzMapN.toNat) :
    Follows hs he
      (rzPut (if n > rzGet z p then rzMark z (p + rzGet z p) (n - rzGet z p) 1 else rzMark z (p + n) (rzGet z p - n) 0) p n)
      ((L.erase p).insert p n.toNat) := by
  have hsize := h.map.rzGet_toNat p
  have hroom : L p ≠ none ∨ L.FewerThan rzMapN.toNat := by
    cases hp : L p with
    | none =>
      have hfew' := FewerThan.of_insert hfew
      rw [erase_of_none hp] at hfew'
      exact Or.inr hfew'
    | some s => exact Or.inl (Option.some_ne_none s)
  have hbound := he.isLt
  have hnew := hf.inHeap
  have hold : hs.toNat ≤ p.toNat ∧ p.toNat + (rzGet z p).toNat ≤ he.toNat := by
    rw [hsize]
    cases hp : L p with
    | none =>
      rw [Option.getD_none]
      omega
    | some s => exact hsound.inHeap p s hp
  have hcovers : ∀ b, ((L.erase p).insert p n.toNat).Covers b ↔ (L.erase p).Covers b ∨ (p.toNat ≤ b ∧ b < p.toNat + n.toNat) :=
    fun b => covers_insert erase_self
  have hbefore : ∀ b, L.Covers b ↔ (L.erase p).Covers b ∨ (p.toNat ≤ b ∧ b < p.toNat + (rzGet z p).toNat) := by
    intro b
    rw [hsize]
    exact covers_erase_or
  have hmark : ShadowTracks
      (if n > rzGet z p then rzMark z (p + rzGet z p) (n - rzGet z p) 1 else rzMark z (p + n) (rzGet z p - n) 0).shadow hs he
      ((L.erase p).insert p n.toNat) := by
    by_cases hgrow : n > rzGet z p
    · rw [if_pos hgrow]
      rw [gt_iff_lt, BitVec.lt_def] at hgrow
      have hstart : (p + rzGet z p).toNat = p.toNat + (rzGet z p).toNat := by
        rw [BitVec.toNat_add]
        exact Nat.mod_eq_of_lt (by omega)
      have hlen : (n - rzGet z p).toNat = n.toNat - (rzGet z p).toNat := BitVec.toNat_sub_of_le (BitVec.le_def.mpr (by omega))
      refine follows_mark h (by omega) (fun b hlow hhigh => Or.inl ⟨(hcovers b).mpr (Or.inr (by omega)), rfl⟩) fun b hout => ?_
      rw [hcovers, hbefore]
      refine or_congr_right ?_
      omega
    · rw [if_neg hgrow]
      rw [gt_iff_lt, BitVec.lt_def] at hgrow
      have hstart : (p + n).toNat = p.toNat + n.toNat := by
        rw [BitVec.toNat_add]
        exact Nat.mod_eq_of_lt (by omega)
      have hlen : (rzGet z p - n).toNat = (rzGet z p).toNat - n.toNat := BitVec.toNat_sub_of_le (BitVec.le_def.mpr (by omega))
      refine follows_mark h (by omega) (fun b hlow hhigh => Or.inr ⟨fun hc => ?_, rfl⟩) fun b hout => ?_
      · rcases (hcovers b).mp hc with hother | hrange
        · cases hp : L p with
          | none =>
            rw [hp, Option.getD_none] at hsize
            omega
          | some s =>
            rw [hp, Option.getD_some] at hsize
            exact ((hsound.covers_erase hp).mp hother).2 (by omega)
        · omega
      · rw [hcovers, hbefore]
        refine or_congr_right ?_
        omega
  have hframe : ∃ shadow, (if n > rzGet z p then rzMark z (p + rzGet z p) (n - rzGet z p) 1 else rzMark z (p + n) (rzGet z p - n) 0) =
      { z with shadow := shadow } := by
    split <;> exact ⟨_, rzMark_eq ..⟩
  obtain ⟨shadow, hframe⟩ := hframe
  rw [hframe] at hmark ⊢
  refine ⟨?_, ?_, ?_⟩
  · rw [(rzPut_heap _ p n).1, (rzPut_heap _ p n).2]
    exact h.heap
  · rw [insert_erase]
    refine MapTracks.rzPut (L := L) ?_ hf.ne_zero hroom n
    exact h.map
  · rw [rzPut_shadow]
    exact hmark

/-- The return of a hooked call leaves the map and the shadow as the blocks are. -/
theorem rzServed_follows {k : RzKind} {r0 r1 res : Word} (h : Follows hs he z L) (hkind : z.kind = some k) (h0 : z.a0 = r0) (h1 : z.a1 = r1)
    (hsound : L.Sound hs he) (hserves : Serves hs he L k r0 r1 res L') (hfew : L'.FewerThan rzMapN.toNat)
    (hok : KeepsChains z.key k r0 res L L') : Follows hs he (rzServed z res) L' := by
  have hnull : L.erase 0 = L := by
    refine erase_of_none ?_
    cases hzero : L 0 with
    | none => rfl
    | some s => exact absurd rfl (hsound.ne_zero 0 s hzero)
  unfold rzServed
  rw [hkind, h0, h1]
  cases hserves with
  | mallocNull => simpa using h
  | malloc _ _ _ hf =>
    dsimp only
    rw [if_pos hf.ne_zero]
    exact follows_put h hf (FewerThan.of_insert hfew)
  | callocNull => simpa using h
  | calloc _ _ _ hf =>
    have hproduct : (r0 * r1).toNat = r0.toNat * r1.toNat := by
      have hbound := he.isLt
      have hfit := hf.inHeap.2
      rw [BitVec.toNat_mul]
      exact Nat.mod_eq_of_lt (by omega)
    dsimp only
    rw [if_pos hf.ne_zero]
    rw [← hproduct] at hf hfew ⊢
    exact follows_put h hf (FewerThan.of_insert hfew)
  | reallocNull => simpa using h
  | reallocFree =>
    have hkeep := hok.2 rfl
    rw [if_pos rfl] at hkeep
    rw [hkeep]
    simpa using h
  | realloc _ _ _ hf =>
    have hclear := hok.2 rfl
    rw [if_neg hf.ne_zero] at hclear
    dsimp only
    by_cases hmove : res = r0
    · rw [if_neg (fun hboth => hboth.2 hmove), if_pos hf.ne_zero]
      subst hmove
      exact follows_resize h hsound hf hfew
    · rw [if_pos ⟨hf.ne_zero, hmove⟩]
      refine follows_put ?_ hf (FewerThan.of_insert hfew)
      by_cases hzero : r0 = 0
      · rw [if_neg (fun hne => hne hzero), hzero, hnull]
        exact h
      · rw [if_pos hzero]
        exact follows_del h hsound (hclear hmove)
  | free =>
    dsimp only
    by_cases hzero : r0 = 0
    · rw [if_neg (fun hne => hne hzero), hzero, hnull]
      exact h
    · rw [if_pos hzero]
      exact follows_del h hsound (hok.1 rfl)

/-! ## Hooks -/

/-- A check that is not armed does nothing. -/
theorem rzEvents_of_not_armed (hz : z.on ≠ .armed) (es : List RzEvent) : es.foldl rzEvent z = z := by
  induction es with
  | nil => rfl
  | cons e es ih =>
    have hstep : rzEvent z e = z := by
      cases e with
      | call fid r0 r1 => exact if_pos hz
      | ret r0 => exact if_pos hz
      | store addr sz => exact if_pos (Or.inl hz)
    rw [List.foldl_cons, hstep, ih]

/-- What happens inside the allocator passes by. -/
theorem rzEvents_inside {es : List RzEvent} (hes : Balanced es) {d : Nat} (hon : z.on = .armed) (had : z.ad = some d) (hd : d ≤ z.depth) :
    es.foldl rzEvent z = z := by
  have harmed : ¬ z.on ≠ .armed := fun hne => hne hon
  have hbusy : z.ad.isSome = true := by
    rw [had]
    rfl
  induction hes generalizing z with
  | nil => rfl
  | store addr sz _ ih =>
    have hstep : rzEvent z (.store addr sz) = z := if_pos (Or.inr hbusy)
    rw [List.foldl_cons, hstep]
    exact ih hon had hd harmed hbusy
  | call fid r0 r1 res _ _ ihInner ih =>
    have hcall : rzEvent z (.call fid r0 r1) = { z with depth := z.depth + 1 } := by
      dsimp only [rzEvent]
      unfold rzCall
      rw [if_neg harmed]
      dsimp only
      rw [if_pos hbusy]
    have hret : rzEvent { z with depth := z.depth + 1 } (.ret res) = z := by
      dsimp only [rzEvent]
      unfold rzRet
      dsimp only
      rw [if_neg harmed, if_neg (by rw [had, Option.some.injEq]; omega)]
      rfl
    have hinner := ihInner (z := { z with depth := z.depth + 1 }) hon had (Nat.le_succ_of_le hd) harmed hbusy
    rw [List.foldl_cons, hcall, List.foldl_append, hinner, List.foldl_cons, hret]
    exact ih hon had hd harmed hbusy

/-- A hooked call from its start to its return. -/
theorem rzRet_served {fid r0 r1 res : Word} {k : RzKind} {inner : List RzEvent} (hon : z.on = .armed) (had : z.ad = none)
    (hk : rzKind z fid = some k) (hinner : Balanced inner) :
    rzRet (inner.foldl rzEvent (rzCall z fid r0 r1)) res =
      { rzServed { z with depth := z.depth + 1, ad := some (z.depth + 1), kind := some k, a0 := r0, a1 := r1 } res with
        ad := none
        kind := none
        depth := (rzServed { z with depth := z.depth + 1, ad := some (z.depth + 1), kind := some k, a0 := r0, a1 := r1 } res).depth - 1 } := by
  have harmed : ¬ z.on ≠ .armed := fun hne => hne hon
  have hcall : rzCall z fid r0 r1 =
      { z with depth := z.depth + 1, ad := some (z.depth + 1), kind := some k, a0 := r0, a1 := r1 } := by
    have hkind : rzKind { z with depth := z.depth + 1 } fid = some k := hk
    unfold rzCall
    rw [if_neg harmed]
    dsimp only
    rw [if_neg (by rw [had]; exact Bool.false_ne_true), hkind]
  have hinside := rzEvents_inside (d := z.depth + 1)
    (z := { z with depth := z.depth + 1, ad := some (z.depth + 1), kind := some k, a0 := r0, a1 := r1 }) hinner hon rfl (Nat.le_refl _)
  rw [hcall, hinside]
  unfold rzRet
  dsimp only
  rw [if_neg harmed, if_pos rfl]

/-! ## Runs -/

/-- What holds between hooked calls while the red zone is checking. -/
structure Checking (hs he : Word) (z : RedZone) (L : LiveBlocks) : Prop where
  idle : z.ad = none
  sound : L.Sound hs he
  follows : Follows hs he z L

/-- When it is armed, nothing is in the map and no byte is marked. -/
theorem checking_start (env : RzEnv) (hs he : Word) (h : (rzSetup env hs he RedZone.initial).on = .armed) :
    Checking hs he (rzSetup env hs he RedZone.initial) fun _ => none := by
  have hset : RedZone.initial.on = .unset := rfl
  unfold rzSetup at h ⊢
  rw [if_neg (fun hne => hne hset)] at h ⊢
  by_cases hredzone : env.redzone = true
  · rw [if_neg (fun hne => hne hredzone)]
    refine ⟨rfl, ⟨fun p s hp => (nomatch hp), fun p s hp => (nomatch hp), fun p s q t hp => (nomatch hp)⟩, ⟨rfl, rfl⟩, mapTracks_empty, ?_, ?_⟩
    · intro a _ _ hlive
      obtain ⟨p, s, hp, -⟩ := hlive
      nomatch hp
    · exact fun _ _ _ _ => rfl
  · rw [if_pos hredzone] at h
    nomatch h

/-- In every state of a run whose steps keep the chains, the map and the shadow are right. -/
theorem checking_of_run {env : RzEnv} (hrun : RedZoneRun env hs he KeepsChains z L) (harmed : z.on = .armed) : Checking hs he z L := by
  induction hrun with
  | start => exact checking_start env hs he harmed
  | @call z L fid r0 r1 _ hkind ih =>
    by_cases hon : z.on = .armed
    · have h := ih hon
      have hcall : rzCall z fid r0 r1 = { z with depth := z.depth + 1 } := by
        have hkind' : rzKind { z with depth := z.depth + 1 } fid = none := hkind
        unfold rzCall
        rw [if_neg (fun hne => hne hon)]
        dsimp only
        rw [if_neg (by rw [h.idle]; exact Bool.false_ne_true), hkind']
      rw [hcall]
      exact ⟨h.idle, h.sound, h.follows.heap, h.follows.map, h.follows.shadow⟩
    · rw [show rzCall z fid r0 r1 = z from if_pos hon] at harmed
      exact absurd harmed hon
  | @ret z L r0 _ ih =>
    by_cases hon : z.on = .armed
    · have h := ih hon
      have hret : rzRet z r0 = { z with depth := z.depth - 1 } := by
        unfold rzRet
        rw [if_neg (fun hne => hne hon)]
        dsimp only
        rw [if_neg (by rw [h.idle]; exact fun hne => nomatch hne)]
      rw [hret]
      exact ⟨h.idle, h.sound, h.follows.heap, h.follows.map, h.follows.shadow⟩
    · rw [show rzRet z r0 = z from if_pos hon] at harmed
      exact absurd harmed hon
  | @store z L addr sz _ ih =>
    have hsame : rzCheck z addr sz = z := by
      unfold rzCheck at harmed ⊢
      dsimp only at harmed ⊢
      split_ifs at harmed ⊢ <;> rfl
    rw [hsame] at harmed ⊢
    exact ih harmed
  | @served z L L' fid r0 r1 res k inner _ hkind hserves hfew hinner hok ih =>
    by_cases hon : z.on = .armed
    · have h := ih hon
      rw [rzRet_served hon h.idle hkind hinner]
      have hinside : Follows hs he { z with depth := z.depth + 1, ad := some (z.depth + 1), kind := some k, a0 := r0, a1 := r1 } L :=
        ⟨h.follows.heap, h.follows.map, h.follows.shadow⟩
      have hfollows := rzServed_follows hinside rfl rfl rfl h.sound hserves hfew hok
      exact ⟨rfl, Serves.sound h.sound hserves, hfollows.heap, hfollows.map, hfollows.shadow⟩
    · rw [show rzCall z fid r0 r1 = z from if_pos hon, rzEvents_of_not_armed hon,
        show rzRet z res = z from if_pos hon] at harmed
      exact absurd harmed hon

/-! ## Stores -/

/-- A store inside a live block is not reported. -/
theorem rzCheck_inside (h : Checking hs he z L) {p addr sz : Word} {s : Nat} (hp : L p = some s) (hlow : p.toNat ≤ addr.toNat)
    (hhigh : addr.toNat + sz.toNat ≤ p.toNat + s) : rzCheck z addr sz = z := by
  obtain ⟨hidle, hsound, ⟨rfl, rfl⟩, -, hshadow⟩ := h
  have hheap := hsound.inHeap p s hp
  have hbound := z.he.isLt
  have hadd : (addr + sz).toNat = addr.toNat + sz.toNat := by
    rw [BitVec.toNat_add]
    exact Nat.mod_eq_of_lt (by omega)
  have hstop : ¬ addr + sz > z.he := by
    rw [gt_iff_lt, BitVec.lt_def]
    omega
  have hlive : ¬ ((List.range' addr.toNat ((addr + sz).toNat - addr.toNat)).any fun q => z.shadow (q - z.hs.toNat) = 0) = true := by
    rw [List.any_eq_true]
    rintro ⟨q, hq, hzero⟩
    rw [List.mem_range'_1] at hq
    have hone := hshadow.live q (by omega) (by omega) ⟨p, s, hp, by omega, by omega⟩
    rw [decide_eq_true_eq, hone] at hzero
    nomatch hzero
  unfold rzCheck
  dsimp only
  rw [if_neg hstop, if_neg hlive]
  split
  · rfl
  · split <;> rfl

/-- A store that touches a dead byte of the heap is. -/
theorem rzCheck_outside (h : Checking hs he z L) (hon : z.on = .armed) {addr sz : Word} (hlow : hs.toNat ≤ addr.toNat)
    (hend : addr.toNat + sz.toNat < 2 ^ 32)
    (hdead : ∃ a, addr.toNat ≤ a ∧ a < addr.toNat + sz.toNat ∧ a < he.toNat ∧ ¬ L.Covers a) : (rzCheck z addr sz).on = .reported := by
  obtain ⟨hidle, -, ⟨rfl, rfl⟩, -, hshadow⟩ := h
  obtain ⟨a, ha, hb, hheap, hout⟩ := hdead
  have hadd : (addr + sz).toNat = addr.toNat + sz.toNat := by
    rw [BitVec.toNat_add]
    exact Nat.mod_eq_of_lt hend
  have hfree : ¬ (z.on ≠ .armed ∨ z.ad.isSome = true) := by
    rintro (hne | hsome)
    · exact hne hon
    · rw [hidle] at hsome
      nomatch hsome
  have hinside : ¬ (addr < z.hs ∨ addr ≥ z.he) := by
    rw [BitVec.lt_def, ge_iff_le, BitVec.le_def]
    omega
  -- the byte lies before the end of the check, clipped or not
  have hstop : a < (if addr + sz > z.he then z.he else addr + sz).toNat := by
    split
    · exact hheap
    · rw [hadd]
      exact hb
  have hany : ((List.range' addr.toNat ((if addr + sz > z.he then z.he else addr + sz).toNat - addr.toNat)).any
      fun q => z.shadow (q - z.hs.toNat) = 0) = true := by
    rw [List.any_eq_true]
    refine ⟨a, List.mem_range'_1.mpr ⟨ha, by omega⟩, ?_⟩
    rw [decide_eq_true_eq]
    exact hshadow.dead a (by omega) hheap hout
  unfold rzCheck
  dsimp only
  rw [if_neg hfree, if_neg hinside, if_pos hany]

end RedZoneAux

open RedZoneAux in
/-- In a run whose deletions hit no slot that another pointer's search goes over, and in which no `realloc` frees its block and returns
null, the red zone is accurate as long as it is checking. -/
theorem red_zone_accurate (env : RzEnv) (hs he : Word) {z : RedZone} {L : LiveBlocks} (hrun : RedZoneRun env hs he KeepsChains z L)
    (harmed : z.on = .armed) : Accurate hs he z L := by
  have h := checking_of_run hrun harmed
  constructor
  · intro p s hp
    exact h.follows.map.rzGet_of_live hp
  · intro p hp
    exact h.follows.map.rzGet_of_dead hp
  · intro a hlow hhigh
    constructor
    · intro hone
      by_contra hdead
      have hzero := h.follows.shadow.dead a hlow hhigh hdead
      rw [hone] at hzero
      nomatch hzero
    · exact h.follows.shadow.live a hlow hhigh
  · intro p s addr sz hp hlow hhigh
    exact rzCheck_inside h hp hlow hhigh
  · intro addr sz hlow hend hdead
    exact rzCheck_outside h harmed hlow hend hdead

namespace RedZoneAux

open LiveBlocks

variable {hs he : Word} {z : RedZone} {L L' : LiveBlocks}

/-! ## Heaps of two blocks -/

def sampleEnv : RzEnv := { redzone := true, malloc := some 2, free := some 4, realloc := some 6, calloc := some 8 }

def sampleStart : RedZone := rzSetup sampleEnv 0x100000#32 0x2000000#32 RedZone.initial

/-- A call of the allocator with nothing in between. -/
def sampleCall (z : RedZone) (fid r0 res : Word) : RedZone := rzRet (rzCall z fid r0 0) res

/-- A heap with no block. -/
def noBlocks : LiveBlocks := fun _ => none

def oneBlock : LiveBlocks := noBlocks.insert 0x100000#32 8

/-- Without blocks no byte is covered. -/
theorem not_covers_none {a : Nat} : ¬ Covers noBlocks a := by
  rintro ⟨p, s, hp, -⟩
  nomatch hp

/-- The first block is apart from all others. -/
theorem fresh_none {p : Word} {n : Nat} (hp : p ≠ 0) (hheap : hs.toNat ≤ p.toNat ∧ p.toNat + n ≤ he.toNat) : noBlocks.Fresh hs he p n :=
  ⟨hp, rfl, hheap, fun _ _ _ => not_covers_none⟩

/-- What is above a new block is as free as before. -/
theorem fresh_insert {p q : Word} {s n : Nat} (h : L.Fresh hs he p n) (hs₀ : 0 < s) (hq : L q = none) (hle : q.toNat + s ≤ p.toNat) :
    (L.insert q s).Fresh hs he p n := by
  have hne : p ≠ q := by
    rintro rfl
    omega
  refine ⟨h.ne_zero, (insert_of_ne hne).trans h.unused, h.inHeap, fun a hlow hhigh hcovers => ?_⟩
  rcases (covers_insert hq).mp hcovers with hother | hrange
  · exact h.apart a hlow hhigh hother
  · omega

/-- What is free stays so where a block is freed. -/
theorem fresh_erase {p q : Word} {n : Nat} (h : L.Fresh hs he p n) : (L.erase q).Fresh hs he p n := by
  have hle : ∀ r s, L.erase q r = some s → L r = some s := by
    intro r s hr
    by_cases hrq : r = q
    · rw [hrq, erase_self] at hr
      nomatch hr
    · rwa [erase_of_ne hrq] at hr
  refine ⟨h.ne_zero, ?_, h.inHeap, ?_⟩
  · cases hr : L.erase q p with
    | none => rfl
    | some s => exact absurd (hle p s hr) (by rw [h.unused]; exact fun hno => nomatch hno)
  · rintro a hlow hhigh ⟨r, s, hr, hrange⟩
    exact h.apart a hlow hhigh ⟨r, s, hle r s hr, hrange⟩

/-- A block more. -/
theorem fewerThan_insert {p : Word} {s n : Nat} (h : L.FewerThan n) : (L.insert p s).FewerThan (n + 1) := by
  obtain ⟨ps, hcard, hps⟩ := h
  refine ⟨insert p ps, Nat.lt_of_le_of_lt (Finset.card_insert_le p ps) (Nat.succ_lt_succ hcard), fun q hq => ?_⟩
  rw [Finset.mem_insert]
  by_cases hqp : q = p
  · exact Or.inl hqp
  · rw [insert_of_ne hqp] at hq
    exact Or.inr (hps q hq)

/-- A block less. -/
theorem fewerThan_erase {p : Word} {n : Nat} (h : L.FewerThan n) : (L.erase p).FewerThan n := by
  obtain ⟨ps, hcard, hps⟩ := h
  refine ⟨ps, hcard, fun q hq => hps q ?_⟩
  by_cases hqp : q = p
  · rw [hqp, erase_self] at hq
    exact absurd rfl hq
  · rwa [erase_of_ne hqp] at hq

/-- A larger bound. -/
theorem fewerThan_mono {n m : Nat} (h : L.FewerThan n) (hle : n ≤ m) : L.FewerThan m := by
  obtain ⟨ps, hcard, hps⟩ := h
  exact ⟨ps, Nat.lt_of_lt_of_le hcard hle, hps⟩

/-- No block at all. -/
theorem fewerThan_none : noBlocks.FewerThan 1 := ⟨∅, by decide, fun p hp => absurd rfl hp⟩

/-- A pointer in the slot its search starts at goes over no other one. -/
theorem clearPath_beside {p q : Word} (h : MapTracks z.key z.val L) (hall : ∀ r, L r ≠ none → r = p ∨ r = q)
    (hhome : rzTable z.key (rzSlot q 0) = some q) : ClearPath z.key p := by
  rintro j - r hr ⟨m, hm, hbefore, m', hm', -⟩
  obtain rfl : r = q := (hall r (h.ne_none_iff.mpr ⟨_, hm⟩)).resolve_left hr
  exact hbefore 0 (Nat.zero_lt_of_lt hm') hhome

/-- A hooked call and its return are steps of a run. -/
theorem run_sampleCall {env : RzEnv} {ok : CallCondition} {fid r0 res : Word} (k : RzKind) (hrun : RedZoneRun env hs he ok z L)
    (hkind : rzKind z fid = some k) (hserves : Serves hs he L k r0 0 res L') (hfew : L'.FewerThan rzMapN.toNat)
    (hok : ok z.key k r0 res L L') : RedZoneRun env hs he ok (sampleCall z fid r0 res) L' := by
  have hnothing : Balanced [] := .nil
  have hserved := RedZoneRun.served fid r0 0 res k hrun hkind hserves hfew hnothing hok
  exact hserved

/-- One block is fewer than two. -/
theorem oneBlock_few : oneBlock.FewerThan 2 := fewerThan_insert fewerThan_none

/-- The first `malloc`. -/
theorem sample_malloc {ok : CallCondition} (hok : ok sampleStart.key .malloc 8 0x100000#32 noBlocks oneBlock) :
    RedZoneRun sampleEnv 0x100000#32 0x2000000#32 ok (sampleCall sampleStart 2 8 0x100000#32) oneBlock :=
  run_sampleCall .malloc .start (by decide +kernel) (.malloc 8 0 _ (fresh_none (by decide) (by decide)))
    (fewerThan_mono oneBlock_few (by decide)) hok

/-- A second block of 8 bytes above the first. -/
theorem second_fresh {p : Word} (hlow : 0x100008 ≤ p.toNat) (hhigh : p.toNat + 8 ≤ 0x2000000) :
    oneBlock.Fresh 0x100000#32 0x2000000#32 p 8 := by
  refine fresh_insert (fresh_none ?_ ⟨by change 0x100000 ≤ _; omega, hhigh⟩) (by decide) rfl hlow
  rintro rfl
  exact absurd hlow (by decide)

/-! ## Two blocks side by side -/

def twoBlocks : LiveBlocks := oneBlock.insert 0x100010#32 8

/-- The red zone after two calls of `malloc`. -/
def twoZone : RedZone := sampleCall (sampleCall sampleStart 2 8 0x100000#32) 2 8 0x100010#32

/-- The first block moved to `0x100020` by a `realloc` to 16 bytes. -/
def movedBlocks : LiveBlocks := (twoBlocks.erase 0x100000#32).insert 0x100020#32 16

def movedZone : RedZone := rzRet (rzCall twoZone 6 0x100000#32 16) 0x100020#32

/-- The pointers of the two blocks. -/
theorem twoBlocks_only {r : Word} (hr : twoBlocks r ≠ none) : r = 0x100000#32 ∨ r = 0x100010#32 := by
  by_contra hne
  rw [not_or] at hne
  unfold twoBlocks oneBlock at hr
  rw [insert_of_ne hne.2, insert_of_ne hne.1] at hr
  exact hr rfl

/-- Those after the first block has moved. -/
theorem movedBlocks_only {r : Word} (hr : movedBlocks r ≠ none) : r = 0x100020#32 ∨ r = 0x100010#32 := by
  by_contra hne
  rw [not_or] at hne
  unfold movedBlocks at hr
  rw [insert_of_ne hne.1] at hr
  by_cases hfirst : r = 0x100000#32
  · rw [hfirst, erase_self] at hr
    exact hr rfl
  · rw [erase_of_ne hfirst] at hr
    exact (twoBlocks_only hr).elim hfirst hne.2

/-- A `malloc` frees nothing. -/
theorem keepsChains_malloc {n res : Word} {key : Nat → Word} : KeepsChains key .malloc n res L L' :=
  ⟨fun h => (nomatch h), fun h => (nomatch h)⟩

/-- The run up to the two blocks. -/
theorem run_twoZone : RedZoneRun sampleEnv 0x100000#32 0x2000000#32 KeepsChains twoZone twoBlocks :=
  run_sampleCall .malloc (sample_malloc keepsChains_malloc) (by decide +kernel) (.malloc 8 0 _ (second_fresh (by decide) (by decide)))
    (fewerThan_mono (fewerThan_insert oneBlock_few) (by decide)) keepsChains_malloc

/-- And on to the moved one. -/
theorem run_movedZone : RedZoneRun sampleEnv 0x100000#32 0x2000000#32 KeepsChains movedZone movedBlocks := by
  have harmed : twoZone.on = .armed := by decide +kernel
  have hclear : ClearPath twoZone.key 0x100000#32 :=
    clearPath_beside (checking_of_run run_twoZone harmed).follows.map (fun r => twoBlocks_only) (by decide +kernel)
  have hfresh : (twoBlocks.erase 0x100000#32).Fresh 0x100000#32 0x2000000#32 0x100020#32 16 := by
    have hnone : noBlocks.Fresh 0x100000#32 0x2000000#32 0x100020#32 16 := fresh_none (by decide) (by decide)
    exact fresh_erase (fresh_insert (fresh_insert hnone (by decide) rfl (by decide)) (by decide) (insert_of_ne (by decide)) (by decide))
  have hfew : movedBlocks.FewerThan rzMapN.toNat :=
    fewerThan_mono (fewerThan_insert (fewerThan_erase (fewerThan_insert oneBlock_few))) (by decide)
  have hok : KeepsChains twoZone.key .realloc 0x100000#32 0x100020#32 twoBlocks movedBlocks := by
    refine ⟨fun h => (nomatch h), fun _ => ?_⟩
    rw [if_neg (by decide)]
    exact fun _ => hclear
  have hserved := RedZoneRun.served 6 0x100000#32 16 0x100020#32 .realloc run_twoZone (by decide +kernel) (.realloc _ _ _ hfresh) hfew .nil hok
  exact hserved

end RedZoneAux

open RedZoneAux LiveBlocks in
/-- Two blocks; the first one is moved by `realloc`, then freed, beside the second one. -/
theorem red_zone_accurate_twoBlocks :
    Accurate 0x100000#32 0x2000000#32 movedZone movedBlocks ∧
      Accurate 0x100000#32 0x2000000#32 (sampleCall movedZone 4 0x100020#32 0) (movedBlocks.erase 0x100020#32) ∧
        (movedBlocks.erase 0x100020#32) 0x100010#32 = some 8 := by
  have harmed : movedZone.on = .armed := by decide +kernel
  have hclear : ClearPath movedZone.key 0x100020#32 :=
    clearPath_beside (checking_of_run run_movedZone harmed).follows.map (fun r => movedBlocks_only) (by decide +kernel)
  have hfree : RedZoneRun sampleEnv 0x100000#32 0x2000000#32 KeepsChains (sampleCall movedZone 4 0x100020#32 0)
      (movedBlocks.erase 0x100020#32) := by
    refine run_sampleCall .free run_movedZone (by decide +kernel) (.free _ _ _) ?_ ⟨fun _ => hclear, fun h => (nomatch h)⟩
    exact fewerThan_mono (fewerThan_erase (fewerThan_insert (fewerThan_erase (fewerThan_insert oneBlock_few)))) (by decide)
  refine ⟨red_zone_accurate _ _ _ run_movedZone harmed, red_zone_accurate _ _ _ hfree (by decide +kernel), ?_⟩
  unfold movedBlocks twoBlocks
  rw [erase_of_ne (by decide), insert_of_ne (by decide), erase_of_ne (by decide), insert_self]

open RedZoneAux LiveBlocks in
/-- Two blocks of 8 bytes at `0x100000` and `0x900000` have searches that start at one slot. After the first one is freed, the map does
not have the second one. -/
theorem red_zone_loses_block :
    ¬ ∀ (env : RzEnv) (hs he : Word) (z : RedZone) (L : LiveBlocks), RedZoneRun env hs he (fun _ _ _ _ _ _ => True) z L →
      z.on = .armed → Accurate hs he z L := by
  intro hall
  have hfew : (oneBlock.insert 0x900000#32 8).FewerThan 3 := fewerThan_insert oneBlock_few
  have htwo : RedZoneRun sampleEnv 0x100000#32 0x2000000#32 (fun _ _ _ _ _ _ => True)
      (sampleCall (sampleCall sampleStart 2 8 0x100000#32) 2 8 0x900000#32) (oneBlock.insert 0x900000#32 8) :=
    run_sampleCall .malloc (sample_malloc trivial) (by decide +kernel) (.malloc 8 0 _ (second_fresh (by decide) (by decide)))
      (fewerThan_mono hfew (by decide)) trivial
  have hrun : RedZoneRun sampleEnv 0x100000#32 0x2000000#32 (fun _ _ _ _ _ _ => True)
      (sampleCall (sampleCall (sampleCall sampleStart 2 8 0x100000#32) 2 8 0x900000#32) 4 0x100000#32 0)
      ((oneBlock.insert 0x900000#32 8).erase 0x100000#32) :=
    run_sampleCall .free htwo (by decide +kernel) (.free _ _ _) (fewerThan_mono (fewerThan_erase hfew) (by decide)) trivial
  have hsize := (hall _ _ _ _ _ hrun (by decide +kernel)).size 0x900000#32 8 (by rw [erase_of_ne (by decide)]; exact insert_self)
  have hlost : (rzGet (sampleCall (sampleCall (sampleCall sampleStart 2 8 0x100000#32) 2 8 0x900000#32) 4 0x100000#32 0)
      0x900000#32).toNat = 0 := by decide +kernel
  rw [hlost] at hsize
  nomatch hsize

end CronoVM
