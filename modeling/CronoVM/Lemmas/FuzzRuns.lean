import CronoVM.Lemmas.FuzzStatements

/-!
# The execution of typed programs

A typed statement runs without a fault, and to the same state under both widths of `long`; so does a typed function, and a program of
them.
-/

namespace CronoVM.Fuzz

open CIntegers

variable {Φ : Arities} {Γ Γ' : Ctx} {st st' : State} {t : StdType} {x : Name} {v : Int}

/-! ## States -/

/-- A variable of a type with a value. -/
def State.set (st : State) (x : Name) (t : StdType) (v : Int) : State := { st with vars := Function.update st.vars x (some (t, v)) }

/-- A variable that is set has the value. -/
theorem State.set_self : (st.set x t v).vars x = some (t, v) := Function.update_self ..

/-- The other variables keep theirs. -/
theorem State.set_of_ne {y : Name} (h : y ≠ x) : (st.set x t v).vars y = st.vars y := Function.update_of_ne h ..

/-- A variable that is declared can be assigned. -/
theorem assign_ok (hst : Models Γ st) (hx : Γ.vars x = some t) (v : Int) :
    st.assign x v = .ok (st.set x t (convert t.isSigned t.width v)) := by
  obtain ⟨u, hu⟩ := hst.var_eq hx
  simp only [State.assign, hu, State.set]

/-- A name that is new can be declared. -/
theorem declare_ok (hst : Models Γ st) (hx : Γ.vars x = none) (v : Int) :
    st.declare t x v = .ok (st.set x t (convert t.isSigned t.width v)) := by
  simp only [State.declare, hst.var_none hx, State.set]

/-- The types after a variable is set. -/
theorem map_fst_set : (fun y => ((st.set x t v).vars y).map Prod.fst) = Function.update (fun y => (st.vars y).map Prod.fst) x (some t) := by
  funext y
  by_cases hy : y = x
  · rw [hy, State.set_self, Function.update_self]
    rfl
  · rw [State.set_of_ne hy, Function.update_of_ne hy]

/-- A declaration extends the context and the state in step. -/
theorem Models.declare (hst : Models Γ st) (hx : x ≠ .index) (t : StdType) (v : Int) : Models (Γ.declare t x) (st.set x t v) where
  vars := by rw [map_fst_set, hst.vars]; rfl
  arrs := hst.arrs
  bound n hn := by
    rw [State.set_of_ne (Ne.symm hx)]
    exact hst.bound n hn

/-- To declare a variable again with its own type changes no context. -/
theorem Ctx.declare_eq (hx : Γ.vars x = some t) : Γ.declare t x = Γ := by
  rw [Ctx.declare, ← hx, Function.update_eq_self]

/-- An assignment stays in its context. -/
theorem Models.assign (hst : Models Γ st) (hx : Γ.vars x = some t) (hne : x ≠ .index) (v : Int) : Models Γ (st.set x t v) := by
  have h := hst.declare hne t v
  rwa [Ctx.declare_eq hx] at h

/-- The elements of an array get values. -/
theorem Models.fill {A : ArrName} {vs : List Int} (hst : Models Γ st) :
    Models (Γ.fill A vs.length) { st with arrs := Function.update st.arrs A (some (vs.map some)) } where
  vars := hst.vars
  arrs B n hB := by
    by_cases h : B = A
    · subst h
      have hB : Function.update Γ.arrs B (some vs.length) B = some n := hB
      rw [Function.update_self] at hB
      exact ⟨vs, Option.some.inj hB, Function.update_self ..⟩
    · have hB : Function.update Γ.arrs A (some vs.length) B = some n := hB
      rw [Function.update_of_ne h] at hB
      obtain ⟨us, hlen, hus⟩ := hst.arrs B n hB
      exact ⟨us, hlen, (Function.update_of_ne h ..).trans hus⟩
  bound := hst.bound

/-- To fill an array that is filled changes no context. -/
theorem Ctx.fill_eq {A : ArrName} {n : Nat} (hA : Γ.arrs A = some n) : Γ.fill A n = Γ := by
  rw [Ctx.fill, ← hA, Function.update_eq_self]

/-! ## Simple statements -/

/-- The functions that may be called return. -/
def CallsReturn (Φ : Arities) (call : DataModel → Calls) : Prop :=
  ∀ f n, Φ f = some n → ∀ args : List Int, args.length = n → ∃ v, ∀ m, call m f args = .ok v

variable {call : DataModel → Calls}

/-- The arguments of a call have values, the same in both widths once they are converted. -/
theorem args_ok {args : List Expr} (hst : Models Γ st) (h : ∀ a ∈ args, ∃ s, Typed Γ a s) :
    ∃ vs : List Int, vs.length = args.length ∧ ∀ m, ∃ ws, args.mapM (Expr.eval m st) = .ok ws ∧ ws.map Prod.snd = vs := by
  induction args with
  | nil => exact ⟨[], rfl, fun m => ⟨[], rfl, rfl⟩⟩
  | cons a args ih =>
    obtain ⟨s, hs⟩ := h a List.mem_cons_self
    obtain ⟨v, hv⟩ := hs.eval_eq hst
    obtain ⟨vs, hlen, hvs⟩ := ih fun a ha => h a (List.mem_cons_of_mem _ ha)
    refine ⟨v :: vs, congrArg Nat.succ hlen, fun m => ?_⟩
    obtain ⟨ws, hws, rfl⟩ := hvs m
    refine ⟨(s.type m, v) :: ws, ?_, rfl⟩
    rw [List.mapM_cons, hv, hws]
    rfl

/-- A simple statement that is typed runs to one state in both widths of `long`. -/
theorem SimpleTyped.exec_eq {s : Simple} (hcall : CallsReturn Φ call) (hst : Models Γ st) (h : SimpleTyped Φ Γ s Γ') :
    ∃ st', (∀ m, s.exec m (call m) st = .ok st') ∧ Models Γ' st' ∧ st'.vars .index = st.vars .index := by
  cases h with
  | @assign x t e s hx hne he =>
    obtain ⟨v, hv⟩ := he.eval_eq hst
    refine ⟨st.set x t (convert t.isSigned t.width v), fun m => ?_, hst.assign hx hne _, State.set_of_ne (Ne.symm hne)⟩
    rw [Simple.exec, hv]
    exact assign_ok hst hx v
  | @store A e v k n s hA hk hlt he hv =>
    obtain ⟨u, hu⟩ := he.eval_eq hst
    obtain ⟨j, hpos, hle, hj⟩ := masked_ok hlt hu
    obtain ⟨w, hw⟩ := hv.eval_eq hst
    obtain ⟨vs, rfl, hcells⟩ := hst.arrs A n hA
    let cells := vs.set j.toNat (convert false 32 w)
    have hstore : st.store A j w = .ok { st with arrs := Function.update st.arrs A (some (cells.map some)) } := by
      have hrange : 0 ≤ j ∧ j < ((vs.map some).length : Nat) := by
        rw [List.length_map]
        omega
      simp only [State.store, hcells, hrange, and_self, if_true, cells, List.map_set]
    refine ⟨{ st with arrs := Function.update st.arrs A (some (cells.map some)) }, fun m => ?_, ?_, rfl⟩
    · rw [Simple.exec, hj, hw]
      exact hstore
    · have hlen : cells.length = vs.length := List.length_set
      have hfill : Models (Γ.fill A cells.length) { st with arrs := Function.update st.arrs A (some (cells.map some)) } := hst.fill
      rwa [hlen, Ctx.fill_eq hA] at hfill
  | @call x t f args hx hne hf hargs =>
    obtain ⟨vs, hlen, hvs⟩ := args_ok hst hargs
    obtain ⟨v, hv⟩ := hcall f _ hf vs hlen
    refine ⟨st.set x t (convert t.isSigned t.width v), fun m => ?_, hst.assign hx hne _, State.set_of_ne (Ne.symm hne)⟩
    obtain ⟨ws, hws, rfl⟩ := hvs m
    rw [Simple.exec, hws]
    refine Eq.trans ?_ (assign_ok hst hx v)
    change (call m f (ws.map Prod.snd) >>= fun v => st.assign x v) = _
    rw [hv]
    rfl
  | @decl t x e s hx hne he =>
    obtain ⟨v, hv⟩ := he.eval_eq hst
    refine ⟨st.set x t (convert t.isSigned t.width v), fun m => ?_, hst.declare hne t _, State.set_of_ne (Ne.symm hne)⟩
    rw [Simple.exec, hv]
    exact declare_ok hst hx v

/-- So do lists of them, by induction on the typing. -/
theorem SimplesTyped.exec_eq {ss : List Simple} (hcall : CallsReturn Φ call) (hst : Models Γ st) (h : SimplesTyped Φ Γ ss Γ') :
    ∃ st', (∀ m, execSimples m (call m) st ss = .ok st') ∧ Models Γ' st' ∧ st'.vars .index = st.vars .index := by
  induction h generalizing st with
  | nil => exact ⟨st, fun m => rfl, hst, rfl⟩
  | cons hs _ ih =>
    obtain ⟨st₁, hrun₁, hst₁, hidx₁⟩ := hs.exec_eq hcall hst
    obtain ⟨st₂, hrun₂, hst₂, hidx₂⟩ := ih hst₁
    refine ⟨st₂, fun m => ?_, hst₂, hidx₂.trans hidx₁⟩
    rw [execSimples, hrun₁]
    exact hrun₂ m

/-! ## Loops -/

/-- A small number fits `uint32_t`. -/
theorem convert_natCast {k : Nat} (hk : k < 2 ^ 32) : convert false 32 (k : Int) = k := by
  rw [convert, ofBits, if_neg (by decide), BitVec.ofInt_natCast, BitVec.toNat_ofNat, Nat.mod_eq_of_lt hk]

/-- The loop's counter does not wrap around. -/
theorem compute_succ {k : Nat} (hk : k + 1 < 2 ^ 32) : BinOp.compute .add false 32 (k : Int) 1 = ((k + 1 : Nat) : Int) := by
  have hone : BitVec.ofInt 32 1 = BitVec.ofNat 32 1 := rfl
  rw [BinOp.compute, ofBits, if_neg (by decide), BitVec.ofInt_natCast, hone, BinOp.apply, ← BitVec.ofNat_add, BitVec.toNat_ofNat,
    Nat.mod_eq_of_lt hk]

/-- The test of a loop. -/
theorem turn_test {k n : Nat} (hx : st.vars .index = some (.uint32, (k : Int))) (hk : k < 2 ^ 32) (hn : n < 2 ^ 32) (m : DataModel) :
    (Expr.cmp .lt (.var .index) (.lit .int32 n)).eval m st = .ok (.int, if k < n then 1 else 0) := by
  have hvar : (Expr.var .index).eval m st = .ok (StdType.uint32.type m, (k : Int)) := by simp only [Expr.eval, hx]
  have hlit : (Expr.lit .int32 n).eval m st = .ok (StdType.int32.type m, (n : Int)) := rfl
  have hcmp : (Expr.cmp .lt (.var .index) (.lit .int32 n)).eval m st =
      .ok (.int, if CmpOp.holds .lt (convert false 32 (k : Int)) (convert false 32 (n : Int)) = true then 1 else 0) := by
    rw [Expr.eval, hvar, hlit]
    cases m <;> rfl
  rw [hcmp, convert_natCast hk, convert_natCast hn]
  simp [CmpOp.holds]

/-- The number of the next turn. -/
theorem turn_next {k : Nat} (hx : st.vars .index = some (.uint32, (k : Int))) (hk : k + 1 < 2 ^ 32) (m : DataModel) :
    (Expr.bin .add (.var .index) (.lit .int32 1)).eval m st = .ok (StdType.uint32.type m, ((k + 1 : Nat) : Int)) := by
  have hvar : ∀ m, (Expr.var .index).eval m st = .ok (StdType.uint32.type m, (k : Int)) := fun m => by simp only [Expr.eval, hx]
  have hlit : ∀ m, (Expr.lit .int32 1).eval m st = .ok (StdType.int32.type m, 1) := fun m => rfl
  have hadd : (Expr.bin .add (.var .index) (.lit .int32 1)).eval m st =
      .ok (StdType.uint32.type m, BinOp.compute .add StdType.uint32.isSigned StdType.uint32.width (k : Int) 1) :=
    bin_ok hvar hlit rfl (fun _ => Or.inl rfl) (fun h => absurd h (by decide)) (fun h => absurd h (by decide)) m
  rw [hadd]
  exact congrArg (fun v => Except.ok (StdType.uint32.type m, v)) (compute_succ hk)

/-- A loop ends after its turns: what holds of the state and the number of the turn is kept by the body. -/
theorem turns_ok (call : DataModel → Calls) {n : Nat} (ss : List Simple) (I : Nat → State → Prop) (hn : n + 1 < 2 ^ 32)
    (hidx : ∀ k st, I k st → st.vars .index = some (.uint32, (k : Int)))
    (hstep : ∀ k st, k < n → I k st → ∃ st', (∀ m, execSimples m (call m) st ss = .ok st') ∧
      st'.vars .index = some (.uint32, (k : Int)) ∧ I (k + 1) (st'.set .index .uint32 ((k + 1 : Nat) : Int))) (d : Nat) :
    ∀ k fuel st, k + d = n → d < fuel → I k st → ∃ st', (∀ m, turns m (call m) n ss fuel st = .ok st') ∧ I n st' := by
  induction d with
  | zero =>
    intro k fuel st hk hfuel hI
    obtain ⟨fuel, rfl⟩ := Nat.exists_eq_succ_of_ne_zero (Nat.ne_of_gt hfuel)
    obtain rfl : k = n := hk
    refine ⟨st, fun m => ?_, hI⟩
    rw [turns, turn_test (hidx _ _ hI) (by omega) (by omega), if_neg (Nat.lt_irrefl k)]
    rfl
  | succ d ih =>
    intro k fuel st hk hfuel hI
    obtain ⟨fuel, rfl⟩ := Nat.exists_eq_succ_of_ne_zero (Nat.ne_of_gt (Nat.zero_lt_of_lt hfuel))
    have hlt : k < n := by omega
    obtain ⟨st₁, hrun₁, hidx₁, hI₁⟩ := hstep k st hlt hI
    obtain ⟨st₂, hrun₂, hI₂⟩ := ih (k + 1) fuel _ (by omega) (by omega) hI₁
    refine ⟨st₂, fun m => ?_, hI₂⟩
    have hassign : st₁.assign .index ((k + 1 : Nat) : Int) = .ok (st₁.set .index .uint32 ((k + 1 : Nat) : Int)) := by
      have hconv : convert StdType.uint32.isSigned StdType.uint32.width ((k + 1 : Nat) : Int) = ((k + 1 : Nat) : Int) :=
        convert_natCast (by omega)
      simp only [State.assign, hidx₁, State.set, hconv]
    rw [turns, turn_test (hidx _ _ hI) (by omega) (by omega), if_pos hlt]
    change (execSimples m (call m) st ss >>= fun st => _) = _
    rw [hrun₁]
    change ((Expr.bin .add (.var .index) (.lit .int32 1)).eval m st₁ >>= fun v => _) = _
    rw [turn_next hidx₁ (by omega)]
    change (st₁.assign .index ((k + 1 : Nat) : Int) >>= fun st => _) = _
    rw [hassign]
    exact hrun₂ m

/-! ## Statements -/

/-- The state at turn `k` of a loop that is in the context `Γ`. -/
structure AtTurn (Γ : Ctx) (k : Nat) (st : State) : Prop where
  idx : st.vars .index = some (.uint32, (k : Int))
  vars : (fun x => (st.vars x).map Prod.fst) = Function.update Γ.vars .index (some .uint32)
  arrs : ∀ A n, Γ.arrs A = some n → ∃ vs : List Int, vs.length = n ∧ st.arrs A = some (vs.map some)

namespace AtTurn

variable {k n : Nat}

/-- At each turn of the loop its body's context holds. -/
theorem counted (h : AtTurn Γ k st) (hk : k < n) : Models (Γ.counted n) st where
  vars := h.vars
  arrs := h.arrs
  bound j hj := by
    obtain rfl : n = j := Option.some.inj hj
    exact ⟨k, h.idx, Int.natCast_nonneg k, Int.ofNat_lt.mpr hk⟩

/-- The next turn starts with the next index. -/
theorem next (h : Models (Γ.counted n) st) : AtTurn Γ k (st.set .index .uint32 (k : Int)) where
  idx := State.set_self
  vars := by
    rw [map_fst_set, h.vars]
    exact Function.update_idem ..
  arrs := h.arrs

/-- The first turn starts with the index 0. -/
theorem start (h : Models Γ st) : AtTurn Γ 0 (st.set .index .uint32 0) where
  idx := State.set_self
  vars := by rw [map_fst_set, h.vars]
  arrs := h.arrs

end AtTurn

/-- At the end of a block, what the context knew before it still holds. -/
theorem Models.leave (hst : Models Γ st) (hvars : ∀ x, (Γ.vars x).isSome = true → (st'.vars x).map Prod.fst = Γ.vars x)
    (harrs : ∀ A n, Γ.arrs A = some n → ∃ vs : List Int, vs.length = n ∧ st'.arrs A = some (vs.map some))
    (hidx : Γ.bound.isSome = true → st'.vars .index = st.vars .index) : Models Γ (st.leave st') where
  vars := by
    funext x
    have hx : (st.vars x).map Prod.fst = Γ.vars x := congrFun hst.vars x
    by_cases h : (st.vars x).isSome = true
    · have hsome : (Γ.vars x).isSome = true := by rw [← hx, Option.isSome_map, h]
      simp only [State.leave, h, if_true]
      exact hvars x hsome
    · simp only [State.leave, if_neg h]
      rw [← hx, Option.not_isSome_iff_eq_none.mp h]
  arrs := harrs
  bound n hn := by
    obtain ⟨k, hk, hpos, hlt⟩ := hst.bound n hn
    exact ⟨k, (if_pos (isSome_of_eq hk)).trans ((hidx (isSome_of_eq hn)).trans hk), hpos, hlt⟩

/-- A loop is left. -/
theorem AtTurn.leave {k : Nat} (hst : Models Γ st) (hx : Γ.vars .index = none) (h : AtTurn Γ k st') : Models Γ (st.leave st') := by
  refine hst.leave (fun x hsome => ?_) h.arrs fun hb => ?_
  · have hne : x ≠ .index := by
      rintro rfl
      rw [hx] at hsome
      cases hsome
    exact (congrFun h.vars x).trans (Function.update_of_ne hne ..)
  · obtain ⟨n, hn⟩ := Option.isSome_iff_exists.mp hb
    obtain ⟨j, hj, -⟩ := hst.bound n hn
    rw [hst.var_none hx] at hj
    cases hj

/-- Simple statements keep the types and the arrays they find. -/
theorem SimpleTyped.extends {s : Simple} (h : SimpleTyped Φ Γ s Γ') :
    (∀ x, (Γ.vars x).isSome = true → Γ'.vars x = Γ.vars x) ∧ Γ'.arrs = Γ.arrs := by
  cases h with
  | assign => exact ⟨fun x _ => rfl, rfl⟩
  | store => exact ⟨fun x _ => rfl, rfl⟩
  | call => exact ⟨fun x _ => rfl, rfl⟩
  | @decl t x e s hx _ _ =>
    refine ⟨fun y hy => Function.update_of_ne ?_ .., rfl⟩
    rintro rfl
    rw [hx] at hy
    cases hy

/-- A list of simple statements declares names and changes no type. -/
theorem SimplesTyped.extends {ss : List Simple} (h : SimplesTyped Φ Γ ss Γ') :
    (∀ x, (Γ.vars x).isSome = true → Γ'.vars x = Γ.vars x) ∧ Γ'.arrs = Γ.arrs := by
  induction h with
  | nil => exact ⟨fun x _ => rfl, rfl⟩
  | cons hs _ ih =>
    obtain ⟨hvars, harrs⟩ := hs.extends
    refine ⟨fun x hx => ?_, ih.2.trans harrs⟩
    have hx' := hvars x hx
    exact (ih.1 x (by rw [hx', hx])).trans hx'

/-- The loop of the source begins with the declaration of its counter. -/
theorem loop_exec {fuel n : Nat} {ss : List Simple} (hst : Models Γ st) (hx : Γ.vars .index = none)
    (hrun : ∀ m, turns m (call m) n ss fuel (st.set .index .uint32 0) = .ok st') (m : DataModel) :
    (Stmt.loop n ss).exec m (call m) fuel st = .ok (st.leave st') := by
  have hdecl : st.declare .uint32 .index 0 = .ok (st.set .index .uint32 0) := declare_ok hst hx 0
  rw [Stmt.exec, hdecl]
  change (turns m (call m) n ss fuel (st.set .index .uint32 0) >>= fun inner => _) = _
  rw [hrun]
  rfl

/-- A statement that is typed runs to one state in both widths of `long`, with fuel for its loops. -/
theorem StmtTyped.exec_eq {fuel : Nat} {s : Stmt} (hcall : CallsReturn Φ call) (hfuel : 16 < fuel) (hst : Models Γ st)
    (h : StmtTyped Φ Γ s Γ') : ∃ st', (∀ m, s.exec m (call m) fuel st = .ok st') ∧ Models Γ' st' := by
  cases h with
  | simple hs =>
    obtain ⟨st', hrun, hst', -⟩ := hs.exec_eq hcall hst
    exact ⟨st', hrun, hst'⟩
  | initArr A ns =>
    refine ⟨_, fun m => rfl, ?_⟩
    have hfill : Models (Γ.fill A (ns.map fun (k : Nat) => convert false 32 (k : Int)).length)
        { st with arrs := Function.update st.arrs A (some ((ns.map fun (k : Nat) => convert false 32 (k : Int)).map some)) } := hst.fill
    rw [List.length_map, List.map_map] at hfill
    exact hfill
  | ite hc hss hts =>
    obtain ⟨v, hv⟩ := hc.eval_eq hst
    obtain ⟨st₁, hrun₁, hst₁, -⟩ := hss.exec_eq hcall hst
    obtain ⟨st₂, hrun₂, hst₂, -⟩ := hts.exec_eq hcall hst
    by_cases hz : v ≠ 0
    · refine ⟨st₁, fun m => ?_, hst₁⟩
      rw [Stmt.exec, hv]
      exact (if_pos hz).trans (hrun₁ m)
    · refine ⟨st₂, fun m => ?_, hst₂⟩
      rw [Stmt.exec, hv]
      exact (if_neg hz).trans (hrun₂ m)
  | @loop n ss hn hx hss =>
    obtain ⟨st', hrun, hturn⟩ := turns_ok call ss (AtTurn Γ) (by omega) (fun k st h => h.idx)
      (fun k st hk h => by
        obtain ⟨st', hrun, hst', hidx⟩ := hss.exec_eq hcall (h.counted hk)
        exact ⟨st', hrun, hidx.trans h.idx, AtTurn.next hst'⟩) n 0 fuel _ (Nat.zero_add n) (by omega) (AtTurn.start hst)
    exact ⟨_, loop_exec hst hx hrun, AtTurn.leave hst hx hturn⟩
  | @switch e t cases he hcases =>
    obtain ⟨v, hv⟩ := he.eval_eq hst
    cases hfind : cases.find? fun c => (c.1 : Int) = v with
    | none =>
      refine ⟨st, fun m => ?_, hst⟩
      rw [Stmt.exec, hv]
      simp only [bind, Except.bind, hfind]
    | some c =>
      obtain ⟨st', hrun, hst', -⟩ := (hcases c (List.mem_of_find?_eq_some hfind)).exec_eq hcall hst
      refine ⟨st', fun m => ?_, hst'⟩
      rw [Stmt.exec, hv]
      simp only [bind, Except.bind, hfind]
      exact hrun m
  | block hss =>
    obtain ⟨st₁, hrun, hst₁, hidx⟩ := hss.exec_eq hcall hst
    obtain ⟨hvars, harrs⟩ := hss.extends
    refine ⟨st.leave st₁, fun m => ?_, hst.leave (fun x hx => ?_) (fun A n hA => ?_) fun _ => hidx⟩
    · rw [Stmt.exec, hrun]
      rfl
    · exact (congrFun hst₁.vars x).trans (hvars x hx)
    · rw [← harrs] at hA
      exact hst₁.arrs A n hA

/-! ## Arrays without values -/

/-- A declaration of an array extends the context and the state in step. -/
theorem Models.declArr {A : ArrName} (hst : Models Γ st) (hA : Γ.arrs A = none) (cells : List (Option Int)) :
    Models Γ { st with arrs := Function.update st.arrs A (some cells) } where
  vars := hst.vars
  arrs B n hB := by
    have hne : B ≠ A := by
      rintro rfl
      rw [hA] at hB
      cases hB
    obtain ⟨vs, hlen, hvs⟩ := hst.arrs B n hB
    exact ⟨vs, hlen, (Function.update_of_ne hne ..).trans hvs⟩
  bound := hst.bound

/-- The first `k` of `n` elements have values. -/
def Filled (A : ArrName) (n k : Nat) (st : State) : Prop :=
  ∃ vs : List Int, vs.length = k ∧ st.arrs A = some (vs.map some ++ List.replicate (n - k) none)

/-- A turn of the loop that gives the elements their values. -/
theorem fill_turn {A : ArrName} {n k : Nat} {e : Expr} (he : Typed (Γ.counted n) e t) (hA : Γ.arrs A = none) (hk : k < n)
    (hst : AtTurn Γ k st) (hfill : Filled A n k st) :
    ∃ st', (∀ m, execSimples m (call m) st [.store A (.var .index) e] = .ok st') ∧ st'.vars .index = some (.uint32, (k : Int)) ∧
      AtTurn Γ (k + 1) (st'.set .index .uint32 ((k + 1 : Nat) : Int)) ∧
      Filled A n (k + 1) (st'.set .index .uint32 ((k + 1 : Nat) : Int)) := by
  obtain ⟨v, hv⟩ := he.eval_eq (hst.counted hk)
  obtain ⟨vs, rfl, hcells⟩ := hfill
  have hvar : ∀ m, (Expr.var .index).eval m st = .ok (StdType.uint32.type m, (vs.length : Int)) := fun m => by
    simp only [Expr.eval, hst.idx]
  obtain ⟨rest, hrest⟩ := Nat.exists_eq_add_of_lt hk
  have hcells' : st.arrs A = some (vs.map some ++ none :: List.replicate rest none) := by
    rw [hcells, hrest, show vs.length + rest + 1 - vs.length = rest + 1 by omega, List.replicate_succ]
  have hset : (vs.map some ++ none :: List.replicate rest (none : Option Int)).set vs.length (some (convert false 32 v)) =
      (vs ++ [convert false 32 v]).map some ++ List.replicate rest none := by
    simp
  let cells := (vs ++ [convert false 32 v]).map some ++ List.replicate rest none
  let st' : State := { st with arrs := Function.update st.arrs A (some cells) }
  have hstore : st.store A (vs.length : Int) v = .ok st' := by
    have hrange : (0 : Int) ≤ vs.length ∧ (vs.length : Int) < ((vs.map some ++ none :: List.replicate rest none).length : Nat) := by
      simp
    simp only [State.store, hcells', hrange, and_self, if_true, Int.toNat_natCast, hset, st', cells]
  refine ⟨st', fun m => ?_, hst.idx, ?_, vs ++ [convert false 32 v], ?_, ?_⟩
  · rw [execSimples, Simple.exec, hvar, hv]
    change (st.store A (vs.length : Int) v >>= fun st => _) = _
    rw [hstore]
    rfl
  · exact AtTurn.next ((hst.counted hk).declArr hA _)
  · simp
  · have harr : st'.arrs A = some cells := Function.update_self ..
    rw [show n - (vs.length + 1) = rest by omega]
    exact harr

/-- So do the statements of a body, by induction on the typing. -/
theorem StmtsTyped.exec_eq {fuel : Nat} {ss : List Stmt} (hcall : CallsReturn Φ call) (hfuel : 16 < fuel) (hst : Models Γ st)
    (h : StmtsTyped Φ Γ ss Γ') : ∃ st', (∀ m, execStmts m (call m) fuel st ss = .ok st') ∧ Models Γ' st' := by
  induction h generalizing st with
  | nil => exact ⟨st, fun m => rfl, hst⟩
  | cons hs _ ih =>
    obtain ⟨st₁, hrun₁, hst₁⟩ := hs.exec_eq hcall hfuel hst
    obtain ⟨st₂, hrun₂, hst₂⟩ := ih hst₁
    refine ⟨st₂, fun m => ?_, hst₂⟩
    rw [execStmts, hrun₁]
    exact hrun₂ m
  | @fill Γ _ A n e t _ hn hA hx he _ ih =>
    have hdecl : Models Γ { st with arrs := Function.update st.arrs A (some (List.replicate n none)) } := hst.declArr hA _
    obtain ⟨st₁, hrun₁, hturn, vs, hlen, hcells⟩ := turns_ok call [.store A (.var .index) e]
      (fun k st => AtTurn Γ k st ∧ Filled A n k st) (by omega) (fun k st h => h.1.idx)
      (fun k st hk h => fill_turn he hA hk h.1 h.2) n 0 fuel _ (Nat.zero_add n) (by omega)
      ⟨AtTurn.start hdecl, [], rfl, Function.update_self ..⟩
    have hleft := AtTurn.leave hdecl hx hturn
    -- All elements have values.
    have hall : (State.leave { st with arrs := Function.update st.arrs A (some (List.replicate n none)) } st₁).arrs A =
        some (vs.map some) := by
      rw [Nat.sub_self, List.replicate_zero, List.append_nil] at hcells
      exact hcells
    have hfull : Models (Γ.fill A vs.length)
        { (State.leave _ st₁) with arrs := Function.update (State.leave _ st₁).arrs A (some (vs.map some)) } := hleft.fill
    rw [← hall, Function.update_eq_self, hlen] at hfull
    obtain ⟨st₂, hrun₂, hst₂⟩ := ih hfull
    refine ⟨st₂, fun m => ?_, hst₂⟩
    rw [execStmts, Stmt.exec]
    change (Stmt.exec m (call m) fuel _ (.loop n [.store A (.var .index) e]) >>= fun st => _) = _
    rw [loop_exec hdecl hx hrun₁]
    exact hrun₂ m

/-! ## Functions -/

/-- The parameters are bound to the arguments. -/
theorem bindParams_ok {ps : List (Name × StdType)} (hnodup : (ps.map Prod.fst).Nodup) (hx : .index ∉ ps.map Prod.fst) {args : List Int}
    (hlen : args.length = ps.length) : ∃ st, bindParams ps args = .ok st ∧ Models (paramCtx ps) st := by
  induction ps generalizing args with
  | nil =>
    obtain rfl := List.length_eq_zero_iff.mp hlen
    refine ⟨_, rfl, rfl, fun A n h => ?_, fun n h => ?_⟩
    · cases h
    · cases h
  | cons p ps ih =>
    obtain ⟨v, vs, rfl⟩ := List.exists_cons_of_length_eq_add_one hlen
    obtain ⟨hnot, hnodup⟩ := List.nodup_cons.mp hnodup
    obtain ⟨hne, hx⟩ := not_or.mp (mt List.mem_cons.mpr hx)
    obtain ⟨st, hbind, hst⟩ := ih hnodup hx (Nat.succ.inj hlen)
    refine ⟨st.set p.1 p.2 (convert p.2.isSigned p.2.width v), ?_, hst.declare (Ne.symm hne) p.2 _⟩
    rw [bindParams, hbind]
    exact declare_ok hst (paramCtx_none hnot) v

/-- A function that is typed returns one value in both widths of `long`. -/
theorem FnTyped.run_eq {fn : Fn} {fuel : Nat} (h : FnTyped Φ fn) (hcall : CallsReturn Φ call) (hfuel : 16 < fuel) {args : List Int}
    (hlen : args.length = fn.params.length) : ∃ v, ∀ m, fn.run m (call m) fuel args = .ok v := by
  obtain ⟨st, hbind, hst⟩ := bindParams_ok h.nodup h.index hlen
  obtain ⟨Γ, t, hbody, hret⟩ := h.body
  obtain ⟨st', hrun, hst'⟩ := hbody.exec_eq hcall hfuel hst
  obtain ⟨v, hv⟩ := hret.eval_eq hst'
  refine ⟨convert fn.retType.isSigned fn.retType.width v, fun m => ?_⟩
  rw [Fn.run, hbind]
  change (execStmts m (call m) fuel st fn.body >>= fun st => _) = _
  rw [hrun]
  change (fn.ret.eval m st' >>= fun v => _) = _
  rw [hv]
  rfl

/-- The functions of a typed program return, with the same value under both widths of `long`. -/
theorem ProgramTyped.calls_return {p : Program} {fuel : Nat} (h : ProgramTyped p) (hfuel : 16 < fuel) :
    CallsReturn (arity p) fun m => p.calls m fuel := by
  induction p with
  | nil =>
    intro f n hf
    cases hf
  | cons fn fns ih =>
    intro f n hf args hlen
    rw [arity] at hf
    by_cases hname : fn.name = f
    · rw [if_pos hname] at hf
      obtain rfl := Option.some.inj hf
      obtain ⟨v, hv⟩ := h.1.run_eq (ih h.2) hfuel hlen
      refine ⟨v, fun m => ?_⟩
      exact (if_pos hname).trans (hv m)
    · rw [if_neg hname] at hf
      obtain ⟨v, hv⟩ := ih h.2 f n hf args hlen
      refine ⟨v, fun m => ?_⟩
      exact (if_neg hname).trans (hv m)

end CronoVM.Fuzz
