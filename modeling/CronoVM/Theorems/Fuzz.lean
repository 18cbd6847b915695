import CronoVM.Fuzz.Emit
import CronoVM.Lemmas.FuzzRuns
import CronoVM.Lemmas.FuzzStatements

/-!
# The programs of the fuzzer have no undefined behaviour

Each emitter gives typed text, whatever it draws. The depth of an expression is an induction; the rest follows the steps of the emitters.
A seed stands for a stream of draws, and the theorem is about every stream. That a program returns says that no fault of `Fault` occurs
in it: every operator that may overflow is evaluated in `uint32_t` or `uint64_t`, shifts and indices are in range, no divisor is zero,
no loop is endless.
-/

namespace CronoVM.Fuzz

open CIntegers Draws

/-! ## Draws -/

/-- A number that is drawn is below its bound. -/
theorem always_rnd {n : Nat} (hn : 0 < n) : Always (fun k => k < n) (rnd n) :=
  always_bind always_true fun z _ => always_pure (Nat.mod_lt z.toNat hn)

/-- What is picked is in the table. -/
theorem always_pick {α : Type} {table : List α} {default : α} (h : table ≠ []) : Always (fun a => a ∈ table) (pick table default) := by
  have hlen : 0 < table.length := List.length_pos_iff.mpr h
  refine always_bind (always_rnd hlen) fun k hk => always_pure ?_
  rw [List.getD, List.getElem?_eq_getElem hk]
  exact List.getElem_mem hk

/-! ## Expressions -/

/-- The variables of the pool are declared. -/
def Pooled (count : Pool) (Γ : Ctx) : Prop := ∀ t k, k < count t → Γ.vars (.pool t k) = some t.name

variable {count : Pool} {Γ : Ctx} {rot64 : Bool} {t : Ty}

/-- Arithmetic in the C type of a pool wraps around. -/
theorem wraps_ctype (t : Ty) : Wraps t.ctype := by
  cases t <;> first | exact Or.inl rfl | exact Or.inr rfl

/-- A type is not wider than its C type. -/
theorem bits_le_width (t : Ty) : t.bits ≤ t.ctype.width := by
  cases t <;> decide

/-- An operator that neither shifts nor divides, in the wide type. -/
theorem Typed.wide {op : BinOp} {s : StdType} {a b : Expr} (hs : op.isShift = false) (hd : op.isDiv = false) (hw : Wraps s)
    (ha : Typed Γ a s) (hb : Typed Γ b s) : Typed Γ (.bin op a b) s := by
  have h : Typed Γ (.bin op a b) (s.common s) := .bin hs hd (fun _ => by rwa [hw.common_self]) ha hb
  rwa [hw.common_self] at h

/-- A literal has the type it is drawn for, after promotion. -/
theorem emitLit_typed (Γ : Ctx) (t : Ty) : Always (fun e => ∃ s, Typed Γ e s ∧ s.promote = t.name.promote) (emitLit t) := by
  cases t with
  | u8 => exact always_bind always_true fun k _ => always_pure ⟨.int32, .lit _ _, rfl⟩
  | u16 => exact always_bind always_true fun k _ => always_pure ⟨.int32, .lit _ _, rfl⟩
  | u32 => exact always_bind always_true fun z _ => always_pure ⟨.uint32, .lit _ _, rfl⟩
  | u64 => exact always_bind always_true fun z _ => always_pure ⟨.uint64, .lit _ _, rfl⟩

/-- A variable that is drawn is declared with the type of its pool. -/
theorem emitVar_pool (h : Pooled count Γ) (ht : 0 < count t) :
    Always (fun x => Γ.vars x = some t.name ∧ x ≠ .index ∧ ∃ k, x = .pool t k) (emitVar count t) :=
  always_bind (always_rnd ht) fun k hk => always_pure ⟨h t k hk, Name.noConfusion, k, rfl⟩

/-- A leaf is a literal or a variable. -/
theorem emitLeaf_typed (h : Pooled count Γ) (t : Ty) :
    Always (fun e => ∃ s, Typed Γ e s ∧ s.promote = t.name.promote) (emitLeaf count t) := by
  refine always_ite (fun ht => ?_) fun _ => emitLit_typed Γ t
  refine always_bind always_true fun b _ => always_ite (fun _ => ?_) fun _ => emitLit_typed Γ t
  exact always_bind (emitVar_pool h ht) fun x hx => always_pure ⟨t.name, .var hx.1, rfl⟩

/-- A leaf of type `uint32_t` or `uint64_t` has just that type. -/
theorem emitLeaf_uint32 (h : Pooled count Γ) : Always (fun e => Typed Γ e .uint32) (emitLeaf count .u32) := by
  refine always_mono (fun e he => ?_) (emitLeaf_typed h .u32)
  obtain ⟨s, hs, hprom⟩ := he
  cases s <;> first | exact hs | cases hprom

/-- Each form of an expression is typed if its parts are. -/
theorem emitForm_typed {sub : Ty → Gen Expr} (hsub : ∀ t, Always (fun e => ∃ s, Typed Γ e s) (sub t)) (t : Ty) (form : Nat) :
    Always (fun e => Typed Γ e t.name) (emitForm sub t form) := by
  have hw := wraps_ctype t
  have hwidth := bits_le_width t
  have hbinary : Always (fun e => Typed Γ e t.name) (emitForm sub t 0) := by
    refine always_bind (always_pick (by decide)) fun op hop => always_bind (hsub t) fun a ha => always_bind (hsub t) fun b hb => ?_
    obtain ⟨r, ha⟩ := ha
    obtain ⟨s, hb⟩ := hb
    have hkind : op.isShift = false ∧ op.isDiv = false := by
      revert op
      decide
    exact always_pure (.cast _ (.wide hkind.1 hkind.2 hw (.cast _ ha) (.cast _ hb)))
  unfold emitForm
  split
  · exact hbinary
  · exact hbinary
  · refine always_bind (always_rnd (by cases t <;> decide)) fun sh hsh => always_bind always_true fun dir _ => ?_
    refine always_bind (hsub t) fun a ha => ?_
    obtain ⟨r, ha⟩ := ha
    refine always_pure (.cast _ (.shift ?_ hw (by omega) (.cast _ ha)))
    cases dir <;> rfl
  · -- Both shifts of a rotation are by less than the width.
    refine always_bind (always_rnd (by cases t <;> decide)) fun r hr => always_bind (hsub t) fun a ha => always_bind (hsub t) fun b hb => ?_
    obtain ⟨r', ha⟩ := ha
    obtain ⟨s, hb⟩ := hb
    exact always_pure (.cast _ (.wide rfl rfl hw (.shift rfl hw (by omega) (.cast _ ha)) (.shift rfl hw (by omega) (.cast _ hb))))
  · refine always_bind always_true fun dir _ => always_bind (hsub t) fun a ha => always_bind (hsub t) fun b hb => ?_
    obtain ⟨r, ha⟩ := ha
    obtain ⟨s, hb⟩ := hb
    refine always_pure (.cast _ (.div ?_ hw (.cast _ ha) (.cast _ hb)))
    cases dir <;> rfl
  · refine always_bind always_true fun s _ => always_bind (hsub s) fun a ha => ?_
    obtain ⟨r, ha⟩ := ha
    exact always_pure (.cast _ ha)
  · refine always_bind always_true fun cmpt _ => always_bind (hsub cmpt) fun a ha => always_bind always_true fun op _ => ?_
    refine always_bind (hsub cmpt) fun b hb => always_bind (hsub t) fun x hx => always_bind (hsub t) fun y hy => ?_
    obtain ⟨r, ha⟩ := ha
    obtain ⟨s, hb⟩ := hb
    obtain ⟨u, hx⟩ := hx
    obtain ⟨v, hy⟩ := hy
    exact always_pure (.cast _ (.cond (.cmp _ (.cast _ ha) (.cast _ hb)) hx hy))

/-- Expressions of any depth are typed, by induction on it. -/
theorem emitExpr_typed (h : Pooled count Γ) (depth : Nat) :
    ∀ t, Always (fun e => ∃ s, Typed Γ e s) (emitExpr count rot64 depth t) := by
  have hleaf : ∀ t, Always (fun e => ∃ s, Typed Γ e s) (emitLeaf count t) := fun t =>
    always_mono (fun e he => by
      obtain ⟨s, hs, -⟩ := he
      exact ⟨s, hs⟩) (emitLeaf_typed h t)
  induction depth with
  | zero => exact hleaf
  | succ depth ih =>
    intro t
    refine always_bind always_true fun b _ => always_ite (fun _ => hleaf t) fun _ => ?_
    refine always_bind always_true fun form _ => ?_
    exact always_mono (fun e he => ⟨t.name, he⟩) (emitForm_typed ih t _)

/-! ## Statements -/

variable {Φ : Arities}

/-- Lists of simple statements, one behind the other. -/
theorem SimplesTyped.flatten {sss : List (List Simple)} (h : ∀ ss ∈ sss, SimplesTyped Φ Γ ss Γ) : SimplesTyped Φ Γ sss.flatten Γ := by
  induction sss with
  | nil => exact .nil
  | cons ss sss ih => exact (h ss List.mem_cons_self).append (ih fun ss hss => h ss (List.mem_cons_of_mem _ hss))

/-- Lists of statements, one behind the other. -/
theorem StmtsTyped.flatten {sss : List (List Stmt)} (h : ∀ ss ∈ sss, StmtsTyped Φ Γ ss Γ) : StmtsTyped Φ Γ sss.flatten Γ := by
  induction sss with
  | nil => exact .nil
  | cons ss sss ih => exact (h ss List.mem_cons_self).append (ih fun ss hss => h ss (List.mem_cons_of_mem _ hss))

/-- A single simple statement. -/
theorem SimpleTyped.single {s : Simple} (h : SimpleTyped Φ Γ s Γ) : SimplesTyped Φ Γ [s] Γ := .cons h .nil

/-- A single statement. -/
theorem StmtTyped.single {s : Stmt} (h : StmtTyped Φ Γ s Γ) : StmtsTyped Φ Γ [s] Γ := .cons h .nil

/-- An assignment to a variable of the pool is typed. -/
theorem emitAssign_typed (h : Pooled count Γ) : Always (fun ss => SimplesTyped Φ Γ ss Γ) (emitAssign count rot64) := by
  refine always_bind always_true fun t _ => always_ite (fun _ => always_pure .nil) fun ht => ?_
  refine always_bind (emitVar_pool h (Nat.pos_of_ne_zero ht)) fun x hx => always_bind always_true fun depth _ => ?_
  refine always_bind (emitExpr_typed h _ t) fun e he => ?_
  obtain ⟨s, he⟩ := he
  exact always_pure (SimpleTyped.assign hx.1 hx.2.1 he).single

/-- So are any number of them. -/
theorem emitAssigns_typed (Φ : Arities) (h : Pooled count Γ) (k : Nat) :
    Always (fun ss => SimplesTyped Φ Γ ss Γ) (emitAssigns count rot64 k) :=
  always_bind (always_each_mem fun _ _ => emitAssign_typed h) fun _ hss => always_pure (SimplesTyped.flatten hss)

/-- A condition is typed. -/
theorem emitCond_typed (h : Pooled count Γ) : Always (fun e => ∃ s, Typed Γ e s) (emitCond count rot64) := by
  refine always_bind always_true fun t _ => always_bind always_true fun b _ => always_ite (fun _ => ?_) fun _ => ?_
  · refine always_bind (emitExpr_typed h 2 t) fun a ha => always_bind always_true fun op _ => ?_
    refine always_bind (emitExpr_typed h 2 t) fun b hb => ?_
    obtain ⟨r, ha⟩ := ha
    obtain ⟨s, hb⟩ := hb
    exact always_pure ⟨_, .cmp _ (.cast _ ha) (.cast _ hb)⟩
  · refine always_bind (emitExpr_typed h 2 t) fun a ha => always_bind always_true fun op _ => ?_
    refine always_bind (emitExpr_typed h 2 t) fun b hb => ?_
    obtain ⟨r, ha⟩ := ha
    obtain ⟨s, hb⟩ := hb
    exact always_pure ⟨_, .cmp _ ha hb⟩

/-- A declaration of another name leaves the pool. -/
theorem Pooled.declare {x : Name} {s : StdType} (h : Pooled count Γ) (hx : ∀ t k, x ≠ .pool t k) : Pooled count (Γ.declare s x) :=
  fun t k hk => (Ctx.declare_of_ne (hx t k).symm).trans (h t k hk)

/-- The pool in a loop. -/
theorem Pooled.counted (h : Pooled count Γ) (n : Nat) : Pooled count (Γ.counted n) := by
  intro t k hk
  exact (Ctx.counted_of_ne Name.noConfusion).trans (h t k hk)

/-- What feeds the checksum is typed. -/
theorem emitFeed_typed (Φ : Arities) (h : Pooled count Γ) (hx : Γ.vars .index = some .uint32) :
    Always (fun ss => SimplesTyped Φ Γ ss Γ) (emitFeed count) := by
  refine always_ite (fun ht => ?_) fun _ => always_pure .nil
  refine always_bind (emitVar_pool h ht) fun x hx' => always_bind (emitVar_pool h ht) fun y hy => ?_
  have hadd : Typed Γ (.bin .add (.var y) (.var .index)) .uint32 := .wide rfl rfl (.inl rfl) (.var hy.1) (.var hx)
  exact always_pure (SimpleTyped.assign hx'.1 hx'.2.1 hadd).single

/-- The functions of `emit_helpers` may be called. -/
structure Helpers (Φ : Arities) : Prop where
  mix32 : Φ .mix32 = some 4
  mix64 : Φ .mix64 = some 3
  useS : Φ .useS = some 4

/-- A place in the body of a function: the pool is declared, and none of the names that statements declare for themselves. -/
structure Body (count : Pool) (Γ : Ctx) : Prop where
  pool : Pooled count Γ
  index : Γ.vars .index = none
  field : ∀ v f, Γ.vars (.field v f) = none

/-- A declaration keeps what is typed. -/
theorem Typed.declare {e : Expr} {s u : StdType} {x : Name} (h : Typed Γ e s) (hx : Γ.vars x = none) : Typed (Γ.declare u x) e s := by
  induction h with
  | @var y t hy =>
    have hne : y ≠ x := by
      rintro rfl
      rw [hx] at hy
      cases hy
    exact .var ((Ctx.declare_of_ne hne).trans hy)
  | lit t n => exact .lit t n
  | cast t _ ih => exact .cast t ih
  | bin hs hd hw _ _ iha ihb => exact .bin hs hd hw iha ihb
  | shift hs hw hn _ ih => exact .shift hs hw hn ih
  | div hd hw _ _ iha ihb => exact .div hd hw iha ihb
  | cmp op _ _ iha ihb => exact .cmp op iha ihb
  | cond _ _ _ ihc iha ihb => exact .cond ihc iha ihb
  | masked hA hk hlt _ ih => exact .masked hA hk hlt ih
  | counted hA hb hk => exact .counted hA hb hk

/-- After the declarations of a list. -/
def Ctx.declares (Γ : Ctx) (ds : List (StdType × Name)) : Ctx := ds.foldl (fun Γ d => Γ.declare d.1 d.2) Γ

section declares

variable {ds : List (StdType × Name)} {x : Name} {u : StdType}

/-- Names that are not declared keep their meaning. -/
theorem declares_of_not_mem (h : x ∉ ds.map Prod.snd) : (Γ.declares ds).vars x = Γ.vars x := by
  induction ds generalizing Γ with
  | nil => rfl
  | cons d ds ih =>
    obtain ⟨hne, h⟩ := not_or.mp (mt List.mem_cons.mpr h)
    exact (ih h).trans (Ctx.declare_of_ne hne)

/-- Names that are declared once have the declared type. -/
theorem declares_of_mem (hnodup : (ds.map Prod.snd).Nodup) (h : (u, x) ∈ ds) : (Γ.declares ds).vars x = some u := by
  induction ds generalizing Γ with
  | nil => cases h
  | cons d ds ih =>
    obtain ⟨hnot, hnodup⟩ := List.nodup_cons.mp hnodup
    rcases List.mem_cons.mp h with rfl | h
    · exact (declares_of_not_mem hnot).trans Ctx.declare_self
    · exact ih hnodup h

/-- Declarations of variables leave the arrays. -/
theorem declares_arrs : (Γ.declares ds).arrs = Γ.arrs := by
  induction ds generalizing Γ with
  | nil => rfl
  | cons d ds ih => exact ih

/-- Declarations of different names, with values that do not depend on one another. -/
theorem decls_typed {ss : List Simple} (hnodup : (ds.map Prod.snd).Nodup) (hnone : ∀ d ∈ ds, Γ.vars d.2 = none ∧ d.2 ≠ .index)
    (h : List.Forall₂ (fun d s => ∃ e r, s = Simple.decl d.1 d.2 e ∧ Typed Γ e r) ds ss) : SimplesTyped Φ Γ ss (Γ.declares ds) := by
  induction ds generalizing Γ ss with
  | nil =>
    obtain rfl := List.forall₂_nil_left_iff.mp h
    exact .nil
  | cons d ds ih =>
    obtain ⟨s, ss, ⟨e, r, rfl, he⟩, htail, rfl⟩ := List.forall₂_cons_left_iff.mp h
    obtain ⟨hnot, hnodup⟩ := List.nodup_cons.mp hnodup
    obtain ⟨hd, hidx⟩ := hnone d List.mem_cons_self
    refine .cons (.decl d.1 hd hidx he) (ih hnodup (fun d' hd' => ?_) ?_)
    · have hne : d'.2 ≠ d.2 := fun heq => hnot (heq ▸ List.mem_map_of_mem hd')
      obtain ⟨hd'', hidx'⟩ := hnone d' (List.mem_cons_of_mem _ hd')
      exact ⟨(Ctx.declare_of_ne hne).trans hd'', hidx'⟩
    · refine htail.imp fun d' s' hs' => ?_
      obtain ⟨e', r', rfl, he'⟩ := hs'
      exact ⟨e', r', rfl, he'.declare hd⟩

end declares

/-- The arguments of a call. -/
theorem emitArgs_typed (h : Pooled count Γ) (t : Ty) (n : Nat) :
    Always (fun args : List Expr => args.length = n ∧ ∀ a ∈ args, ∃ s, Typed Γ a s) (each (List.range n) fun _ => emitLeaf count t) := by
  intro s
  have hlen : List.Forall₂ (fun _ _ => True) (List.range n) (each (List.range n) (fun _ => emitLeaf count t) s).1 :=
    always_each (fun _ _ => always_true) s
  refine ⟨hlen.length_eq.symm.trans List.length_range, ?_⟩
  refine always_each_mem (fun _ _ => ?_) s
  refine always_mono (fun e he => ?_) (emitLeaf_typed h t)
  obtain ⟨s, hs, -⟩ := he
  exact ⟨s, hs⟩

/-- The call of a function with leaves. -/
theorem emitCall_typed {f : FnName} {n : Nat} (h : Pooled count Γ) (ht : 0 < count t) (u : Ty) (hf : Φ f = some n) :
    Always (fun ss => StmtsTyped Φ Γ ss Γ) (do
      let x ← emitVar count t
      let args ← each (List.range n) fun _ => emitLeaf count u
      return [.simple (.call x f args)]) := by
  refine always_bind (emitVar_pool h ht) fun x hx => always_bind (emitArgs_typed h u n) fun args hargs => ?_
  obtain ⟨rfl, hargs⟩ := hargs
  exact always_pure (StmtTyped.simple (.call hx.1 hx.2.1 hf hargs)).single

/-- The fields of a variable of type `struct S`. -/
def fields (v : StructVar) : List (StdType × Name) :=
  [(.uint32, .field v .x), (.uint16, .field v .y), (.uint8, .field v .z), (.uint64, .field v .w)]

/-- The fields of a variable get typed values. -/
theorem fields_typed {v : StructVar} {x y z w : Expr} {r s u p : StdType} (hnone : ∀ f, Γ.vars (.field v f) = none)
    (hx : Typed Γ x r) (hy : Typed Γ y s) (hz : Typed Γ z u) (hw : Typed Γ w p) :
    SimplesTyped Φ Γ [.decl .uint32 (.field v .x) x, .decl .uint16 (.field v .y) y, .decl .uint8 (.field v .z) z,
      .decl .uint64 (.field v .w) w] (Γ.declares (fields v)) := by
  refine decls_typed ?_ ?_ (.cons ⟨x, r, rfl, hx⟩ (.cons ⟨y, s, rfl, hy⟩ (.cons ⟨z, u, rfl, hz⟩ (.cons ⟨w, p, rfl, hw⟩ .nil))))
  · cases v <;> decide
  · intro d hd
    simp only [fields, List.mem_cons, List.not_mem_nil, or_false] at hd
    rcases hd with rfl | rfl | rfl | rfl <;> exact ⟨hnone _, Name.noConfusion⟩

/-- A field of a struct that is declared is a typed expression. -/
theorem field_var (Γ : Ctx) (v : StructVar) (f : Field) : ∃ s, Typed (Γ.declares (fields v)) (.var (.field v f)) s := by
  have hnodup : ((fields v).map Prod.snd).Nodup := by cases v <;> decide
  cases f with
  | x => exact ⟨.uint32, .var (declares_of_mem hnodup (by simp [fields]))⟩
  | y => exact ⟨.uint16, .var (declares_of_mem hnodup (by simp [fields]))⟩
  | z => exact ⟨.uint8, .var (declares_of_mem hnodup (by simp [fields]))⟩
  | w => exact ⟨.uint64, .var (declares_of_mem hnodup (by simp [fields]))⟩

/-- A name that is no field of the variable is none of its fields. -/
theorem not_mem_fields {v : StructVar} {x : Name} (h : ∀ f, x ≠ .field v f) : x ∉ (fields v).map Prod.snd := by
  simp only [fields, List.map_cons, List.map_nil, List.mem_cons, List.not_mem_nil, or_false]
  rintro (rfl | rfl | rfl | rfl) <;> exact h _ rfl

/-- The struct that is made, copied and passed on. -/
theorem structCopy_typed {x y z w : Expr} {r s u p : StdType} {dst : Name} (h : Body count Γ) (hΦ : Helpers Φ)
    (hx : Typed Γ x r) (hy : Typed Γ y s) (hz : Typed Γ z u) (hw : Typed Γ w p)
    (hdst : Γ.vars dst = some .uint32 ∧ dst ≠ .index ∧ ∃ k, dst = .pool .u32 k) :
    StmtTyped Φ Γ (.block [
      .decl .uint32 (.field .local .x) x, .decl .uint16 (.field .local .y) y,
      .decl .uint8 (.field .local .z) z, .decl .uint64 (.field .local .w) w,
      .decl .uint32 (.field .copy .x) (.var (.field .local .x)), .decl .uint16 (.field .copy .y) (.var (.field .local .y)),
      .decl .uint8 (.field .copy .z) (.var (.field .local .z)), .decl .uint64 (.field .copy .w) (.var (.field .local .w)),
      .call dst .useS [.var (.field .copy .x), .var (.field .copy .y), .var (.field .copy .z), .var (.field .copy .w)]]) Γ := by
  obtain ⟨hvar, hidx, k, rfl⟩ := hdst
  let Γ₁ := Γ.declares (fields .local)
  let Γ₂ := Γ₁.declares (fields .copy)
  have hlocal : SimplesTyped Φ Γ _ Γ₁ := fields_typed (h.field .local) hx hy hz hw
  have hnone : ∀ f, Γ₁.vars (.field .copy f) = none := fun f =>
    (declares_of_not_mem (not_mem_fields fun f' => by simp)).trans (h.field .copy f)
  obtain ⟨_, hx'⟩ := field_var Γ .local .x
  obtain ⟨_, hy'⟩ := field_var Γ .local .y
  obtain ⟨_, hz'⟩ := field_var Γ .local .z
  obtain ⟨_, hw'⟩ := field_var Γ .local .w
  have hcopy : SimplesTyped Φ Γ₁ _ Γ₂ := fields_typed hnone hx' hy' hz' hw'
  have hdst : Γ₂.vars (.pool .u32 k) = some .uint32 :=
    (declares_of_not_mem (not_mem_fields fun f => Name.noConfusion)).trans
      ((declares_of_not_mem (not_mem_fields fun f => Name.noConfusion)).trans hvar)
  have hcall : SimpleTyped Φ Γ₂ (.call (.pool .u32 k) .useS
      [.var (.field .copy .x), .var (.field .copy .y), .var (.field .copy .z), .var (.field .copy .w)]) Γ₂ := by
    refine .call hdst hidx hΦ.useS fun a ha => ?_
    simp only [List.mem_cons, List.not_mem_nil, or_false] at ha
    rcases ha with rfl | rfl | rfl | rfl <;> exact field_var _ _ _
  exact .block ((hlocal.append hcopy).append hcall.single)

/-- Every statement of a body is typed. -/
theorem emitStmt_typed (h : Body count Γ) (hΦ : Helpers Φ) : Always (fun ss => StmtsTyped Φ Γ ss Γ) (emitStmt count rot64) := by
  have hassign : Always (fun ss => StmtsTyped Φ Γ ss Γ) (do return (← emitAssign count rot64).map Stmt.simple) :=
    always_bind (emitAssign_typed h.pool) fun ss hss => always_pure hss.stmts
  refine always_bind always_true fun kind _ => always_ite (fun _ => ?_) fun _ => ?_
  · refine always_bind always_true fun k _ => always_bind (emitAssigns_typed Φ h.pool _) fun ss hss => always_pure hss.stmts
  refine always_ite (fun _ => ?_) fun _ => ?_
  · refine always_bind (emitCond_typed h.pool) fun c hc => always_bind always_true fun k _ => ?_
    refine always_bind (emitAssigns_typed Φ h.pool _) fun ss hss => always_bind always_true fun k _ => ?_
    refine always_bind (emitAssigns_typed Φ h.pool _) fun ts hts => ?_
    obtain ⟨s, hc⟩ := hc
    exact always_pure (StmtTyped.ite hc hss hts).single
  refine always_ite (fun _ => ?_) fun _ => ?_
  · refine always_bind (always_rnd (by decide)) fun trips htrips => ?_
    have hpool := h.pool.counted (1 + trips)
    refine always_bind (emitFeed_typed Φ hpool Ctx.counted_index) fun feed hfeed => always_bind always_true fun k _ => ?_
    refine always_bind (emitAssigns_typed Φ hpool _) fun ss hss => ?_
    exact always_pure (StmtTyped.loop (by omega) h.index (hfeed.append hss)).single
  refine always_ite (fun _ => always_ite (fun _ => hassign) fun ht => ?_) fun _ => ?_
  · have ht := Nat.pos_of_ne_zero ht
    refine always_bind always_true fun m _ => always_bind (emitVar_pool h.pool ht) fun x hx => ?_
    refine always_bind (always_each_mem (P := fun c => SimpleTyped Φ Γ c.2 Γ) fun c _ => ?_) fun cases hcases => ?_
    · refine always_bind (emitVar_pool h.pool ht) fun y hy => always_bind (emitExpr_typed h.pool 2 .u32) fun e he => ?_
      obtain ⟨s, he⟩ := he
      exact always_pure (.assign hy.1 hy.2.1 he)
    · have hmask : Typed Γ (.bin .and (.var x) (.lit .int32 (2 + m - 1))) (StdType.common .uint32 .int32) :=
        .bin rfl rfl (fun _ => .inl rfl) (.var hx.1) (.lit _ _)
      exact always_pure (StmtTyped.switch hmask hcases).single
  refine always_ite (fun _ => always_ite (fun ht => ?_) fun _ => hassign) fun _ => ?_
  · refine always_bind always_true fun b _ => always_ite (fun _ => ?_) fun _ => always_ite (fun hw => ?_) fun _ => hassign
    · exact emitCall_typed h.pool ht .u32 hΦ.mix32
    · exact emitCall_typed h.pool hw .u64 hΦ.mix64
  refine always_ite (fun ht => ?_) fun _ => hassign
  refine always_bind (emitLeaf_typed h.pool .u32) fun x hx => always_bind (emitLeaf_typed h.pool .u16) fun y hy => ?_
  refine always_bind (emitLeaf_typed h.pool .u8) fun z hz => always_bind (emitLeaf_typed h.pool .u64) fun w hw => ?_
  refine always_bind (emitVar_pool h.pool ht.1) fun dst hdst => ?_
  obtain ⟨_, hx, -⟩ := hx
  obtain ⟨_, hy, -⟩ := hy
  obtain ⟨_, hz, -⟩ := hz
  obtain ⟨_, hw, -⟩ := hw
  exact always_pure (structCopy_typed h hΦ hx hy hz hw hdst).single

/-! ## The fixed helpers -/

/-- A compound assignment is typed as its operation is. -/
theorem opAssign_typed {op : BinOp} {x : Name} {e : Expr} {u s : StdType} (hx : Γ.vars x = some u) (hidx : x ≠ .index)
    (he : Typed Γ (.bin op (.var x) e) s) : StmtTyped Φ Γ (opAssign op x e) Γ :=
  .simple (.assign hx hidx he)

/-- The parameters of a function are declared. -/
theorem paramCtx_mem {ps : List (Name × StdType)} {x : Name} {s : StdType} (hnodup : (ps.map Prod.fst).Nodup) (h : (x, s) ∈ ps) :
    (paramCtx ps).vars x = some s := by
  induction ps with
  | nil => cases h
  | cons p ps ih =>
    obtain ⟨hnot, hnodup⟩ := List.nodup_cons.mp hnodup
    rcases List.mem_cons.mp h with rfl | h
    · exact Ctx.declare_self
    · have hne : x ≠ p.1 := by
        rintro rfl
        exact hnot (List.mem_map.mpr ⟨_, h, rfl⟩)
      exact (Ctx.declare_of_ne hne).trans (ih hnodup h)

section mix

variable {a b : Name} {s : StdType} (hw : Wraps s) (ha : Γ.vars a = some s) (hidx : a ≠ .index)

include hw ha hidx

/-- `a += b;` and `a -= b;` -/
theorem mixAdd_typed (hb : Γ.vars b = some s) :
    StmtTyped Φ Γ (opAssign .add a (.var b)) Γ ∧ StmtTyped Φ Γ (opAssign .sub a (.var b)) Γ :=
  ⟨opAssign_typed ha hidx (.wide rfl rfl hw (.var ha) (.var hb)), opAssign_typed ha hidx (.wide rfl rfl hw (.var ha) (.var hb))⟩

/-- `a *= n;` -/
theorem mixMul_typed (n : Nat) : StmtTyped Φ Γ (opAssign .mul a (.lit s n)) Γ :=
  opAssign_typed ha hidx (.wide rfl rfl hw (.var ha) (.lit s n))

/-- `a ^= a >> n;` and `a ^= a << n;` -/
theorem mixShift_typed {op : BinOp} {n : Nat} (hop : op.isShift = true) (hn : n < s.width) :
    StmtTyped Φ Γ (opAssign .xor a (.bin op (.var a) (.lit .int32 n))) Γ :=
  opAssign_typed ha hidx (.wide rfl rfl hw (.var ha) (.shift hop hw hn (.var ha)))

end mix

theorem mix32_typed : FnTyped Φ mix32 where
  nodup := by decide
  index := by decide
  body := by
    have hvar : ∀ {x}, (x, .uint32) ∈ mix32.params → (paramCtx mix32.params).vars x = some .uint32 := paramCtx_mem (by decide)
    have hidx : Name.param 0 ≠ .index := Name.noConfusion
    have hw : Wraps .uint32 := .inl rfl
    have ha : (paramCtx mix32.params).vars (.param 0) = some .uint32 := hvar (by decide)
    refine ⟨_, .uint32, ?_, .var ha⟩
    refine .cons (mixAdd_typed hw ha hidx (hvar (by decide))).1 (.cons (mixShift_typed hw ha hidx rfl (by decide)) ?_)
    refine .cons (mixMul_typed hw ha hidx _) (.cons (mixAdd_typed hw ha hidx (hvar (by decide))).2 ?_)
    refine .cons (mixShift_typed hw ha hidx rfl (by decide)) (.cons (mixAdd_typed hw ha hidx (hvar (by decide))).1 ?_)
    exact .cons (mixShift_typed hw ha hidx rfl (by decide)) .nil

theorem mix64_typed : FnTyped Φ mix64 where
  nodup := by decide
  index := by decide
  body := by
    have hvar : ∀ {x}, (x, .uint64) ∈ mix64.params → (paramCtx mix64.params).vars x = some .uint64 := paramCtx_mem (by decide)
    have hidx : Name.param 0 ≠ .index := Name.noConfusion
    have hw : Wraps .uint64 := .inr rfl
    have ha : (paramCtx mix64.params).vars (.param 0) = some .uint64 := hvar (by decide)
    refine ⟨_, .uint64, ?_, .var ha⟩
    refine .cons (mixAdd_typed hw ha hidx (hvar (by decide))).1 (.cons (mixShift_typed hw ha hidx rfl (by decide)) ?_)
    refine .cons (mixMul_typed hw ha hidx _) (.cons (mixAdd_typed hw ha hidx (hvar (by decide))).2 ?_)
    exact .cons (mixShift_typed hw ha hidx rfl (by decide)) .nil

theorem useS_typed : FnTyped Φ useS where
  nodup := by decide
  index := by decide
  body := by
    have hw : Wraps .uint32 := .inl rfl
    have hvar : ∀ {x s}, (x, s) ∈ useS.params → (paramCtx useS.params).vars x = some s := paramCtx_mem (by decide)
    refine ⟨_, .uint32, .nil, ?_⟩
    refine .wide rfl rfl hw (.wide rfl rfl hw (.wide rfl rfl hw (.wide rfl rfl hw (.var (hvar ?_)) ?_) ?_) ?_) ?_
    · decide
    · exact .cast _ (.var (hvar (s := .uint16) (by decide)))
    · exact .cast _ (.var (hvar (s := .uint8) (by decide)))
    · exact .cast _ (.var (hvar (s := .uint64) (by decide)))
    · exact .cast _ (.shift rfl (.inr rfl) (by decide) (.var (hvar (s := .uint64) (by decide))))

/-- The fixed helper functions are typed. -/
theorem emitHelpers_typed : ProgramTyped emitHelpers := ⟨useS_typed, mix64_typed, mix32_typed, trivial⟩

/-! ## The pool -/

/-- The declarations of the pool. -/
def poolDecls (count : Pool) : List (StdType × Name) := (poolVars count).map fun v => (v.1.name, .pool v.1 v.2)

/-- The variables of a pool, by type and number. -/
theorem mem_poolVars {k : Nat} : (t, k) ∈ poolVars count ↔ k < count t := by
  rw [poolVars, List.mem_flatMap]
  constructor
  · rintro ⟨u, -, hu⟩
    obtain ⟨j, hj, heq⟩ := List.mem_map.mp hu
    cases heq
    exact List.mem_range.mp hj
  · intro hk
    refine ⟨t, ?_, List.mem_map.mpr ⟨k, List.mem_range.mpr hk, rfl⟩⟩
    cases t <;> decide

/-- No variable is in the pool twice. -/
theorem nodup_poolVars (count : Pool) : (poolVars count).Nodup := by
  refine List.nodup_flatMap.mpr ⟨fun t _ => ?_, ?_⟩
  · exact List.nodup_range.map fun j k h => (Prod.mk.inj h).2
  · have hall : Ty.all.Pairwise (· ≠ ·) := by decide
    refine hall.imp fun {t u} hne v hv hv' => ?_
    obtain ⟨j, -, rfl⟩ := List.mem_map.mp hv
    obtain ⟨k, -, heq⟩ := List.mem_map.mp hv'
    exact hne (Prod.mk.inj heq).1.symm

/-- No variable is declared twice. -/
theorem nodup_poolDecls (count : Pool) : ((poolDecls count).map Prod.snd).Nodup := by
  rw [poolDecls, List.map_map]
  refine (nodup_poolVars count).map fun v w h => ?_
  have hpool : Name.pool v.1 v.2 = .pool w.1 w.2 := h
  exact Prod.ext (Name.pool.inj hpool).1 (Name.pool.inj hpool).2

/-- A name of another kind is not declared with the pool. -/
theorem not_mem_poolDecls {x : Name} (hx : ∀ t k, x ≠ .pool t k) : x ∉ (poolDecls count).map Prod.snd := by
  intro h
  obtain ⟨d, hd, rfl⟩ := List.mem_map.mp h
  obtain ⟨v, -, rfl⟩ := List.mem_map.mp hd
  exact hx v.1 v.2 rfl

/-- The pool is declared, whatever it starts with. -/
theorem emitPool_typed (Φ : Arities) (Γ : Ctx) {g : Ty × Nat → Gen Simple} (hnone : ∀ t k, Γ.vars (.pool t k) = none)
    (hg : ∀ v, Always (fun s => ∃ e r, s = Simple.decl v.1.name (.pool v.1 v.2) e ∧ Typed Γ e r) (g v)) :
    Always (fun ss => SimplesTyped Φ Γ ss (Γ.declares (poolDecls count))) (each (poolVars count) g) := by
  refine always_mono (fun ss hss => ?_) (always_each fun v _ => hg v)
  refine decls_typed (nodup_poolDecls count) (fun d hd => ?_) (List.forall₂_map_left_iff.mpr hss)
  obtain ⟨v, -, rfl⟩ := List.mem_map.mp hd
  exact ⟨hnone v.1 v.2, Name.noConfusion⟩

/-- The body of a function begins after the declarations of the pool. -/
theorem body_declares (hidx : Γ.vars .index = none) (hfield : ∀ v f, Γ.vars (.field v f) = none) :
    Body count (Γ.declares (poolDecls count)) where
  pool t k hk := declares_of_mem (nodup_poolDecls count) (List.mem_map.mpr ⟨(t, k), mem_poolVars.mpr hk, rfl⟩)
  index := (declares_of_not_mem (not_mem_poolDecls fun _ _ => Name.noConfusion)).trans hidx
  field v f := (declares_of_not_mem (not_mem_poolDecls fun _ _ => Name.noConfusion)).trans (hfield v f)

/-- Statements that are each typed in the same context. -/
theorem StmtsTyped.of_forall {ss : List Stmt} (h : ∀ s ∈ ss, StmtTyped Φ Γ s Γ) : StmtsTyped Φ Γ ss Γ := by
  induction ss with
  | nil => exact .nil
  | cons s ss ih => exact .cons (h s List.mem_cons_self) (ih fun s' hs' => h s' (List.mem_cons_of_mem s hs'))

/-- Mixing a word into the checksum is typed. -/
theorem mixIn_typed {e : Expr} (hsum : Γ.vars .sum = some .uint32) (he : Typed Γ e .uint32) : SimpleTyped Φ Γ (mixIn e) Γ :=
  .assign hsum Name.noConfusion (.wide rfl rfl (.inl rfl) (.wide rfl rfl (.inl rfl) (.var hsum) he) (.lit _ _))

/-- The words of a variable of the pool are typed. -/
theorem poolWords_typed (h : Pooled count Γ) {v : Ty × Nat} (hv : v ∈ poolVars count) {e : Expr} (he : e ∈ poolWords v) :
    Typed Γ e .uint32 := by
  obtain ⟨t, k⟩ := v
  have hvar := h t k (mem_poolVars.mp hv)
  have hword : Typed Γ (.cast .uint32 (.var (.pool t k))) .uint32 := .cast _ (.var hvar)
  unfold poolWords at he
  split at he
  · next h64 =>
    obtain rfl : t = .u64 := h64
    rcases List.mem_cons.mp he with rfl | he
    · exact hword
    · obtain rfl := List.mem_singleton.mp he
      exact .cast _ (.shift rfl (.inr rfl) (by decide) (.var hvar))
  · obtain rfl := List.mem_singleton.mp he
    exact hword

/-- The checksum takes in all words of the pool. -/
theorem mixPool_typed (h : Pooled count Γ) {f : Expr → Simple}
    (hf : ∀ e, Typed Γ e .uint32 → SimpleTyped Φ Γ (f e) Γ) :
    StmtsTyped Φ Γ ((poolVars count).flatMap fun v => (poolWords v).map fun e => .simple (f e)) Γ := by
  refine .of_forall fun s hs => ?_
  obtain ⟨v, hv, hs⟩ := List.mem_flatMap.mp hs
  obtain ⟨e, he, rfl⟩ := List.mem_map.mp hs
  exact .simple (hf e (poolWords_typed h hv he))

/-! ## Functions -/

/-- A generated helper is typed and takes two arguments. -/
theorem emitGenHelper_typed (hΦ : Helpers Φ) (id : Nat) :
    Always (fun fn => FnTyped Φ fn ∧ fn.name = .genH id ∧ fn.params.length = 2) (emitGenHelper rot64 id) := by
  refine always_bind always_true fun n8 _ => always_bind always_true fun n16 _ => ?_
  refine always_bind always_true fun n32 _ => always_bind always_true fun n64 _ => ?_
  let count := pool (2 + n8) (2 + n16) (3 + n32) (1 + n64)
  let ps : List (Name × StdType) := [(.param 0, .uint32), (.param 1, .uint32)]
  let Γ₁ := (paramCtx ps).declares (poolDecls count)
  have hbody : Body count Γ₁ := body_declares rfl fun v f => rfl
  have hparam : ∀ {x}, (x, .uint32) ∈ ps → x ∉ (poolDecls count).map Prod.snd → Γ₁.vars x = some .uint32 := fun hmem hnot =>
    (declares_of_not_mem hnot).trans (paramCtx_mem (by decide) hmem)
  refine always_bind (emitPool_typed Φ (paramCtx ps) (fun t k => rfl) fun v => ?_) fun decls hdecls => ?_
  · refine always_bind (emitLit_typed (paramCtx ps) v.1) fun e he => ?_
    obtain ⟨r, he, -⟩ := he
    exact always_pure ⟨e, r, rfl, he⟩
  refine always_bind always_true fun stmts _ => always_bind (always_each_mem fun _ _ => emitStmt_typed hbody hΦ) fun body hss => ?_
  have hnodup : (ps.map Prod.fst).Nodup := by decide
  have hindex : .index ∉ ps.map Prod.fst := by decide
  refine always_pure ⟨⟨hnodup, hindex, ?_⟩, rfl, rfl⟩
  let Γ₂ := Γ₁.declare .uint32 .sum
  have hparams : StmtsTyped Φ Γ₁ (if count .u32 ≥ 2 then
      [.simple (.assign (.pool .u32 0) (.var (.param 0))), .simple (.assign (.pool .u32 1) (.var (.param 1)))] else []) Γ₁ := by
    have hp : ∀ k, (Name.param k, .uint32) ∈ ps → Typed Γ₁ (.var (.param k)) .uint32 := fun k hk =>
      .var (hparam hk (not_mem_poolDecls fun _ _ => Name.noConfusion))
    split
    · next h2 =>
      refine .cons (.simple (.assign (hbody.pool .u32 0 (by omega)) Name.noConfusion (hp 0 (by decide)))) ?_
      exact .cons (.simple (.assign (hbody.pool .u32 1 (by omega)) Name.noConfusion (hp 1 (by decide)))) .nil
    · exact .nil
  have hnosum : Γ₁.vars .sum = none := (declares_of_not_mem (not_mem_poolDecls fun _ _ => Name.noConfusion)).trans rfl
  have hsum : Γ₂.vars .sum = some .uint32 := Ctx.declare_self
  have hpool : Pooled count Γ₂ := hbody.pool.declare fun t k h => Name.noConfusion h
  have hstart : StmtsTyped Φ Γ₁ [.simple (.decl .uint32 .sum (.lit .uint32 2166136261))] Γ₂ :=
    .cons (.simple (.decl _ hnosum Name.noConfusion (.lit _ _))) .nil
  have hmix := mixPool_typed (Φ := Φ) hpool fun e he => mixIn_typed hsum he
  exact ⟨Γ₂, .uint32, (((hdecls.stmts.append hparams).append (.flatten hss)).append hstart).append hmix, .var hsum⟩

/-- The arity of the first function. -/
theorem arity_cons_self {fn : Fn} {fns : Program} : arity (fn :: fns) fn.name = some fn.params.length := if_pos rfl

/-- That of another one is found behind it. -/
theorem arity_cons_of_ne {fn : Fn} {fns : Program} {f : FnName} (h : fn.name ≠ f) : arity (fn :: fns) f = arity fns f := if_neg h

/-- The functions before `conf_main`. -/
theorem emitGenHelpers_typed (n : Nat) :
    Always (fun fns => ProgramTyped fns ∧ Helpers (arity fns) ∧ ∀ id < n, arity fns (.genH id) = some 2) (emitGenHelpers rot64 n) := by
  induction n with
  | zero => exact always_pure ⟨emitHelpers_typed, ⟨rfl, rfl, rfl⟩, fun id hid => absurd hid (Nat.not_lt_zero id)⟩
  | succ n ih =>
    refine always_bind ih fun fns hfns => ?_
    obtain ⟨htyped, hΦ, hids⟩ := hfns
    refine always_bind (emitGenHelper_typed hΦ n) fun fn hfn => always_pure ?_
    obtain ⟨hfn, hname, hlen⟩ := hfn
    have hne : ∀ f, f ≠ .genH n → arity (fn :: fns) f = arity fns f := fun f hf => arity_cons_of_ne fun h => hf (h.symm.trans hname)
    refine ⟨⟨hfn, htyped⟩, ⟨?_, ?_, ?_⟩, fun id hid => ?_⟩
    · exact (hne _ FnName.noConfusion).trans hΦ.mix32
    · exact (hne _ FnName.noConfusion).trans hΦ.mix64
    · exact (hne _ FnName.noConfusion).trans hΦ.useS
    · rcases Nat.lt_succ_iff_lt_or_eq.mp hid with hid | rfl
      · have hne' : FnName.genH id ≠ .genH n := fun h => Nat.ne_of_lt hid (FnName.genH.inj h)
        exact (hne _ hne').trans (hids id hid)
      · rw [← hname, arity_cons_self, hlen]

/-- Every statement of `main` is typed. -/
theorem emitMainStmt_typed {nhelpers : Nat} (h : Body count Γ) (hΦ : Helpers Φ) (hids : ∀ id < nhelpers, Φ (.genH id) = some 2)
    (harr : Γ.arrs .arr = some 16) : Always (fun ss => StmtsTyped Φ Γ ss Γ) (emitMainStmt count rot64 nhelpers) := by
  refine always_bind always_true fun b _ => always_ite (fun hb => ?_) fun _ => ?_
  · refine always_bind (emitLeaf_uint32 h.pool) fun i hi => always_bind (emitExpr_typed h.pool 2 .u32) fun e he => ?_
    refine always_bind (emitVar_pool h.pool hb.2) fun x hx => always_bind (emitLeaf_uint32 h.pool) fun j hj => ?_
    obtain ⟨s, he⟩ := he
    have hstore : StmtTyped Φ Γ (.simple (.store .arr (maskedIndex i) e)) Γ := .simple (.store harr (by decide) (by decide) hi he)
    have hload : StmtTyped Φ Γ (.simple (.assign x (.index .arr (maskedIndex j)))) Γ :=
      .simple (.assign hx.1 hx.2.1 (.masked harr (by decide) (by decide) hj))
    exact always_pure (.cons hstore hload.single)
  · have hchance : Always (fun b => b = true → 0 < nhelpers) (chanceHelper nhelpers) :=
      always_ite (fun hn _ _ => hn) fun _ => always_pure fun h => absurd h Bool.false_ne_true
    refine always_bind hchance fun b hb => always_ite (fun hcall => ?_) fun _ => emitStmt_typed h hΦ
    refine always_bind (emitVar_pool h.pool hcall.2) fun x hx => always_bind (always_rnd (hb hcall.1)) fun id hid => ?_
    refine always_bind (emitArgs_typed h.pool .u32 2) fun args hargs => ?_
    have hf : Φ (.genH id) = some args.length := by rw [hids id hid, hargs.1]
    exact always_pure (StmtTyped.simple (.call hx.1 hx.2.1 hf hargs.2)).single

/-- Whatever is drawn, the program is typed and has its checksum. -/
theorem emitProgram_typed (rot64 : Bool) : Always (fun p => ProgramTyped p ∧ arity p .confMain = some 0) (emitProgram rot64) := by
  refine always_bind always_true fun n8 _ => always_bind always_true fun n16 _ => ?_
  refine always_bind always_true fun n32 _ => always_bind always_true fun n64 _ => ?_
  refine always_bind always_true fun nhelpers _ => always_bind always_true fun nstmts _ => ?_
  refine always_bind (emitGenHelpers_typed nhelpers) fun fns hfns => ?_
  obtain ⟨htyped, hΦ, hids⟩ := hfns
  have hseed : Always (fun ns : List Nat => ns.length = 8) (each (List.range 8) fun _ => do
      return (← draw).toNat % 2 ^ 32 : Gen (List Nat)) :=
    always_mono (fun ns hns => hns.length_eq.symm.trans List.length_range) (always_each (R := fun _ _ => True) fun _ _ => always_true)
  refine always_bind hseed fun seed hlen => always_bind always_true fun k _ => ?_
  let count := pool (2 + n8) (2 + n16) (6 + n32) (2 + n64)
  let Φ := arity fns
  -- The contexts after `SEED`, `vseed`, the pool, `arr` and `h`.
  let Γ₀ : Ctx := (paramCtx []).fill .seed seed.length
  let Γ₁ := Γ₀.declare .uint32 .vseed
  let Γ₂ := Γ₁.declares (poolDecls count)
  let Γ₃ := Γ₂.fill .arr 16
  let Γ₄ := Γ₃.declare .uint32 .sum
  have hvseed : Typed Γ₁ (.var .vseed) .uint32 := .var Ctx.declare_self
  refine always_bind (emitPool_typed Φ Γ₁ (fun t k => rfl) fun v => ?_) fun decls hdecls => ?_
  · refine always_bind (emitLit_typed Γ₁ v.1) fun e he => ?_
    obtain ⟨r, he, -⟩ := he
    have hxor : Typed Γ₁ (.bin .xor (.var .vseed) e) _ := .bin rfl rfl (fun h => absurd h (by decide)) hvseed he
    exact always_pure ⟨_, _, rfl, .cast v.1.name hxor⟩
  have hbody₂ : Body count Γ₂ := body_declares rfl fun v f => rfl
  have hbody₃ : Body count Γ₃ := ⟨hbody₂.pool, hbody₂.index, hbody₂.field⟩
  have harr : Γ₃.arrs .arr = some 16 := Function.update_self ArrName.arr _ Γ₂.arrs
  refine always_bind (always_each_mem fun _ _ => emitMainStmt_typed hbody₃ hΦ hids harr) fun body hss => ?_
  refine always_pure ⟨⟨⟨List.nodup_nil, List.not_mem_nil, ?_⟩, htyped⟩, arity_cons_self⟩
  have hseed₀ : Γ₀.arrs .seed = some 8 := (Function.update_self ArrName.seed _ (paramCtx []).arrs).trans (congrArg some hlen)
  have hstart : StmtsTyped Φ (paramCtx []) [.initArr .seed seed,
      .simple (.decl .uint32 .vseed (.index .seed (.bin .and (.cast .uint32 (.lit .int32 k)) (.lit .int32 7))))] Γ₁ :=
    .cons (.initArr .seed seed) (.cons (.simple (.decl _ rfl Name.noConfusion
      (.masked hseed₀ (by decide) (by decide) (.cast _ (.lit _ _))))) .nil)
  have hfill : StmtsTyped Φ Γ₂ [.declArr .arr 16, fillArr] Γ₃ := by
    have hseed₂ : (Γ₂.counted 16).vars .vseed = some .uint32 :=
      (Ctx.counted_of_ne Name.noConfusion).trans ((declares_of_not_mem (not_mem_poolDecls fun _ _ => Name.noConfusion)).trans
        Ctx.declare_self)
    have hw : Wraps .uint32 := .inl rfl
    refine .fill (Nat.le_refl 16) ?_ hbody₂.index
      (.wide rfl rfl hw (.var hseed₂) (.wide rfl rfl hw (.var Ctx.counted_index) (.lit .uint32 1))) .nil
    rw [declares_arrs]
    rfl
  have hnosum : Γ₃.vars .sum = none := (declares_of_not_mem (not_mem_poolDecls fun _ _ => Name.noConfusion)).trans rfl
  have hsum : Γ₄.vars .sum = some .uint32 := Ctx.declare_self
  have hpool : Pooled count Γ₄ := hbody₃.pool.declare fun t k h => Name.noConfusion h
  have hdecl : StmtsTyped Φ Γ₃ [.simple (.decl .uint32 .sum (.lit .uint32 2166136261))] Γ₄ :=
    .cons (.simple (.decl _ hnosum Name.noConfusion (.lit _ _))) .nil
  have hmix := mixPool_typed (Φ := Φ) hpool fun e he => mixIn_typed hsum (.cast .uint32 he)
  have hloop : StmtTyped Φ Γ₄ (.loop 16 [mix (.index .arr (.var .index))]) Γ₄ := by
    have hsum' : (Γ₄.counted 16).vars .sum = some .uint32 := (Ctx.counted_of_ne Name.noConfusion).trans hsum
    have hindex : Γ₄.vars .index = none := (Ctx.declare_of_ne Name.noConfusion).trans hbody₃.index
    have harr' : (Γ₄.counted 16).arrs .arr = some 16 := harr
    exact .loop (Nat.le_refl 16) hindex (mixIn_typed hsum' (.cast .uint32 (.counted harr' rfl (Nat.le_refl 16)))).single
  have hall := (((((hstart.append hdecls.stmts).append hfill).append (.flatten hss)).append hdecl).append hmix).append hloop.single
  exact ⟨Γ₄, .int32, hall, .cast _ (.var hsum)⟩

/-! ## The programs -/

open CIntegers

/-- Whatever is drawn, the program of `emit_program` names only what is declared and has a value before, and it returns its checksum, the
same under both widths of `long`. -/
theorem emitProgram_defined (rot64 : Bool) (draws : Nat → BitVec 64) :
    (emitProgram rot64 draws).1.inScope = true ∧ ∃ fuel v, ∀ m, (emitProgram rot64 draws).1.checksum m fuel = .ok v := by
  obtain ⟨htyped, harity⟩ := emitProgram_typed rot64 draws
  refine ⟨htyped.inScope, 17, ?_⟩
  exact htyped.calls_return (by decide) .confMain 0 harity [] rfl

end CronoVM.Fuzz
