import CronoVM.Lemmas.FuzzTyping

/-!
# Programs without undefined behaviour

What the statements and functions of the generated programs keep to, as a typing. A typed program names only what is declared, and its
functions return, with the same value under both widths of `long`.
-/

namespace CronoVM.Fuzz

open CIntegers

/-! ## Typing -/

/-- The numbers of parameters of the functions that may be called. -/
abbrev Arities : Type := FnName → Option Nat

/-- The typing of the simple statements, with the contexts before and after. -/
inductive SimpleTyped (Φ : Arities) : Ctx → Simple → Ctx → Prop where
  | assign {Γ : Ctx} {x : Name} {t : StdType} {e : Expr} {s : StdType} : Γ.vars x = some t → x ≠ .index → Typed Γ e s →
      SimpleTyped Φ Γ (.assign x e) Γ
  | store {Γ : Ctx} {A : ArrName} {e v : Expr} {k n : Nat} {s : StdType} : Γ.arrs A = some n → k < n → k < 2 ^ 32 →
      Typed Γ e .uint32 → Typed Γ v s → SimpleTyped Φ Γ (.store A (.bin .and e (.lit .int32 k)) v) Γ
  | call {Γ : Ctx} {x : Name} {t : StdType} {f : FnName} {args : List Expr} : Γ.vars x = some t → x ≠ .index →
      Φ f = some args.length → (∀ a ∈ args, ∃ s, Typed Γ a s) → SimpleTyped Φ Γ (.call x f args) Γ
  | decl {Γ : Ctx} (t : StdType) {x : Name} {e : Expr} {s : StdType} : Γ.vars x = none → x ≠ .index → Typed Γ e s →
      SimpleTyped Φ Γ (.decl t x e) (Γ.declare t x)

inductive SimplesTyped (Φ : Arities) : Ctx → List Simple → Ctx → Prop where
  | nil {Γ : Ctx} : SimplesTyped Φ Γ [] Γ
  | cons {Γ Γ₁ Γ₂ : Ctx} {s : Simple} {ss : List Simple} : SimpleTyped Φ Γ s Γ₁ → SimplesTyped Φ Γ₁ ss Γ₂ →
      SimplesTyped Φ Γ (s :: ss) Γ₂

inductive StmtTyped (Φ : Arities) : Ctx → Stmt → Ctx → Prop where
  | simple {Γ Γ' : Ctx} {s : Simple} : SimpleTyped Φ Γ s Γ' → StmtTyped Φ Γ (.simple s) Γ'
  | initArr {Γ : Ctx} (A : ArrName) (ns : List Nat) : StmtTyped Φ Γ (.initArr A ns) (Γ.fill A ns.length)
  | ite {Γ : Ctx} {c : Expr} {t : StdType} {ss ts : List Simple} : Typed Γ c t → SimplesTyped Φ Γ ss Γ → SimplesTyped Φ Γ ts Γ →
      StmtTyped Φ Γ (.ite c ss ts) Γ
  | loop {Γ : Ctx} {n : Nat} {ss : List Simple} : n ≤ 16 → Γ.vars .index = none →
      SimplesTyped Φ (Γ.counted n) ss (Γ.counted n) → StmtTyped Φ Γ (.loop n ss) Γ
  | switch {Γ : Ctx} {e : Expr} {t : StdType} {cases : List (Nat × Simple)} : Typed Γ e t →
      (∀ c ∈ cases, SimpleTyped Φ Γ c.2 Γ) → StmtTyped Φ Γ (.switch e cases) Γ
  | block {Γ Γ' : Ctx} {ss : List Simple} : SimplesTyped Φ Γ ss Γ' → StmtTyped Φ Γ (.block ss) Γ

inductive StmtsTyped (Φ : Arities) : Ctx → List Stmt → Ctx → Prop where
  | nil {Γ : Ctx} : StmtsTyped Φ Γ [] Γ
  | cons {Γ Γ₁ Γ₂ : Ctx} {s : Stmt} {ss : List Stmt} : StmtTyped Φ Γ s Γ₁ → StmtsTyped Φ Γ₁ ss Γ₂ → StmtsTyped Φ Γ (s :: ss) Γ₂
  /-- An array without values, and the loop that gives each element one. -/
  | fill {Γ Γ' : Ctx} {A : ArrName} {n : Nat} {e : Expr} {t : StdType} {ss : List Stmt} : n ≤ 16 → Γ.arrs A = none →
      Γ.vars .index = none → Typed (Γ.counted n) e t → StmtsTyped Φ (Γ.fill A n) ss Γ' →
      StmtsTyped Φ Γ (.declArr A n :: .loop n [.store A (.var .index) e] :: ss) Γ'

/-- The context in which the body of a function starts. -/
def paramCtx : List (Name × StdType) → Ctx
  | [] => ⟨fun _ => none, fun _ => none, none⟩
  | p :: ps => (paramCtx ps).declare p.2 p.1

structure FnTyped (Φ : Arities) (fn : Fn) : Prop where
  nodup : (fn.params.map Prod.fst).Nodup
  index : .index ∉ fn.params.map Prod.fst
  body : ∃ Γ t, StmtsTyped Φ (paramCtx fn.params) fn.body Γ ∧ Typed Γ fn.ret t

def arity : Program → Arities
  | [], _ => none
  | fn :: fns, f => if fn.name = f then some fn.params.length else arity fns f

def ProgramTyped : Program → Prop
  | [] => True
  | fn :: fns => FnTyped (arity fns) fn ∧ ProgramTyped fns

variable {Φ : Arities} {Γ Γ' Γ'' : Ctx} {st st' : State} {S : Scope} {s : Simple} {ss ss' : List Simple} {t : StdType} {x : Name}

/-- One list of simple statements after another. -/
theorem SimplesTyped.append (h : SimplesTyped Φ Γ ss Γ') (h' : SimplesTyped Φ Γ' ss' Γ'') : SimplesTyped Φ Γ (ss ++ ss') Γ'' := by
  induction h with
  | nil => exact h'
  | cons hs _ ih => exact .cons hs (ih h')

/-- One list of statements after another. -/
theorem StmtsTyped.append {ss ss' : List Stmt} (h : StmtsTyped Φ Γ ss Γ') (h' : StmtsTyped Φ Γ' ss' Γ'') :
    StmtsTyped Φ Γ (ss ++ ss') Γ'' := by
  induction h with
  | nil => exact h'
  | cons hs _ ih => exact .cons hs (ih h')
  | fill hn hA hi he _ ih => exact .fill hn hA hi he (ih h')

/-- Simple statements are statements. -/
theorem SimplesTyped.stmts (h : SimplesTyped Φ Γ ss Γ') : StmtsTyped Φ Γ (ss.map .simple) Γ' := by
  induction h with
  | nil => exact .nil
  | cons hs _ ih => exact .cons (.simple hs) ih

/-- The other names are not declared at the start of a function. -/
theorem paramCtx_none {ps : List (Name × StdType)} (h : x ∉ ps.map Prod.fst) : (paramCtx ps).vars x = none := by
  induction ps with
  | nil => rfl
  | cons p ps ih =>
    obtain ⟨hne, h⟩ := not_or.mp (mt List.mem_cons.mpr h)
    exact (Function.update_of_ne hne ..).trans (ih h)

/-! ## Scopes -/

/-- The functions that may be called are in the scope. -/
def FnsCover (S : Scope) (Φ : Arities) : Prop := ∀ f, (Φ f).isSome = true → S.fns f = true

/-- A declaration on both sides keeps the cover. -/
theorem isSome_update {α β : Type} [DecidableEq α] {f : α → Option β} {g : α → Bool} (h : ∀ y, (f y).isSome = true → g y = true)
    (x : α) (b : β) (y : α) (hy : (Function.update f x (some b) y).isSome = true) : Function.update g x true y = true := by
  by_cases hx : y = x
  · rw [hx]
    exact Function.update_self ..
  · rw [Function.update_of_ne hx] at hy ⊢
    exact h y hy

/-- A name that is in scope stays there. -/
theorem update_true {α : Type} [DecidableEq α] {g : α → Bool} {x y : α} (h : g y = true) : Function.update g x true y = true := by
  by_cases hx : y = x
  · rw [hx]
    exact Function.update_self ..
  · exact (Function.update_of_ne hx ..).trans h

/-- A declaration, in the scope and in the context. -/
theorem Covers.declare (hS : Covers S Γ) : Covers { S with vars := Function.update S.vars x true } (Γ.declare t x) where
  vars := isSome_update hS.vars x t
  arrs := hS.arrs
  bound h := update_true (hS.bound h)

/-- The same for an array. -/
theorem Covers.fill {A : ArrName} {n : Nat} (hS : Covers S Γ) : Covers { S with arrs := Function.update S.arrs A true } (Γ.fill A n) where
  vars := hS.vars
  arrs := isSome_update hS.arrs A n
  bound := hS.bound

/-- An array more in the scope. -/
theorem Covers.more {A : ArrName} (hS : Covers S Γ) : Covers { S with arrs := Function.update S.arrs A true } Γ where
  vars := hS.vars
  arrs B h := update_true (hS.arrs B h)
  bound := hS.bound

/-- The same for a loop's index. -/
theorem Covers.counted {n : Nat} (hS : Covers S Γ) : Covers { S with vars := Function.update S.vars .index true } (Γ.counted n) where
  vars := isSome_update hS.vars .index .uint32
  arrs := hS.arrs
  bound _ := Function.update_self Name.index true S.vars

theorem isSome_of_eq {α : Type} {o : Option α} {a : α} (h : o = some a) : o.isSome = true := by rw [h]; rfl

/-- A simple statement that is typed uses only names in scope. -/
theorem SimpleTyped.scope (h : SimpleTyped Φ Γ s Γ') (hS : Covers S Γ) (hΦ : FnsCover S Φ) :
    ∃ S', s.scope S = some S' ∧ Covers S' Γ' ∧ FnsCover S' Φ := by
  cases h with
  | assign hx _ he =>
    refine ⟨S, ?_, hS, hΦ⟩
    simp only [Simple.scope, hS.vars _ (isSome_of_eq hx), he.inScope hS, Bool.and_self, if_true]
  | store hA _ _ he hv =>
    refine ⟨S, ?_, hS, hΦ⟩
    simp only [Simple.scope, Expr.inScope, hS.arrs _ (isSome_of_eq hA), he.inScope hS, hv.inScope hS, Bool.and_self, if_true]
  | @call _ _ _ args hx _ hf hargs =>
    refine ⟨S, ?_, hS, hΦ⟩
    have hall : args.all (Expr.inScope S) = true := by
      rw [List.all_eq_true]
      intro a ha
      obtain ⟨s, hs⟩ := hargs a ha
      exact hs.inScope hS
    simp only [Simple.scope, hS.vars _ (isSome_of_eq hx), hΦ _ (isSome_of_eq hf), hall, Bool.and_self, if_true]
  | decl t _ _ he =>
    refine ⟨_, ?_, hS.declare, hΦ⟩
    simp only [Simple.scope, he.inScope hS, if_true]

/-- So do lists of them, by induction on the typing. -/
theorem SimplesTyped.scope (h : SimplesTyped Φ Γ ss Γ') (hS : Covers S Γ) (hΦ : FnsCover S Φ) :
    ∃ S', simplesScope S ss = some S' ∧ Covers S' Γ' ∧ FnsCover S' Φ := by
  induction h generalizing S with
  | nil => exact ⟨S, rfl, hS, hΦ⟩
  | cons hs _ ih =>
    obtain ⟨S₁, hS₁, hcov, hfns⟩ := hs.scope hS hΦ
    obtain ⟨S₂, hS₂, h⟩ := ih hcov hfns
    refine ⟨S₂, ?_, h⟩
    rw [simplesScope, hS₁]
    exact hS₂

/-- A statement that is typed uses only names in scope. -/
theorem StmtTyped.scope {s : Stmt} (h : StmtTyped Φ Γ s Γ') (hS : Covers S Γ) (hΦ : FnsCover S Φ) :
    ∃ S', s.scope S = some S' ∧ Covers S' Γ' ∧ FnsCover S' Φ := by
  cases h with
  | simple hs => exact hs.scope hS hΦ
  | initArr A ns => exact ⟨_, rfl, hS.fill, hΦ⟩
  | ite hc hss hts =>
    obtain ⟨S₁, hS₁, -⟩ := hss.scope hS hΦ
    obtain ⟨S₂, hS₂, -⟩ := hts.scope hS hΦ
    refine ⟨S, ?_, hS, hΦ⟩
    simp only [Stmt.scope, hc.inScope hS, isSome_of_eq hS₁, isSome_of_eq hS₂, Bool.and_self, if_true]
  | loop _ _ hss =>
    obtain ⟨S₁, hS₁, -⟩ := hss.scope hS.counted hΦ
    refine ⟨S, ?_, hS, hΦ⟩
    rw [Stmt.scope, if_pos (isSome_of_eq hS₁)]
  | @switch _ _ cases he hcases =>
    have hall : cases.all (fun c => (c.2.scope S).isSome) = true := by
      rw [List.all_eq_true]
      intro c hc
      obtain ⟨S₁, hS₁, -⟩ := (hcases c hc).scope hS hΦ
      exact isSome_of_eq hS₁
    refine ⟨S, ?_, hS, hΦ⟩
    simp only [Stmt.scope, he.inScope hS, hall, Bool.and_self, if_true]
  | block hss =>
    obtain ⟨S₁, hS₁, -⟩ := hss.scope hS hΦ
    refine ⟨S, ?_, hS, hΦ⟩
    rw [Stmt.scope, if_pos (isSome_of_eq hS₁)]

/-- So do the statements of a body, by induction on the typing. -/
theorem StmtsTyped.scope {ss : List Stmt} (h : StmtsTyped Φ Γ ss Γ') (hS : Covers S Γ) (hΦ : FnsCover S Φ) :
    ∃ S', stmtsScope S ss = some S' ∧ Covers S' Γ' := by
  induction h generalizing S with
  | nil => exact ⟨S, rfl, hS⟩
  | cons hs _ ih =>
    obtain ⟨S₁, hS₁, hcov, hfns⟩ := hs.scope hS hΦ
    obtain ⟨S₂, hS₂, h⟩ := ih hcov hfns
    refine ⟨S₂, ?_, h⟩
    rw [stmtsScope, hS₁]
    exact hS₂
  | @fill Γ _ A n e _ _ _ _ _ he _ ih =>
    obtain ⟨S₂, hS₂, h⟩ := ih (S := { S with arrs := Function.update S.arrs A true }) hS.fill hΦ
    have hcov : Covers { S with arrs := Function.update S.arrs A true, vars := Function.update S.vars .index true } (Γ.counted n) :=
      hS.more.counted
    have hbody : (simplesScope { S with arrs := Function.update S.arrs A true, vars := Function.update S.vars .index true }
        [.store A (.var .index) e]).isSome = true := by
      simp only [simplesScope, Simple.scope, Expr.inScope, he.inScope hcov, Function.update_self, Bool.and_self, if_true]
      rfl
    refine ⟨S₂, ?_, h⟩
    rw [stmtsScope, Stmt.scope]
    refine (Option.bind_some ..).trans ?_
    rw [stmtsScope, Stmt.scope, if_pos hbody]
    exact hS₂

/-- At the start of a function its parameters are in scope. -/
theorem covers_paramCtx (ps : List (Name × StdType)) (fns : FnName → Bool) :
    Covers ⟨fun x => ps.any fun p => p.1 = x, fun _ => false, fns⟩ (paramCtx ps) := by
  induction ps with
  | nil =>
    refine ⟨fun x h => ?_, fun A h => ?_, fun h => ?_⟩
    · cases h
    · cases h
    · cases h
  | cons p ps ih =>
    have hany : (fun x => (p :: ps).any fun q => q.1 = x) = Function.update (fun x => ps.any fun q => q.1 = x) p.1 true := by
      funext x
      by_cases hx : x = p.1
      · rw [hx, Function.update_self, List.any_cons, decide_eq_true rfl, Bool.true_or]
      · rw [Function.update_of_ne hx, List.any_cons, decide_eq_false (Ne.symm hx), Bool.false_or]
    rw [hany]
    exact ih.declare

/-- A function that has an arity is in the program. -/
theorem isSome_arity {p : Program} {f : FnName} (h : (arity p f).isSome = true) : (p.any fun fn => fn.name = f) = true := by
  induction p with
  | nil => cases h
  | cons fn fns ih =>
    rw [arity] at h
    by_cases hf : fn.name = f
    · rw [List.any_cons, decide_eq_true hf, Bool.true_or]
    · rw [if_neg hf] at h
      rw [List.any_cons, ih h, Bool.or_true]

/-- A typed program names only what is declared before. -/
theorem ProgramTyped.inScope {p : Program} (h : ProgramTyped p) : p.inScope = true := by
  induction p with
  | nil => rfl
  | cons fn fns ih =>
    obtain ⟨Γ, t, hbody, hret⟩ := h.1.body
    obtain ⟨S, hS, hcov⟩ := hbody.scope (covers_paramCtx fn.params fun f => fns.any fun fn => fn.name = f) fun f => isSome_arity
    have hfn : fn.inScope (fun f => fns.any fun fn => fn.name = f) = true := by
      rw [Fn.inScope, hS]
      exact hret.inScope hcov
    rw [Program.inScope, hfn, ih h.2, Bool.and_self]

end CronoVM.Fuzz
