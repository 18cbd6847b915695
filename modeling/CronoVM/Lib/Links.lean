import Mathlib.Data.List.Chain

/-!
# Doubly linked lists

A list whose nodes point to each other, forwards and backwards, with one value `nil` for both ends: the successor of `nil` is the first
node, and the last node points to `nil`. Nodes are taken out and pushed in front by the pointer writes that C code makes.
-/

namespace CronoVM.Links

variable {α : Type*} {next prev next' prev' : α → α} {nil x y b : α} {l l₁ l₂ : List α}

/-- `y` comes after `x`. The end has no pointer back. -/
def Follows (next prev : α → α) (nil x y : α) : Prop := next x = y ∧ (y ≠ nil → prev y = x)

/-- The pointers run through a list. -/
def Linked (next prev : α → α) (nil : α) (l : List α) : Prop := (nil :: (l ++ [nil])).IsChain (Follows next prev nil)

/-- The node after the beginning of a chain. -/
theorem next_of_chain {a : α} (h : (a :: (l ++ [nil])).IsChain (Follows next prev nil)) : next a = l.headD nil := by
  cases l with
  | nil => exact (List.isChain_cons_cons.mp h).1.1
  | cons c l => exact (List.isChain_cons_cons.mp h).1.1

/-- The first node. -/
theorem Linked.head_eq (h : Linked next prev nil l) : next nil = l.headD nil := next_of_chain h

/-- The node after a node. -/
theorem Linked.next_eq (h : Linked next prev nil (l₁ ++ x :: l₂)) : next x = l₂.headD nil := by
  have hsplit : nil :: (l₁ ++ x :: l₂ ++ [nil]) = (nil :: l₁) ++ (x :: (l₂ ++ [nil])) := by simp
  unfold Linked at h
  rw [hsplit] at h
  exact next_of_chain h.right_of_append

/-- Only the pointers of the nodes count, and the one to the first node. -/
theorem Linked.congr (h : Linked next prev nil l) (hnext : ∀ a ∈ nil :: l, next' a = next a) (hprev : ∀ a ∈ l, prev' a = prev a) :
    Linked next' prev' nil l := by
  have hmem : ∀ a ∈ nil :: (l ++ [nil]), a = nil ∨ a ∈ l := by
    intro a ha
    rcases List.mem_cons.mp ha with h | h
    · exact Or.inl h
    · exact (List.mem_append.mp h).elim Or.inr fun h => Or.inl (List.mem_singleton.mp h)
  refine h.imp_of_mem_imp fun a c ha hc hac => ⟨?_, fun hcnil => ?_⟩
  · exact (hnext a (List.mem_cons.mpr (hmem a ha))).trans hac.1
  · exact (hprev c ((hmem c hc).resolve_left hcnil)).trans (hac.2 hcnil)

/-- The links around a node: those before it, those behind it, and the two that join it to them. -/
theorem Linked.around (h : Linked next prev nil (l₁ ++ y :: l₂)) (hy : y ≠ nil) :
    (nil :: l₁).IsChain (Follows next prev nil) ∧ (l₂ ++ [nil]).IsChain (Follows next prev nil) ∧
      (∀ x ∈ (nil :: l₁).getLast?, next x = y ∧ prev y = x) ∧
      ∀ z ∈ (l₂ ++ [nil]).head?, next y = z ∧ (z ≠ nil → prev z = y) := by
  have hsplit : nil :: (l₁ ++ y :: l₂ ++ [nil]) = (nil :: l₁) ++ (y :: (l₂ ++ [nil])) := by simp
  unfold Linked at h
  rw [hsplit, List.isChain_append] at h
  obtain ⟨hbefore, hbehind, hjoin⟩ := h
  rw [List.isChain_cons] at hbehind
  refine ⟨hbefore, hbehind.2, fun x hx => ?_, hbehind.1⟩
  obtain ⟨hnext, hprev⟩ := hjoin x hx y rfl
  exact ⟨hnext, hprev hy⟩

/-- The neighbours of a node. -/
theorem Linked.prev_mem (h : Linked next prev nil (l₁ ++ y :: l₂)) (hy : y ≠ nil) : prev y ∈ nil :: l₁ := by
  obtain ⟨-, -, hlast, -⟩ := h.around hy
  obtain ⟨x, hx⟩ : ∃ x, x ∈ (nil :: l₁).getLast? := ⟨_, List.getLast?_eq_some_getLast (List.cons_ne_nil nil l₁)⟩
  rw [(hlast x hx).2]
  exact List.mem_of_getLast? hx

theorem Linked.next_mem (h : Linked next prev nil (l₁ ++ y :: l₂)) : next y ∈ nil :: l₂ := by
  rw [h.next_eq]
  cases l₂ with
  | nil => exact List.mem_cons_self
  | cons c l => exact List.mem_cons_of_mem nil List.mem_cons_self

variable [DecidableEq α]

/-- A node is taken out by joining its neighbours. -/
theorem Linked.unlink (h : Linked next prev nil (l₁ ++ y :: l₂)) (hnodup : (l₁ ++ y :: l₂).Nodup) (hnil : nil ∉ l₁ ++ y :: l₂)
    (hnext : ∀ a ∈ nil :: (l₁ ++ l₂), next' a = if a = prev y then next y else next a)
    (hprev : ∀ a ∈ l₁ ++ l₂, prev' a = if a = next y then prev y else prev a) : Linked next' prev' nil (l₁ ++ l₂) := by
  have hy : y ≠ nil := fun heq => hnil (heq ▸ List.mem_append_right _ List.mem_cons_self)
  have hy₁ : y ∉ l₁ := fun hmem => (List.nodup_append.mp hnodup).2.2 y hmem y List.mem_cons_self rfl
  have hy₂ : y ∉ l₂ := (List.nodup_cons.mp (List.nodup_append.mp hnodup).2.1).1
  obtain ⟨hbefore, hbehind, hlast, hfirst⟩ := h.around hy
  obtain ⟨x, hx⟩ : ∃ x, x ∈ (nil :: l₁).getLast? := ⟨_, List.getLast?_eq_some_getLast (List.cons_ne_nil nil l₁)⟩
  obtain ⟨z, hz⟩ : ∃ z, z ∈ (l₂ ++ [nil]).head? := ⟨_, List.head?_eq_some_head (by simp)⟩
  obtain ⟨hxy, hyx⟩ := hlast x hx
  obtain ⟨hyz, hzy⟩ := hfirst z hz
  rw [hyx, hyz] at hnext hprev
  have hxmem : x ∈ nil :: l₁ := List.mem_of_getLast? hx
  have hzmem : z ∈ l₂ ++ [nil] := List.mem_of_head? hz
  have hsplit : nil :: (l₁ ++ l₂ ++ [nil]) = (nil :: l₁) ++ (l₂ ++ [nil]) := by simp
  -- elsewhere the pointers stay, as nothing else leads to the node or comes after it
  have hkeep : ∀ a c, a ∈ nil :: (l₁ ++ l₂) → (c ≠ nil → c ∈ l₁ ++ l₂) → a ≠ y → c ≠ y → Follows next prev nil a c →
      Follows next' prev' nil a c := by
    intro a c ha hc hay hcy hac
    refine ⟨?_, fun hcnil => ?_⟩
    · have hax : a ≠ x := by
        rintro rfl
        exact hcy (hac.1.symm.trans hxy)
      rw [hnext a ha, if_neg hax]
      exact hac.1
    · have hcz : c ≠ z := by
        rintro rfl
        exact hay ((hac.2 hcnil).symm.trans (hzy hcnil))
      rw [hprev c (hc hcnil), if_neg hcz]
      exact hac.2 hcnil
  unfold Linked
  rw [hsplit, List.isChain_append]
  refine ⟨?_, ?_, ?_⟩
  · refine hbefore.imp_of_mem_imp fun a c ha hc hac => hkeep a c ?_ ?_ ?_ ?_ hac
    · exact List.mem_cons.mpr ((List.mem_cons.mp ha).imp_right (List.mem_append_left _))
    · exact fun hcnil => List.mem_append_left _ ((List.mem_cons.mp hc).resolve_left hcnil)
    · rintro rfl
      exact (List.mem_cons.mp ha).elim hy hy₁
    · rintro rfl
      exact (List.mem_cons.mp hc).elim hy hy₁
  · have hmem : ∀ a ∈ l₂ ++ [nil], a = nil ∨ a ∈ l₂ := by
      intro a ha
      exact (List.mem_append.mp ha).elim Or.inr fun h => Or.inl (List.mem_singleton.mp h)
    refine hbehind.imp_of_mem_imp fun a c ha hc hac => hkeep a c ?_ ?_ ?_ ?_ hac
    · exact List.mem_cons.mpr ((hmem a ha).imp_right (List.mem_append_right _))
    · exact fun hcnil => List.mem_append_right _ ((hmem c hc).resolve_left hcnil)
    · rintro rfl
      exact (hmem _ ha).elim hy hy₂
    · rintro rfl
      exact (hmem _ hc).elim hy hy₂
  · intro x' hx' z' hz'
    obtain rfl : x = x' := Option.some.inj ((Option.mem_def.mp hx).symm.trans (Option.mem_def.mp hx'))
    obtain rfl : z = z' := Option.some.inj ((Option.mem_def.mp hz).symm.trans (Option.mem_def.mp hz'))
    refine ⟨?_, fun hznil => ?_⟩
    · rw [hnext x (List.mem_cons.mpr ((List.mem_cons.mp hxmem).imp_right (List.mem_append_left _))), if_pos rfl]
    · have hz₂ : z ∈ l₂ := (List.mem_append.mp hzmem).resolve_right fun h => hznil (List.mem_singleton.mp h)
      rw [hprev z (List.mem_append_right _ hz₂), if_pos rfl]

/-- A node is pushed in front of the first one. -/
theorem Linked.push (h : Linked next prev nil l) (hnil : nil ∉ l) (hhead : next' nil = b) (hback : b ≠ nil → prev' b = nil)
    (hb : next' b = next nil) (hnext : ∀ a ∈ l, next' a = next a) (hprev : ∀ a ∈ l, prev' a = if a = next nil then b else prev a) :
    Linked next' prev' nil (b :: l) := by
  have hhead' := h.head_eq
  unfold Linked at h ⊢
  rw [List.cons_append, List.isChain_cons_cons]
  refine ⟨⟨hhead, hback⟩, ?_⟩
  cases l with
  | nil => exact List.isChain_pair.mpr ⟨hb.trans hhead', fun h => absurd rfl h⟩
  | cons c l =>
    have hc : c ≠ nil := fun heq => hnil (heq ▸ List.mem_cons_self)
    have hcfirst : next nil = c := hhead'
    rw [List.cons_append, List.isChain_cons_cons] at h ⊢
    refine ⟨⟨hb.trans hcfirst, fun _ => ?_⟩, ?_⟩
    · rw [hprev c List.mem_cons_self, if_pos hcfirst.symm]
    · obtain ⟨hfirst, hrest⟩ := h
      rw [← List.cons_append, List.isChain_append] at hrest ⊢
      obtain ⟨hnodes, hend, hjoin⟩ := hrest
      refine ⟨hnodes.imp_of_mem_imp fun a d ha hd had => ⟨?_, fun hdnil => ?_⟩, List.isChain_singleton nil, fun a ha d hd => ?_⟩
      · exact (hnext a ha).trans had.1
      · -- nothing but `nil` comes before the first node
        have hdc : d ≠ next nil := by
          intro heq
          have hback : prev d = nil := heq ▸ hcfirst ▸ hfirst.2 hc
          exact hnil ((had.2 hdnil).symm.trans hback ▸ ha)
        rw [hprev d hd, if_neg hdc]
        exact had.2 hdnil
      · obtain rfl : nil = d := Option.some.inj hd
        exact ⟨(hnext a (List.mem_of_getLast? ha)).trans (hjoin a ha _ rfl).1, fun h => absurd rfl h⟩

end CronoVM.Links
