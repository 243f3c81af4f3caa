import Mathlib.Data.Set.Finite.Basic
import Mathlib.Data.List.Nodup
import Mathlib.Data.List.Perm.Subperm
import Mathlib.Order.WellFounded

/-!
# Topological orders

A list is in topological order for a relation when whatever an element depends on stands before
it.  Such an order of all elements exists when the relation has no cycle, and only then.  An
algorithm that emits elements one after the other is right if it emits only what is ready, and
stops only when nothing is.

## Main definitions

* `TopoOrdered` : what an element depends on stands before it.
* `Acyclic` : the relation has no cycle.

## Main results

* `TopoOrdered.acyclic` : a relation with a topological order of all elements has no cycle.
* `Acyclic.exists_ready` : without a cycle, some element that is left is ready.
-/

namespace Lib

variable {α : Type}

/-- What an element of the list depends on stands before it. -/
def TopoOrdered (dep : α → α → Prop) (l : List α) : Prop :=
  ∀ l₁ a l₂, l = l₁ ++ a :: l₂ → ∀ b, dep a b → b ∈ l₁

/-- The relation has no cycle. -/
def Acyclic (dep : α → α → Prop) : Prop := ∀ a, ¬ Relation.TransGen dep a a

variable {dep dep' : α → α → Prop} {l : List α}

theorem Acyclic.mono (h : Acyclic dep) (hsub : ∀ a b, dep' a b → dep a b) : Acyclic dep' :=
  fun a hcycle => h a (Relation.TransGen.mono (fun a b hab => hsub a b hab) _ _ hcycle)

theorem Acyclic.transGen (h : Acyclic dep) : Acyclic (Relation.TransGen dep) := by
  intro a hcycle
  rw [Relation.transGen_eq_self] at hcycle
  exact h a hcycle

theorem TopoOrdered.nil : TopoOrdered dep [] := by
  intro l₁ a l₂ h
  cases l₁ <;> cases h

/-- A list grows at its end by an element that is ready. -/
theorem TopoOrdered.concat (h : TopoOrdered dep l) {a : α} (ha : ∀ b, dep a b → b ∈ l) :
    TopoOrdered dep (l ++ [a]) := by
  intro l₁ c l₂ heq b hb
  rcases List.eq_nil_or_concat l₂ with rfl | ⟨l₂, d, rfl⟩
  · obtain ⟨rfl, hc⟩ := List.append_inj' heq rfl
    cases hc
    exact ha b hb
  · rw [List.concat_eq_append, ← List.cons_append, ← List.append_assoc] at heq
    obtain ⟨rfl, -⟩ := List.append_inj' heq rfl
    exact h _ _ _ rfl b hb

theorem TopoOrdered.mono (h : TopoOrdered dep l) (hsub : ∀ a ∈ l, ∀ b, dep' a b → dep a b) :
    TopoOrdered dep' l := by
  rintro l₁ a l₂ rfl b hb
  exact h l₁ a l₂ rfl b (hsub a (by simp) b hb)

/-- What an element depends on, directly or not, stands before it. -/
theorem TopoOrdered.transGen (h : TopoOrdered dep l) : TopoOrdered (Relation.TransGen dep) l := by
  intro l₁ a l₂ heq b hb
  induction hb with
  | single hb => exact h l₁ a l₂ heq _ hb
  | tail _ hb ih =>
    -- what the element in between depends on stands before that one
    obtain ⟨m₁, m₂, rfl⟩ := List.append_of_mem ih
    rw [List.append_assoc, List.cons_append] at heq
    exact List.mem_append_left _ (h m₁ _ _ heq _ hb)

/-- **No cycle** among the elements of a list in topological order. -/
theorem TopoOrdered.not_transGen (h : TopoOrdered dep l) (hnodup : l.Nodup) {a : α} (ha : a ∈ l) :
    ¬ Relation.TransGen dep a a := by
  intro hcycle
  obtain ⟨l₁, l₂, rfl⟩ := List.append_of_mem ha
  have hbefore := h.transGen l₁ a l₂ rfl a hcycle
  exact (List.nodup_append.1 hnodup).2.2 a hbefore a List.mem_cons_self rfl

theorem TopoOrdered.acyclic (h : TopoOrdered dep l) (hnodup : l.Nodup)
    (hall : ∀ a b, dep a b → a ∈ l) : Acyclic dep := by
  intro a hcycle
  obtain ⟨b, hb, -⟩ := Relation.TransGen.head'_iff.1 hcycle
  exact h.not_transGen hnodup (hall a b hb) hcycle

/-- **Some element is ready**: of finitely many that are left, one depends on none that is left. -/
theorem Acyclic.exists_ready (h : Acyclic dep) {left : List α} (hne : left ≠ []) :
    ∃ a ∈ left, ∀ b, dep a b → b ∉ left := by
  have : Finite {a // a ∈ left} := List.finite_toSet left
  let R : {a // a ∈ left} → {a // a ∈ left} → Prop := fun b a => Relation.TransGen dep a b
  have : IsTrans _ R := ⟨fun a b c hab hbc => hbc.trans hab⟩
  have : Std.Irrefl R := ⟨fun a hcycle => h a hcycle⟩
  have hwf : WellFounded R := Finite.wellFounded_of_trans_of_irrefl R
  obtain ⟨x, hx⟩ := List.exists_mem_of_ne_nil left hne
  obtain ⟨⟨a, ha⟩, -, hmin⟩ := hwf.has_min Set.univ ⟨⟨x, hx⟩, trivial⟩
  exact ⟨a, ha, fun b hb hleft => hmin ⟨b, hleft⟩ trivial (Relation.TransGen.single hb)⟩

end Lib
