import Omp.Lib.Dfs
import Omp.Lib.Op

/-!
# Marking

A collector goes through a graph and marks what it finds.  Some of the nodes cannot be read, and
then it gives up.  What it does with a list of nodes is described by what is marked before and
after, whatever the order of the search: everything new was read, is reached from the list, and has
its successors marked.  Such steps compose, and from nothing marked they come to exactly what is
reached.

## Main definitions

* `succOf` : the successors of a node, none where it is not readable.
* `Marks` : what going through a list of nodes adds to the marked ones.

## Main results

* `Marks.append`, `Marks.visit`, `Marks.of_foldlM` : how steps compose.
* `Marks.mem_iff`, `Marks.legible` : marking from nothing marks what is reached, all of it readable.
-/

namespace Lib.Marking

open Dfs

variable {α : Type} (links : α → Option (List α))

/-- The successors of a node, none where it is not readable. -/
def succOf (a : α) : List α := (links a).getD []

/-- A node that can be read. -/
def Legible (a : α) : Prop := links a ≠ none

/-- Going through the nodes of `l` with those of `S` marked leaves those of `F` marked. -/
structure Marks (l : List α) (S F : Set α) : Prop where
  /-- Marks stay. -/
  kept : S ⊆ F
  /-- The nodes of the list are marked. -/
  listed : ∀ x ∈ l, x ∈ F
  /-- A node that is new was read. -/
  read : ∀ x ∈ F, x ∉ S → Legible links x
  /-- So its successors are marked. -/
  closed : ∀ x ∈ F, x ∉ S → ∀ y ∈ succOf links x, y ∈ F
  /-- It is reached from the list. -/
  reached : ∀ x ∈ F, x ∉ S → ∃ q ∈ l, Reaches (succOf links) q x

variable {links} {l l' : List α} {h : α} {S M F : Set α}

theorem succOf_of_eq {a : α} (ha : links a = some l) : succOf links a = l := by
  rw [succOf, ha, Option.getD_some]

theorem legible_of_eq {a : α} (ha : links a = some l) : Legible links a := by
  rw [Legible, ha]
  exact Option.some_ne_none l

/-! ### Steps -/

theorem Marks.nil (S : Set α) : Marks links [] S S where
  kept := subset_rfl
  listed := by simp
  read _ hx hno := absurd hx hno
  closed _ hx hno := absurd hx hno
  reached _ hx hno := absurd hx hno

/-- A node that is marked is passed over. -/
theorem Marks.skip (hs : h ∈ S) (hl : Marks links l S F) : Marks links (h :: l) S F where
  kept := hl.kept
  listed := List.forall_mem_cons.2 ⟨hl.kept hs, hl.listed⟩
  read := hl.read
  closed := hl.closed
  reached x hx hno := by
    obtain ⟨q, hq, hqx⟩ := hl.reached x hx hno
    exact ⟨q, List.mem_cons_of_mem h hq, hqx⟩

/-- One list after the other. -/
theorem Marks.append (hl : Marks links l S M) (hl' : Marks links l' M F) :
    Marks links (l ++ l') S F where
  kept := hl.kept.trans hl'.kept
  listed x hx := (List.mem_append.1 hx).elim (fun hx => hl'.kept (hl.listed x hx)) (hl'.listed x)
  read x hx hno := by
    by_cases hM : x ∈ M
    · exact hl.read x hM hno
    · exact hl'.read x hx hM
  closed x hx hno y hy := by
    by_cases hM : x ∈ M
    · exact hl'.kept (hl.closed x hM hno y hy)
    · exact hl'.closed x hx hM y hy
  reached x hx hno := by
    by_cases hM : x ∈ M
    · obtain ⟨q, hq, hqx⟩ := hl.reached x hM hno
      exact ⟨q, List.mem_append_left l' hq, hqx⟩
    · obtain ⟨q, hq, hqx⟩ := hl'.reached x hx hM
      exact ⟨q, List.mem_append_right l hq, hqx⟩

/-- A node is marked, and its successors are put in front of what is left to do. -/
theorem Marks.visit {next : List α} (hread : links h = some next)
    (hrest : Marks links (next ++ l) (insert h S) F) : Marks links (h :: l) S F where
  kept := (Set.subset_insert h S).trans hrest.kept
  listed := List.forall_mem_cons.2 ⟨hrest.kept (Set.mem_insert h S), fun x hx =>
    hrest.listed x (List.mem_append_right next hx)⟩
  read x hx hno := by
    by_cases hxh : x = h
    · exact hxh ▸ legible_of_eq hread
    · exact hrest.read x hx (by simp [hxh, hno])
  closed x hx hno y hy := by
    by_cases hxh : x = h
    · subst hxh
      rw [succOf_of_eq hread] at hy
      exact hrest.listed y (List.mem_append_left l hy)
    · exact hrest.closed x hx (by simp [hxh, hno]) y hy
  reached x hx hno := by
    by_cases hxh : x = h
    · exact ⟨h, List.mem_cons_self, hxh ▸ .refl⟩
    · obtain ⟨q, hq, hqx⟩ := hrest.reached x hx (by simp [hxh, hno])
      rcases List.mem_append.1 hq with hq | hq
      · refine ⟨h, List.mem_cons_self, .head ?_ hqx⟩
        rwa [succOf_of_eq hread]
      · exact ⟨q, List.mem_cons_of_mem h hq, hqx⟩

/-- A node without successors. -/
theorem Marks.leaf (hread : links h = some []) : Marks links [h] S (insert h S) :=
  .visit hread (.nil _)

/-- Nodes without successors. -/
theorem Marks.leaves (hl : ∀ x ∈ l, links x = some []) : Marks links l S (S ∪ {x | x ∈ l}) := by
  induction l generalizing S with
  | nil => simpa using Marks.nil S
  | cons x l ih =>
    obtain ⟨hx, hl⟩ := List.forall_mem_cons.1 hl
    have hset : S ∪ {y | y ∈ x :: l} = insert x S ∪ {y | y ∈ l} := by
      ext y
      simp only [Set.mem_union, Set.mem_ofPred_eq, List.mem_cons, Set.mem_insert_iff]
      tauto
    rw [hset]
    exact (Marks.leaf hx).append (ih hl)

/-! ### Folds -/

section Fold

variable {σ β ε : Type} {marks : σ → Set α} {node : β → α} {f : σ → β → Except ε σ}
  {items : List β} {s s' : σ} {e : ε}

/-- A fold that marks one node for each item. -/
theorem Marks.of_foldlM
    (hf : ∀ b ∈ items, ∀ s s', f s b = .ok s' → Marks links [node b] (marks s) (marks s'))
    (h : items.foldlM f s = .ok s') : Marks links (items.map node) (marks s) (marks s') := by
  induction items generalizing s with
  | nil =>
    cases h
    exact .nil _
  | cons b items ih =>
    obtain ⟨hb, hf⟩ := List.forall_mem_cons.1 hf
    rw [List.foldlM_cons] at h
    obtain ⟨s₁, hs₁, h⟩ := except_bind_eq_ok.1 h
    exact (hb s s₁ hs₁).append (ih hf h)

variable (marks) in
/-- Where it fails, it fails at one of them, after it has marked others. -/
theorem exists_of_foldlM_error
    (hf : ∀ b ∈ items, ∀ s s', f s b = .ok s' → Marks links [node b] (marks s) (marks s'))
    (h : items.foldlM f s = .error e) :
    ∃ b ∈ items, ∃ s₁, marks s ⊆ marks s₁ ∧ f s₁ b = .error e := by
  induction items generalizing s with
  | nil => cases h
  | cons b items ih =>
    obtain ⟨hb, hf⟩ := List.forall_mem_cons.1 hf
    rw [List.foldlM_cons] at h
    rcases except_bind_eq_error.1 h with h | ⟨s₁, hs₁, h⟩
    · exact ⟨b, List.mem_cons_self, s, subset_rfl, h⟩
    · obtain ⟨b', hb', s₂, hle, h⟩ := ih hf h
      exact ⟨b', List.mem_cons_of_mem b hb', s₂, (hb s s₁ hs₁).kept.trans hle, h⟩

end Fold

/-! ### From nothing marked -/

/-- **Marking from nothing marks what is reached.** -/
theorem Marks.mem_iff (hl : Marks links l ∅ F) {x : α} :
    x ∈ F ↔ ∃ q ∈ l, Reaches (succOf links) q x := by
  constructor
  · exact fun hx => hl.reached x hx (Set.notMem_empty x)
  · rintro ⟨q, hq, hqx⟩
    induction hqx with
    | refl => exact hl.listed q hq
    | tail _ hy ih => exact hl.closed _ ih (Set.notMem_empty _) _ hy

/-- All of it was read. -/
theorem Marks.legible (hl : Marks links l ∅ F) {q x : α} (hq : q ∈ l)
    (hx : Reaches (succOf links) q x) : Legible links x :=
  hl.read x (hl.mem_iff.2 ⟨q, hq, hx⟩) (Set.notMem_empty x)

end Lib.Marking
