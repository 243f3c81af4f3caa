import Mathlib.Data.Finset.Card
import Mathlib.Data.Set.Lattice
import Mathlib.Logic.Relation
import Mathlib.Order.CompletePartialOrder

/-!
# Depth-first listings

A worklist that is a stack lists the nodes of a graph depth first: a node that was not listed is
listed, and its successors are put on top of what is left to do.  What is listed is a preorder, and
in a graph without cycles a preorder lists every node before those that are reached from it exactly
if nothing is listed through one successor that is reached from a later one.

## Main definitions

* `Reaches` : the nodes reached from a node.
* `Visits` : what a list of nodes adds to a listing.
* `Runs` : the same as the steps of a worklist.
* `Apart` : nodes each of which is reached from those before it or shares nothing with them.
* `Ordered` : no node is listed before one it is reached from.

## Main results

* `Visits.mem_iff` : what is listed is what is reached.
* `exists_visits` : a finite graph is listed.
* `Visits.ordered`, `Visits.apart` : when a listing is ordered.
-/

namespace Lib.Dfs

variable {α : Type} (succ : α → List α)

/-- The second node is reached from the first. -/
def Reaches : α → α → Prop := Relation.ReflTransGen fun a b => b ∈ succ a

/-- What is reached from a node. -/
def cone (a : α) : Set α := {b | Reaches succ a b}

/-- `Visits l S F` : going through the nodes of `l` after `S` was listed, `F` is listed. -/
inductive Visits : List α → List α → List α → Prop
  | nil (S : List α) : Visits [] S S
  | skip {h : α} {l S F : List α} (hs : h ∈ S) (hl : Visits l S F) : Visits (h :: l) S F
  | visit {h : α} {l S M F : List α} (hs : h ∉ S) (down : Visits (succ h) (S ++ [h]) M)
      (hl : Visits l M F) : Visits (h :: l) S F

/-- The steps of a worklist. -/
inductive Runs : List α → List α → List α → Prop
  | nil (S : List α) : Runs [] S S
  | skip {h : α} {l S F : List α} (hs : h ∈ S) (hl : Runs l S F) : Runs (h :: l) S F
  | visit {h : α} {l S F : List α} (hs : h ∉ S) (hl : Runs (succ h ++ l) (S ++ [h]) F) :
      Runs (h :: l) S F

/-- The nodes are, in turn, in the set and what the earlier ones reach, or they reach nothing of
it. -/
def Apart : List α → Set α → Prop
  | [], _ => True
  | q :: l, V => (q ∈ V ∨ Disjoint (cone succ q) V) ∧ Apart l (V ∪ cone succ q)

/-- No node is listed before one it is reached from. -/
def Ordered (F : List α) : Prop := F.Pairwise fun x a => ¬ Reaches succ a x

/-- No node is reached from one of its successors. -/
def Acyclic (a : α) : Prop := ∀ m, Reaches succ a m → ∀ q ∈ succ m, ¬ Reaches succ q m

variable {succ} {l l' S M F : List α} {a b h : α} {U V : Set α}

theorem mem_cone : b ∈ cone succ a ↔ Reaches succ a b := Iff.rfl

theorem self_mem_cone (a : α) : a ∈ cone succ a := Relation.ReflTransGen.refl

theorem cone_subset (hb : b ∈ cone succ a) : cone succ b ⊆ cone succ a := fun _ hc => hb.trans hc

theorem cone_subset_of_mem (hb : b ∈ succ a) : cone succ b ⊆ cone succ a :=
  cone_subset (.single hb)

theorem mem_cone_iff : b ∈ cone succ a ↔ b = a ∨ ∃ q ∈ succ a, b ∈ cone succ q := by
  constructor
  · intro hb
    rcases Relation.ReflTransGen.cases_head hb with rfl | ⟨q, hq, hqb⟩
    · exact .inl rfl
    · exact .inr ⟨q, hq, hqb⟩
  · rintro (rfl | ⟨q, hq, hqb⟩)
    · exact self_mem_cone b
    · exact cone_subset_of_mem hq hqb

/-! ### What is listed -/

theorem Visits.extends (hv : Visits succ l S F) : S <+: F := by
  induction hv with
  | nil S => exact List.prefix_rfl
  | skip _ _ ih => exact ih
  | visit _ _ _ ihdown ih => exact ((List.prefix_append _ _).trans ihdown).trans ih

theorem Visits.subset (hv : Visits succ l S F) : ∀ x ∈ l, x ∈ F := by
  induction hv with
  | nil S => simp
  | skip hs hl ih => exact List.forall_mem_cons.2 ⟨hl.extends.subset hs, ih⟩
  | @visit h l S M F hs down hl _ ih =>
    refine List.forall_mem_cons.2 ⟨hl.extends.subset (down.extends.subset ?_), ih⟩
    simp

/-- The successors of a node that is added are listed. -/
theorem Visits.closed (hv : Visits succ l S F) : ∀ x ∈ F, x ∉ S → ∀ y ∈ succ x, y ∈ F := by
  induction hv with
  | nil S => exact fun x hx hno => absurd hx hno
  | skip _ _ ih => exact ih
  | @visit h l S M F hs down hl ihdown ih =>
    intro x hx hno y hy
    by_cases hm : x ∈ M
    · refine hl.extends.subset ?_
      by_cases hxh : x = h
      · exact down.subset y (hxh ▸ hy)
      · exact ihdown x hm (by simp [hno, hxh]) y hy
    · exact ih x hx hm y hy

/-- What is added is reached from the nodes that are gone through. -/
theorem Visits.reached (hv : Visits succ l S F) :
    ∀ x ∈ F, x ∉ S → ∃ q ∈ l, x ∈ cone succ q := by
  induction hv with
  | nil S => exact fun x hx hno => absurd hx hno
  | skip _ _ ih =>
    intro x hx hno
    obtain ⟨q, hq, hqx⟩ := ih x hx hno
    exact ⟨q, List.mem_cons_of_mem _ hq, hqx⟩
  | @visit h l S M F hs down hl ihdown ih =>
    intro x hx hno
    by_cases hm : x ∈ M
    · refine ⟨h, List.mem_cons_self, mem_cone_iff.2 ?_⟩
      by_cases hxh : x = h
      · exact .inl hxh
      · exact .inr (ihdown x hm (by simp [hno, hxh]))
    · obtain ⟨q, hq, hqx⟩ := ih x hx hm
      exact ⟨q, List.mem_cons_of_mem _ hq, hqx⟩

theorem Visits.nodup (hv : Visits succ l S F) (hS : S.Nodup) : F.Nodup := by
  induction hv with
  | nil S => exact hS
  | skip _ _ ih => exact ih hS
  | visit hs _ _ ihdown ih =>
    refine ih (ihdown ?_)
    exact List.nodup_append.2 ⟨hS, List.nodup_singleton _, by
      rintro x hx y hy rfl
      exact hs (List.mem_singleton.1 hy ▸ hx)⟩

/-- **What is listed is what is reached.** -/
theorem Visits.mem_iff (hv : Visits succ [h] [] F) {x : α} : x ∈ F ↔ x ∈ cone succ h := by
  constructor
  · intro hx
    obtain ⟨q, hq, hqx⟩ := hv.reached x hx List.not_mem_nil
    rwa [List.mem_singleton.1 hq] at hqx
  · intro hx
    induction hx with
    | refl => exact hv.subset h (List.mem_singleton_self h)
    | tail _ hy ih => exact hv.closed _ ih List.not_mem_nil _ hy

/-! ### Worklists -/

theorem Runs.extends (hr : Runs succ l S F) : S <+: F := by
  induction hr with
  | nil S => exact List.prefix_rfl
  | skip _ _ ih => exact ih
  | visit _ _ ih => exact (List.prefix_append _ _).trans ih

theorem Runs.append (hl : Runs succ l S M) (hl' : Runs succ l' M F) :
    Runs succ (l ++ l') S F := by
  induction hl with
  | nil S => exact hl'
  | skip hs _ ih => exact .skip hs (ih hl')
  | visit hs _ ih =>
    refine .visit hs ?_
    have hrest := ih hl'
    rwa [List.append_assoc] at hrest

/-- Going through nodes is what a worklist does. -/
theorem Visits.runs (hv : Visits succ l S F) : Runs succ l S F := by
  induction hv with
  | nil S => exact .nil S
  | skip hs _ ih => exact .skip hs ih
  | visit hs _ _ ihdown ih => exact .visit hs (ihdown.append ih)

/-- **A finite graph is listed.** -/
theorem exists_visits [DecidableEq α] (N : Finset α) (hN : ∀ x ∈ N, ∀ y ∈ succ x, y ∈ N) :
    ∀ (l S : List α), (∀ x ∈ l, x ∈ N) → ∃ F, Visits succ l S F := by
  -- by the number of nodes that are not listed
  have hkey : ∀ (n : Nat) (l S : List α), (N \ S.toFinset).card ≤ n → (∀ x ∈ l, x ∈ N) →
      ∃ F, Visits succ l S F := by
    intro n
    induction n with
    | zero =>
      intro l S hcard hl
      have hall : ∀ x ∈ N, x ∈ S := by
        have hsub : N ⊆ S.toFinset :=
          Finset.sdiff_eq_empty_iff_subset.1 (Finset.card_eq_zero.1 (Nat.le_zero.1 hcard))
        exact fun x hx => List.mem_toFinset.1 (hsub hx)
      induction l with
      | nil => exact ⟨S, .nil S⟩
      | cons h l ih =>
        obtain ⟨hh, hl⟩ := List.forall_mem_cons.1 hl
        obtain ⟨F, hF⟩ := ih hl
        exact ⟨F, .skip (hall h hh) hF⟩
    | succ n ihn =>
      intro l
      induction l with
      | nil => exact fun S _ _ => ⟨S, .nil S⟩
      | cons h l ih =>
        intro S hcard hl
        obtain ⟨hh, hl⟩ := List.forall_mem_cons.1 hl
        by_cases hs : h ∈ S
        · obtain ⟨F, hF⟩ := ih S hcard hl
          exact ⟨F, .skip hs hF⟩
        · have hless : ∀ T : List α, S ++ [h] <+: T → (N \ T.toFinset).card ≤ n := by
            intro T hT
            have hlt : (N \ T.toFinset).card < (N \ S.toFinset).card := by
              refine Finset.card_lt_card ⟨fun x hx => ?_, fun hsub => ?_⟩
              · obtain ⟨hxN, hxT⟩ := Finset.mem_sdiff.1 hx
                refine Finset.mem_sdiff.2 ⟨hxN, fun hxS => hxT ?_⟩
                exact List.mem_toFinset.2 (hT.subset (List.mem_append_left _
                  (List.mem_toFinset.1 hxS)))
              · have hmem := hsub (Finset.mem_sdiff.2 ⟨hh, fun hS => hs (List.mem_toFinset.1 hS)⟩)
                refine (Finset.mem_sdiff.1 hmem).2 (List.mem_toFinset.2 (hT.subset ?_))
                simp
            omega
          obtain ⟨M, hM⟩ := ihn (succ h) (S ++ [h]) (hless _ List.prefix_rfl) (hN h hh)
          obtain ⟨F, hF⟩ := ihn l M (hless M hM.extends) hl
          exact ⟨F, .visit hs hM hF⟩
  exact fun l S hl => hkey _ l S le_rfl hl

/-! ### Order -/

theorem Apart.union (hl : Apart succ l V) (hU : ∀ q ∈ l, Disjoint (cone succ q) U) :
    Apart succ l (V ∪ U) := by
  induction l generalizing V with
  | nil => trivial
  | cons q l ih =>
    obtain ⟨hq, hrest⟩ := hl
    obtain ⟨hqU, hlU⟩ := List.forall_mem_cons.1 hU
    refine ⟨hq.imp (fun h => .inl h) fun h => Set.disjoint_union_right.2 ⟨h, hqU⟩, ?_⟩
    rw [Set.union_right_comm]
    exact ih hrest hlU

theorem Ordered.of_extends (hF : Ordered succ F) (h : S <+: F) : Ordered succ S :=
  List.Pairwise.sublist h.sublist hF

/-- **A listing is ordered** if the successors of every node are apart. -/
theorem Visits.ordered (hv : Visits succ l S F)
    (hacyclic : ∀ q ∈ l, Acyclic succ q) (hapart : ∀ q ∈ l, ∀ m ∈ cone succ q, Apart succ (succ m) ∅)
    (hclosed : ∀ q ∈ l, q ∈ S → ∀ x ∈ cone succ q, x ∈ S) (hl : Apart succ l {x | x ∈ S})
    (hS : Ordered succ S) :
    Ordered succ F ∧ ∀ x, x ∈ F ↔ x ∈ S ∨ ∃ q ∈ l, x ∈ cone succ q := by
  induction hv with
  | nil S => simpa using hS
  | @skip h l S F hs _ ih =>
    obtain ⟨hcone, hclosed⟩ := List.forall_mem_cons.1 hclosed
    obtain ⟨-, hacyclic⟩ := List.forall_mem_cons.1 hacyclic
    obtain ⟨-, hapart⟩ := List.forall_mem_cons.1 hapart
    have hset : {x | x ∈ S} ∪ cone succ h = {x | x ∈ S} := Set.union_eq_left.2 (hcone hs)
    obtain ⟨hordered, hmem⟩ := ih hacyclic hapart hclosed (hset ▸ hl.2) hS
    refine ⟨hordered, fun x => (hmem x).trans ?_⟩
    simp only [List.exists_mem_cons_iff]
    constructor
    · exact fun hx => hx.imp_right .inr
    · rintro (hx | hx | hx)
      exacts [.inl hx, .inl (hcone hs x hx), .inr hx]
  | @visit h l S M F hs down hl' ihdown ih =>
    obtain ⟨-, hclosed⟩ := List.forall_mem_cons.1 hclosed
    obtain ⟨hacyclicH, hacyclic⟩ := List.forall_mem_cons.1 hacyclic
    obtain ⟨hapartH, hapart⟩ := List.forall_mem_cons.1 hapart
    have hdisjoint : Disjoint (cone succ h) {x | x ∈ S} := hl.1.resolve_left hs
    have hfresh : ∀ x ∈ cone succ h, x ∉ S := fun x hx hxS =>
      Set.disjoint_left.1 hdisjoint hx hxS
    -- nothing of what is listed is reached from a successor
    have hsucc : ∀ q ∈ succ h, Disjoint (cone succ q) {x | x ∈ S ++ [h]} := by
      intro q hq
      refine Set.disjoint_left.2 fun x hx hxS => ?_
      rcases List.mem_append.1 hxS with hxS | hxh
      · exact hfresh x (cone_subset_of_mem hq hx) hxS
      · rw [List.mem_singleton.1 hxh] at hx
        exact hacyclicH h (self_mem_cone h) q hq hx
    have hS' : Ordered succ (S ++ [h]) := by
      refine List.pairwise_append.2 ⟨hS, List.pairwise_singleton _ _, fun x hx a ha hax => ?_⟩
      rw [List.mem_singleton.1 ha] at hax
      exact hfresh x hax hx
    obtain ⟨hordered, hmem⟩ := ihdown
      (fun q hq m hm => hacyclicH m (cone_subset_of_mem hq hm))
      (fun q hq m hm => hapartH m (cone_subset_of_mem hq hm))
      (fun q hq hqS => absurd hqS (Set.disjoint_left.1 (hsucc q hq) (self_mem_cone q)))
      (by simpa using (hapartH h (self_mem_cone h)).union hsucc) hS'
    have hM : ∀ x, x ∈ M ↔ x ∈ S ∨ x ∈ cone succ h := by
      intro x
      rw [hmem, mem_cone_iff, List.mem_append, List.mem_singleton, or_assoc]
    have hset : {x | x ∈ S} ∪ cone succ h = {x | x ∈ M} := Set.ext fun x => (hM x).symm
    obtain ⟨hordered', hmem'⟩ := ih hacyclic hapart (fun q hq hqM x hx => (hM x).2 (by
      rcases (hM q).1 hqM with hqS | hqh
      · exact .inl (hclosed q hq hqS x hx)
      · exact .inr (cone_subset hqh hx))) (hset ▸ hl.2) hordered
    refine ⟨hordered', fun x => (hmem' x).trans ?_⟩
    rw [hM, List.exists_mem_cons_iff, or_assoc]

/-- Nodes that are gone through are apart if the listing is ordered. -/
theorem Visits.apart_of_ordered (hv : Visits succ l S F) (hF : Ordered succ F) {V : Set α}
    (hV : ∀ x ∈ V, x ∈ S) (hclosed : ∀ x ∈ V, cone succ x ⊆ V)
    (hseen : ∀ q ∈ l, ∀ x ∈ cone succ q, x ∈ S → x ∈ V) : Apart succ l V := by
  induction l generalizing S V with
  | nil => trivial
  | cons q l ih =>
    obtain ⟨hq, hseen⟩ := List.forall_mem_cons.1 hseen
    cases hv with
    | skip hs hl =>
      have hqV : q ∈ V := hq q (self_mem_cone q) hs
      refine ⟨.inl hqV, ?_⟩
      rw [Set.union_eq_left.2 (hclosed q hqV)]
      exact ih hl hV hclosed hseen
    | @visit _ _ _ M _ hs down hl =>
      -- what is in the set stands before `q`
      have hbefore : ∀ x ∈ S, ¬ Reaches succ q x := by
        have hordered := hF.of_extends (down.extends.trans hl.extends)
        intro x hx
        exact (List.pairwise_append.1 hordered).2.2 x hx q (List.mem_singleton_self q)
      have hcone : ∀ x ∈ cone succ q, x ∈ M := by
        intro x hx
        induction hx with
        | refl => exact down.extends.subset (by simp)
        | @tail y z hy hz ihy =>
          by_cases hyS : y ∈ S ++ [q]
          · rcases List.mem_append.1 hyS with hyS | hyq
            · exact absurd hy (hbefore y hyS)
            · exact down.subset z (List.mem_singleton.1 hyq ▸ hz)
          · exact down.closed y ihy hyS z hz
      refine ⟨.inr (Set.disjoint_left.2 fun x hx hxV => hbefore x (hV x hxV) hx), ?_⟩
      refine ih hl ?_ ?_ ?_
      · rintro x (hx | hx)
        · exact down.extends.subset (List.mem_append_left _ (hV x hx))
        · exact hcone x hx
      · rintro x (hx | hx)
        · exact (hclosed x hx).trans Set.subset_union_left
        · exact (cone_subset hx).trans Set.subset_union_right
      · intro q' hq' x hx hxM
        by_cases hxS : x ∈ S ++ [q]
        · rcases List.mem_append.1 hxS with hxS | hxq
          · exact .inl (hseen q' hq' x hx hxS)
          · rw [List.mem_singleton.1 hxq]
            exact .inr (self_mem_cone q)
        · exact .inr (mem_cone_iff.2 (.inr (down.reached x hxM hxS)))

/-- **The successors of every node are apart** if the listing is ordered. -/
theorem Visits.apart (hv : Visits succ l S F) (hacyclic : ∀ q ∈ l, Acyclic succ q)
    (hF : Ordered succ F) : ∀ m ∈ F, m ∉ S → Apart succ (succ m) ∅ := by
  induction hv with
  | nil S => exact fun m hm hno => absurd hm hno
  | skip _ _ ih => exact ih (List.forall_mem_cons.1 hacyclic).2 hF
  | @visit h l S M F hs down hl ihdown ih =>
    obtain ⟨hacyclicH, hacyclic⟩ := List.forall_mem_cons.1 hacyclic
    have hM : Ordered succ M := hF.of_extends hl.extends
    intro m hm hno
    by_cases hmM : m ∈ M
    · by_cases hmh : m = h
      · subst hmh
        refine down.apart_of_ordered hM (by simp) (by simp) fun q hq x hx hxS => ?_
        rcases List.mem_append.1 hxS with hxS | hxm
        · have hordered := hM.of_extends down.extends
          exact (List.pairwise_append.1 hordered).2.2 x hxS m (List.mem_singleton_self m)
            (cone_subset_of_mem hq hx)
        · rw [List.mem_singleton.1 hxm] at hx
          exact hacyclicH m (self_mem_cone m) q hq hx
      · exact ihdown (fun q hq m hm => hacyclicH m (cone_subset_of_mem hq hm)) hM m hmM
          (by simp [hno, hmh])
    · exact ih hacyclic hF m hm hmM

/-- **A listing of what is reached from a node is ordered** exactly if the successors of every node
in it are apart. -/
theorem Visits.ordered_iff (hv : Visits succ [h] [] F) (hacyclic : Acyclic succ h) :
    Ordered succ F ↔ ∀ m, Reaches succ h m → Apart succ (succ m) ∅ := by
  have hone : ∀ q ∈ [h], Acyclic succ q := by simpa using hacyclic
  constructor
  · intro hF m hm
    exact hv.apart hone hF m (hv.mem_iff.2 hm) List.not_mem_nil
  · intro hapart
    refine (hv.ordered hone (fun q hq m hm => hapart m ?_) (by simp) ⟨.inr ?_, trivial⟩ .nil).1
    · rwa [List.mem_singleton.1 hq] at hm
    · simp

end Lib.Dfs
