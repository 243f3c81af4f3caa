import Mathlib.Data.Set.Card
import Omp.Merkle

/-!
# Walking a stored tree

`walk` lists the leaves of a tree with their path strings.  Its recursion follows the addresses
of subtrees; an address does not come back below itself in a tree that has a leaf map, so the
recursion is no deeper than the store has objects, and the walk lists each leaf exactly once.

## Main results

* `walk_spec` : the walk of a tree enumerates its leaf map.
* `mem_walk_iff`, `nodup_walk` : what is listed, and that no path is listed twice.
* `walk_paths` : the paths a walk of any store lists, and their order.
-/

namespace Omp

open Lib

variable {P : Platform} {s : Store} {key : Option Key} {full canon : Prop}

/-! ### Addresses below an address -/

variable (P s key) in
/-- The tree at one address has a subtree at the other. -/
def HasSubtree (h g : Hash) : Prop :=
  ∃ t n e, loadTree P s key h = .ok t ∧ t.get n = some e ∧ e.mode = .tree ∧ e.hash = g

variable (P s key) in
/-- The addresses strictly below an address. -/
def hashesBelow (h : Hash) : Set Hash := {g | Relation.TransGen (HasSubtree P s key) h g}

theorem TreeAt.of_hasSubtree {h g : Hash} {L : Leaves Text Entry}
    (ht : TreeAt P s key full canon h L) (hg : HasSubtree P s key h g) :
    ∃ M, TreeAt P s key full canon g M := by
  obtain ⟨t, sub, hload, -, hnode, -⟩ := ht.exists_node
  obtain ⟨t', n, e, hload', hn, hm, rfl⟩ := hg
  rw [hload, Except.ok.injEq] at hload'
  subst hload'
  exact ⟨sub n, ((hnode n e hn).2 hm).1⟩

theorem TreeAt.of_mem_below {h g : Hash} {L : Leaves Text Entry}
    (ht : TreeAt P s key full canon h L) (hg : g ∈ hashesBelow P s key h) :
    ∃ M, TreeAt P s key full canon g M := by
  induction hg with
  | single hg => exact ht.of_hasSubtree hg
  | tail _ hg ih =>
    obtain ⟨M, hM⟩ := ih
    exact hM.of_hasSubtree hg

/-- **No address is below itself.** -/
theorem TreeAt.not_mem_below {h : Hash} {L : Leaves Text Entry}
    (ht : TreeAt P s key full canon h L) : h ∉ hashesBelow P s key h := by
  induction ht with
  | @node h t sub hload _ _ _ _ ih =>
    intro hcyc
    obtain ⟨g, ⟨t', n, e, hload', hn, hm, rfl⟩, hback⟩ :=
      Relation.TransGen.head'_iff.1 hcyc
    obtain rfl : t = t' := by
      rw [hload, Except.ok.injEq] at hload'
      exact hload'
    exact ih n e hn hm (Relation.TransGen.tail' hback ⟨t, n, e, hload, hn, hm, rfl⟩)

theorem TreeAt.address_mem {h : Hash} {L : Leaves Text Entry}
    (ht : TreeAt P s key full canon h L) : h ∈ s.objects.map (Object.address P) := by
  obtain ⟨t, sub, hload, -, -, -⟩ := ht.exists_node
  unfold loadTree at hload
  cases hg : s.get P h with
  | none => simp [hg] at hload
  | some o => exact List.mem_map.2 ⟨o, Cas.find_eq_some hg⟩

theorem TreeAt.below_subset {h : Hash} {L : Leaves Text Entry}
    (ht : TreeAt P s key full canon h L) :
    hashesBelow P s key h ⊆ {g | g ∈ s.objects.map (Object.address P)} := fun _ hg => by
  obtain ⟨M, hM⟩ := ht.of_mem_below hg
  exact hM.address_mem

theorem TreeAt.finite_below {h : Hash} {L : Leaves Text Entry}
    (ht : TreeAt P s key full canon h L) : (hashesBelow P s key h).Finite :=
  (List.finite_toSet _).subset ht.below_subset

/-- The addresses below an address are no more than the store has objects. -/
theorem TreeAt.ncard_below_le {h : Hash} {L : Leaves Text Entry}
    (ht : TreeAt P s key full canon h L) : (hashesBelow P s key h).ncard ≤ s.objects.length := by
  calc (hashesBelow P s key h).ncard
      ≤ {g | g ∈ s.objects.map (Object.address P)}.ncard :=
        Set.ncard_le_ncard ht.below_subset (List.finite_toSet _)
    _ = (s.objects.map (Object.address P)).toFinset.card := by
        rw [← Set.ncard_coe_finset, List.coe_toFinset]
    _ ≤ (s.objects.map (Object.address P)).length := List.toFinset_card_le _
    _ = s.objects.length := List.length_map _

/-- Fewer addresses are below a subtree than below the tree. -/
theorem TreeAt.ncard_below_lt {h g : Hash} {L : Leaves Text Entry}
    (ht : TreeAt P s key full canon h L) (hg : HasSubtree P s key h g) :
    (hashesBelow P s key g).ncard < (hashesBelow P s key h).ncard := by
  obtain ⟨M, hM⟩ := ht.of_hasSubtree hg
  refine Set.ncard_lt_ncard ⟨fun f hf => .head hg hf, fun hsub => ?_⟩ ht.finite_below
  exact hM.not_mem_below (hsub (.single hg))

/-! ### The walk -/

/-- An enumeration of the leaves of a map, each once. -/
structure Enumerates (L : Leaves Text Entry) (qs : List (List Text × Entry)) : Prop where
  /-- No path comes twice. -/
  nodup : (qs.map Prod.fst).Nodup
  /-- Exactly the leaves are listed. -/
  mem_iff : ∀ q e, (q, e) ∈ qs ↔ L q = some e

/-- The leaf map of a tree is enumerated by way of its entries. -/
theorem Enumerates.of_entries {t : Tree} {sub : Text → Leaves Text Entry}
    {qs : Text → List (List Text × Entry)}
    (hqs : ∀ n e, t.get n = some e → Enumerates (entryLeaves (some e) (sub n)) (qs n)) :
    Enumerates (leavesOf t sub)
      (t.entries.toList.flatMap fun p => (qs p.1).map fun x => (p.1 :: x.1, x.2)) := by
  refine ⟨?_, fun q e => ?_⟩
  · rw [List.map_flatMap, List.nodup_flatMap]
    refine ⟨fun p hp => ?_, t.entries.pairwise_toList.imp fun {p p'} hne => ?_⟩
    · have hnodup := (hqs p.1 p.2 (Tree.mem_toList.1 hp)).nodup
      have hcons : ((qs p.1).map fun x => (p.1 :: x.1, x.2)).map Prod.fst =
          ((qs p.1).map Prod.fst).map (List.cons p.1) := by
        simp [List.map_map, Function.comp_def]
      rw [hcons]
      exact hnodup.map (List.cons_injective (a := p.1))
    · intro q hq hq'
      simp only [List.map_map, List.mem_map, Function.comp] at hq hq'
      obtain ⟨x, -, rfl⟩ := hq
      obtain ⟨y, -, hy⟩ := hq'
      exact hne (List.cons.inj hy).1.symm
  · rw [List.mem_flatMap]
    constructor
    · rintro ⟨⟨n, f⟩, hp, hx⟩
      obtain ⟨⟨r, l⟩, hr, heq⟩ := List.mem_map.1 hx
      obtain ⟨rfl, rfl⟩ := Prod.mk.inj heq
      have hn := Tree.mem_toList.1 hp
      change entryLeaves (t.get n) (sub n) r = some l
      rw [hn]
      exact ((hqs n f hn).mem_iff r l).1 hr
    · intro hq
      cases q with
      | nil => cases hq
      | cons n r =>
        change entryLeaves (t.get n) (sub n) r = some e at hq
        cases hn : t.get n with
        | none => simp [hn, entryLeaves, Leaves.empty] at hq
        | some f =>
          rw [hn] at hq
          exact ⟨(n, f), Tree.mem_toList.2 hn,
            List.mem_map.2 ⟨(r, e), ((hqs n f hn).mem_iff r e).2 hq, rfl⟩⟩

/-- A walk lists the same when there are more objects. -/
theorem walkInner_mono {s' : Store} (hle : s ≤ s') {n m : Nat} (hnm : n ≤ m) {dir : Text}
    {h : Hash} {ps : List (Text × Entry)} (hwalk : walkInner P s key n dir h = .ok ps) :
    walkInner P s' key m dir h = .ok ps := by
  induction n generalizing m dir h ps with
  | zero => cases hwalk
  | succ n ih =>
    obtain ⟨m, rfl⟩ : ∃ k, m = k + 1 := ⟨m - 1, by omega⟩
    rw [walkInner] at hwalk ⊢
    obtain ⟨tree, htree, hwalk⟩ := except_bind_eq_ok.1 hwalk
    obtain ⟨parts, hparts, hwalk⟩ := except_bind_eq_ok.1 hwalk
    cases hload : loadTree P s key h with
    | error e =>
      rw [hload] at htree
      cases htree
    | ok t =>
      rw [hload] at htree
      cases htree
      rw [loadTree_mono hle hload]
      refine except_bind_eq_ok.2 ⟨tree, rfl, except_bind_eq_ok.2 ⟨parts, ?_, hwalk⟩⟩
      refine mapM_mono (fun p _ l hl => ?_) hparts
      split_ifs at hl ⊢ with hmode
      · exact ih (by omega) hl
      · exact hl

theorem walk_mono {s' : Store} (hle : s ≤ s') {root : Hash} {ps : List (Text × Entry)}
    (hwalk : walk P s key root = .ok ps) : walk P s' key root = .ok ps :=
  walkInner_mono hle (Nat.succ_le_succ (List.IsPrefix.length_le hle)) hwalk

/-- **The recursion of the walk** enumerates the leaf map, with enough fuel for the addresses
below the root. -/
theorem walkInner_spec {h : Hash} {L : Leaves Text Entry}
    (ht : TreeAt P s key full canon h L) {n : Nat} (hn : (hashesBelow P s key h).ncard < n)
    (dir : Text) :
    ∃ qs, Enumerates L qs ∧
      walkInner P s key n dir h = .ok (qs.map fun x => (x.1.foldl joinPath dir, x.2)) := by
  induction ht generalizing n dir with
  | @node h t sub hload hcanon hkept hsub hfull ih =>
    have ht' : TreeAt P s key full canon h (leavesOf t sub) :=
      .node sub hload hcanon hkept hsub hfull
    obtain ⟨n, rfl⟩ : ∃ m, n = m + 1 := ⟨n - 1, by omega⟩
    have hentry : ∀ m, ∃ qs, ∀ e, t.get m = some e →
        Enumerates (entryLeaves (some e) (sub m)) qs ∧
        (if e.mode = .tree then walkInner P s key n (joinPath dir m) e.hash
          else .ok [(joinPath dir m, e)]) =
          .ok (qs.map fun x => (x.1.foldl joinPath (joinPath dir m), x.2)) := fun m => by
      cases hm : t.get m with
      | none => exact ⟨[], nofun⟩
      | some e =>
        simp only [Option.some.injEq, forall_eq', entryLeaves]
        split_ifs with hmode
        · have hlt := ht'.ncard_below_lt ⟨t, m, e, hload, hm, hmode, rfl⟩
          exact ih m e hm hmode (by omega) _
        · refine ⟨[([], e)], ⟨by simp, fun q l => ?_⟩, rfl⟩
          by_cases hq : q = []
          · subst hq
            simp [eq_comm]
          · rw [Leaves.put_below _ e q.nil_prefix hq]
            simp [hq]
    choose qs hqs using hentry
    refine ⟨_, .of_entries fun m e hm => (hqs m e hm).1, ?_⟩
    have hmap := mapM_ok (l := t.entries.toList) fun p hp =>
      (hqs p.1 p.2 (Tree.mem_toList.1 hp)).2
    simp only [walkInner, hload, Except.mapError, bind, Except.bind, hmap]
    rw [List.map_flatMap, List.flatMap_def]
    simp [List.map_map, Function.comp_def]

/-! ### The paths of a walk -/

/-- The leaves are listed in the order of the components of their paths. -/
def InOrder (qs : List (List Text × Entry)) : Prop :=
  (qs.map Prod.fst).Pairwise fun p q => compare p q = .lt

/-- The entries of a tree stand in the order of their names. -/
theorem InOrder.of_entries {t : Tree} {qs : Text × Entry → List (List Text × Entry)}
    (hqs : ∀ p ∈ t.entries.toList, InOrder (qs p)) :
    InOrder (t.entries.toList.flatMap fun p => (qs p).map fun x => (p.1 :: x.1, x.2)) := by
  rw [InOrder, List.map_flatMap, List.pairwise_flatMap]
  constructor
  · intro p hp
    have hcons : ((qs p).map fun x => (p.1 :: x.1, x.2)).map Prod.fst =
        ((qs p).map Prod.fst).map (List.cons p.1) := by
      simp [List.map_map, Function.comp_def]
    rw [hcons, List.pairwise_map]
    refine (hqs p hp).imp fun hlt => ?_
    rw [List.compare_cons_cons, Std.ReflOrd.compare_self]
    exact hlt
  · refine (TextMap.sorted_toList _).imp fun {p p'} hlt => ?_
    intro q hq q' hq'
    simp only [List.map_map, List.mem_map, Function.comp] at hq hq'
    obtain ⟨x, -, rfl⟩ := hq
    obtain ⟨y, -, rfl⟩ := hq'
    rw [List.compare_cons_cons, hlt]
    rfl

/-- A listed leaf: it is no directory, and the components of its path are names. -/
def Listed (x : List Text × Entry) : Prop :=
  (∀ n ∈ x.1, ValidName n) ∧ x.2.mode ≠ .tree

/-- Whatever the store holds, a walk that succeeds lists leaves in order. -/
theorem walkInner_paths {n : Nat} {dir : Text} {h : Hash} {ps : List (Text × Entry)}
    (hwalk : walkInner P s key n dir h = .ok ps) :
    ∃ qs, InOrder qs ∧ (∀ x ∈ qs, x.1 ≠ [] ∧ Listed x) ∧
      ps = qs.map fun x => (x.1.foldl joinPath dir, x.2) := by
  induction n generalizing dir h ps with
  | zero => cases hwalk
  | succ n ih =>
    rw [walkInner] at hwalk
    obtain ⟨tree, -, hwalk⟩ := except_bind_eq_ok.1 hwalk
    obtain ⟨parts, hparts, hwalk⟩ := except_bind_eq_ok.1 hwalk
    cases hwalk
    have hentry : ∀ p : Text × Entry, ∃ qs, p ∈ tree.entries.toList →
        InOrder qs ∧ (∀ x ∈ qs, Listed x) ∧
        (if p.2.mode = .tree then walkInner P s key n (joinPath dir p.1) p.2.hash
          else .ok [(joinPath dir p.1, p.2)]) =
          .ok (qs.map fun x => (x.1.foldl joinPath (joinPath dir p.1), x.2)) := by
      intro p
      by_cases hp : p ∈ tree.entries.toList
      · obtain ⟨ps, hps, -⟩ := exists_of_mapM hparts hp
        split_ifs at hps ⊢ with hmode
        · obtain ⟨qs, hsorted, hlisted, rfl⟩ := ih hps
          exact ⟨qs, fun _ => ⟨hsorted, fun x hx => (hlisted x hx).2, hps⟩⟩
        · refine ⟨[([], p.2)], fun _ => ⟨List.pairwise_singleton _ _, ?_, rfl⟩⟩
          simpa [Listed] using hmode
      · exact ⟨[], fun h => absurd h hp⟩
    choose qs hqs using hentry
    have hmap := mapM_ok fun p hp => (hqs p hp).2.2
    rw [hmap, Except.ok.injEq] at hparts
    refine ⟨_, .of_entries fun p hp => (hqs p hp).1, ?_, ?_⟩
    · intro x hx
      obtain ⟨p, hp, hx⟩ := List.mem_flatMap.1 hx
      obtain ⟨y, hy, rfl⟩ := List.mem_map.1 hx
      obtain ⟨hnames, hmode⟩ := (hqs p hp).2.1 y hy
      have hname : ValidName p.1 := Tree.validName_of_get (Tree.mem_toList.1 hp)
      exact ⟨List.cons_ne_nil _ _, List.forall_mem_cons.2 ⟨hname, hnames⟩, hmode⟩
    · rw [← hparts, List.map_flatMap, List.flatMap_def]
      simp [List.map_map, Function.comp_def]

theorem foldl_joinPath {dir : Text} (hdir : dir ≠ []) (q : List Text) :
    q.foldl joinPath dir = joinWith '/' (dir :: q) := by
  induction q generalizing dir with
  | nil => simp [joinWith]
  | cons n q ih =>
    have happend : joinWith '/' ((dir ++ '/' :: n) :: q) =
        dir ++ '/' :: joinWith '/' (n :: q) := by
      cases q with
      | nil => simp [joinWith]
      | cons m q => simp [joinWith_cons_cons]
    rw [List.foldl_cons, joinPath, if_neg hdir, ih (by simp), joinWith_cons_cons, happend]

theorem foldl_joinPath_nil {q : List Text} (hq : ∀ n ∈ q, ValidName n) :
    q.foldl joinPath [] = joinWith '/' q := by
  cases q with
  | nil => rfl
  | cons n q =>
    rw [List.foldl_cons, joinPath, if_pos rfl, foldl_joinPath (hq n List.mem_cons_self).1]

/-- **The walk of a tree** lists its leaves, each once, with their path strings. -/
theorem walk_spec {h : Hash} {L : Leaves Text Entry} (ht : TreeAt P s key full canon h L) :
    ∃ qs, Enumerates L qs ∧ walk P s key h = .ok (qs.map fun x => (joinWith '/' x.1, x.2)) := by
  obtain ⟨qs, hqs, hwalk⟩ := walkInner_spec ht (Nat.lt_succ_of_le ht.ncard_below_le) []
  refine ⟨qs, hqs, hwalk.trans (congrArg _ (List.map_congr_left fun x hx => ?_))⟩
  have hleaf : L x.1 ≠ none := by
    rw [(hqs.mem_iff x.1 x.2).1 hx]
    nofun
  rw [foldl_joinPath_nil (ht.validName hleaf)]

/-- A walk lists the paths of leaves, in the order of the components. -/
theorem walk_paths {root : Hash} {ps : List (Text × Entry)}
    (hwalk : walk P s key root = .ok ps) :
    ((ps.map fun x => x.1.splitOn '/').Pairwise fun p q => compare p q = .lt) ∧
      ∀ x ∈ ps, x.2.mode ≠ .tree ∧ x.1 = joinWith '/' (x.1.splitOn '/') ∧
        ∀ n ∈ x.1.splitOn '/', ValidName n := by
  obtain ⟨qs, hsorted, hlisted, rfl⟩ := walkInner_paths hwalk
  have hparts : ∀ x ∈ qs, (x.1.foldl joinPath []).splitOn '/' = x.1 := by
    intro x hx
    obtain ⟨hne, hnames, -⟩ := hlisted x hx
    rw [foldl_joinPath_nil hnames]
    exact List.splitOn_intercalate '/' (fun n hn => (hnames n hn).2.1) hne
  constructor
  · have hmap : (qs.map fun x => (x.1.foldl joinPath [], x.2)).map
        (fun x : Text × Entry => x.1.splitOn '/') = qs.map Prod.fst := by
      rw [List.map_map]
      exact List.map_congr_left hparts
    rw [hmap]
    exact hsorted
  · intro x hx
    obtain ⟨y, hy, rfl⟩ := List.mem_map.1 hx
    obtain ⟨-, hnames, hmode⟩ := hlisted y hy
    simp only [hparts y hy]
    exact ⟨hmode, foldl_joinPath_nil hnames, hnames⟩

/-- What a walk lists: the leaves, each under a path string that splits to its components. -/
theorem mem_walk_iff {h : Hash} {L : Leaves Text Entry} (ht : TreeAt P s key full canon h L)
    {ps : List (Text × Entry)} (hps : walk P s key h = .ok ps) {path : Text} {e : Entry} :
    (path, e) ∈ ps ↔ ∃ q, L q = some e ∧ path = joinWith '/' q ∧ split P path = .ok q := by
  obtain ⟨qs, hqs, hwalk⟩ := walk_spec ht
  rw [hwalk, Except.ok.injEq] at hps
  subst hps
  simp only [List.mem_map, Prod.mk.injEq]
  constructor
  · rintro ⟨⟨q, l⟩, hmem, rfl, rfl⟩
    have hq := (hqs.mem_iff q l).1 hmem
    exact ⟨q, hq, rfl, split_joinWith (ht.validName (by rw [hq]; nofun))⟩
  · rintro ⟨q, hq, rfl, -⟩
    exact ⟨(q, e), (hqs.mem_iff q e).2 hq, rfl, rfl⟩

/-- No path is listed twice. -/
theorem nodup_walk {h : Hash} {L : Leaves Text Entry} (ht : TreeAt P s key full canon h L)
    {ps : List (Text × Entry)} (hps : walk P s key h = .ok ps) : (ps.map Prod.fst).Nodup := by
  obtain ⟨qs, hqs, hwalk⟩ := walk_spec ht
  rw [hwalk, Except.ok.injEq] at hps
  subst hps
  have hmap : (qs.map fun x => (joinWith '/' x.1, x.2)).map Prod.fst =
      (qs.map Prod.fst).map (joinWith '/') := by
    simp [List.map_map, Function.comp_def]
  have hsplit : ∀ q ∈ qs.map Prod.fst, split P (joinWith '/' q) = .ok q := fun q hq => by
    obtain ⟨⟨q, e⟩, hmem, rfl⟩ := List.mem_map.1 hq
    exact split_joinWith (ht.validName (by rw [(hqs.mem_iff q e).1 hmem]; nofun))
  rw [hmap]
  refine hqs.nodup.map_on fun q hq r hr heq => ?_
  have := (hsplit q hq).symm.trans ((congrArg (split P) heq).trans (hsplit r hr))
  exact Except.ok.inj this

end Omp
