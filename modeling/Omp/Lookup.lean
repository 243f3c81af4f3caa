import Omp.Walk

/-!
# Walking and looking up

The walk of a tree and the lookup of a path are two recursions over the same subtrees.  They agree
on every tree that writes and deletions build: what the walk lists is what a lookup finds, and a
directory is where a listed path goes on.

A path is looked up without the slashes at its ends, and listed without them.

## Main definitions

* `Reachable` : the trees at and below an address.
* `StrictlyBelow` : a path whose components go on where those of another one end.

## Main results

* `split_eq_ok` : which paths have which components.
* `TreeAt.getAt_leaf_iff`, `RootAt.getAt_dir_iff` : a lookup against the walk.
* `walk_agrees` : both, with the order of the walk, for every tree that is reachable.
-/

namespace Omp

open Lib

variable {P : Platform} {s s' : Store} {key : Option Key} {full canon : Prop}

/-! ### Paths -/

/-- **The components of a path** are what it is joined from, once the slashes at its ends are off. -/
theorem split_eq_ok {path : Text} {parts : List Text} :
    split P path = .ok parts ↔
      trimMatches '/' path = joinWith '/' parts ∧ ∀ n ∈ parts, '/' ∉ n ∧ ¬ BadComponent n := by
  constructor
  · intro h
    refine ⟨?_, fun n hn => ⟨(of_mem_split h hn).1, (of_mem_split h hn).2.1⟩⟩
    simp only [split] at h
    split_ifs at h with hempty
    · cases h
      rw [hempty]
      rfl
    · rw [Except.ok.injEq] at h
      subst h
      exact (List.intercalate_splitOn '/').symm
  · rintro ⟨htrim, hparts⟩
    rw [split, htrim]
    by_cases hne : parts = []
    · subst hne
      rfl
    have hsplit : (joinWith '/' parts).splitOn '/' = parts :=
      List.splitOn_intercalate '/' (fun n hn => (hparts n hn).1) hne
    have hempty : joinWith '/' parts ≠ [] := by
      intro h
      rw [h, List.splitOn_nil] at hsplit
      have hbad : ¬ BadComponent [] := (hparts [] (by simp [← hsplit])).2
      exact hbad (.inl rfl)
    rw [if_neg hempty]
    simp only [hsplit]
    rw [if_neg]
    rintro ⟨n, hn, hbad⟩
    exact (hparts n hn).2 hbad

theorem of_validName {n : Text} (h : ValidName n) : '/' ∉ n ∧ ¬ BadComponent n :=
  ⟨h.2.1, not_or.2 ⟨h.1, not_or.2 ⟨h.2.2.2.1, h.2.2.2.2⟩⟩⟩

variable (P) in
/-- The components of the second path go on where those of the first end. -/
def StrictlyBelow (path q : Text) : Prop :=
  ∃ parts rest, split P path = .ok parts ∧ rest ≠ [] ∧ split P q = .ok (parts ++ rest)

variable (P s key) in
/-- The trees at and below an address. -/
def Reachable (root h : Hash) : Prop := Relation.ReflTransGen (HasSubtree P s key) root h

theorem RootAt.of_hasSubtree {h g : Hash} {L : Leaves Text Entry}
    (hr : RootAt P s key full canon (some h) L) (hg : HasSubtree P s key h g) :
    ∃ M, RootAt P s key full canon (some g) M := by
  obtain ⟨t, sub, hload, -, hnode, -⟩ := hr.1.exists_node
  obtain ⟨t', n, e, hload', hn, hm, rfl⟩ := hg
  rw [hload, Except.ok.injEq] at hload'
  subst hload'
  exact ⟨sub n, (hnode n e hn).2 hm⟩

theorem RootAt.of_reachable {h g : Hash} {L : Leaves Text Entry}
    (hr : RootAt P s key full canon (some h) L) (hg : Reachable P s key h g) :
    ∃ M, RootAt P s key full canon (some g) M := by
  induction hg with
  | refl => exact ⟨L, hr⟩
  | tail _ hstep ih =>
    obtain ⟨M, hM⟩ := ih
    exact hM.of_hasSubtree hstep

/-! ### A lookup against the walk -/

/-- A lookup finds a leaf where the walk lists it. -/
theorem TreeAt.getAt_leaf_iff {h : Hash} {L : Leaves Text Entry}
    (ht : TreeAt P s key full canon h L) {ps : List (Text × Entry)}
    (hps : walk P s key h = .ok ps) {path : Text} {e : Entry} :
    e.mode ≠ .tree ∧ getAt P s key path h = .ok (some e) ↔ (trimMatches '/' path, e) ∈ ps := by
  rw [mem_walk_iff ht hps]
  constructor
  · rintro ⟨hmode, hget⟩
    have hget' := hget
    obtain ⟨parts, hsplit, -⟩ := except_bind_eq_ok.1 hget
    have hne : parts ≠ [] := by
      rintro rfl
      simp only [getAt, hsplit, bind, Except.bind, if_pos] at hget
      cases hget
      exact hmode rfl
    obtain ⟨r, hr, hreads⟩ := getAt_spec hsplit hne ht
    rw [hget', Except.ok.injEq] at hr
    subst hr
    have hleaf : L parts = some e := hreads.leaf_iff.2 ⟨rfl, hmode⟩
    have htrim := (split_eq_ok.1 hsplit).1
    refine ⟨parts, hleaf, htrim, ?_⟩
    rw [htrim]
    exact split_joinWith (ht.validName (by simp [hleaf]))
  · rintro ⟨q, hq, htrim, -⟩
    have hvalid := ht.validName (q := q) (by simp [hq])
    have hsplit : split P path = .ok q :=
      split_eq_ok.2 ⟨htrim, fun n hn => of_validName (hvalid n hn)⟩
    have hne : q ≠ [] := by
      rintro rfl
      rw [ht.nil] at hq
      cases hq
    obtain ⟨r, hr, hreads⟩ := getAt_spec hsplit hne ht
    obtain ⟨rfl, hmode⟩ := hreads.leaf_iff.1 hq
    exact ⟨hmode, hr⟩

/-- A lookup finds a directory where the path of a leaf goes on. -/
theorem RootAt.getAt_dir_iff {h : Hash} {L : Leaves Text Entry}
    (hr : RootAt P s key True canon (some h) L) {ps : List (Text × Entry)}
    (hps : walk P s key h = .ok ps) {path : Text} :
    (∃ g, getAt P s key path h = .ok (some ⟨.tree, g⟩)) ↔
      ∃ q ∈ ps.map Prod.fst, StrictlyBelow P path q := by
  -- what is listed, by components
  have hlisted : ∀ q rs, split P q = .ok rs → q ∈ ps.map Prod.fst → L rs ≠ none := by
    intro q rs hsplit hmem
    obtain ⟨⟨q, e⟩, hx, rfl⟩ := List.mem_map.1 hmem
    obtain ⟨rs', hleaf, -, hsplit'⟩ := (mem_walk_iff hr.1 hps).1 hx
    rw [hsplit, Except.ok.injEq] at hsplit'
    rw [hsplit', hleaf]
    exact Option.some_ne_none e
  have hlist : ∀ rs, L rs ≠ none → ∃ q ∈ ps.map Prod.fst, split P q = .ok rs := by
    intro rs hne
    obtain ⟨e, he⟩ := Option.ne_none_iff_exists'.1 hne
    have hsplit := split_joinWith (P := P) (hr.1.validName hne)
    exact ⟨_, List.mem_map_of_mem ((mem_walk_iff hr.1 hps).2 ⟨rs, he, rfl, hsplit⟩), hsplit⟩
  cases hsplit : split P path with
  | error e =>
    refine iff_of_false ?_ ?_
    · rintro ⟨g, hg⟩
      simp [getAt, hsplit, bind, Except.bind] at hg
    · rintro ⟨q, -, parts, rest, hsplit', -⟩
      rw [hsplit] at hsplit'
      cases hsplit'
  | ok parts =>
    by_cases hne : parts = []
    · subst hne
      -- the tree itself is a directory, and it is not empty
      refine iff_of_true ⟨h, by simp [getAt, hsplit, bind, Except.bind]⟩ ?_
      obtain ⟨rs, hrs⟩ := hr.2 trivial
      obtain ⟨q, hq, hq'⟩ := hlist rs hrs
      refine ⟨q, hq, [], rs, hsplit, ?_, hq'⟩
      rintro rfl
      exact hrs hr.1.nil
    · rw [show (∃ g, getAt P s key path h = .ok (some ⟨.tree, g⟩)) ↔ _ from hr.dir_iff hsplit hne]
      -- a path with components leads to a leaf where the leaf map has one
      have hread : ∀ q rs e, split P q = .ok rs → rs ≠ [] →
          (L rs = some e ↔ getAt P s key q h = .ok (some e) ∧ e.mode ≠ .tree) := by
        intro q rs e hq hrs
        obtain ⟨r, hget, hreads⟩ := getAt_spec hq hrs hr.1
        rw [hreads.leaf_iff, hget, Except.ok.injEq]
      constructor
      · rintro ⟨q, rs, e, hq, ⟨rest, rfl⟩, hrest, hmode, hget⟩
        have hleaf := (hread q _ e hq (by simp [hne])).2 ⟨hget, hmode⟩
        obtain ⟨q', hmem, hq'⟩ := hlist (parts ++ rest) (by simp [hleaf])
        exact ⟨q', hmem, parts, rest, hsplit, by simpa using hrest, hq'⟩
      · rintro ⟨q, hmem, parts', rest, hsplit', hrest, hq⟩
        rw [hsplit, Except.ok.injEq] at hsplit'
        subst hsplit'
        obtain ⟨e, he⟩ := Option.ne_none_iff_exists'.1 (hlisted q _ hq hmem)
        obtain ⟨hget, hmode⟩ := (hread q _ e hq (by simp [hne])).1 he
        exact ⟨q, _, e, hq, List.prefix_append parts rest, by simpa using hrest, hmode, hget⟩

/-- The leaves that are found from an address by way of its entries are those that are listed. -/
theorem TreeAt.mem_walk_iff_leafUnder {h : Hash} {L : Leaves Text Entry}
    (ht : TreeAt P s key full canon h L) {ps : List (Text × Entry)}
    (hps : walk P s key h = .ok ps) {path : Text} {e : Entry} :
    (path, e) ∈ ps ↔ ∃ q, LeafUnder P s key ⟨.tree, h⟩ q e ∧ path = joinWith '/' q := by
  rw [mem_walk_iff ht hps]
  constructor
  · rintro ⟨q, hq, hpath, -⟩
    exact ⟨q, ht.leafUnder_iff.2 hq, hpath⟩
  · rintro ⟨q, hq, rfl⟩
    have hleaf := ht.leafUnder_iff.1 hq
    exact ⟨q, hleaf, rfl, split_joinWith (ht.validName (by simp [hleaf]))⟩

/-- **The walk and the lookup agree**, on every tree at or below a root that writes and deletions
have built, and in every later state of the store.  The walk lists each leaf once, in the order of
the components; a path leads to a leaf that is listed, or to a directory where a listed path goes
on, or nowhere. -/
theorem walk_agrees (hP : key ≠ none → P.AeadLawful) {ops : List PathOp}
    (hops : ∀ op ∈ ops, op.Clean key) {root : Hash}
    (hrun : (PathOp.runAll P key ops).run s = (.ok (some root), s')) (hcf : s'.CollisionFree P)
    {h : Hash} (hh : Reachable P s' key root h) :
    ∃ ps : List (Text × Entry), (ps.map Prod.fst).Nodup ∧
      ((ps.map fun x => x.1.splitOn '/').Pairwise fun p q => compare p q = .lt) ∧
      ∀ s'', s' ≤ s'' →
        walk P s'' key h = .ok ps ∧
        (∀ path e, (path, e) ∈ ps ↔
          ∃ q, LeafUnder P s'' key ⟨.tree, h⟩ q e ∧ path = joinWith '/' q) ∧
        (∀ path e, e.mode ≠ .tree ∧ getAt P s'' key path h = .ok (some e) ↔
          (trimMatches '/' path, e) ∈ ps) ∧
        ∀ path, (∃ g, getAt P s'' key path h = .ok (some ⟨.tree, g⟩)) ↔
          ∃ q ∈ ps.map Prod.fst, StrictlyBelow P path q := by
  obtain ⟨L, hL⟩ := exists_rootAt_of_runAll hP hops hrun hcf
  obtain ⟨M, hM⟩ := hL.of_reachable hh
  obtain ⟨qs, -, hwalk⟩ := walk_spec hM.1
  refine ⟨_, nodup_walk hM.1 hwalk, (walk_paths hwalk).1, fun s'' hle => ?_⟩
  have hwalk' := walk_mono hle hwalk
  have hM' := hM.mono hle
  exact ⟨hwalk', fun path e => hM'.1.mem_walk_iff_leafUnder hwalk',
    fun path e => hM'.1.getAt_leaf_iff hwalk', fun path => hM'.getAt_dir_iff hwalk'⟩

theorem walk_agrees_demo :
    ∃ root ps, demoBuilt = (.ok (some root), demoBuilt.2) ∧
      walk demo demoBuilt.2 none root = .ok ps ∧
      ("a/b".toList, ⟨.blob, Hash.ofNat 1⟩) ∈ ps := by
  have hrun : demoBuilt =
      (.ok (some (demoBuilt.1.toOption.join.getD (Hash.ofNat 0))), demoBuilt.2) :=
    eq_mk_of_fst_eq (by decide +kernel)
  have hops : ∀ op ∈ demoOps, op.Clean none := by
    simp only [demoOps, List.forall_mem_cons]
    exact ⟨⟨by decide, fun _ => by decide +kernel⟩, ⟨by decide, fun _ => by decide +kernel⟩,
      fun _ => by decide +kernel, by simp⟩
  obtain ⟨ps, -, -, hps⟩ := walk_agrees (fun h => absurd rfl h) hops hrun (by decide +kernel) .refl
  obtain ⟨hwalk, -, hleaf, -⟩ := hps _ le_rfl
  have hget : getAt demo demoBuilt.2 none "a/b".toList
      (demoBuilt.1.toOption.join.getD (Hash.ofNat 0)) = .ok (some ⟨.blob, Hash.ofNat 1⟩) := by
    decide +kernel
  have htrim : trimMatches '/' "a/b".toList = "a/b".toList := by decide +kernel
  exact ⟨_, ps, hrun, hwalk, htrim ▸ (hleaf _ _).1 ⟨by decide, hget⟩⟩

end Omp
