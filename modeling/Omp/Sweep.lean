import Omp.LiveSet
import Omp.Log
import Omp.Views

/-!
# After a sweep

What is not in the live set may be taken away.  A store that has kept the rest reads the same at
every commit that is reached from the roots: its trees and files, the listings, the queries, the
differences and the log.  The one condition is about commits: the collector follows the tree that
the last tree header of a commit names, what reads a commit takes the first, so the two must be the
same.

## Main definitions

* `LiveSet.contains` : what must be kept.
* `KeptBy` : a store that has kept it.
* `OneTree` : a commit whose tree headers name one tree.
* `Repo.Anchored` : an expression that starts at a commit that is kept.
* `Repo.SameReads` : what reads a repository.

## Main results

* `walk_of_kept` : the trees of live commits are walked as before.
* `Repo.sameReads_of_sweep` : so is all that is read of live commits.
* `Repo.showEncrypted_of_sweep` : so are sealed files, after a sweep with the keys.
-/

namespace Omp

open Lib Marking

/-- `LiveSet::contains`. -/
def LiveSet.contains (live : LiveSet) (h : Hash) : Bool :=
  h ∈ live.commits || h ∈ live.trees || h ∈ live.manifests || h ∈ live.chunksObjects ||
    h ∈ live.blobs || h ∈ live.shares

/-- `LiveSet::total`. -/
def LiveSet.total (live : LiveSet) : Nat :=
  live.commits.card + live.trees.card + live.manifests.card + live.chunksObjects.card +
    live.blobs.card + live.shares.card

/-- A store that has kept what is live in another. -/
def KeptBy (P : Platform) (live : LiveSet) (s t : Store) : Prop :=
  ∀ h, live.contains h = true → t.get P h = s.get P h

/-! ### Headers -/

namespace Commit

variable {P : Platform}

/-- What is known of a commit that the collector reads. -/
theorem headers_of_parseCommitHeaders {bytes : Bytes} {d : Commit}
    (h : parseCommitHeaders P bytes = .ok d) :
    ∃ s body, fromUtf8 bytes = some s ∧
      readHeaders P (s.splitOn '\n') ⟨none, [], none⟩ =
        .ok (⟨some d.tree, d.parents, some d.author⟩, body) := by
  unfold parseCommitHeaders at h
  split at h
  · next m hparse =>
    -- the message is sealed, so the headers were read
    cases hs : fromUtf8 bytes with
    | none => rw [hs] at h; cases h
    | some s =>
      rw [hs] at h
      rw [parseWithCommitKey, hs] at hparse
      rcases except_bind_eq_error.1 hparse with hread | ⟨⟨hds, body⟩, hread, -⟩
      · exact absurd hread (readHeaders_ne _ _ m)
      refine ⟨s, body, rfl, ?_⟩
      obtain ⟨body', hlines⟩ := readHeaders_lines (fun _ => not_mem_of_mem_splitOn) hread
      rw [joinWith_splitOn] at hlines
      obtain ⟨hds', hhds, h⟩ := except_bind_eq_ok.1 h
      cases (readHeaderLines_of_readHeaders hlines).symm.trans hhds
      rw [hread]
      obtain ⟨tree, parents, author⟩ := hds
      cases tree with
      | none => cases h
      | some tree =>
        cases author with
        | none => cases h
        | some author =>
          cases h
          rfl
  · exact headers_of_parse h

/-- **When the first tree header of a commit names the tree that the collector follows.** -/
theorem treeHeader_iff {bytes : Bytes} {d : Commit} (h : parseCommitHeaders P bytes = .ok d)
    (commit : Hash) :
    treeHeader P commit bytes = .ok d.tree ↔
      (headerTrees P bytes).head? = (headerTrees P bytes).getLast? := by
  obtain ⟨s, body, hutf8, hread⟩ := headers_of_parseCommitHeaders h
  obtain ⟨body', hlines⟩ := readHeaders_lines (fun _ => not_mem_of_mem_splitOn) hread
  rw [joinWith_splitOn] at hlines
  obtain ⟨hlast, hfirst⟩ := trees_of_readHeaders hlines commit
  rw [treeHeader_of_fromUtf8 hutf8, hfirst, headerTrees, hutf8]
  dsimp only at hlast ⊢
  rw [Option.or_none] at hlast
  generalize treesOfLines P (lines s) = trees at hlast ⊢
  cases trees with
  | nil => cases hlast
  | cons t ts => rw [← hlast, List.head?_cons, firstTree, Except.ok.injEq, Option.some.injEq]

end Commit

/-- The tree headers of a commit name one tree. -/
def OneTree (W : World) (s : Store) (c : Hash) : Prop :=
  ∀ content, Repo.getCommit W s c = .ok content →
    (Commit.headerTrees W.toPlatform content).head? =
      (Commit.headerTrees W.toPlatform content).getLast?

/-! ### Walks that end -/

section Fuel

variable {P : Platform} {s : Store} {key : Option Key}

/-- The walk of a tree is also one of its subtrees. -/
theorem walkInner_of_hasSubtree {n : Nat} {dir : Text} {h g : Hash} {ps : List (Text × Entry)}
    (hwalk : walkInner P s key (n + 1) dir h = .ok ps) (hg : HasSubtree P s key h g) :
    ∃ dir' ps', walkInner P s key n dir' g = .ok ps' := by
  obtain ⟨t', m, e, hload, hget, hmode, rfl⟩ := hg
  rw [walkInner] at hwalk
  obtain ⟨t, ht, hwalk⟩ := except_bind_eq_ok.1 hwalk
  obtain ⟨parts, hparts, -⟩ := except_bind_eq_ok.1 hwalk
  cases (mapError_eq_ok.1 ht).symm.trans hload
  obtain ⟨qs, hqs, -⟩ := exists_of_mapM hparts (Tree.mem_toList.2 hget)
  rw [if_pos hmode] at hqs
  exact ⟨_, qs, hqs⟩

/-- **Below a tree whose walk ends there is no infinite chain.** -/
theorem acc_of_walkInner {n : Nat} {dir : Text} {h : Hash} {ps : List (Text × Entry)}
    (hwalk : walkInner P s key n dir h = .ok ps) : Acc (fun g h => HasSubtree P s key h g) h := by
  induction n generalizing dir h ps with
  | zero => cases hwalk
  | succ n ih =>
    refine Acc.intro h fun g hg => ?_
    obtain ⟨dir', ps', hsub⟩ := walkInner_of_hasSubtree hwalk hg
    exact ih hsub

theorem not_mem_below_of_acc {h : Hash} (hacc : Acc (fun g h => HasSubtree P s key h g) h) :
    h ∉ hashesBelow P s key h := by
  induction hacc with
  | intro h _ ih =>
    intro hcyc
    obtain ⟨g, hg, hback⟩ := Relation.TransGen.head'_iff.1 hcyc
    exact ih g hg (Relation.TransGen.tail' hback hg)

/-- A tree that is walked is stored. -/
theorem stored_of_walkInner {n : Nat} {dir : Text} {h : Hash} {ps : List (Text × Entry)}
    (hwalk : walkInner P s key n dir h = .ok ps) : h ∈ s.objects.map (Object.address P) := by
  cases n with
  | zero => cases hwalk
  | succ n =>
    rw [walkInner] at hwalk
    obtain ⟨t, ht, -⟩ := except_bind_eq_ok.1 hwalk
    rw [mapError_eq_ok, loadTree] at ht
    cases ho : s.get P h with
    | none => rw [ho] at ht; cases ht
    | some o => exact List.mem_map.2 ⟨o, Cas.find_eq_some ho⟩

/-- All trees below it are. -/
theorem below_stored {n : Nat} {dir : Text} {h : Hash} {ps : List (Text × Entry)}
    (hwalk : walkInner P s key n dir h = .ok ps) :
    ∀ g ∈ hashesBelow P s key h, g ∈ s.objects.map (Object.address P) := by
  induction n generalizing dir h ps with
  | zero => cases hwalk
  | succ n ih =>
    intro g hg
    obtain ⟨f, hf, hfg⟩ := Relation.TransGen.head'_iff.1 hg
    obtain ⟨dir', ps', hsub⟩ := walkInner_of_hasSubtree hwalk hf
    rcases Relation.reflTransGen_iff_eq_or_transGen.1 hfg with rfl | hfg
    · exact stored_of_walkInner hsub
    · exact ih hsub g hfg

/-- **A walk that ends** needs no more fuel than there are trees below. -/
theorem walkInner_of_ends {n : Nat} {dir : Text} {h : Hash} {ps : List (Text × Entry)}
    (hwalk : walkInner P s key n dir h = .ok ps) {m : Nat}
    (hm : (hashesBelow P s key h).ncard < m) : walkInner P s key m dir h = .ok ps := by
  induction n generalizing m dir h ps with
  | zero => cases hwalk
  | succ n ih =>
    obtain ⟨m, rfl⟩ : ∃ k, m = k + 1 := ⟨m - 1, by omega⟩
    have hacc := acc_of_walkInner hwalk
    rw [walkInner] at hwalk ⊢
    obtain ⟨t, ht, hwalk⟩ := except_bind_eq_ok.1 hwalk
    obtain ⟨parts, hparts, hwalk⟩ := except_bind_eq_ok.1 hwalk
    refine except_bind_eq_ok.2 ⟨t, ht, except_bind_eq_ok.2 ⟨parts, ?_, hwalk⟩⟩
    refine mapM_mono (fun p hp l hl => ?_) hparts
    split_ifs at hl ⊢ with hmode
    · -- fewer trees are below the subtree
      have hsub : HasSubtree P s key h p.2.hash :=
        ⟨t, p.1, p.2, mapError_eq_ok.1 ht, Tree.mem_toList.1 hp, hmode, rfl⟩
      refine ih hl (lt_of_lt_of_le ?_ (Nat.le_of_lt_succ hm))
      refine Set.ncard_lt_ncard ⟨fun f hf => .head hsub hf, fun hle => ?_⟩ (Set.toFinite _)
      exact not_mem_below_of_acc (hacc.inv hsub) (hle (.single hsub))
    · exact hl

/-- With one more than the objects of the store, a walk ends if it ends at all. -/
theorem walk_of_ends {n : Nat} {root : Hash} {ps : List (Text × Entry)}
    (hwalk : walkInner P s key n [] root = .ok ps) : walk P s key root = .ok ps := by
  refine walkInner_of_ends hwalk (Nat.lt_succ_of_le ?_)
  calc (hashesBelow P s key root).ncard
      ≤ {g | g ∈ s.objects.map (Object.address P)}.ncard :=
        Set.ncard_le_ncard (below_stored hwalk) (List.finite_toSet _)
    _ = (s.objects.map (Object.address P)).toFinset.card := by
        rw [← Set.ncard_coe_finset, List.coe_toFinset]
    _ ≤ (s.objects.map (Object.address P)).length := List.toFinset_card_le _
    _ = s.objects.length := List.length_map _

end Fuel

/-! ### What is live -/

namespace Gc

/-- The address of a node. -/
def Node.address : Node → Hash
  | .commit h | .tree h | .manifest h | .chunksObject h | .blob h => h

variable {K : KeyedWorld} {keys : Option TenantKeys} {s : Store} {roots shares : List Hash}
  {live : LiveSet}

theorem contains_of_marked {x : Node} (hx : live.Marked x) : live.contains x.address = true := by
  cases x <;> simp only [LiveSet.Marked] at hx <;> simp [LiveSet.contains, Node.address, hx]

/-- **What a live node names is live.** -/
theorem Exact.closed (h : Exact K keys s roots shares live) {x : Node} (hx : live.Marked x) :
    ∃ l, links K keys s x = .ok l ∧ ∀ y ∈ l, live.Marked y := by
  have hmem : x ∈ live.marks := hx
  obtain ⟨l, hl⟩ := legible_iff.1 (h.legible x hmem)
  refine ⟨l, hl, fun y hy => ?_⟩
  rw [h.marks] at hmem
  obtain ⟨c, hc, hreach⟩ := hmem
  have hy' : y ∈ live.marks := by
    rw [h.marks]
    refine ⟨c, hc, hreach.tail ?_⟩
    rwa [succOf_of_eq (graph_eq_some.2 hl)]
  exact hy'

theorem Exact.root (h : Exact K keys s roots shares live) {c : Hash} (hc : c ∈ roots) :
    c ∈ live.commits := by
  have hmem : Node.commit c ∈ live.marks := by
    rw [h.marks]
    exact ⟨c, hc, .refl⟩
  exact hmem

/-- The tree and the parents of a live commit are live. -/
theorem Exact.commit (h : Exact K keys s roots shares live) {c : Hash} (hc : c ∈ live.commits) :
    ∃ content d, Repo.getCommit K.toWorld s c = .ok content ∧
      Commit.parseCommitHeaders K.toPlatform content = .ok d ∧ d.tree ∈ live.trees ∧
      ∀ p ∈ d.parents, p ∈ live.commits := by
  obtain ⟨l, hl, hmarked⟩ := h.closed (x := .commit c) hc
  obtain ⟨content, hcontent, hl⟩ := except_bind_eq_ok.1 hl
  obtain ⟨d, hd, hl⟩ := except_bind_eq_ok.1 hl
  cases hl
  refine ⟨content, d, ?_, hd, hmarked (.tree d.tree) List.mem_cons_self, fun p hp => ?_⟩
  · unfold fetch at hcontent
    unfold Repo.getCommit
    cases ho : s.get K.toPlatform c with
    | none =>
      rw [ho] at hcontent
      cases hcontent
    | some o =>
      rw [ho] at hcontent
      dsimp only at hcontent ⊢
      split_ifs at hcontent with htype
      rw [if_pos htype]
      exact hcontent
  · exact hmarked (.commit p) (List.mem_cons_of_mem _ (List.mem_map_of_mem (List.mem_reverse.2 hp)))

/-- A live tree is loaded with the collector's key, and its entries are live. -/
theorem Exact.tree (h : Exact K keys s roots shares live) {g : Hash} (hg : g ∈ live.trees) :
    ∃ t, loadTree K.toPlatform s (keys.map TenantKeys.pathKey) g = .ok t ∧
      ∀ n e, t.get n = some e → live.Marked (entryNode e) := by
  obtain ⟨l, hl, hmarked⟩ := h.closed (x := .tree g) hg
  obtain ⟨content, hcontent, hl⟩ := except_bind_eq_ok.1 hl
  obtain ⟨t, ht, hl⟩ := except_bind_eq_ok.1 hl
  cases hl
  refine ⟨t, ?_, fun n e he => hmarked _ (List.mem_map.2 ⟨(n, e), Tree.mem_toList.2 he, rfl⟩)⟩
  unfold fetch at hcontent
  unfold loadTree
  cases ho : s.get K.toPlatform g with
  | none =>
    rw [ho] at hcontent
    cases hcontent
  | some o =>
    rw [ho] at hcontent
    dsimp only at hcontent ⊢
    split_ifs at hcontent with htype
    cases hcontent
    rw [if_pos htype, ht]

/-- The source of a live manifest is live, if the manifest can be opened. -/
theorem Exact.source (h : Exact K keys s roots shares live) {g : Hash} (hg : g ∈ live.manifests)
    {o : Object} (ho : s.get K.toPlatform g = some o) {m : Manifest}
    (hm : readManifest K keys o.content = .ok (some m)) :
    ∃ source, sourceAt K s m.sourceHash = .ok source ∧ live.Marked source := by
  obtain ⟨l, hl, hmarked⟩ := h.closed (x := .manifest g) hg
  obtain ⟨content, hcontent, hl⟩ := except_bind_eq_ok.1 hl
  unfold fetch at hcontent
  rw [ho] at hcontent
  dsimp only at hcontent
  split_ifs at hcontent
  cases hcontent
  obtain ⟨m', hm', hl⟩ := except_bind_eq_ok.1 hl
  cases hm.symm.trans hm'
  obtain ⟨source, hsource, hl⟩ := except_bind_eq_ok.1 hl
  cases hl
  exact ⟨source, hsource, hmarked source (List.mem_append_right _ (List.mem_singleton_self source))⟩

theorem address_of_sourceAt {h : Hash} {source : Node} (hsource : sourceAt K s h = .ok source) :
    source.address = h := by
  unfold sourceAt at hsource
  split at hsource
  · cases hsource
  · cases hsource
    rfl
  · cases hsource
    rfl
  · cases hsource

theorem readManifest_of_parse {bytes : Bytes} {m : Manifest}
    (hm : Manifest.parse K.toWorld bytes = .ok m) : readManifest K keys bytes = .ok (some m) := by
  unfold readManifest
  rw [hm]

end Gc

/-! ### Trees that are kept -/

theorem mapM_congr {ε α β : Type} {f g : α → Except ε β} {l : List α} (h : ∀ a ∈ l, f a = g a) :
    l.mapM f = l.mapM g := by
  induction l with
  | nil => rfl
  | cons a l ih =>
    obtain ⟨ha, hl⟩ := List.forall_mem_cons.1 h
    rw [List.mapM_cons, List.mapM_cons, ha, ih hl]

section Kept

open Gc

variable {K : KeyedWorld} {keys : Option TenantKeys} {s t : Store} {roots shares : List Hash}
  {live : LiveSet}

theorem get_of_marked (hkept : KeptBy K.toPlatform live s t) {x : Gc.Node} (hx : live.Marked x) :
    t.get K.toPlatform x.address = s.get K.toPlatform x.address :=
  hkept _ (contains_of_marked hx)

theorem loadTree_of_kept (hkept : KeptBy K.toPlatform live s t) {g : Hash} (hg : g ∈ live.trees)
    (key : Option Key) : loadTree K.toPlatform t key g = loadTree K.toPlatform s key g := by
  have hget : t.get K.toPlatform g = s.get K.toPlatform g := get_of_marked hkept (x := .tree g) hg
  unfold loadTree
  rw [hget]

variable (hlive : Gc.Exact K keys s roots shares live) (hkept : KeptBy K.toPlatform live s t)
include hlive hkept

/-- **A path is looked up as before**, and what is found is live. -/
theorem getParts_of_kept (parts : List Text) {T : Tree}
    (hT : ∀ n e, T.get n = some e → live.Marked (entryNode e)) :
    getParts K.toPlatform t (keys.map TenantKeys.pathKey) T parts =
      getParts K.toPlatform s (keys.map TenantKeys.pathKey) T parts ∧
    ∀ e, getParts K.toPlatform s (keys.map TenantKeys.pathKey) T parts = .ok (some e) →
      live.Marked (entryNode e) := by
  induction parts generalizing T with
  | nil => exact ⟨rfl, fun _ h => by cases h⟩
  | cons part rest ih =>
    cases rest with
    | nil => exact ⟨rfl, fun e he => hT part e (Except.ok.inj he)⟩
    | cons next rest =>
      rw [getParts, getParts]
      cases he : T.get part with
      | none => exact ⟨rfl, fun _ h => by cases h⟩
      | some e =>
        dsimp only
        split_ifs with hmode
        · have hchild : e.hash ∈ live.trees := by
            have hmarked := hT part e he
            simp only [entryNode, hmode] at hmarked
            exact hmarked
          obtain ⟨T', hload, hT'⟩ := hlive.tree hchild
          rw [loadTree_of_kept hkept hchild, hload]
          exact ih hT'
        · exact ⟨rfl, fun _ h => by cases h⟩

theorem getAt_of_keptBy {root : Hash} (hroot : root ∈ live.trees) (path : Text) :
    getAt K.toPlatform t (keys.map TenantKeys.pathKey) path root =
      getAt K.toPlatform s (keys.map TenantKeys.pathKey) path root ∧
    ∀ e, getAt K.toPlatform s (keys.map TenantKeys.pathKey) path root = .ok (some e) →
      live.Marked (entryNode e) := by
  unfold getAt
  cases hsplit : split K.toPlatform path with
  | error e => exact ⟨rfl, fun _ h => by cases h⟩
  | ok parts =>
    dsimp only [bind, Except.bind]
    split_ifs
    · refine ⟨rfl, fun e he => ?_⟩
      cases he
      exact hroot
    · obtain ⟨T, hload, hT⟩ := hlive.tree hroot
      rw [loadTree_of_kept hkept hroot, hload]
      exact getParts_of_kept hlive hkept parts hT

/-- **The walk of a live tree takes the same steps**, and lists what is live. -/
theorem walkInner_of_kept (n : Nat) (dir : Text) {h : Hash} (hh : h ∈ live.trees) :
    walkInner K.toPlatform t (keys.map TenantKeys.pathKey) n dir h =
      walkInner K.toPlatform s (keys.map TenantKeys.pathKey) n dir h ∧
    (∀ ps, walkInner K.toPlatform s (keys.map TenantKeys.pathKey) n dir h = .ok ps →
      ∀ p ∈ ps, live.Marked (entryNode p.2)) ∧
    ∀ e, walkInner K.toPlatform s (keys.map TenantKeys.pathKey) n dir h ≠ .error (.err e) := by
  induction n generalizing dir h with
  | zero => exact ⟨rfl, (fun _ h => by cases h), (fun _ h => by cases h)⟩
  | succ n ih =>
    obtain ⟨T, hload, hT⟩ := hlive.tree hh
    rw [walkInner, walkInner, loadTree_of_kept hkept hh, hload]
    have hentry : ∀ p ∈ T.entries.toList, live.Marked (entryNode p.2) := fun p hp =>
      hT p.1 p.2 (Tree.mem_toList.1 hp)
    have hchild : ∀ p ∈ T.entries.toList, p.2.mode = .tree → p.2.hash ∈ live.trees := by
      intro p hp hmode
      have hmarked := hentry p hp
      simp only [entryNode, hmode] at hmarked
      exact hmarked
    have hsame : ∀ p ∈ T.entries.toList,
        (if p.2.mode = .tree then walkInner K.toPlatform t (keys.map TenantKeys.pathKey) n
            (joinPath dir p.1) p.2.hash else .ok [(joinPath dir p.1, p.2)]) =
          if p.2.mode = .tree then walkInner K.toPlatform s (keys.map TenantKeys.pathKey) n
            (joinPath dir p.1) p.2.hash else .ok [(joinPath dir p.1, p.2)] := by
      intro p hp
      split_ifs with hmode
      · exact (ih _ (hchild p hp hmode)).1
      · rfl
    refine ⟨?_, fun ps hps p hp => ?_, fun e he => ?_⟩
    · dsimp only [Except.mapError, bind, Except.bind]
      rw [mapM_congr hsame]
    · obtain ⟨T', ⟨⟩, hps⟩ := except_bind_eq_ok.1 hps
      obtain ⟨parts, hparts, hps⟩ := except_bind_eq_ok.1 hps
      cases hps
      obtain ⟨l, hl, hp⟩ := List.mem_flatten.1 hp
      obtain ⟨q, hq, hwalk⟩ := exists_mem_of_mapM hparts hl
      split_ifs at hwalk with hmode
      · exact (ih _ (hchild q hq hmode)).2.1 l hwalk p hp
      · cases hwalk
        rw [List.mem_singleton.1 hp]
        exact hentry q hq
    · rcases except_bind_eq_error.1 he with he | ⟨T', ⟨⟩, he⟩
      · cases he
      rcases except_bind_eq_error.1 he with he | ⟨parts, -, he⟩
      · obtain ⟨q, hq, hwalk⟩ := exists_of_mapM_error he
        split_ifs at hwalk with hmode
        · exact (ih _ (hchild q hq hmode)).2.2 e hwalk
      · cases he

/-- **A live tree is walked as before.** -/
theorem walk_of_kept {root : Hash} (hroot : root ∈ live.trees) :
    walk K.toPlatform t (keys.map TenantKeys.pathKey) root =
      walk K.toPlatform s (keys.map TenantKeys.pathKey) root := by
  have hinner := fun n => walkInner_of_kept hlive hkept n [] hroot
  cases hs : walk K.toPlatform s (keys.map TenantKeys.pathKey) root with
  | ok ps => exact walk_of_ends ((hinner _).1.trans hs)
  | error f =>
    cases ht : walk K.toPlatform t (keys.map TenantKeys.pathKey) root with
    | ok ps => cases hs.symm.trans (walk_of_ends ((hinner _).1.symm.trans ht))
    | error f' =>
      cases f with
      | err e => exact absurd hs ((hinner _).2.2 e)
      | panic =>
        cases f' with
        | err e => exact absurd ((hinner _).1.symm.trans ht) ((hinner _).2.2 e)
        | panic => rfl

theorem marked_of_walk {root : Hash} (hroot : root ∈ live.trees) {ps : List (Text × Entry)}
    (hwalk : walk K.toPlatform s (keys.map TenantKeys.pathKey) root = .ok ps) :
    ∀ p ∈ ps, live.Marked (entryNode p.2) :=
  (walkInner_of_kept hlive hkept _ [] hroot).2.1 ps hwalk

end Kept

/-! ### What is read of a commit -/

/-- The world that views read, without what sealed manifests need. -/
def KeyedWorld.view (K : KeyedWorld) (rawRender : Text → Option (Text × Option Nat)) : ViewWorld :=
  { K.toWorld with rawRender }

@[simp]
theorem KeyedWorld.toWorld_view (K : KeyedWorld) (rawRender : Text → Option (Text × Option Nat)) :
    (K.view rawRender).toWorld = K.toWorld := rfl

namespace Repo

/-- An expression that starts at a live commit; without one, HEAD is a live commit. -/
def Anchored (W : World) (live : LiveSet) (r : Repo) : Option Text → Prop
  | some expr => ∀ c, r.resolveBase W (splitAncestor expr).1 = .ok c → c ∈ live.commits
  | none => ∀ c, r.resolveHead W = .ok (some c) → c ∈ live.commits

/-- What is read at an expression is the same in two repositories. -/
structure SameReads (V : ViewWorld) (r r' : Repo) (at_ : Option Text) : Prop where
  rootTree : r'.rootTree V.toWorld at_ = r.rootTree V.toWorld at_
  shown : ∀ path, r'.show_ V path at_ = r.show_ V path at_
  bytesOf : ∀ path, r'.bytesOf V.toWorld path at_ = r.bytesOf V.toWorld path at_
  ls : ∀ path recursive, r'.ls V path at_ recursive = r.ls V path at_ recursive
  files : ∀ prefix_, r'.files V at_ prefix_ = r.files V at_ prefix_
  page : ∀ q n, r'.page V.toWorld q at_ n = r.page V.toWorld q at_ n
  schemas : ∀ env, r'.listSchemas V env at_ = r.listSchemas V env at_

section Plain

open Gc

variable {K : KeyedWorld} {s t : Store} {roots shares : List Hash} {live : LiveSet}

theorem getCommit_of_kept (hkept : KeptBy K.toPlatform live s t) {c : Hash}
    (hc : c ∈ live.commits) : getCommit K.toWorld t c = getCommit K.toWorld s c := by
  have hget : t.get K.toPlatform c = s.get K.toPlatform c := get_of_marked hkept (x := .commit c) hc
  unfold getCommit
  rw [hget]

variable {keys : Option TenantKeys} (hlive : Gc.Exact K keys s roots shares live)
  (hkept : KeptBy K.toPlatform live s t)
include hlive hkept

/-- **Ancestors of live commits** are found as before, and are live. -/
theorem nthAncestor_of_kept (n : Nat) {c : Hash} (hc : c ∈ live.commits) :
    nthAncestor K.toWorld t c n = nthAncestor K.toWorld s c n ∧
      ∀ h, nthAncestor K.toWorld s c n = .ok h → h ∈ live.commits := by
  induction n generalizing c with
  | zero =>
    refine ⟨rfl, fun h hh => ?_⟩
    cases hh
    exact hc
  | succ n ih =>
    obtain ⟨content, d, hcontent, hd, -, hparents⟩ := hlive.commit hc
    rw [nthAncestor, nthAncestor, getCommit_of_kept hkept hc, hcontent]
    simp only [bind, Except.bind]
    cases hparse : Commit.parse K.toPlatform content with
    | error e => exact ⟨rfl, fun _ h => by cases h⟩
    | ok commit =>
      -- the collector reads the same parents
      rw [← Commit.parseWithCommitKey_none] at hparse
      obtain ⟨d', hd', -, hsame⟩ := Commit.parseCommitHeaders_of_parse hparse
      cases hd.symm.trans hd'
      rw [hsame] at hparents
      dsimp only
      cases hlist : commit.parents with
      | nil => exact ⟨rfl, fun _ h => by cases h⟩
      | cons parent rest => exact ih (hparents parent (hlist ▸ List.mem_cons_self))

/-- **The tree of a live commit** is live, if the commit names one. -/
theorem commitTree_of_kept {c : Hash} (hc : c ∈ live.commits) (hone : OneTree K.toWorld s c) :
    commitTree K.toWorld t c = commitTree K.toWorld s c ∧
      ∀ root, commitTree K.toWorld s c = .ok root → root ∈ live.trees := by
  obtain ⟨content, d, hcontent, hd, htree, -⟩ := hlive.commit hc
  unfold commitTree
  rw [getCommit_of_kept hkept hc, hcontent]
  refine ⟨rfl, fun root hroot => ?_⟩
  cases ((Commit.treeHeader_iff hd c).2 (hone content hcontent)).symm.trans hroot
  exact htree

variable {r : Repo} (hstore : r.store = s)
include hstore

theorem resolveRef_of_kept {expr : Text} (hanchor : r.Anchored K.toWorld live (some expr)) :
    { r with store := t }.resolveRef K.toWorld expr = r.resolveRef K.toWorld expr ∧
      ∀ c, r.resolveRef K.toWorld expr = .ok c → c ∈ live.commits := by
  rw [resolveRef_eq_bind, resolveRef_eq_bind, hstore]
  change (r.resolveBase K.toWorld (splitAncestor expr).1 >>= _) = _ ∧ _
  cases hbase : r.resolveBase K.toWorld (splitAncestor expr).1 with
  | error e => exact ⟨rfl, fun _ h => by cases h⟩
  | ok start => exact nthAncestor_of_kept hlive hkept _ (hanchor start hbase)

variable (hone : ∀ c ∈ live.commits, OneTree K.toWorld s c)
include hone

/-- **The root of what is read** is the same, and live. -/
theorem rootTree_of_kept {at_ : Option Text} (hanchor : r.Anchored K.toWorld live at_) :
    { r with store := t }.rootTree K.toWorld at_ = r.rootTree K.toWorld at_ ∧
      ∀ root, r.rootTree K.toWorld at_ = .ok (some root) → root ∈ live.trees := by
  have hcommit : ∀ c ∈ live.commits, (do
        let root ← commitTree K.toWorld t c
        .ok (some root) : Except OmpError (Option Hash)) = (do
        let root ← commitTree K.toWorld s c
        .ok (some root)) ∧
      ∀ root, (do
        let root ← commitTree K.toWorld s c
        .ok (some root) : Except OmpError (Option Hash)) = .ok (some root) →
        root ∈ live.trees := by
    intro c hc
    obtain ⟨hsame, hroot⟩ := commitTree_of_kept hlive hkept hc (hone c hc)
    rw [hsame]
    refine ⟨rfl, fun root h => ?_⟩
    obtain ⟨root', hroot', h⟩ := except_bind_eq_ok.1 h
    cases h
    exact hroot root hroot'
  cases at_ with
  | some expr =>
    obtain ⟨hsame, hlives⟩ := resolveRef_of_kept hlive hkept hstore hanchor
    unfold rootTree
    dsimp only
    rw [hsame, hstore]
    cases hc : r.resolveRef K.toWorld expr with
    | error e => exact ⟨rfl, fun _ h => by cases h⟩
    | ok c => exact hcommit c (hlives c hc)
  | none =>
    unfold rootTree headTree
    dsimp only
    change (r.resolveHead K.toWorld >>= _) = _ ∧ _
    rw [hstore]
    cases hhead : r.resolveHead K.toWorld with
    | error e => exact ⟨rfl, fun _ h => by cases h⟩
    | ok o =>
      cases o with
      | none => exact ⟨rfl, fun _ h => by cases h⟩
      | some c => exact hcommit c (hanchor c hhead)

end Plain

/-! ### Views of a live tree -/

section Views

open Gc

variable {K : KeyedWorld} {rawRender : Text → Option (Text × Option Nat)} {s t : Store}
  {roots shares : List Hash} {live : LiveSet} (hlive : Gc.Exact K none s roots shares live)
  (hkept : KeptBy K.toPlatform live s t) {root : Hash} (hroot : root ∈ live.trees)

variable (rawRender) in
include hkept in
theorem listTree_of_kept {h : Hash} (hh : h ∈ live.trees) :
    listTree (K.view rawRender) t h = listTree (K.view rawRender) s h := by
  have hget : t.get K.toPlatform h = s.get K.toPlatform h := get_of_marked hkept (x := .tree h) hh
  simp only [listTree, KeyedWorld.toWorld_view, hget]

include hkept in
/-- The bytes below a live manifest are as before. -/
theorem get_source_of_kept (hlive : Gc.Exact K none s roots shares live) {h : Hash}
    (hh : h ∈ live.manifests) {o : Object} (ho : s.get K.toPlatform h = some o) {m : Manifest}
    (hm : Manifest.parse K.toWorld o.content = .ok m) :
    t.get K.toPlatform m.sourceHash = s.get K.toPlatform m.sourceHash := by
  obtain ⟨source, hsource, hmarked⟩ := hlive.source hh ho (readManifest_of_parse hm)
  have hget := get_of_marked hkept hmarked
  rwa [address_of_sourceAt hsource] at hget

include hlive hkept hroot

theorem renderForFileType_of_kept (fileType : Text) :
    renderForFileType (K.view rawRender) t fileType (some root) =
      renderForFileType (K.view rawRender) s fileType (some root) := by
  obtain ⟨hsame, hmarked⟩ := getAt_of_keptBy hlive hkept hroot (schemaPath fileType)
  simp only [Option.map_none] at hsame hmarked
  simp only [renderForFileType, KeyedWorld.toWorld_view]
  rw [hsame]
  cases hfound : getAt K.toPlatform s none (schemaPath fileType) root with
  | error e => rfl
  | ok o =>
    rcases o with _ | ⟨mode, h⟩
    · rfl
    cases mode with
    | blob =>
      have hget : t.get K.toPlatform h = s.get K.toPlatform h :=
        get_of_marked hkept (x := .blob h) (hmarked _ hfound)
      simp only [hget]
    | tree => rfl
    | manifest => rfl

/-- **What is shown** below a live tree is the same. -/
theorem showAt_of_kept (path : Text) :
    showAt (K.view rawRender) t path (some root) = showAt (K.view rawRender) s path (some root) := by
  have hfound : shownEntry (K.view rawRender) t path (some root) =
        shownEntry (K.view rawRender) s path (some root) ∧
      ∀ e, shownEntry (K.view rawRender) s path (some root) = .ok (some e) →
        live.Marked (entryNode e) := by
    unfold shownEntry
    split_ifs
    · refine ⟨rfl, fun e he => ?_⟩
      cases he
      exact hroot
    · exact getAt_of_keptBy hlive hkept hroot path
  obtain ⟨hsame, hmarked⟩ := hfound
  unfold showAt
  rw [hsame]
  cases hentry : shownEntry (K.view rawRender) s path (some root) with
  | error e => rfl
  | ok o =>
    rcases o with _ | ⟨mode, h⟩
    · rfl
    cases mode with
    | manifest =>
      have hget : t.get K.toPlatform h = s.get K.toPlatform h :=
        get_of_marked hkept (x := .manifest h) (hmarked _ hentry)
      simp only [bind, Except.bind, KeyedWorld.toWorld_view, hget,
        renderForFileType_of_kept hlive hkept hroot]
    | blob =>
      have hget : t.get K.toPlatform h = s.get K.toPlatform h :=
        get_of_marked hkept (x := .blob h) (hmarked _ hentry)
      simp only [bind, Except.bind, KeyedWorld.toWorld_view, hget]
    | tree =>
      have hlist := listTree_of_kept rawRender hkept (h := h) (hmarked _ hentry)
      simp only [bind, Except.bind, hlist]

/-- **What is listed** below a live tree is the same. -/
theorem lsAt_of_kept (path : Text) (recursive : Bool) :
    lsAt (K.view rawRender) t path root recursive =
      lsAt (K.view rawRender) s path root recursive := by
  have hdir : listedTree (K.view rawRender) t path root =
        listedTree (K.view rawRender) s path root ∧
      ∀ h, listedTree (K.view rawRender) s path root = .ok h → h ∈ live.trees := by
    unfold listedTree
    split_ifs
    · refine ⟨rfl, fun h hh => ?_⟩
      cases hh
      exact hroot
    · obtain ⟨hsame, hmarked⟩ := getAt_of_keptBy hlive hkept hroot path
      simp only [Option.map_none] at hsame hmarked
      simp only [KeyedWorld.toWorld_view]
      rw [hsame]
      refine ⟨rfl, fun h hh => ?_⟩
      obtain ⟨o, ho, hh⟩ := except_bind_eq_ok.1 hh
      rcases o with _ | ⟨mode, g⟩
      · cases hh
      cases mode with
      | tree =>
        cases hh
        exact hmarked _ ho
      | blob => cases hh
      | manifest => cases hh
  obtain ⟨hsame, hmarked⟩ := hdir
  unfold lsAt
  rw [hsame]
  cases hlisted : listedTree (K.view rawRender) s path root with
  | error e => rfl
  | ok h =>
    have hh := hmarked h hlisted
    have hwalk := walk_of_kept hlive hkept hh
    simp only [Option.map_none] at hwalk
    simp only [Except.mapError, bind, Except.bind, KeyedWorld.toWorld_view, hwalk,
      listTree_of_kept rawRender hkept hh]

/-- The manifests of a live tree are live. -/
theorem manifest_of_walk {ps : List (Text × Entry)}
    (hwalk : walk K.toPlatform s none root = .ok ps) {p : Text × Entry} (hp : p ∈ ps)
    (hmode : p.2.mode = .manifest) : p.2.hash ∈ live.manifests := by
  have hmarked := marked_of_walk hlive hkept hroot hwalk p hp
  simp only [entryNode, hmode] at hmarked
  exact hmarked

theorem filesAt_of_kept (prefix_ : Option Text) :
    filesAt (K.view rawRender) t root prefix_ = filesAt (K.view rawRender) s root prefix_ := by
  have hwalk := walk_of_kept hlive hkept hroot
  simp only [Option.map_none] at hwalk
  simp only [filesAt, KeyedWorld.toWorld_view, hwalk]
  cases hs : walk K.toPlatform s none root with
  | error e => rfl
  | ok ps =>
    dsimp only [bind, Except.bind]
    rw [mapM_congr fun p hp => ?_]
    obtain ⟨q, hq, rfl⟩ := List.mem_map.1 hp
    obtain ⟨hq, hmode⟩ := List.mem_filter.1 hq
    simp only [Bool.and_eq_true, decide_eq_true_eq] at hmode
    have hget : t.get K.toPlatform q.2.hash = s.get K.toPlatform q.2.hash :=
      get_of_marked hkept (x := .manifest q.2.hash)
        (manifest_of_walk hlive hkept hroot hs hq hmode.1)
    simp only [fileListing, KeyedWorld.toWorld_view, hget]

theorem treeSchemas_of_kept :
    treeSchemas K.toWorld t root = treeSchemas K.toWorld s root := by
  obtain ⟨hsame, hmarked⟩ := getAt_of_keptBy hlive hkept hroot "schemas".toList
  simp only [Option.map_none] at hsame hmarked
  unfold treeSchemas
  rw [hsame]
  cases hfound : getAt K.toPlatform s none "schemas".toList root with
  | error e => rfl
  | ok o =>
    rcases o with _ | ⟨mode, h⟩
    · rfl
    cases mode with
    | tree =>
      have hh : h ∈ live.trees := hmarked _ hfound
      have hwalk := walk_of_kept hlive hkept hh
      simp only [Option.map_none] at hwalk
      simp only [Except.mapError, bind, Except.bind, hwalk]
      cases hs : walk K.toPlatform s none h with
      | error e => rfl
      | ok ps =>
        dsimp only
        rw [List.filterMap_congr fun p hp => ?_]
        have hleaf := marked_of_walk hlive hkept hh hs p hp
        unfold schemaOfLeaf
        by_cases hmode : p.2.mode = .blob
        · simp only [entryNode, hmode] at hleaf
          have hget : t.get K.toPlatform p.2.hash = s.get K.toPlatform p.2.hash :=
            get_of_marked hkept (x := .blob p.2.hash) hleaf
          simp only [hget]
        · simp only [ne_eq, hmode, not_false_eq_true, if_true]
          rfl
    | blob => rfl
    | manifest => rfl

/-- The manifests that a query goes through are live. -/
theorem sortedManifests_of_kept (prefix_ : Option Text) :
    Query.sortedManifests K.toWorld t root prefix_ = Query.sortedManifests K.toWorld s root prefix_ ∧
      ∀ l, Query.sortedManifests K.toWorld s root prefix_ = .ok l →
        ∀ p ∈ l, p.2 ∈ live.manifests := by
  have hwalk := walk_of_kept hlive hkept hroot
  simp only [Option.map_none] at hwalk
  simp only [Query.sortedManifests, hwalk, true_and]
  intro l hl p hp
  obtain ⟨ps, hps, hl⟩ := except_bind_eq_ok.1 hl
  obtain ⟨qs, hqs, hl⟩ := except_bind_eq_ok.1 hl
  cases hl
  obtain ⟨q, hq, rfl⟩ := List.mem_map.1 ((List.mem_insertionSort _).1 hp)
  obtain ⟨hq, hmode⟩ := List.mem_filter.1 hq
  simp only [Bool.and_eq_true, decide_eq_true_eq] at hmode
  unfold Query.collectVec at hqs
  split_ifs at hqs
  cases hqs
  exact manifest_of_walk hlive hkept hroot hps hq hmode.1

omit hlive hroot in
theorem scan_of_kept (predicate : Option Query.Expr) (limit len : Nat) {l : List (Text × Hash)}
    (hl : ∀ p ∈ l, p.2 ∈ live.manifests) (idx : Nat) (found : List Query.Match) :
    Query.scan K.toWorld t predicate limit len idx l found =
      Query.scan K.toWorld s predicate limit len idx l found := by
  induction l generalizing idx found with
  | nil => rfl
  | cons p l ih =>
    obtain ⟨hp, hl⟩ := List.forall_mem_cons.1 hl
    have hget : t.get K.toPlatform p.2 = s.get K.toPlatform p.2 :=
      get_of_marked hkept (x := .manifest p.2) hp
    have hmatch : Query.matchAt K.toWorld t predicate p = Query.matchAt K.toWorld s predicate p := by
      simp only [Query.matchAt, hget]
    simp only [Query.scan, hmatch, ih hl]

end Views

/-! ### Views of a live commit -/

section Reads

variable {K : KeyedWorld} {t : Store} {roots shares : List Hash} {live : LiveSet} {r : Repo}
  (hlive : Gc.Exact K none r.store roots shares live)
  (hone : ∀ c ∈ live.commits, OneTree K.toWorld r.store c)
  (hkept : KeptBy K.toPlatform live r.store t)
include hlive hone hkept

theorem bytesOf_of_kept {at_ : Option Text} (hanchor : r.Anchored K.toWorld live at_)
    (path : Text) :
    { r with store := t }.bytesOf K.toWorld path at_ = r.bytesOf K.toWorld path at_ := by
  obtain ⟨hroot, hmarked⟩ := rootTree_of_kept hlive hkept rfl hone hanchor
  unfold bytesOf
  rw [hroot]
  cases hat : r.rootTree K.toWorld at_ with
  | error e => rfl
  | ok o =>
    cases o with
    | none => rfl
    | some root =>
      obtain ⟨hsame, hfound⟩ := getAt_of_keptBy hlive hkept (hmarked root hat) path
      simp only [Option.map_none] at hsame hfound
      simp only [bind, Except.bind, hsame]
      cases hget : getAt K.toPlatform r.store none path root with
      | error e => rfl
      | ok o =>
        rcases o with _ | ⟨mode, h⟩
        · rfl
        have hentry := hfound _ hget
        cases mode with
        | tree => rfl
        | blob =>
          have hblob : t.get K.toPlatform h = r.store.get K.toPlatform h :=
            get_of_marked hkept (x := .blob h) hentry
          simp only [hblob]
        | manifest =>
          have hmanifest : t.get K.toPlatform h = r.store.get K.toPlatform h :=
            get_of_marked hkept (x := .manifest h) hentry
          simp only [hmanifest]
          cases ho : r.store.get K.toPlatform h with
          | none => rfl
          | some o =>
            dsimp only
            cases hm : Manifest.parse K.toWorld o.content with
            | error e => rfl
            | ok m => simp only [get_source_of_kept hkept hlive hentry ho hm]

/-- **What is read at a live commit is the same.** -/
theorem sameReads_of_kept {at_ : Option Text} (hanchor : r.Anchored K.toWorld live at_)
    (rawRender : Text → Option (Text × Option Nat)) :
    SameReads (K.view rawRender) r { r with store := t } at_ := by
  obtain ⟨hroot, hmarked⟩ := rootTree_of_kept hlive hkept rfl hone hanchor
  refine ⟨hroot, fun path => ?_, bytesOf_of_kept hlive hone hkept hanchor, fun path recursive => ?_,
    fun prefix_ => ?_, fun q n => ?_, fun env => ?_⟩
  · simp only [show_, KeyedWorld.toWorld_view, hroot]
    cases hat : r.rootTree K.toWorld at_ with
    | error e => rfl
    | ok o =>
      cases o with
      | none =>
        -- nothing is shown where there is no tree
        dsimp only [bind, Except.bind]
        unfold showAt shownEntry
        split_ifs <;> rfl
      | some root => exact showAt_of_kept hlive hkept (hmarked root hat) path
  · simp only [Repo.ls, KeyedWorld.toWorld_view, hroot]
    cases hat : r.rootTree K.toWorld at_ with
    | error e => rfl
    | ok o =>
      cases o with
      | none => rfl
      | some root => exact lsAt_of_kept hlive hkept (hmarked root hat) path recursive
  · simp only [Repo.files, KeyedWorld.toWorld_view, hroot]
    cases hat : r.rootTree K.toWorld at_ with
    | error e => rfl
    | ok o =>
      cases o with
      | none => rfl
      | some root => exact filesAt_of_kept hlive hkept (hmarked root hat) prefix_
  · simp only [Repo.page, KeyedWorld.toWorld_view, hroot]
    cases hat : r.rootTree K.toWorld at_ with
    | error e => rfl
    | ok o =>
      cases o with
      | none => rfl
      | some root =>
        obtain ⟨hsame, hmem⟩ := sortedManifests_of_kept hlive hkept (hmarked root hat) q.prefix_
        simp only [Except.mapError, bind, Except.bind, hsame]
        cases hl : Query.sortedManifests K.toWorld r.store root q.prefix_ with
        | error e => rfl
        | ok l =>
          simp only [scan_of_kept hkept q.predicate q.clampedLimit l.length
            fun p hp => hmem l hl p (List.mem_of_mem_drop hp)]
  · simp only [listSchemas, KeyedWorld.toWorld_view, hroot]
    cases hat : r.rootTree K.toWorld at_ with
    | error e => rfl
    | ok o =>
      cases o with
      | none => rfl
      | some root =>
        simp only [Except.mapError, bind, Except.bind,
          treeSchemas_of_kept hlive hkept (hmarked root hat)]

/-- So are the differences between two. -/
theorem diff_of_kept {from_ to_ : Text} (hfrom : r.Anchored K.toWorld live (some from_))
    (hto : r.Anchored K.toWorld live (some to_)) (pathFilter : Option Text) :
    { r with store := t }.diff K.toWorld from_ to_ pathFilter =
      r.diff K.toWorld from_ to_ pathFilter := by
  have hcommit : ∀ {expr : Text}, r.Anchored K.toWorld live (some expr) → ∀ c,
      r.resolveRef K.toWorld expr = .ok c →
        commitTree K.toWorld t c = commitTree K.toWorld r.store c ∧
        ∀ root, commitTree K.toWorld r.store c = .ok root →
          walk K.toPlatform t none root = walk K.toPlatform r.store none root := by
    intro expr hanchor c hc
    have hlives := (resolveRef_of_kept hlive hkept rfl hanchor).2 c hc
    obtain ⟨htree, hroot⟩ := commitTree_of_kept hlive hkept hlives (hone c hlives)
    exact ⟨htree, fun root h => walk_of_kept hlive hkept (hroot root h)⟩
  unfold Repo.diff
  rw [(resolveRef_of_kept hlive hkept rfl hfrom).1, (resolveRef_of_kept hlive hkept rfl hto).1]
  cases ha : r.resolveRef K.toWorld from_ with
  | error e => rfl
  | ok a =>
    cases hb : r.resolveRef K.toWorld to_ with
    | error e => rfl
    | ok b =>
      obtain ⟨hatree, hawalk⟩ := hcommit hfrom a ha
      obtain ⟨hbtree, hbwalk⟩ := hcommit hto b hb
      simp only [Except.mapError, bind, Except.bind, hatree, hbtree]
      cases hra : commitTree K.toWorld r.store a with
      | error e => rfl
      | ok ra =>
        cases hrb : commitTree K.toWorld r.store b with
        | error e => rfl
        | ok rb => simp only [hawalk ra hra, hbwalk rb hrb]

omit hone in
/-- The log of a live commit is the same. -/
theorem logLoop_of_kept (max : Nat) (fuel : Nat) {queue : List Hash}
    (hqueue : ∀ c ∈ queue, c ∈ live.commits) (seen : List Hash) (out : List (Hash × Commit)) :
    logLoop K.toWorld t max fuel queue seen out =
      logLoop K.toWorld r.store max fuel queue seen out := by
  induction fuel generalizing queue seen out with
  | zero => rfl
  | succ fuel ih =>
    cases queue with
    | nil => rfl
    | cons c queue =>
      obtain ⟨hc, hqueue⟩ := List.forall_mem_cons.1 hqueue
      have hget : t.get K.toPlatform c = r.store.get K.toPlatform c :=
        get_of_marked hkept (x := .commit c) hc
      obtain ⟨content, d, hcontent, hd, -, hparents⟩ := hlive.commit hc
      obtain ⟨o, ho, htype, rfl⟩ := exists_of_getCommit hcontent
      simp only [logLoop, hget, ho, if_pos htype, ih hqueue]
      cases hparse : Commit.parse K.toPlatform o.content with
      | error e => rfl
      | ok commit =>
        -- the collector reads the same parents
        rw [← Commit.parseWithCommitKey_none] at hparse
        obtain ⟨d', hd', -, hsame⟩ := Commit.parseCommitHeaders_of_parse hparse
        cases hd.symm.trans hd'
        rw [hsame] at hparents
        simp only [ih fun p hp => (List.mem_append.1 hp).elim (hparents p) (hqueue p)]

end Reads

/-- **A sweep leaves what is read as it was.**  When the collector's walk has ended, every store
that has kept what is live reads the same at every expression that starts at a live commit, as far
as the commits that are live name one tree each. -/
theorem sameReads_of_sweep {K : KeyedWorld} {r : Repo} {roots shares : List Hash} {live : LiveSet}
    {fuel : Nat} (hwalk : Gc.walk K fuel none r.store roots shares = .ok live)
    (hone : ∀ c ∈ live.commits, OneTree K.toWorld r.store c) {t : Store}
    (hkept : KeptBy K.toPlatform live r.store t) :
    (∀ at_, r.Anchored K.toWorld live at_ → ∀ rawRender,
      SameReads (K.view rawRender) r { r with store := t } at_) ∧
    (∀ from_ to_, r.Anchored K.toWorld live (some from_) → r.Anchored K.toWorld live (some to_) →
      ∀ pathFilter, { r with store := t }.diff K.toWorld from_ to_ pathFilter =
        r.diff K.toWorld from_ to_ pathFilter) ∧
    (∀ c ∈ live.commits, ∀ max fuel,
      Omp.log K.toWorld t c max fuel = Omp.log K.toWorld r.store c max fuel) ∧
    ∀ c ∈ roots, c ∈ live.commits := by
  have hlive := Gc.exact_of_walk hwalk
  refine ⟨fun at_ hanchor => sameReads_of_kept hlive hone hkept hanchor,
    fun from_ to_ hfrom hto => diff_of_kept hlive hone hkept hfrom hto, fun c hc max fuel => ?_,
    fun c hc => hlive.root hc⟩
  exact logLoop_of_kept hlive hkept max _ (fun d hd => List.mem_singleton.1 hd ▸ hc) [] []

/-! ### Sealed files -/

section Sealed

open Gc

variable {K : KeyedWorld} {keys : TenantKeys} {t : Store} {roots shares : List Hash}
  {live : LiveSet} {r : Repo} (hlive : Gc.Exact K (some keys) r.store roots shares live)
  (hkept : KeptBy K.toPlatform live r.store t)
include hkept

theorem decryptChunks_of_kept (contentKey : Key) (total : Nat) {body : ChunksBody}
    (hbody : ∀ e ∈ body, e.hash ∈ live.blobs) (index : Nat) :
    decryptChunks K.toWorld ({ r with store := t }.view K.toWorld) contentKey total index body =
      decryptChunks K.toWorld (r.view K.toWorld) contentKey total index body := by
  induction body generalizing index with
  | nil => rfl
  | cons e body ih =>
    obtain ⟨he, hbody⟩ := List.forall_mem_cons.1 hbody
    have hget : t.get K.toPlatform e.hash = r.store.get K.toPlatform e.hash :=
      get_of_marked hkept (x := .blob e.hash) he
    simp only [decryptChunks, Repo.view, hget]
    simp only [Repo.view] at ih
    rw [ih hbody]

include hlive

/-- **A live source is decrypted as before.** -/
theorem decryptSource_of_kept (overflowChecks : Bool) {h : Hash} {source : Gc.Node}
    (hsource : sourceAt K r.store h = .ok source) (hmarked : live.Marked source)
    (contentKey : Key) :
    decryptSource K.toWorld overflowChecks ({ r with store := t }.view K.toWorld) h contentKey =
      decryptSource K.toWorld overflowChecks (r.view K.toWorld) h contentKey := by
  have hget := get_of_marked hkept hmarked
  rw [address_of_sourceAt hsource] at hget
  have hchunks := fun (total : Nat) {body : ChunksBody} (hbody : ∀ e ∈ body, e.hash ∈ live.blobs) =>
    decryptChunks_of_kept hkept (r := r) contentKey total hbody
  simp only [Repo.view] at hchunks
  simp only [decryptSource, Repo.view, hget]
  unfold sourceAt at hsource
  split at hsource
  · cases hsource
  · next ho => simp only [ho]; rfl
  · next body ho =>
    cases hsource
    obtain ⟨l, hl, hblobs⟩ := hlive.closed hmarked
    obtain ⟨content, hcontent, hl⟩ := except_bind_eq_ok.1 hl
    obtain ⟨parsed, hparsed, hl⟩ := except_bind_eq_ok.1 hl
    cases hl
    rw [fetch, ho] at hcontent
    cases hcontent
    simp only [ho, hparsed, Except.mapError, bind, Except.bind]
    rw [hchunks parsed.length fun e he => hblobs (.blob e.hash) (List.mem_map_of_mem he)]
  · cases hsource

/-- What is shown of a sealed file under a live manifest is the same. -/
theorem targetAt_of_kept {root : Hash} (hroot : root ∈ live.trees) (path : Text) :
    targetAt K.toWorld keys t path (some root) = targetAt K.toWorld keys r.store path (some root) ∧
      ∀ e, targetAt K.toWorld keys r.store path (some root) = .ok (some e) →
        live.Marked (entryNode e) := by
  unfold targetAt
  dsimp only
  split_ifs
  · refine ⟨rfl, fun e he => ?_⟩
    cases he
    exact hroot
  · exact getAt_of_keptBy hlive hkept hroot path

/-- **A sealed file is shown as before**, if no live manifest can be read both as a plain one and
as a sealed one. -/
theorem showEncrypted_of_kept (overflowChecks : Bool)
    (hone : ∀ c ∈ live.commits, OneTree K.toWorld r.store c)
    (hplain : ∀ g ∈ live.manifests, ∀ o, r.store.get K.toPlatform g = some o →
      ∀ m e, Manifest.parse K.toWorld o.content = .ok m →
        EncryptedManifestEnvelope.parse K o.content ≠ .ok e)
    {at_ : Option Text} (hanchor : r.Anchored K.toWorld live at_) (path : Text) :
    showEncrypted K overflowChecks keys { r with store := t } path at_ =
      showEncrypted K overflowChecks keys r path at_ := by
  obtain ⟨hroot, hmarked⟩ := rootTree_of_kept hlive hkept rfl hone hanchor
  unfold showEncrypted
  rw [hroot]
  cases hat : r.rootTree K.toWorld at_ with
  | error e => rfl
  | ok o =>
    cases o with
    | none => rfl
    | some root =>
      obtain ⟨hsame, hfound⟩ := targetAt_of_kept hlive hkept (hmarked root hat) path
      simp only [Except.mapError, bind, Except.bind, hsame]
      cases htarget : targetAt K.toWorld keys r.store path (some root) with
      | error e => rfl
      | ok o =>
        cases o with
        | none => rfl
        | some e =>
          dsimp only
          split_ifs with hmode
          · rfl
          have hentry := hfound e htarget
          rw [not_not] at hmode
          simp only [entryNode, hmode] at hentry
          have hget : t.get K.toPlatform e.hash = r.store.get K.toPlatform e.hash :=
            get_of_marked hkept (x := .manifest e.hash) hentry
          simp only [hget]
          cases ho : r.store.get K.toPlatform e.hash with
          | none => rfl
          | some o =>
            dsimp only
            cases henvelope : EncryptedManifestEnvelope.parse K o.content with
            | error f => rfl
            | ok envelope =>
              dsimp only
              cases hopen : envelope.open_ K keys with
              | error f => rfl
              | ok opened =>
                -- the collector has opened the same manifest
                have hread : readManifest K (some keys) o.content = .ok (some opened.1) := by
                  unfold readManifest
                  cases hm : Manifest.parse K.toWorld o.content with
                  | ok m => exact absurd henvelope (hplain e.hash hentry o ho m envelope hm)
                  | error f =>
                    simp only [henvelope, bind, Except.bind, hopen]
                obtain ⟨source, hsource, hlives⟩ := hlive.source hentry ho hread
                simp only [decryptSource_of_kept hlive hkept overflowChecks hsource hlives]

end Sealed

/-- The world of two schemas, in which envelopes are read. -/
def sweptWorld : KeyedWorld := { twoSchemaWorld with rawEnvelope := demoKeyed.rawEnvelope }

/-- The commit of the small repository. -/
def smallHead : Hash := hashOf demo .commit smallCommit.content

/-- The small repository, with a file that is nowhere in its tree. -/
def smallStray : Repo :=
  { smallRepo with store := ⟨smallRepo.store.objects ++ [⟨.blob, [120]⟩]⟩ }

/-- The file is swept away. -/
theorem sameReads_of_sweep_demo : ∃ live,
    Gc.walk sweptWorld 3 none smallStray.store [smallHead] [] = .ok live ∧
    smallRepo.store.objects.length < smallStray.store.objects.length ∧
    SameReads (sweptWorld.view fun _ => none) smallStray
      { smallStray with store := smallRepo.store } none := by
  obtain ⟨hhead, hok, hone⟩ :
      smallStray.resolveHead twoSchemaWorld = .ok (some smallHead) ∧
      ((Gc.walk sweptWorld 3 none smallStray.store [smallHead] []).toOption.map fun live =>
        decide (live.commits = {smallHead}) &&
          decide (∀ h ∈ live.commits ∪ live.trees ∪ live.manifests ∪ live.chunksObjects ∪
            live.blobs ∪ live.shares,
            smallRepo.store.get demo h = smallStray.store.get demo h)) = some true ∧
      ((getCommit twoSchemaWorld smallStray.store smallHead).toOption.all fun content =>
        decide ((Commit.headerTrees demo content).head? =
          (Commit.headerTrees demo content).getLast?)) = true := by
    decide +kernel
  cases hwalk : Gc.walk sweptWorld 3 none smallStray.store [smallHead] [] with
  | error e => rw [hwalk] at hok; cases hok
  | ok live =>
    rw [hwalk] at hok
    have hcheck := Option.some.inj hok
    simp only [Bool.and_eq_true, decide_eq_true_eq] at hcheck
    obtain ⟨hcommits, hkept⟩ := hcheck
    refine ⟨live, rfl, Nat.lt_succ_self 4, (sameReads_of_sweep hwalk (fun c hc content hcontent => ?_)
      (fun h hh => hkept h ?_)).1 none (fun c hc => ?_) _⟩
    · rw [hcommits, Finset.mem_singleton] at hc
      change getCommit twoSchemaWorld smallStray.store c = .ok content at hcontent
      rw [hc] at hcontent
      rw [hcontent] at hone
      exact of_decide_eq_true hone
    · simpa [LiveSet.contains, or_assoc] using hh
    · rw [hcommits, ← Option.some.inj (Except.ok.inj (hhead.symm.trans hc))]
      exact Finset.mem_singleton_self _

/-- **A sweep with the keys leaves what is shown of sealed files as it was.** -/
theorem showEncrypted_of_sweep {K : KeyedWorld} {keys : TenantKeys} {r : Repo}
    {roots shares : List Hash} {live : LiveSet} {fuel : Nat}
    (hwalk : Gc.walk K fuel (some keys) r.store roots shares = .ok live)
    (hone : ∀ c ∈ live.commits, OneTree K.toWorld r.store c)
    (hplain : ∀ g ∈ live.manifests, ∀ o, r.store.get K.toPlatform g = some o →
      ∀ m e, Manifest.parse K.toWorld o.content = .ok m →
        EncryptedManifestEnvelope.parse K o.content ≠ .ok e)
    {t : Store} (hkept : KeptBy K.toPlatform live r.store t) {at_ : Option Text}
    (hanchor : r.Anchored K.toWorld live at_) (overflowChecks : Bool) (path : Text) :
    showEncrypted K overflowChecks keys { r with store := t } path at_ =
      showEncrypted K overflowChecks keys r path at_ :=
  showEncrypted_of_kept (Gc.exact_of_walk hwalk) hkept overflowChecks hone hplain hanchor path

/-- A sealed source. -/
def sealedSource : Object :=
  ⟨.blob, aeadSeal demo demoRandomness.contentKey (nonceForChunk demo demoRandomness.contentKey 0)
    blobAad [104, 105]⟩

/-- The manifest of the source. -/
def sealedDoc : Toml.Doc := .flat
  [("source_hash".toList, .str (hashOf demo .blob sealedSource.content).hex),
    ("file_type".toList, .str "note".toList), ("schema_hash".toList, .str (Hash.ofNat 0).hex),
    ("ingested_at".toList, .str "now".toList), ("ingester_version".toList, .str "1".toList)] []

/-- A world that reads one manifest and one envelope. -/
def sealedKeyed : KeyedWorld :=
  { demoKeyed with
    toml := { demoKeyed.toml with
      parse := fun t => if t = "manifest".toList then .ok sealedDoc
        else .error "no manifest".toList }
    rawEnvelope := fun t =>
      if t = "envelope".toList then .ok (EncryptedManifestEnvelope.enclose demo demoKeys
        demoRandomness (utf8 "manifest".toList))
      else .error "no envelope".toList }

/-- What is stored as the manifest. -/
def sealedManifest : Object := ⟨.manifest, utf8 "envelope".toList⟩

/-- The tree it is in. -/
def sealedRoot : Object :=
  ⟨.tree, (oneEntry "a.txt".toList ⟨.manifest,
    hashOf demo .manifest sealedManifest.content⟩).serializeWithPathKey demo (some demoKeys.pathKey)⟩

/-- The commit of the tree. -/
def sealedCommit : Object :=
  ⟨.commit, Commit.serializeWithCommitKey demo (some demoKeys.commitKey)
    ⟨hashOf demo .tree sealedRoot.content, [], ⟨"ada".toList, "ada".toList, "now".toList⟩,
      "first".toList⟩⟩

/-- The hash of the commit. -/
def sealedHead : Hash := hashOf demo .commit sealedCommit.content

/-- A repository with the commit only. -/
def sealedRepo : Repo :=
  { Repo.init with
    store := ⟨[sealedSource, sealedManifest, sealedRoot, sealedCommit]⟩
    refs := Repo.init.refs.insert "refs/heads/main".toList sealedHead }

/-- The repository, with a file that is nowhere in its tree. -/
def sealedStray : Repo :=
  { sealedRepo with store := ⟨sealedRepo.store.objects ++ [⟨.blob, [120]⟩]⟩ }

/-- What the collector marks. -/
theorem walk_sealedStray :
    ((Gc.walk sealedKeyed 3 (some demoKeys) sealedStray.store [sealedHead] []).toOption.map
      fun live => decide (live.commits = {sealedHead}) &&
        decide (∀ h ∈ live.commits ∪ live.trees ∪ live.manifests ∪ live.chunksObjects ∪
          live.blobs ∪ live.shares,
          sealedRepo.store.get demo h = sealedStray.store.get demo h) &&
        decide (∀ h ∈ live.manifests, ((sealedStray.store.get demo h).all fun o =>
          !(Manifest.parse sealedKeyed.toWorld o.content).isOk) = true)) = some true := by
  decide +kernel

/-- What is shown of the file before the sweep. -/
theorem showEncrypted_sealedStray :
    (showEncrypted sealedKeyed true demoKeys sealedStray "a.txt".toList none).toOption.map
      Prod.snd = some [104, 105] := by
  decide +kernel

/-- The stray file is swept away, the one that is committed is shown. -/
theorem showEncrypted_of_sweep_demo : ∃ live m,
    Gc.walk sealedKeyed 3 (some demoKeys) sealedStray.store [sealedHead] [] = .ok live ∧
    sealedRepo.store.objects.length < sealedStray.store.objects.length ∧
    showEncrypted sealedKeyed true demoKeys { sealedStray with store := sealedRepo.store }
      "a.txt".toList none = .ok (m, [104, 105]) := by
  obtain ⟨hhead, hone⟩ :
      sealedStray.resolveHead sealedKeyed.toWorld = .ok (some sealedHead) ∧
      ((getCommit sealedKeyed.toWorld sealedStray.store sealedHead).toOption.all fun content =>
        decide ((Commit.headerTrees demo content).head? =
          (Commit.headerTrees demo content).getLast?)) = true := by
    decide +kernel
  have hok := walk_sealedStray
  have hshown := showEncrypted_sealedStray
  cases hwalk : Gc.walk sealedKeyed 3 (some demoKeys) sealedStray.store [sealedHead] [] with
  | error e => rw [hwalk] at hok; cases hok
  | ok live =>
    rw [hwalk] at hok
    have hcheck := Option.some.inj hok
    simp only [Bool.and_eq_true, decide_eq_true_eq] at hcheck
    obtain ⟨⟨hcommits, hkept⟩, hsealed⟩ := hcheck
    cases hshow : showEncrypted sealedKeyed true demoKeys sealedStray "a.txt".toList none with
    | error e => rw [hshow] at hshown; cases hshown
    | ok shown =>
      rw [hshow] at hshown
      have hanchor : sealedStray.Anchored sealedKeyed.toWorld live none := by
        intro c hc
        rw [hcommits, ← Option.some.inj (Except.ok.inj (hhead.symm.trans hc))]
        exact Finset.mem_singleton_self _
      refine ⟨live, shown.1, rfl, Nat.lt_succ_self 4, ?_⟩
      rw [showEncrypted_of_sweep hwalk (fun c hc content hcontent => ?_)
        (fun g hg o ho m e hm _ => ?_) (fun h hh => hkept h ?_) hanchor, hshow]
      · rw [← Option.some.inj hshown]
      · rw [hcommits, Finset.mem_singleton] at hc
        rw [hc] at hcontent
        rw [hcontent] at hone
        exact of_decide_eq_true hone
      · have := hsealed g hg
        change sealedStray.store.get demo g = some o at ho
        rw [ho] at this
        simp [hm, Except.isOk, Except.toBool] at this
      · simpa [LiveSet.contains, or_assoc] using hh

end Repo

end Omp
