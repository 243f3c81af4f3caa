import Omp.Lib.Marking
import Omp.SealedHistory

/-!
# What the collector marks

The collector's live set is what stands between an object and its deletion.  It is built by three
recursions, over commits, trees and manifests, which pass over what is marked.  Whatever the order
and the repetitions, what comes out is the set of objects that are reached from the roots, and
nothing comes out exactly if one of them cannot be read.

## Main definitions

* `Gc.Node`, `Gc.links` : the graph that the collector goes through.
* `LiveSet.marks` : a live set as a set of nodes.

## Main results

* `Gc.marks_walkTree`, `Gc.marks_walkCommits` : what the recursions add to a live set.
* `Gc.walkTree_ne_panic`, `Gc.exists_fuel` : they end.
* `Gc.walk_marks_reached` : when the walk succeeds, and with which live set.
-/

namespace Omp

open Lib Marking

namespace Gc

/-! ### The graph -/

/-- What the collector can mark. -/
inductive Node where
  | commit (h : Hash)
  | tree (h : Hash)
  | manifest (h : Hash)
  | chunksObject (h : Hash)
  | blob (h : Hash)

variable (K : KeyedWorld) (keys : Option TenantKeys) (s : Store)

/-- The source at an address. -/
def sourceAt (h : Hash) : Except OmpError Node :=
  match s.get K.toPlatform h with
  | none => .error (.notFound ("source ".toList ++ h.hex))
  | some ⟨.blob, _⟩ => .ok (.blob h)
  | some ⟨.chunks, _⟩ => .ok (.chunksObject h)
  | some ⟨type, _⟩ => .error (.corrupt ("source ".toList ++ h.hex ++
      " is unexpected type ".toList ++ K.debugStr type.asStr))

/-- What an entry of a tree names. -/
def entryNode (e : Entry) : Node :=
  match e.mode with
  | .tree => .tree e.hash
  | .manifest => .manifest e.hash
  | .blob => .blob e.hash

/-- What a manifest names, if it could be opened. -/
def manifestLinks : Option Manifest → Except OmpError (List Node)
  | none => .ok []
  | some m => do
    let source ← sourceAt K s m.sourceHash
    .ok (m.probeHashes.toList.map (fun p => .blob p.2) ++ [source])

/-- What a node names, in the order in which the collector goes there. -/
def links : Node → Except OmpError (List Node)
  | .commit h => do
    let body ← fetch K s .commit h
    let commit ← Commit.parseCommitHeaders K.toPlatform body
    .ok (.tree commit.tree :: commit.parents.reverse.map .commit)
  | .tree h => do
    let body ← fetch K s .tree h
    let tree ← Tree.parseWithPathKey K.toPlatform (keys.map TenantKeys.pathKey) body
    .ok (tree.entries.toList.map fun p => entryNode p.2)
  | .manifest h => do
    let body ← fetch K s .manifest h
    let m ← readManifest K keys body
    manifestLinks K s m
  | .chunksObject h => do
    let body ← fetch K s .chunks h
    let parsed ← ChunksBody.parse K.toWorld body
    .ok (parsed.map fun e => .blob e.hash)
  | .blob _ => .ok []

/-- The graph of a store. -/
def graph (x : Node) : Option (List Node) := (links K keys s x).toOption

/-- The second node is reached from the first. -/
def Reaches (x y : Node) : Prop := Dfs.Reaches (succOf (graph K keys s)) x y

end Gc

/-- The live set has a node. -/
def LiveSet.Marked (live : LiveSet) : Gc.Node → Prop
  | .commit h => h ∈ live.commits
  | .tree h => h ∈ live.trees
  | .manifest h => h ∈ live.manifests
  | .chunksObject h => h ∈ live.chunksObjects
  | .blob h => h ∈ live.blobs

/-- The nodes of a live set. -/
def LiveSet.marks (live : LiveSet) : Set Gc.Node := {x | live.Marked x}

namespace Gc

variable {K : KeyedWorld} {keys : Option TenantKeys} {s : Store} {live live' : LiveSet} {h : Hash}

theorem graph_eq_some {x : Node} {l : List Node} :
    graph K keys s x = some l ↔ links K keys s x = .ok l := toOption_eq_some

theorem legible_iff {x : Node} :
    Legible (graph K keys s) x ↔ ∃ l, links K keys s x = .ok l := by
  simp only [← graph_eq_some]
  exact Option.ne_none_iff_exists'

theorem not_legible_of_error {x : Node} {e : OmpError} (hx : links K keys s x = .error e) :
    ¬ Legible (graph K keys s) x := by
  rw [legible_iff, hx]
  rintro ⟨l, hl⟩
  cases hl

/-! ### Marks -/

theorem marks_commits (live : LiveSet) (h : Hash) :
    LiveSet.marks { live with commits := insert h live.commits } =
      insert (.commit h) live.marks := by
  ext x
  cases x <;> simp [LiveSet.marks, LiveSet.Marked]

theorem marks_trees (live : LiveSet) (h : Hash) :
    LiveSet.marks { live with trees := insert h live.trees } = insert (.tree h) live.marks := by
  ext x
  cases x <;> simp [LiveSet.marks, LiveSet.Marked]

theorem marks_manifests (live : LiveSet) (h : Hash) :
    LiveSet.marks { live with manifests := insert h live.manifests } =
      insert (.manifest h) live.marks := by
  ext x
  cases x <;> simp [LiveSet.marks, LiveSet.Marked]

theorem marks_chunksObjects (live : LiveSet) (h : Hash) :
    LiveSet.marks { live with chunksObjects := insert h live.chunksObjects } =
      insert (.chunksObject h) live.marks := by
  ext x
  cases x <;> simp [LiveSet.marks, LiveSet.Marked]

theorem mem_foldl_insert {β : Type} (f : β → Hash) (l : List β) (blobs : Finset Hash) (x : Hash) :
    x ∈ l.foldl (fun blobs b => insert (f b) blobs) blobs ↔ x ∈ blobs ∨ ∃ b ∈ l, f b = x := by
  induction l generalizing blobs with
  | nil => simp
  | cons b l ih =>
    rw [List.foldl_cons, ih, Finset.mem_insert, List.exists_mem_cons_iff, eq_comm (a := x)]
    tauto

theorem marks_blobs {β : Type} (f : β → Hash) (l : List β) (live : LiveSet) :
    LiveSet.marks { live with blobs := l.foldl (fun blobs b => insert (f b) blobs) live.blobs } =
      live.marks ∪ {x | x ∈ l.map fun b => Node.blob (f b)} := by
  ext x
  cases x with
  | blob g => simp [LiveSet.marks, LiveSet.Marked, mem_foldl_insert]
  | _ => simp [LiveSet.marks, LiveSet.Marked]

theorem links_blob (h : Hash) : graph K keys s (.blob h) = some [] := rfl

/-- Blobs are marked without being looked at. -/
theorem marks_blob_list {β : Type} (f : β → Hash) (l : List β) (live : LiveSet) :
    Marks (graph K keys s) (l.map fun b => .blob (f b)) live.marks
      (LiveSet.marks
        { live with blobs := l.foldl (fun blobs b => insert (f b) blobs) live.blobs }) := by
  rw [marks_blobs]
  refine .leaves fun x hx => ?_
  obtain ⟨b, -, rfl⟩ := List.mem_map.1 hx
  exact links_blob (f b)

/-! ### Manifests -/

variable (keys) in
/-- **What `walk_source` adds.** -/
theorem marks_walkSource (hwalk : walkSource K s h live = .ok live') :
    ∃ source, sourceAt K s h = .ok source ∧
      Marks (graph K keys s) [source] live.marks live'.marks := by
  unfold walkSource at hwalk
  split at hwalk
  · cases hwalk
  · next hget =>
    cases hwalk
    refine ⟨.blob h, by rw [sourceAt, hget], ?_⟩
    exact marks_blob_list (fun h : Hash => h) [h] live
  · next body hget =>
    obtain ⟨parsed, hparsed, hwalk⟩ := except_bind_eq_ok.1 hwalk
    cases hwalk
    refine ⟨.chunksObject h, by rw [sourceAt, hget], ?_⟩
    have hlinks : links K keys s (.chunksObject h) =
        .ok (parsed.map fun e => .blob e.hash) := by
      simp only [links, fetch, hget, if_true, bind, Except.bind, hparsed]
    refine .visit (graph_eq_some.2 hlinks) ?_
    rw [List.append_nil, ← marks_chunksObjects]
    exact marks_blob_list _ _ _
  · cases hwalk

variable (keys) in
theorem walkSource_error {e : OmpError} (hwalk : walkSource K s h live = .error e) :
    sourceAt K s h = .error e ∨
      ∃ source, sourceAt K s h = .ok source ∧ ¬ Legible (graph K keys s) source := by
  unfold walkSource at hwalk
  split at hwalk
  · next hget =>
    cases hwalk
    exact .inl (by rw [sourceAt, hget])
  · cases hwalk
  · next body hget =>
    refine .inr ⟨.chunksObject h, by rw [sourceAt, hget], ?_⟩
    rcases except_bind_eq_error.1 hwalk with hparsed | ⟨parsed, -, hwalk⟩
    · refine not_legible_of_error (e := e) ?_
      simp only [links, fetch, hget, if_true, bind, Except.bind, hparsed]
    · cases hwalk
  · next type body hblob hchunks hget =>
    cases hwalk
    refine .inl ?_
    rw [sourceAt, hget]
    cases type with
    | blob => exact (hblob rfl).elim
    | chunks => exact (hchunks rfl).elim
    | _ => rfl

/-- **What `walk_manifest` adds.** -/
theorem marks_walkManifest (hwalk : walkManifest K keys s h live = .ok live') :
    Marks (graph K keys s) [.manifest h] live.marks live'.marks := by
  unfold walkManifest at hwalk
  split_ifs at hwalk with hmem
  · cases hwalk
    exact .skip hmem (.nil _)
  · obtain ⟨body, hbody, hwalk⟩ := except_bind_eq_ok.1 hwalk
    obtain ⟨o, hread, hwalk⟩ := except_bind_eq_ok.1 hwalk
    cases o with
    | none =>
      cases hwalk
      have hlinks : links K keys s (.manifest h) = .ok [] := by
        simp only [links, hbody, hread, manifestLinks, bind, Except.bind]
      rw [marks_manifests]
      exact .leaf (graph_eq_some.2 hlinks)
    | some m =>
      obtain ⟨source, hsource, hmarks⟩ := marks_walkSource keys hwalk
      have hlinks : links K keys s (.manifest h) =
          .ok (m.probeHashes.toList.map (fun p => .blob p.2) ++ [source]) := by
        simp only [links, hbody, hread, manifestLinks, hsource, bind, Except.bind]
      refine .visit (graph_eq_some.2 hlinks) ?_
      rw [List.append_nil, ← marks_manifests]
      exact (marks_blob_list _ _ _).append hmarks

theorem walkManifest_error {e : OmpError} (hwalk : walkManifest K keys s h live = .error e) :
    ∃ x, Reaches K keys s (.manifest h) x ∧ ¬ Legible (graph K keys s) x := by
  unfold walkManifest at hwalk
  split_ifs at hwalk
  -- the manifest cannot be read, or its source cannot
  have hself : ∀ {e}, links K keys s (.manifest h) = .error e →
      ∃ x, Reaches K keys s (.manifest h) x ∧ ¬ Legible (graph K keys s) x := fun hlinks =>
    ⟨.manifest h, .refl, not_legible_of_error hlinks⟩
  rcases except_bind_eq_error.1 hwalk with hbody | ⟨body, hbody, hwalk⟩
  · exact hself (except_bind_eq_error.2 (.inl hbody))
  rcases except_bind_eq_error.1 hwalk with hread | ⟨o, hread, hwalk⟩
  · exact hself (except_bind_eq_error.2 (.inr ⟨body, hbody, except_bind_eq_error.2 (.inl hread)⟩))
  cases o with
  | none => cases hwalk
  | some m =>
    have hlinks : links K keys s (.manifest h) = manifestLinks K s (some m) := by
      simp only [links, hbody, hread, bind, Except.bind]
    rcases walkSource_error keys hwalk with hsource | ⟨source, hsource, hno⟩
    · exact hself (hlinks.trans (except_bind_eq_error.2 (.inl hsource)))
    · refine ⟨source, .single ?_, hno⟩
      have hlist : links K keys s (.manifest h) =
          .ok (m.probeHashes.toList.map (fun p => .blob p.2) ++ [source]) := by
        rw [hlinks, manifestLinks, hsource]
        rfl
      rw [succOf_of_eq (graph_eq_some.2 hlist)]
      exact List.mem_append_right _ (List.mem_singleton_self source)

/-! ### Trees -/

/-- The addresses of the objects of a store that are not among some. -/
def unmarked (K : KeyedWorld) (s : Store) (marked : Finset Hash) : Finset Hash :=
  (s.objects.map (Object.address K.toPlatform)).toFinset \ marked

theorem card_unmarked_lt (marked : Finset Hash) :
    (unmarked K s marked).card < s.objects.length + 1 := by
  refine Nat.lt_succ_of_le ((Finset.card_le_card Finset.sdiff_subset).trans ?_)
  exact (List.toFinset_card_le _).trans (List.length_map _).le

theorem mem_of_fetch {type : ObjectType} {body : Bytes} (hbody : fetch K s type h = .ok body) :
    h ∈ (s.objects.map (Object.address K.toPlatform)).toFinset := by
  unfold fetch at hbody
  split at hbody
  · cases hbody
  · next o ho => exact List.mem_toFinset.2 (List.mem_map.2 ⟨o, Cas.find_eq_some ho⟩)

/-- Fewer are left when one of them is marked. -/
theorem card_unmarked_insert {type : ObjectType} {body : Bytes}
    (hbody : fetch K s type h = .ok body) {marked marked' : Finset Hash} (hno : h ∉ marked)
    (hle : insert h marked ⊆ marked') :
    (unmarked K s marked').card < (unmarked K s marked).card := by
  refine Finset.card_lt_card ⟨?_, fun hsub => ?_⟩
  · exact Finset.sdiff_subset_sdiff subset_rfl ((Finset.subset_insert h marked).trans hle)
  · have hmem := hsub (Finset.mem_sdiff.2 ⟨mem_of_fetch hbody, hno⟩)
    exact (Finset.mem_sdiff.1 hmem).2 (hle (Finset.mem_insert_self h marked))

theorem trees_subset {l : List Node} (hm : Marks (graph K keys s) l live.marks live'.marks) :
    live.trees ⊆ live'.trees := fun h hh => hm.kept (a := .tree h) hh

theorem commits_subset {l : List Node} (hm : Marks (graph K keys s) l live.marks live'.marks) :
    live.commits ⊆ live'.commits := fun h hh => hm.kept (a := .commit h) hh

/-- The step of the loop over the entries of a tree. -/
def walkEntry (K : KeyedWorld) (keys : Option TenantKeys) (s : Store) (fuel : Nat) (live : LiveSet)
    (p : Text × Entry) : Except (Fault OmpError) LiveSet :=
  match p.2.mode with
  | .tree => walkTree K keys s fuel p.2.hash live
  | .manifest => (walkManifest K keys s p.2.hash live).mapError .err
  | .blob => .ok { live with blobs := insert p.2.hash live.blobs }

theorem walkTree_succ (fuel : Nat) (hno : h ∉ live.trees) :
    walkTree K keys s (fuel + 1) h live = (do
      let body ← (fetch K s .tree h).mapError .err
      let tree ← (Tree.parseWithPathKey K.toPlatform (keys.map TenantKeys.pathKey) body).mapError
        .err
      tree.entries.toList.foldlM (walkEntry K keys s fuel)
        { live with trees := insert h live.trees }) := by
  rw [walkTree, if_neg hno]
  rfl

theorem marks_walkEntry {fuel : Nat} {p : Text × Entry}
    (htree : ∀ live live', walkTree K keys s fuel p.2.hash live = .ok live' →
      Marks (graph K keys s) [.tree p.2.hash] live.marks live'.marks)
    (hp : walkEntry K keys s fuel live p = .ok live') :
    Marks (graph K keys s) [entryNode p.2] live.marks live'.marks := by
  unfold walkEntry at hp
  unfold entryNode
  cases hmode : p.2.mode with
  | tree =>
    simp only [hmode] at hp ⊢
    exact htree live live' hp
  | manifest =>
    simp only [hmode, mapError_eq_ok] at hp ⊢
    exact marks_walkManifest hp
  | blob =>
    simp only [hmode] at hp ⊢
    cases hp
    exact marks_blob_list (fun h : Hash => h) [p.2.hash] live

/-- **What `walk_tree` adds.** -/
theorem marks_walkTree {fuel : Nat} (hwalk : walkTree K keys s fuel h live = .ok live') :
    Marks (graph K keys s) [.tree h] live.marks live'.marks := by
  induction fuel generalizing h live live' with
  | zero => cases hwalk
  | succ fuel ih =>
    by_cases hmem : h ∈ live.trees
    · rw [walkTree, if_pos hmem] at hwalk
      cases hwalk
      exact .skip hmem (.nil _)
    · rw [walkTree_succ fuel hmem, except_bind_eq_ok] at hwalk
      obtain ⟨body, hbody, hwalk⟩ := hwalk
      obtain ⟨tree, htree, hwalk⟩ := except_bind_eq_ok.1 hwalk
      rw [mapError_eq_ok] at hbody htree
      have hlinks : links K keys s (.tree h) =
          .ok (tree.entries.toList.map fun p => entryNode p.2) := by
        simp only [links, hbody, htree, bind, Except.bind]
      refine .visit (graph_eq_some.2 hlinks) ?_
      rw [List.append_nil, ← marks_trees]
      exact .of_foldlM (fun p _ _ _ hp => marks_walkEntry (fun _ _ => ih) hp) hwalk

/-- **Where `walk_tree` is refused**, something is reached that cannot be read. -/
theorem walkTree_error {fuel : Nat} {e : OmpError}
    (hwalk : walkTree K keys s fuel h live = .error (.err e)) :
    ∃ x, Reaches K keys s (.tree h) x ∧ ¬ Legible (graph K keys s) x := by
  induction fuel generalizing h live with
  | zero => cases hwalk
  | succ fuel ih =>
    by_cases hmem : h ∈ live.trees
    · rw [walkTree, if_pos hmem] at hwalk
      cases hwalk
    rw [walkTree_succ fuel hmem] at hwalk
    have hself : ∀ {e}, links K keys s (.tree h) = .error e →
        ∃ x, Reaches K keys s (.tree h) x ∧ ¬ Legible (graph K keys s) x := fun hlinks =>
      ⟨.tree h, .refl, not_legible_of_error hlinks⟩
    rcases except_bind_eq_error.1 hwalk with hbody | ⟨body, hbody, hwalk⟩
    · obtain ⟨e, hbody, -⟩ := mapError_eq_error.1 hbody
      exact hself (except_bind_eq_error.2 (.inl hbody))
    rw [mapError_eq_ok] at hbody
    rcases except_bind_eq_error.1 hwalk with htree | ⟨tree, htree, hwalk⟩
    · obtain ⟨e, htree, -⟩ := mapError_eq_error.1 htree
      exact hself
        (except_bind_eq_error.2 (.inr ⟨body, hbody, except_bind_eq_error.2 (.inl htree)⟩))
    rw [mapError_eq_ok] at htree
    have hlinks : links K keys s (.tree h) =
        .ok (tree.entries.toList.map fun p => entryNode p.2) := by
      simp only [links, hbody, htree, bind, Except.bind]
    -- it is refused at an entry
    obtain ⟨p, hp, live₁, -, hentry⟩ := exists_of_foldlM_error LiveSet.marks
      (fun p _ _ _ hp => marks_walkEntry (fun _ _ => marks_walkTree) hp) hwalk
    have hchild : ∃ x, Reaches K keys s (entryNode p.2) x ∧ ¬ Legible (graph K keys s) x := by
      unfold walkEntry at hentry
      unfold entryNode
      cases hmode : p.2.mode with
      | tree =>
        simp only [hmode] at hentry ⊢
        exact ih hentry
      | manifest =>
        simp only [hmode] at hentry ⊢
        obtain ⟨e, hentry, -⟩ := mapError_eq_error.1 hentry
        exact walkManifest_error hentry
      | blob =>
        simp only [hmode] at hentry
        cases hentry
    obtain ⟨x, hx, hno⟩ := hchild
    refine ⟨x, .head ?_ hx, hno⟩
    rw [succOf_of_eq (graph_eq_some.2 hlinks)]
    exact List.mem_map_of_mem hp

/-- **`walk_tree` ends**: it is no deeper than there are objects that are not marked. -/
theorem walkTree_ne_panic {fuel : Nat} (hfuel : (unmarked K s live.trees).card < fuel) :
    walkTree K keys s fuel h live ≠ .error .panic := by
  induction fuel generalizing h live with
  | zero => omega
  | succ fuel ih =>
    intro hwalk
    by_cases hmem : h ∈ live.trees
    · rw [walkTree, if_pos hmem] at hwalk
      cases hwalk
    rw [walkTree_succ fuel hmem] at hwalk
    rcases except_bind_eq_error.1 hwalk with hbody | ⟨body, hbody, hwalk⟩
    · obtain ⟨e, -, he⟩ := mapError_eq_error.1 hbody
      cases he
    rw [mapError_eq_ok] at hbody
    rcases except_bind_eq_error.1 hwalk with htree | ⟨tree, -, hwalk⟩
    · obtain ⟨e, -, he⟩ := mapError_eq_error.1 htree
      cases he
    obtain ⟨p, -, live₁, hle, hentry⟩ := exists_of_foldlM_error LiveSet.marks
      (fun p _ _ _ hp => marks_walkEntry (fun _ _ => marks_walkTree) hp) hwalk
    have hmarked : insert h live.trees ⊆ live₁.trees := fun g hg => hle (a := .tree g) hg
    have hless := card_unmarked_insert hbody hmem hmarked
    unfold walkEntry at hentry
    cases hmode : p.2.mode with
    | tree =>
      simp only [hmode] at hentry
      exact ih (by omega) hentry
    | manifest =>
      simp only [hmode] at hentry
      obtain ⟨e, -, he⟩ := mapError_eq_error.1 hentry
      cases he
    | blob =>
      simp only [hmode] at hentry
      cases hentry

/-! ### Commits -/

theorem walkCommits_cons (fuel : Nat) (queue : List Hash) (hno : h ∉ live.commits) :
    walkCommits K keys s (fuel + 1) (h :: queue) live = (do
      let body ← (fetch K s .commit h).mapError .err
      let commit ← (Commit.parseCommitHeaders K.toPlatform body).mapError .err
      let live ← walkTree K keys s (s.objects.length + 1) commit.tree
        { live with commits := insert h live.commits }
      walkCommits K keys s fuel (commit.parents.reverse ++ queue) live) := by
  rw [walkCommits, if_neg hno]

/-- **What the loop of `walk` adds.** -/
theorem marks_walkCommits {fuel : Nat} {queue : List Hash}
    (hwalk : walkCommits K keys s fuel queue live = .ok live') :
    Marks (graph K keys s) (queue.map .commit) live.marks live'.marks := by
  induction fuel generalizing queue live with
  | zero => cases hwalk
  | succ fuel ih =>
    cases queue with
    | nil =>
      cases hwalk
      exact .nil _
    | cons h queue =>
      by_cases hmem : h ∈ live.commits
      · rw [walkCommits, if_pos hmem] at hwalk
        exact .skip hmem (ih hwalk)
      · rw [walkCommits_cons fuel queue hmem, except_bind_eq_ok] at hwalk
        obtain ⟨body, hbody, hwalk⟩ := hwalk
        obtain ⟨commit, hcommit, hwalk⟩ := except_bind_eq_ok.1 hwalk
        obtain ⟨live₁, htree, hwalk⟩ := except_bind_eq_ok.1 hwalk
        rw [mapError_eq_ok] at hbody hcommit
        have hlinks : links K keys s (.commit h) =
            .ok (.tree commit.tree :: commit.parents.reverse.map .commit) := by
          simp only [links, hbody, hcommit, bind, Except.bind]
        refine .visit (graph_eq_some.2 hlinks) ?_
        rw [← marks_commits, List.cons_append, ← List.map_append, ← List.singleton_append]
        exact (marks_walkTree htree).append (ih hwalk)

/-- **Where the loop is refused**, something is reached that cannot be read. -/
theorem walkCommits_error {fuel : Nat} {queue : List Hash} {e : OmpError}
    (hwalk : walkCommits K keys s fuel queue live = .error (.err e)) :
    ∃ c ∈ queue, ∃ x, Reaches K keys s (.commit c) x ∧ ¬ Legible (graph K keys s) x := by
  induction fuel generalizing queue live with
  | zero => cases hwalk
  | succ fuel ih =>
    cases queue with
    | nil => cases hwalk
    | cons h queue =>
      by_cases hmem : h ∈ live.commits
      · rw [walkCommits, if_pos hmem] at hwalk
        obtain ⟨c, hc, hx⟩ := ih hwalk
        exact ⟨c, List.mem_cons_of_mem h hc, hx⟩
      rw [walkCommits_cons fuel queue hmem] at hwalk
      have hself : ∀ {e}, links K keys s (.commit h) = .error e → ∃ c ∈ h :: queue, ∃ x,
          Reaches K keys s (.commit c) x ∧ ¬ Legible (graph K keys s) x := fun hlinks =>
        ⟨h, List.mem_cons_self, .commit h, .refl, not_legible_of_error hlinks⟩
      rcases except_bind_eq_error.1 hwalk with hbody | ⟨body, hbody, hwalk⟩
      · obtain ⟨e, hbody, -⟩ := mapError_eq_error.1 hbody
        exact hself (except_bind_eq_error.2 (.inl hbody))
      rw [mapError_eq_ok] at hbody
      rcases except_bind_eq_error.1 hwalk with hcommit | ⟨commit, hcommit, hwalk⟩
      · obtain ⟨e, hcommit, -⟩ := mapError_eq_error.1 hcommit
        exact hself
          (except_bind_eq_error.2 (.inr ⟨body, hbody, except_bind_eq_error.2 (.inl hcommit)⟩))
      rw [mapError_eq_ok] at hcommit
      have hlinks : links K keys s (.commit h) =
          .ok (.tree commit.tree :: commit.parents.reverse.map .commit) := by
        simp only [links, hbody, hcommit, bind, Except.bind]
      have hstep : ∀ y ∈ (.tree commit.tree :: commit.parents.reverse.map .commit : List Node),
          y ∈ succOf (graph K keys s) (.commit h) := fun y hy => by
        rwa [succOf_of_eq (graph_eq_some.2 hlinks)]
      rcases except_bind_eq_error.1 hwalk with htree | ⟨live₁, -, hwalk⟩
      · obtain ⟨x, hx, hno⟩ := walkTree_error htree
        exact ⟨h, List.mem_cons_self, x, .head (hstep _ List.mem_cons_self) hx, hno⟩
      · obtain ⟨c, hc, x, hx, hno⟩ := ih hwalk
        rcases List.mem_append.1 hc with hc | hc
        · refine ⟨h, List.mem_cons_self, x, .head (hstep _ ?_) hx, hno⟩
          exact List.mem_cons_of_mem _ (List.mem_map_of_mem hc)
        · exact ⟨c, List.mem_cons_of_mem h hc, x, hx, hno⟩

/-- **The loop ends**, and more rounds change nothing. -/
theorem exists_fuel (K : KeyedWorld) (keys : Option TenantKeys) (s : Store) (queue : List Hash)
    (live : LiveSet) : ∃ n res, res ≠ .error .panic ∧
      ∀ fuel, n ≤ fuel → walkCommits K keys s fuel queue live = res := by
  -- by the number of commits that are not marked, and then by the length of the queue
  generalize hn : (unmarked K s live.commits).card = n
  induction n using Nat.strong_induction_on generalizing queue live with
  | _ n ihn =>
    induction queue with
    | nil =>
      refine ⟨1, .ok live, (fun h => by cases h), fun fuel hfuel => ?_⟩
      obtain ⟨k, rfl⟩ : ∃ k, fuel = k + 1 := ⟨fuel - 1, by omega⟩
      rfl
    | cons h queue ih =>
      by_cases hmem : h ∈ live.commits
      · obtain ⟨m, res, hres, hrun⟩ := ih
        refine ⟨m + 1, res, hres, fun fuel hfuel => ?_⟩
        obtain ⟨k, rfl⟩ : ∃ k, fuel = k + 1 := ⟨fuel - 1, by omega⟩
        rw [walkCommits, if_pos hmem]
        exact hrun k (by omega)
      -- a refusal does not depend on the rounds
      have hrefused : ∀ {e}, (∀ fuel, walkCommits K keys s (fuel + 1) (h :: queue) live =
          .error (.err e)) → ∃ n res, res ≠ .error .panic ∧
            ∀ fuel, n ≤ fuel → walkCommits K keys s fuel (h :: queue) live = res := by
        refine fun {e} hwalk => ⟨1, .error (.err e), (fun h => by cases h), fun fuel hfuel => ?_⟩
        obtain ⟨k, rfl⟩ : ∃ k, fuel = k + 1 := ⟨fuel - 1, by omega⟩
        exact hwalk k
      cases hbody : fetch K s .commit h with
      | error e =>
        refine hrefused (e := e) fun fuel => ?_
        rw [walkCommits_cons fuel queue hmem, hbody]
        rfl
      | ok body =>
        cases hcommit : Commit.parseCommitHeaders K.toPlatform body with
        | error e =>
          refine hrefused (e := e) fun fuel => ?_
          rw [walkCommits_cons fuel queue hmem, hbody]
          simp only [Except.mapError, bind, Except.bind, hcommit]
        | ok commit =>
          have hrun : ∀ fuel, walkCommits K keys s (fuel + 1) (h :: queue) live =
              (walkTree K keys s (s.objects.length + 1) commit.tree
                { live with commits := insert h live.commits } >>= fun live =>
                walkCommits K keys s fuel (commit.parents.reverse ++ queue) live) := fun fuel => by
            rw [walkCommits_cons fuel queue hmem, hbody]
            simp only [Except.mapError, bind, Except.bind, hcommit]
          cases htree : walkTree K keys s (s.objects.length + 1) commit.tree
              { live with commits := insert h live.commits } with
          | error f =>
            cases f with
            | panic => exact absurd htree (walkTree_ne_panic (card_unmarked_lt _))
            | err e =>
              refine hrefused (e := e) fun fuel => ?_
              rw [hrun, htree]
              rfl
          | ok live₁ =>
            have hmarked : insert h live.commits ⊆ live₁.commits :=
              commits_subset (marks_walkTree htree)
            obtain ⟨m, res, hres, hrest⟩ := ihn _ (hn ▸ card_unmarked_insert hbody hmem hmarked)
              (commit.parents.reverse ++ queue) live₁ rfl
            refine ⟨m + 1, res, hres, fun fuel hfuel => ?_⟩
            obtain ⟨k, rfl⟩ : ∃ k, fuel = k + 1 := ⟨fuel - 1, by omega⟩
            rw [hrun, htree]
            exact hrest k (by omega)

/-! ### Shares -/

theorem shares_walkManifest (hwalk : walkManifest K keys s h live = .ok live') :
    live'.shares = live.shares := by
  unfold walkManifest at hwalk
  split_ifs at hwalk
  · cases hwalk
    rfl
  obtain ⟨body, -, hwalk⟩ := except_bind_eq_ok.1 hwalk
  obtain ⟨o, -, hwalk⟩ := except_bind_eq_ok.1 hwalk
  cases o with
  | none =>
    cases hwalk
    rfl
  | some m =>
    dsimp only at hwalk
    unfold walkSource at hwalk
    split at hwalk
    · cases hwalk
    · cases hwalk
      rfl
    · obtain ⟨parsed, -, hwalk⟩ := except_bind_eq_ok.1 hwalk
      cases hwalk
      rfl
    · cases hwalk

theorem foldlM_shares {β : Type} {f : LiveSet → β → Except (Fault OmpError) LiveSet} {l : List β}
    (hf : ∀ live b live', f live b = .ok live' → live'.shares = live.shares)
    (h : l.foldlM f live = .ok live') : live'.shares = live.shares := by
  induction l generalizing live with
  | nil =>
    cases h
    rfl
  | cons b l ih =>
    rw [List.foldlM_cons] at h
    obtain ⟨live₁, hb, h⟩ := except_bind_eq_ok.1 h
    exact (ih h).trans (hf live b live₁ hb)

theorem shares_walkTree {fuel : Nat} (hwalk : walkTree K keys s fuel h live = .ok live') :
    live'.shares = live.shares := by
  induction fuel generalizing h live live' with
  | zero => cases hwalk
  | succ fuel ih =>
    by_cases hmem : h ∈ live.trees
    · rw [walkTree, if_pos hmem] at hwalk
      cases hwalk
      rfl
    · rw [walkTree_succ fuel hmem, except_bind_eq_ok] at hwalk
      obtain ⟨body, -, hwalk⟩ := hwalk
      obtain ⟨tree, -, hwalk⟩ := except_bind_eq_ok.1 hwalk
      refine (foldlM_shares (fun live p live' hp => ?_) hwalk).trans rfl
      unfold walkEntry at hp
      split at hp
      · exact ih hp
      · exact shares_walkManifest (mapError_eq_ok.1 hp)
      · cases hp
        rfl

/-- The loop leaves the shares alone. -/
theorem shares_walkCommits {fuel : Nat} {queue : List Hash}
    (hwalk : walkCommits K keys s fuel queue live = .ok live') : live'.shares = live.shares := by
  induction fuel generalizing queue live with
  | zero => cases hwalk
  | succ fuel ih =>
    cases queue with
    | nil =>
      cases hwalk
      rfl
    | cons h queue =>
      by_cases hmem : h ∈ live.commits
      · rw [walkCommits, if_pos hmem] at hwalk
        exact ih hwalk
      · rw [walkCommits_cons fuel queue hmem, except_bind_eq_ok] at hwalk
        obtain ⟨body, -, hwalk⟩ := hwalk
        obtain ⟨commit, -, hwalk⟩ := except_bind_eq_ok.1 hwalk
        obtain ⟨live₁, htree, hwalk⟩ := except_bind_eq_ok.1 hwalk
        have hshares := shares_walkTree htree
        exact (ih hwalk).trans hshares

/-! ### The walk -/

variable (K keys s) in
/-- What is reached from some commits. -/
def reached (roots : List Hash) : Set Node := {x | ∃ c ∈ roots, Reaches K keys s (.commit c) x}

theorem marks_empty : (⟨∅, ∅, ∅, ∅, ∅, ∅⟩ : LiveSet).marks = ∅ := by
  ext x
  cases x <;> simp [LiveSet.marks, LiveSet.Marked]

/-- A live set without anything else that is marked than what is reached. -/
structure Exact (K : KeyedWorld) (keys : Option TenantKeys) (s : Store) (roots shares : List Hash)
    (live : LiveSet) : Prop where
  /-- What is marked is what is reached from the roots. -/
  marks : live.marks = reached K keys s roots
  /-- All of it can be read. -/
  legible : ∀ x ∈ live.marks, Legible (graph K keys s) x
  /-- The shares are those that were given. -/
  shares : live.shares = shares.toFinset

/-- **A walk that succeeds marks what is reached**, all of which it has read. -/
theorem exact_of_walk {fuel : Nat} {roots shares : List Hash}
    (hwalk : walk K fuel keys s roots shares = .ok live) : Exact K keys s roots shares live := by
  obtain ⟨live₁, hcommits, hlive⟩ := except_bind_eq_ok.1 hwalk
  have hmarks := marks_walkCommits hcommits
  rw [marks_empty] at hmarks
  have hmem : ∀ x, x ∈ live₁.marks ↔ x ∈ reached K keys s roots := by
    intro x
    rw [hmarks.mem_iff]
    constructor
    · rintro ⟨q, hq, hx⟩
      obtain ⟨c, hc, rfl⟩ := List.mem_map.1 hq
      exact ⟨c, List.mem_reverse.1 hc, hx⟩
    · rintro ⟨c, hc, hx⟩
      exact ⟨.commit c, List.mem_map_of_mem (List.mem_reverse.2 hc), hx⟩
  -- the loop leaves the shares alone
  have hshares : live₁.shares = ∅ := shares_walkCommits hcommits
  cases hlive
  refine ⟨Set.ext fun x => ?_, fun x hx => hmarks.read x ?_ (Set.notMem_empty x), ?_⟩
  · rw [← hmem x]
    cases x <;> rfl
  · cases x <;> exact hx
  · ext g
    rw [mem_foldl_insert (fun h : Hash => h), hshares]
    simp

/-- **Where a walk is refused**, something is reached that cannot be read. -/
theorem exists_of_walk_error {fuel : Nat} {roots shares : List Hash} {e : OmpError}
    (hwalk : walk K fuel keys s roots shares = .error (.err e)) :
    ∃ x ∈ reached K keys s roots, ¬ Legible (graph K keys s) x := by
  rcases except_bind_eq_error.1 hwalk with hcommits | ⟨live, -, hlive⟩
  · obtain ⟨c, hc, x, hx, hno⟩ := walkCommits_error hcommits
    exact ⟨x, ⟨c, List.mem_reverse.1 hc, hx⟩, hno⟩
  · cases hlive

theorem eq_of_marks (hmarks : live.marks = live'.marks)
    (hshares : live.shares = live'.shares) : live = live' := by
  have hiff : ∀ x, live.Marked x ↔ live'.Marked x := fun x => Set.ext_iff.1 hmarks x
  obtain ⟨commits, trees, manifests, chunksObjects, blobs, shares⟩ := live
  obtain ⟨commits', trees', manifests', chunksObjects', blobs', shares'⟩ := live'
  simp only [LiveSet.mk.injEq]
  exact ⟨Finset.ext fun h => hiff (.commit h), Finset.ext fun h => hiff (.tree h),
    Finset.ext fun h => hiff (.manifest h), Finset.ext fun h => hiff (.chunksObject h),
    Finset.ext fun h => hiff (.blob h), hshares⟩

end Gc

end Omp
