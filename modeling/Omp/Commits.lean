import Omp.Heads
import Omp.Orderly

/-!
# What a commit makes of the index

A commit puts what is staged into HEAD's tree.  The pass works in the middle of it, on the index
and not on what was staged: the manifest of a file that it rebuilds takes the place of a change that
was staged for the same path.

## Main definitions

* `Repo.Rebuilds` : the files of HEAD a commit may rebuild.
* `Repo.Over` : a path is at or above another one.
* `Retains` : all staged changes are in a tree.

## Main results

* `Repo.committed_of_ok` : the tree of a commit is HEAD's with the edits of the index.
* `Repo.staged_retained` : nothing staged is lost where nothing staged is rebuilt.
* `Repo.staged_replaced` : a file that is staged and rebuilt keeps the bytes of HEAD.
-/

namespace Omp

open Lib RepoScript

variable (W : World) (env : Env)

/-! ### The index of a commit -/

/-- What the pass makes of an index: nothing, or what it comes to. -/
inductive Reprobed (r : Repo) (idx : Index) : Index → List ReprobeSummary → Store → Prop
  | kept (h : env.deferReprobe = true ∨ Repo.stagedSchemas (env.order idx) = []) :
    Reprobed r idx idx [] r.store
  | passed {heads : TextMap Schema} {ctx : PassContext} {files : List (Text × Hash)}
      {ps : List (NewSchema × List (Text × FileOutcome))} {cache : ProbeOutputCache} {s : Store}
      (hdefer : env.deferReprobe = false)
      (hinputs : r.passInputs W env = .ok (heads, ctx, files))
      (hpasses : Passes W ctx heads files r.store [] (Repo.stagedSchemas (env.order idx)) ps
        cache s)
      (hall : AllRecordable ps) :
    Reprobed r idx (rebuiltIn (ps.flatMap Prod.snd) idx) (ps.map summaryOf) s

section Reprobed

variable {W env} {r r' : Repo} {idx : Index}

theorem reprobed_of_ok {res : Index × List ReprobeSummary}
    (hrun : ((Repo.reprobed W env idx).run (Action.op W)).run r = (.ok res, r')) :
    ∃ s, r' = { r with store := s } ∧ Reprobed W env r idx res.1 res.2 s := by
  unfold Repo.reprobed at hrun
  split_ifs at hrun with hdefer
  · obtain ⟨rfl, rfl⟩ := Op.pure_eq_ok.1 hrun
    exact ⟨_, rfl, .kept (.inl hdefer)⟩
  · unfold Repo.autoReprobe at hrun
    dsimp only at hrun
    split_ifs at hrun with hnone
    · obtain ⟨rfl, rfl⟩ := Op.pure_eq_ok.1 hrun
      exact ⟨_, rfl, .kept (.inr hnone)⟩
    · obtain ⟨⟨heads, ctx, files⟩, hinputs, hrun⟩ := inspect_eq_ok.1 hrun
      obtain ⟨tot, s, hs, hrun⟩ := objects_eq_ok.1 hrun
      obtain ⟨rfl, rfl⟩ := Op.pure_eq_ok.1 hrun
      obtain ⟨ps, cache, hpasses, hall, rfl⟩ := passes_of_ok hs
      exact ⟨s, rfl, .passed (Bool.eq_false_iff.2 hdefer) hinputs hpasses hall⟩

theorem Reprobed.addsManifests {idx' : Index} {summaries : List ReprobeSummary} {s : Store}
    (h : Reprobed W env r idx idx' summaries s) : r.store.AddsManifests s := by
  cases h with
  | kept => exact .refl _
  | passed _ _ hpasses => exact hpasses.addsManifests

end Reprobed

/-! ### The tree of a commit -/

/-- What a commit that succeeds has done: it has put the edits of an index into HEAD's leaves. -/
structure CommitOf (r r' : Repo) (commit : Hash) (summaries : List ReprobeSummary) (idx : Index)
    (s : Store) (head : Option Hash) (L M : Leaves Text Entry) (root : Hash) : Prop where
  /-- The index is what the pass made of the one that was staged. -/
  reprobed : Reprobed W env r r.index idx summaries s
  orderly : OrderlyIndex W s idx
  le : s ≤ r'.store
  headTree : ({ r with store := s } : Repo).headTree W = .ok head
  /-- HEAD's leaves. -/
  before : RootAt W.toPlatform s none True True head L
  edits : L.applyAll Writable ((env.order idx).map (edit W.toPlatform s)) = some M
  /-- The leaves of the commit. -/
  after : RootAt W.toPlatform r'.store none True True (some root) M
  tree : Repo.commitTree W r'.store commit = .ok root

section Committed

variable {W env} {full : Prop} {r r' : Repo}

/-- The tree of a commit that is stored. -/
theorem Repo.commitTree_of_mem {s : Store} (hC : s.CollisionFree W.toPlatform) {c : Commit}
    (hmem : ⟨.commit, c.serialize⟩ ∈ s.objects) :
    Repo.commitTree W s (hashOf W.toPlatform .commit c.serialize) = .ok c.tree := by
  have hget : Repo.getCommit W s (hashOf W.toPlatform .commit c.serialize) = .ok c.serialize := by
    have hfind : s.get W.toPlatform (hashOf W.toPlatform .commit c.serialize) =
        some ⟨.commit, c.serialize⟩ := Cas.find_of_mem hC hmem
    rw [Repo.getCommit, hfind]
    rfl
  exact except_bind_eq_ok.2 ⟨_, hget, treeHeader_serialize _ _ c⟩

/-- **The tree of a commit is HEAD's with the edits of the index**, as the pass has left it. -/
theorem Repo.Orderly.commitOf (hr : r.Orderly W full) {message : Text} {author : AuthorOverride}
    {res : Hash × List ReprobeSummary}
    (hrun : ((Repo.commit W env message author).run (Action.op W)).run r = (.ok res, r'))
    (hC : r'.store.CollisionFree W.toPlatform) :
    ∃ idx s head L M root, CommitOf W env r r' res.1 res.2 idx s head L M root := by
  obtain ⟨⟨root, author', summaries⟩, r₁, hbuilt, hrun⟩ := (Script.run_bind_eq_ok _).1 hrun
  obtain ⟨h, r₂, hpublish, hrun⟩ := (Script.run_bind_eq_ok _).1 hrun
  obtain ⟨rfl, rfl⟩ := Op.pure_eq_ok.1 hrun
  obtain ⟨-, -, idx, o, s, s', hpass, ho, hbuild, rfl⟩ := Repo.buildCommit_eq_ok.1 hbuilt
  obtain ⟨tree, parent, ra, hroot, -, rfl, -, rfl⟩ := Repo.publish_eq_ok.1 hpublish
  cases hroot
  have hle : s ≤ s' := Op.le_of_run hbuild
  have hC' : s'.CollisionFree W.toPlatform := hC.down (List.prefix_append _ _)
  obtain ⟨hr₁, hidx⟩ := (settles_reprobed hr hr.staged).ok hpass (hC'.down hle)
  obtain ⟨s₁, heq, hreprobed⟩ := reprobed_of_ok hpass
  obtain rfl : s = s₁ := congrArg Repo.store heq
  obtain ⟨L, hL⟩ := hr₁.exists_leaves ho
  obtain ⟨o', M, ho', hM, hafter⟩ | ⟨⟨_, herr⟩, -⟩ :=
    buildTree_spec (fun h => absurd rfl h) (fun _ => hidx.applicable) hL hbuild hC'
  · cases ho'
    exact ⟨idx, s, o, L, M, tree, hreprobed, hidx, hle.trans (List.prefix_append _ _), ho, hL, hM,
      hafter.mono (List.prefix_append _ _),
      Repo.commitTree_of_mem (c := ⟨tree, parent.toList, author', message⟩) hC
        (List.mem_append_right _ (List.mem_singleton.2 rfl))⟩
  · cases herr

end Committed

/-! ### The files of HEAD -/

section Heads

variable {W env} {full : Prop} {r r' : Repo}

theorem Repo.headTree_mono {s : Store} (hle : r.store ≤ s) {o : Option Hash}
    (h : r.headTree W = .ok o) : ({ r with store := s } : Repo).headTree W = .ok o := by
  obtain ⟨commit, hcommit, h⟩ := except_bind_eq_ok.1 h
  refine except_bind_eq_ok.2 ⟨commit, hcommit, ?_⟩
  cases commit with
  | none => exact h
  | some commit =>
    obtain ⟨root, hroot, h⟩ := except_bind_eq_ok.1 h
    exact except_bind_eq_ok.2 ⟨root, Repo.commitTree_mono hle hroot, h⟩

/-- **The files the pass goes through** are the manifests among HEAD's leaves. -/
theorem Repo.mem_headManifests_iff {o : Option Hash} (ho : r.headTree W = .ok o)
    {L : Leaves Text Entry} (hL : RootAt W.toPlatform r.store none True True o L)
    {files : List (Text × Hash)} (hfiles : r.headManifests W = .ok files) {path : Text}
    {hash : Hash} :
    (path, hash) ∈ files ↔ ∃ q, L q = some ⟨.manifest, hash⟩ ∧ path = joinWith '/' q ∧
      split W.toPlatform path = .ok q := by
  obtain ⟨o', ho', hfiles⟩ := except_bind_eq_ok.1 hfiles
  cases ho.symm.trans (mapError_eq_ok.1 ho')
  cases o with
  | none =>
    cases hfiles
    obtain rfl : L = Leaves.empty := hL
    simp [Leaves.empty]
  | some top =>
    obtain ⟨leaves, hwalk, hfiles⟩ := except_bind_eq_ok.1 hfiles
    cases hfiles
    rw [List.mem_filterMap]
    constructor
    · rintro ⟨⟨p, e⟩, hmem, hmode⟩
      split_ifs at hmode with hmanifest
      cases hmode
      obtain ⟨q, hq, hpath, hsplit⟩ := (mem_walk_iff hL.1 hwalk).1 hmem
      obtain ⟨mode, hash⟩ := e
      obtain rfl : mode = .manifest := hmanifest
      exact ⟨q, hq, hpath, hsplit⟩
    · rintro ⟨q, hq, hpath, hsplit⟩
      exact ⟨(path, ⟨.manifest, hash⟩), (mem_walk_iff hL.1 hwalk).2 ⟨q, hq, hpath, hsplit⟩,
        if_pos rfl⟩

theorem CommitOf.mem_files {commit : Hash} {summaries : List ReprobeSummary} {idx : Index}
    {s : Store} {head : Option Hash} {L M : Leaves Text Entry} {root : Hash}
    (h : CommitOf W env r r' commit summaries idx s head L M root) (hr : r.Orderly W full)
    (hC : r'.store.CollisionFree W.toPlatform) {files : List (Text × Hash)}
    (hfiles : r.headManifests W = .ok files) {path : Text} {hash : Hash} :
    (path, hash) ∈ files ↔ ∃ q, L q = some ⟨.manifest, hash⟩ ∧ path = joinWith '/' q ∧
      split W.toPlatform path = .ok q := by
  have hle : r.store ≤ s := h.reprobed.addsManifests.le
  obtain ⟨o, ho, -⟩ := except_bind_eq_ok.1 hfiles
  rw [mapError_eq_ok] at ho
  cases h.headTree.symm.trans (Repo.headTree_mono hle ho)
  obtain ⟨L', hL'⟩ := hr.exists_leaves ho
  obtain rfl : L' = L := RootAt.det (fun _ => Cas.mem_mono hle) (fun _ => id) (hC.down h.le) hL'
    h.before
  exact Repo.mem_headManifests_iff ho hL' hfiles

/-- A manifest of HEAD is stored. -/
theorem Repo.Orderly.exists_get_of_mem_files (hr : r.Orderly W full) {files : List (Text × Hash)}
    (hfiles : r.headManifests W = .ok files) {file : Text × Hash} (hfile : file ∈ files) :
    ∃ o, r.store.get W.toPlatform file.2 = some o := by
  obtain ⟨o, ho, hfiles⟩ := except_bind_eq_ok.1 hfiles
  rw [mapError_eq_ok] at ho
  cases o with
  | none =>
    cases hfiles
    cases hfile
  | some top =>
    obtain ⟨L, hL⟩ := hr.headTree ho top rfl
    obtain ⟨leaves, hwalk, hfiles⟩ := except_bind_eq_ok.1 hfiles
    cases hfiles
    obtain ⟨⟨p, e⟩, hmem, hmode⟩ := List.mem_filterMap.1 hfile
    split_ifs at hmode with hmanifest
    cases hmode
    obtain ⟨q, hq, -⟩ := (mem_walk_iff hL.rootAt.1 hwalk).1 hmem
    exact exists_get_of_storedMode (hL.held q e hq).stored

end Heads

/-! ### What is rebuilt -/

/-- A commit may rebuild a file of HEAD: with some contents of the probe cache, the pass rebuilds
its manifest against a staged schema that differs from HEAD's. -/
def Repo.Rebuilds (r : Repo) (path : Text) : Prop :=
  env.deferReprobe = false ∧ ∃ heads ctx files n file cache hash cache' s',
    r.passInputs W env = .ok (heads, ctx, files) ∧
    Changes W heads r.store (Repo.stagedSchemas (env.order r.index)) n ∧
    file ∈ files ∧ file.1 = path ∧ Reprobes W ctx n r.store cache file (.rebuilt hash) cache' s'

section Rebuilds

variable {W env} {full : Prop} {r r' : Repo}

/-- A staged schema is stored. -/
theorem OrderlyIndex.exists_get_of_mem {s : Store} {idx : Index} (h : OrderlyIndex W s idx)
    {x : Text × Hash} (hx : x ∈ Repo.stagedSchemas (env.order idx)) :
    ∃ o, s.get W.toPlatform x.2 = some o := by
  obtain ⟨c, hc, hx⟩ := List.mem_filterMap.1 hx
  obtain ⟨⟨path, c'⟩, hmem, rfl⟩ := List.mem_map.1 ((env.order_perm idx).mem_iff.1 hc)
  obtain ⟨-, happlicable⟩ := h path c' (TextMap.mem_toList.1 hmem)
  dsimp only at hx
  split_ifs at hx with hkind
  · cases hx
  rw [not_not] at hkind
  obtain ⟨hash, mode, hhash, hmode, -⟩ := happlicable.stored hkind
  obtain ⟨stem, -, hx⟩ := Option.bind_eq_some_iff.1 hx
  obtain ⟨hash', hhash', hx⟩ := Option.bind_eq_some_iff.1 hx
  cases hx
  cases hhash.symm.trans hhash'
  exact exists_get_of_storedMode hmode

/-- A rebuild does not need the manifests that were rebuilt before it. -/
theorem Reprobes.down {ctx : PassContext} {n : NewSchema} {s s₁ s₂ : Store}
    {cache cache' : ProbeOutputCache} {file : Text × Hash} {hash : Hash}
    (h : Reprobes W ctx n s₁ cache file (.rebuilt hash) cache' s₂) (hs : s.AddsManifests s₁)
    (hfile : ∃ o, s.get W.toPlatform file.2 = some o) :
    ∃ s', Reprobes W ctx n s cache file (.rebuilt hash) cache' s' := by
  obtain ⟨o', hold⟩ := hfile
  cases h with
  | rebuilt hget hparse htype hhash hbuild hbytes =>
    obtain ⟨source, hsource, -⟩ := reprobeManifest_eq_ok hbuild
    refine ⟨_, .rebuilt (hs.get_of_some hold hget) hparse htype hhash ?_ hbytes⟩
    have hsource' := hs.get_of_ne hsource (by simp)
    rw [reprobeManifest, hsource] at hbuild
    rw [reprobeManifest, hsource']
    exact hbuild

/-- **The index of a commit** is the one that was staged, but for the files that are rebuilt. -/
theorem Reprobed.index_cases (hr : r.Orderly W full) {idx : Index}
    {summaries : List ReprobeSummary} {s : Store}
    (h : Reprobed W env r r.index idx summaries s) (path : Text) :
    idx[path]? = r.index[path]? ∨
      r.Rebuilds W env path ∧ ∃ hash, idx[path]? = some ⟨path, .upsert, some hash⟩ := by
  cases h with
  | kept => exact .inl rfl
  | @passed heads ctx files ps cache s hdefer hinputs hpasses hall =>
    obtain hsame | ⟨hash, hmem, hnew⟩ := getElem?_rebuiltIn (ps.flatMap Prod.snd) r.index path
    · exact .inl hsame
    refine .inr ⟨⟨hdefer, ?_⟩, hash, hnew⟩
    obtain ⟨p, hp, hq⟩ := List.mem_flatMap.1 hmem
    obtain ⟨s₁, c₁, c₂, s₂, hs₁, hchanges, hout, -⟩ := hpasses.exists_changes hp
    obtain ⟨file, hfile, hpath, s₃, c₃, c₄, s₄, hs₃, hreprobes, -⟩ := hout.exists_reprobes hq
    have hfiles := Repo.headManifests_of_passInputs hinputs
    obtain ⟨s', hreprobes'⟩ := hreprobes.down (hs₁.trans hs₃)
      (hr.exists_get_of_mem_files hfiles hfile)
    obtain ⟨x, hx, o, schema, hget, hparse, hdiff, hn⟩ := hchanges
    obtain ⟨o', hold⟩ := hr.staged.exists_get_of_mem hx
    exact ⟨_, _, _, p.1, file, c₃, hash, c₄, s', hinputs,
      ⟨x, hx, o, schema, hs₁.get_of_some hold hget, hparse, hdiff, hn⟩, hfile, hpath, hreprobes'⟩

end Rebuilds

/-! ### What is staged is committed -/

/-- A path is at or above another one. -/
def Over (q p : Text) : Prop :=
  ∃ qs ps, split W.toPlatform q = .ok qs ∧ split W.toPlatform p = .ok ps ∧ qs <+: ps

/-- All staged changes are in a tree. -/
def Retains (s : Store) (root : Hash) (idx : Index) : Prop :=
  ∀ (path : Text) c, idx[path]? = some c → match c.kind with
    | .upsert => ∃ e, getAt W.toPlatform s none path root = .ok (some e) ∧ c.hash = some e.hash
    | .delete => getAt W.toPlatform s none path root = .ok none

section Retained

variable {W env} {full : Prop} {r r' : Repo} {commit : Hash} {summaries : List ReprobeSummary}
  {idx : Index} {s : Store} {head : Option Hash} {L M : Leaves Text Entry} {root : Hash}

theorem mem_edits (W : World) (env : Env) (s : Store) {path : Text} {c : StagedChange}
    (hc : idx[path]? = some c) :
    edit W.toPlatform s c ∈ (env.order idx).map (edit W.toPlatform s) := by
  refine List.mem_map_of_mem ((env.order_perm idx).mem_iff.2 ?_)
  exact List.mem_map.2 ⟨(path, c), TextMap.mem_toList.2 hc, rfl⟩

/-- **An edit of a commit** is a staged one, or puts the manifest of a file that is rebuilt. -/
theorem CommitOf.edit_cases (h : CommitOf W env r r' commit summaries idx s head L M root)
    (hr : r.Orderly W full) {f : Edit Text Entry}
    (hf : f ∈ (env.order idx).map (edit W.toPlatform s)) :
    ∃ (path : Text) (c : StagedChange), split W.toPlatform path = .ok f.1 ∧
      f = edit W.toPlatform s c ∧ (f.2 ≠ none ↔ c.kind = .upsert) ∧
      (r.index[path]? = some c ∨ r.Rebuilds W env path ∧ c.kind = .upsert) := by
  obtain ⟨c, hc, rfl⟩ := List.mem_map.1 hf
  obtain ⟨⟨path, c'⟩, hmem, rfl⟩ := List.mem_map.1 ((env.order_perm idx).mem_iff.1 hc)
  have hget := TextMap.mem_toList.1 hmem
  obtain ⟨rfl, happlicable⟩ := h.orderly path c' hget
  obtain ⟨parts, hsplit, -⟩ := happlicable.split
  have hedit : (edit W.toPlatform s c').1 = parts := by simp [edit, hsplit, Except.toOption]
  refine ⟨c'.path, c', hedit ▸ hsplit, rfl, happlicable.edit_ne_none_iff, ?_⟩
  obtain hsame | ⟨hrebuilds, hash, hnew⟩ := h.reprobed.index_cases hr c'.path
  · exact .inl (hsame ▸ hget)
  · rw [hget, Option.some.injEq] at hnew
    exact .inr ⟨hrebuilds, by rw [hnew]⟩

/-- A file that is rebuilt is a leaf of HEAD. -/
theorem CommitOf.leaf_of_rebuilds (h : CommitOf W env r r' commit summaries idx s head L M root)
    (hr : r.Orderly W full) (hC : r'.store.CollisionFree W.toPlatform) {path : Text}
    (hpath : r.Rebuilds W env path) {parts : List Text}
    (hsplit : split W.toPlatform path = .ok parts) : L parts ≠ none := by
  obtain ⟨-, heads, ctx, files, n, file, cache, hash, cache', s', hinputs, -, hfile, rfl, -⟩ :=
    hpath
  have hfiles := Repo.headManifests_of_passInputs hinputs
  obtain ⟨q, hq, -, hq'⟩ := (h.mem_files hr hC hfiles).1 hfile
  cases hsplit.symm.trans hq'
  rw [hq]
  exact Option.some_ne_none _

theorem mem_of_staged {path : Text} {c : StagedChange} (h : r.index[path]? = some c) :
    path ∈ r.index := by
  rw [Std.ExtTreeMap.mem_iff_isSome_getElem?, h]
  rfl

/-- A change that is staged where nothing is rebuilt is in the index of the commit. -/
theorem CommitOf.index_eq (h : CommitOf W env r r' commit summaries idx s head L M root)
    (hr : r.Orderly W full) {path : Text} {c : StagedChange} (hc : r.index[path]? = some c)
    (hfree : ¬ r.Rebuilds W env path) : idx[path]? = some c := by
  obtain hsame | ⟨hpath, -⟩ := h.reprobed.index_cases hr path
  · rw [hsame, hc]
  · exact absurd hpath hfree

/-- **No other edit is at or above a write that is staged**, if the commit succeeds. -/
theorem CommitOf.eq_of_above (h : CommitOf W env r r' commit summaries idx s head L M root)
    (hr : r.Orderly W full) (hC : r'.store.CollisionFree W.toPlatform) {path : Text}
    {c : StagedChange} (hc : r.index[path]? = some c) (hkind : c.kind = .upsert)
    {parts : List Text} (hsplit : split W.toPlatform path = .ok parts)
    (hparts : (edit W.toPlatform s c).1 = parts)
    (hfree : ∀ q, r.Rebuilds W env q → split W.toPlatform q ≠ .ok parts)
    (hover : ∀ q : Text, q ∈ r.index → Over W q path → q = path) {f : Edit Text Entry}
    (hf : f ∈ (env.order idx).map (edit W.toPlatform s)) (habove : f.1 <+: parts) :
    f = edit W.toPlatform s c := by
  obtain ⟨q, c', hsplit', rfl, -, hstaged | ⟨hq, -⟩⟩ := h.edit_cases hr hf
  · obtain rfl := hover q (mem_of_staged hstaged) ⟨_, _, hsplit', hsplit, habove⟩
    rw [hstaged, Option.some.injEq] at hc
    rw [hc]
  · -- a file of HEAD stands above the write, and no deletion is staged at or above the file
    have hne : (edit W.toPlatform s c').1 ≠ parts := fun heq => hfree q hq (heq ▸ hsplit')
    have hdel : ∀ p, (p, none) ∈ (env.order idx).map (edit W.toPlatform s) →
        ¬ p <+: (edit W.toPlatform s c').1 := by
      intro p hp hpre
      obtain ⟨path₂, c₂, hsplit₂, -, hput, hstaged | ⟨-, hkind₂⟩⟩ := h.edit_cases hr hp
      · obtain rfl := hover path₂ (mem_of_staged hstaged)
          ⟨_, _, hsplit₂, hsplit, hpre.trans habove⟩
        cases hsplit.symm.trans hsplit₂
        exact hne (habove.eq_of_length_le hpre.length_le)
      · exact hput.2 hkind₂ rfl
    have hidx := h.index_eq hr hc fun hpath => hfree path hpath hsplit
    obtain ⟨e, he⟩ := Option.ne_none_iff_exists'.1
      (((h.orderly path c hidx).2.edit_ne_none_iff).2 hkind)
    have hput : (parts, some e) ∈ (env.order idx).map (edit W.toPlatform s) := by
      have hmem := mem_edits W env s hidx
      rwa [← hparts, ← he]
    have hnone : L.applyAll Writable ((env.order idx).map (edit W.toPlatform s)) = none :=
      Leaves.applyAll_eq_none_of_doomed hput
        (.inr ⟨_, habove, hne, h.leaf_of_rebuilds hr hC hq hsplit', hdel⟩)
    cases hnone.symm.trans h.edits

/-- What stands at a leaf is read there. -/
theorem RootAt.getAt_of_leaf {P : Platform} {s : Store} {key : Option Key} {canon : Prop}
    {root : Hash} {L : Leaves Text Entry} (hL : RootAt P s key full canon (some root) L)
    {path : Text} {parts : List Text} (hsplit : split P path = .ok parts) {e : Entry}
    (hleaf : L parts = some e) : getAt P s key path root = .ok (some e) := by
  have hne : parts ≠ [] := by
    rintro rfl
    rw [hL.nil] at hleaf
    cases hleaf
  obtain ⟨e', hget, hreads⟩ := getAt_spec hsplit hne hL.1
  obtain ⟨rfl, -⟩ := hreads.leaf_iff.1 hleaf
  exact hget

/-- **A write that is staged is in the tree**, if nothing else is staged at or above its path and
no file there is rebuilt. -/
theorem CommitOf.getAt_of_upsert (h : CommitOf W env r r' commit summaries idx s head L M root)
    (hr : r.Orderly W full) (hC : r'.store.CollisionFree W.toPlatform) {path : Text}
    {c : StagedChange} (hc : r.index[path]? = some c) (hkind : c.kind = .upsert)
    (hfree : ∀ q, r.Rebuilds W env q → split W.toPlatform q ≠ split W.toPlatform path)
    (hover : ∀ q : Text, q ∈ r.index → Over W q path → q = path) :
    ∃ e, getAt W.toPlatform r'.store none path root = .ok (some e) ∧ c.hash = some e.hash ∧
      storedMode W.toPlatform s e.hash = .ok e.mode := by
  have hidx := h.index_eq hr hc fun hpath => hfree path hpath rfl
  obtain ⟨rfl, happlicable⟩ := h.orderly path c hidx
  obtain ⟨parts, hsplit, -⟩ := happlicable.split
  have hparts : (edit W.toPlatform s c).1 = parts := by simp [edit, hsplit, Except.toOption]
  obtain ⟨hash, mode, hhash, hmode, -⟩ := happlicable.stored hkind
  have hleaf := Leaves.applyAll_apply h.edits (mem_edits W env s hidx) fun f hf habove =>
    h.eq_of_above hr hC hc hkind hsplit hparts (fun q hq => hsplit ▸ hfree q hq) hover hf
      (hparts ▸ habove)
  have hedit : (edit W.toPlatform s c).2 = some ⟨mode, hash⟩ := by
    simp [edit, hkind, hhash, hmode, Except.toOption]
  rw [hparts, hedit] at hleaf
  exact ⟨⟨mode, hash⟩, h.after.getAt_of_leaf hsplit hleaf, hhash, hmode⟩

variable (hrebuilds : ∀ p q : Text, p ∈ r.index → r.Rebuilds W env q → ¬ Over W p q)
  (hnested : ∀ p q : Text, p ∈ r.index → q ∈ r.index → Over W p q → p = q)
include hrebuilds hnested

/-- **What is staged at a path is in the tree**, if nothing else reaches the path. -/
theorem CommitOf.retains (h : CommitOf W env r r' commit summaries idx s head L M root)
    (hr : r.Orderly W full) (hC : r'.store.CollisionFree W.toPlatform) :
    Retains W r'.store root r.index := by
  intro path c hc
  obtain ⟨rfl, happlicable⟩ := hr.staged path c hc
  obtain ⟨parts, hsplit, hne, -⟩ := happlicable.split
  -- a file that is rebuilt is not where a change is staged
  have hfree : ∀ q, r.Rebuilds W env q → split W.toPlatform q ≠ split W.toPlatform c.path :=
    fun q hq heq => hrebuilds c.path q (mem_of_staged hc) hq
      ⟨parts, parts, hsplit, heq.trans hsplit, List.prefix_rfl⟩
  cases hkind : c.kind with
  | upsert =>
    obtain ⟨e, hget, hhash, -⟩ := h.getAt_of_upsert hr hC hc hkind hfree
      fun q hq hover => hnested q c.path hq (mem_of_staged hc) hover
    exact ⟨e, hget, hhash⟩
  | delete =>
    have hidx := h.index_eq hr hc fun hpath => hfree c.path hpath rfl
    have hparts : (edit W.toPlatform s c).1 = parts := by simp [edit, hsplit, Except.toOption]
    obtain ⟨e, hget, hreads⟩ := getAt_spec hsplit hne h.after.1
    have hedit : edit W.toPlatform s c = (parts, none) := by
      rw [← hparts]
      simp [edit, hkind]
    have hmem := mem_edits W env s hidx
    rw [hedit] at hmem
    have hbare := Leaves.applyAll_del h.edits hmem fun f hf hput hbelow => by
      obtain ⟨q, c', hsplit', -, hput', hstaged | ⟨hq, -⟩⟩ := h.edit_cases hr hf
      · obtain heq := hnested c.path q (mem_of_staged hc) (mem_of_staged hstaged)
          ⟨_, _, hsplit, hsplit', hbelow⟩
        rw [← heq, hc, Option.some.injEq] at hstaged
        rw [← hstaged, hkind] at hput'
        cases hput'.1 hput
      · exact hrebuilds c.path q (mem_of_staged hc) hq ⟨_, _, hsplit, hsplit', hbelow⟩
    rw [hget, (hreads.none_iff trivial).2 hbare]

end Retained

/-- **A commit loses nothing that is staged** where the staged paths are not nested and none is at
or above a file that the commit rebuilds, in every run. -/
theorem Repo.staged_retained (env : Env) (message : Text) (author : AuthorOverride) {r r' : Repo}
    {res : Hash × List ReprobeSummary}
    (hreach : (Repo.lts W).Reachable (fun r l => l.2.Clean W False r) Repo.init r)
    (hnested : ∀ p q : Text, p ∈ r.index → q ∈ r.index → Over W p q → p = q)
    (hrebuilds : ∀ p q : Text, p ∈ r.index → r.Rebuilds W env q → ¬ Over W p q)
    (hrun : (Repo.locked ((Repo.commit W env message author).run (Action.op W))).run r =
      (.ok res, r'))
    (hC : r'.store.CollisionFree W.toPlatform) :
    ∃ root, Repo.commitTree W r'.store res.1 = .ok root ∧ Retains W r'.store root r.index := by
  have hle : r ≤ r' := Op.le_of_run hrun
  have hr : r.Orderly W False := Repo.orderly_of_reachable hreach (hC.down hle)
  obtain ⟨-, hrun⟩ := Repo.locked_eq_ok.1 hrun
  obtain ⟨idx, s, head, L, M, root, hcommit⟩ := hr.commitOf hrun hC
  exact ⟨root, hcommit.tree, hcommit.retains hrebuilds hnested hr hC⟩

/-! ### A file that is staged and rebuilt -/

/-- A world with two schemas of one type. -/
def twoSchemaWorld : World :=
  demoWorld ⟨[("NOTE".toList, ⟨"note".toList, ["*/*".toList], none, []⟩),
    ("MORE".toList, ⟨"note".toList, ["*/*".toList], some true, []⟩)], [], []⟩

/-- An addition without fields. -/
def addOf (path : Text) (bytes : Bytes) : Call := .add ⟨path, bytes, none, none⟩

/-- A schema is committed, and a file is staged. -/
def fileCalls : List Call :=
  [addOf "schemas/note/schema.toml".toList (utf8 "NOTE".toList),
    .commit "schema".toList ⟨none, none, none⟩, addOf "a".toList [1]]

/-- The file is committed, and another schema of its type is staged, and other bytes for it. -/
def replacedCalls : List Call :=
  fileCalls ++ [.commit "file".toList ⟨none, none, none⟩,
    addOf "schemas/note/schema.toml".toList (utf8 "MORE".toList), addOf "a".toList [2]]

/-- A commit with a message. -/
def commitRun (r : Repo) : Except (Fault OmpError) (Hash × List ReprobeSummary) × Repo :=
  (Repo.locked ((Repo.commit twoSchemaWorld demoEnv "m".toList ⟨none, none, none⟩).run
    (Action.op twoSchemaWorld))).run r

/-- The hash that is committed for a path. -/
def committedHash (run : Except (Fault OmpError) (Hash × List ReprobeSummary) × Repo)
    (path : Text) : Option Hash :=
  run.1.toOption.bind fun res =>
    (Repo.commitTree twoSchemaWorld run.2.store res.1).toOption.bind fun root =>
      (getAt twoSchemaWorld.toPlatform run.2.store none path root).toOption.join.map Entry.hash

theorem split_schemaFile : split twoSchemaWorld.toPlatform "schemas/note/schema.toml".toList =
    .ok ["schemas".toList, "note".toList, "schema.toml".toList] := by decide +kernel

theorem split_a : split twoSchemaWorld.toPlatform "a".toList = .ok ["a".toList] := by
  decide +kernel

theorem clean_of_split {W : World} {path : Text} {bytes : Bytes} {parts : List Text}
    (hsplit : split W.toPlatform path = .ok parts) (hparts : ∀ n ∈ parts, CleanName n) (r : Repo) :
    (addOf path bytes).Clean W False r := by
  intro parts' hsplit'
  cases hsplit.symm.trans hsplit'
  exact hparts

theorem reachable_fileCalls : (Repo.lts twoSchemaWorld).Reachable
    (fun r l => l.2.Clean twoSchemaWorld False r) Repo.init
    (Repo.init.after twoSchemaWorld demoEnv fileCalls) := by
  refine Repo.reachable_after _ (.refl _) fun r => ?_
  exact List.forall_mem_cons.2 ⟨clean_of_split split_schemaFile (by decide +kernel) r,
    List.forall_mem_cons.2 ⟨trivial,
      List.forall_mem_singleton.2 (clean_of_split split_a (by decide +kernel) r)⟩⟩

theorem mem_paths_of_mem_index {r : Repo} {path : Text} (h : path ∈ r.index) :
    path ∈ r.index.toList.map Prod.fst := by
  obtain ⟨c, hc⟩ := Option.isSome_iff_exists.1 (Std.ExtTreeMap.mem_iff_isSome_getElem?.1 h)
  exact List.mem_map.2 ⟨(path, c), TextMap.mem_toList.2 hc, rfl⟩

theorem Repo.staged_retained_demo :
    ∃ res r' root, commitRun (Repo.init.after twoSchemaWorld demoEnv fileCalls) = (.ok res, r') ∧
      Repo.commitTree twoSchemaWorld r'.store res.1 = .ok root ∧
      Retains twoSchemaWorld r'.store root
        (Repo.init.after twoSchemaWorld demoEnv fileCalls).index := by
  have hreach := reachable_fileCalls
  obtain ⟨hok, hC, hpaths, hschemas⟩ :
      (commitRun (Repo.init.after twoSchemaWorld demoEnv fileCalls)).1.isOk = true ∧
      (commitRun (Repo.init.after twoSchemaWorld demoEnv fileCalls)).2.store.CollisionFree demo ∧
      (Repo.init.after twoSchemaWorld demoEnv fileCalls).index.toList.map Prod.fst = ["a".toList] ∧
      Repo.stagedSchemas (demoEnv.order
        (Repo.init.after twoSchemaWorld demoEnv fileCalls).index) = [] := by
    decide +kernel
  generalize Repo.init.after twoSchemaWorld demoEnv fileCalls = r at *
  obtain ⟨res, hres⟩ := exists_eq_ok_of_isOk hok
  have hrun : commitRun r = (.ok res, (commitRun r).2) := Prod.ext hres rfl
  -- only one path is staged, and no schema
  have honly : ∀ p ∈ r.index, p = "a".toList := fun p hp =>
    List.mem_singleton.1 (hpaths ▸ mem_paths_of_mem_index hp)
  have hnone : ∀ q, ¬ r.Rebuilds twoSchemaWorld demoEnv q := by
    rintro q ⟨-, heads, ctx, files, n, file, cache, hash, cache', s', -, ⟨x, hx, -⟩, -⟩
    rw [hschemas] at hx
    cases hx
  obtain ⟨root, htree, hretains⟩ := Repo.staged_retained twoSchemaWorld demoEnv "m".toList
    ⟨none, none, none⟩ hreach (fun p q hp hq _ => (honly p hp).trans (honly q hq).symm)
    (fun _ q _ hq _ => hnone q hq) hrun hC
  exact ⟨res, _, root, hrun, htree, hretains⟩

/-- **A staged change that is lost**: the file keeps the bytes of HEAD, since the pass rebuilds it
against the schema that is staged with it. -/
theorem Repo.staged_replaced : ∃ r : Repo,
    (Repo.lts twoSchemaWorld).Reachable (fun _ _ => True) Repo.init r ∧
      (∀ p q : Text, p ∈ r.index → q ∈ r.index → Over twoSchemaWorld p q → p = q) ∧
      ∃ res r' root, commitRun r = (.ok res, r') ∧ r'.store.CollisionFree demo ∧
        Repo.commitTree twoSchemaWorld r'.store res.1 = .ok root ∧
        ¬ Retains twoSchemaWorld r'.store root r.index := by
  have hreach : (Repo.lts twoSchemaWorld).Reachable (fun _ _ => True) Repo.init
      (Repo.init.after twoSchemaWorld demoEnv replacedCalls) :=
    Repo.reachable_after _ (.refl _) fun _ _ _ => trivial
  obtain ⟨hok, hC, hpaths, hsome, hstaged, hlost⟩ :
      (commitRun (Repo.init.after twoSchemaWorld demoEnv replacedCalls)).1.isOk = true ∧
      (commitRun (Repo.init.after twoSchemaWorld demoEnv replacedCalls)).2.store.CollisionFree
        demo ∧
      (Repo.init.after twoSchemaWorld demoEnv replacedCalls).index.toList.map Prod.fst =
        ["a".toList, "schemas/note/schema.toml".toList] ∧
      (committedHash (commitRun (Repo.init.after twoSchemaWorld demoEnv replacedCalls))
        "a".toList).isSome = true ∧
      (Repo.init.after twoSchemaWorld demoEnv replacedCalls).index[("a".toList : Text)]?.map
        StagedChange.kind = some .upsert ∧
      committedHash (commitRun (Repo.init.after twoSchemaWorld demoEnv replacedCalls))
        "a".toList ≠ (Repo.init.after twoSchemaWorld demoEnv replacedCalls).index[
          ("a".toList : Text)]?.bind StagedChange.hash := by
    decide +kernel
  generalize Repo.init.after twoSchemaWorld demoEnv replacedCalls = r at *
  obtain ⟨res, hres⟩ := exists_eq_ok_of_isOk hok
  have hrun : commitRun r = (.ok res, (commitRun r).2) := Prod.ext hres rfl
  obtain ⟨hash, hhash⟩ := Option.isSome_iff_exists.1 hsome
  obtain ⟨c, hc, hkind⟩ := Option.map_eq_some_iff.1 hstaged
  obtain ⟨res', hres', hread⟩ := Option.bind_eq_some_iff.1 hhash
  obtain ⟨root, hroot, hread⟩ := Option.bind_eq_some_iff.1 hread
  obtain ⟨e, he, rfl⟩ := Option.map_eq_some_iff.1 hread
  rw [hres] at hres'
  cases hres'
  refine ⟨r, hreach, ?_, res, _, root, hrun, hC, toOption_eq_some.1 hroot, fun hretains => ?_⟩
  · -- the two paths are apart
    intro p q hp hq hover
    have hp := hpaths ▸ mem_paths_of_mem_index hp
    have hq := hpaths ▸ mem_paths_of_mem_index hq
    simp only [List.mem_cons, List.not_mem_nil, or_false] at hp hq
    obtain ⟨ps, qs, hps, hqs, hpre⟩ := hover
    rcases hp with rfl | rfl <;> rcases hq with rfl | rfl
    · rfl
    · cases split_a.symm.trans hps
      cases split_schemaFile.symm.trans hqs
      exact absurd hpre (by decide)
    · cases split_schemaFile.symm.trans hps
      cases split_a.symm.trans hqs
      exact absurd hpre (by decide)
    · rfl
  · have hpath := hretains "a".toList c hc
    rw [hkind] at hpath
    obtain ⟨e', he', hhash'⟩ := hpath
    rw [he'] at he
    cases he
    exact hlost (by rw [hhash, hc, Option.bind_some, hhash'])

end Omp
