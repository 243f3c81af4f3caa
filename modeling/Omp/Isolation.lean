import Omp.Commits

/-!
# Files that cannot be rebuilt

A file that cannot be rebuilt is skipped: the pass goes on with the other files, and the commit is
made with the file as it was.  The one thing that stops a pass is the record of such a file, when
the text of the error is longer than 200 bytes and the cut is inside of a character.

## Main definitions

* `Recorded` : what a summary and the index say of the files that a pass has been over.
* `Proceeds` : a commit that is made without the pass is made with it.
* `Isolated` : the pass is over, and both hold.

## Main results

* `Repo.run_reprobed` : what the pass comes to.
* `Passes.recorded` : what is recorded of it.
* `Repo.proceeds_of_passes` : the commit is made.
* `Repo.failures_isolated_iff` : failures are isolated exactly when their texts can be cut.
* `Repo.failure_spreads` : a text that cannot.
-/

namespace Omp

open Lib RepoScript

variable (W : World) (env : Env)

/-- A file was to be rebuilt and could not be. -/
def FileOutcome.isFailure : FileOutcome → Bool
  | .unreadable _ | .failed _ => true
  | .unrelated | .rebuilt _ => false

/-- What a pass has been over: the schemas that change something, and what came of each file. -/
abbrev PassOutcomes := List (NewSchema × List (Text × FileOutcome))

/-! ### What is recorded -/

/-- **What the summary of a schema and the index say of its files**: a file that could not be
rebuilt is listed once, and one that was rebuilt is not listed and has a new manifest. -/
structure Recorded (ps : PassOutcomes) (idx : Index) (p : NewSchema × List (Text × FileOutcome))
    (summary : ReprobeSummary) : Prop where
  fileType : summary.fileType = p.1.fileType
  skipped : ∀ q ∈ p.2, q.2.isFailure = true →
    (summary.skipped.map ReprobeSkip.path).count q.1 = 1
  rebuilt : ∀ q ∈ p.2, q.2.isRebuilt = true →
    q.1 ∉ summary.skipped.map ReprobeSkip.path ∧
      ∃ h, (q.1, .rebuilt h) ∈ ps.flatMap Prod.snd ∧ idx[q.1]? = some ⟨q.1, .upsert, some h⟩

section Records

variable {os : List (Text × FileOutcome)}

theorem map_path_skips (path : Text) {o : FileOutcome} (ho : o.Recordable) :
    (o.skips path).map ReprobeSkip.path = if o.isFailure then [path] else [] := by
  cases o with
  | unrelated | rebuilt _ | unreadable _ => rfl
  | failed e =>
    obtain ⟨reason, hreason⟩ := Option.ne_none_iff_exists'.1 ho
    simp [FileOutcome.skips, FileOutcome.isFailure, hreason]

/-- The files that are listed are those that could not be rebuilt. -/
theorem skipped_paths (hall : ∀ q ∈ os, q.2.Recordable) :
    (os.flatMap fun q => q.2.skips q.1).map ReprobeSkip.path =
      (os.filter fun q => q.2.isFailure).map Prod.fst := by
  induction os with
  | nil => rfl
  | cons q os ih =>
    obtain ⟨hq, hos⟩ := List.forall_mem_cons.1 hall
    rw [List.flatMap_cons, List.map_append, ih hos, map_path_skips q.1 hq, List.filter_cons]
    split_ifs <;> rfl

/-- **A file that was rebuilt is in the index**, with the last of its manifests. -/
theorem getElem?_rebuiltIn_of_mem {path : Text} {h : Hash} (hmem : (path, .rebuilt h) ∈ os)
    (idx : Index) : ∃ h', (path, .rebuilt h') ∈ os ∧
      (rebuiltIn os idx)[path]? = some ⟨path, .upsert, some h'⟩ := by
  induction os generalizing idx with
  | nil => cases hmem
  | cons q os ih =>
    obtain rfl | hmem := List.mem_cons.1 hmem
    · obtain hsame | ⟨h', hmem', hnew⟩ :=
        getElem?_rebuiltIn os (FileOutcome.stages path idx (.rebuilt h)) path
      · refine ⟨h, List.mem_cons_self, hsame.trans ?_⟩
        rw [FileOutcome.stages, TextMap.getElem?_insert, if_pos rfl]
      · exact ⟨h', List.mem_cons_of_mem _ hmem', hnew⟩
    · obtain ⟨h', hmem', hnew⟩ := ih hmem (q.2.stages q.1 idx)
      exact ⟨h', List.mem_cons_of_mem _ hmem', hnew⟩

theorem recorded_summaryOf {ps : PassOutcomes} {p : NewSchema × List (Text × FileOutcome)}
    (hp : p ∈ ps) (hall : ∀ q ∈ p.2, q.2.Recordable) (hnodup : (p.2.map Prod.fst).Nodup)
    (idx : Index) : Recorded ps (rebuiltIn (ps.flatMap Prod.snd) idx) p (summaryOf p) := by
  have hpaths : (summaryOf p).skipped.map ReprobeSkip.path =
      (p.2.filter fun q => q.2.isFailure).map Prod.fst := skipped_paths hall
  refine ⟨rfl, fun q hq hfail => ?_, fun q hq hbuilt => ⟨fun hskip => ?_, ?_⟩⟩
  · rw [hpaths]
    exact List.count_eq_one_of_mem (hnodup.sublist (List.filter_sublist.map _))
      (List.mem_map_of_mem (List.mem_filter.2 ⟨hq, hfail⟩))
  · -- a path has one outcome
    rw [hpaths] at hskip
    obtain ⟨q', hq', hpath⟩ := List.mem_map.1 hskip
    obtain ⟨hq', hfail⟩ := List.mem_filter.1 hq'
    obtain rfl := List.inj_on_of_nodup_map hnodup hq' hq hpath
    obtain ⟨path, o⟩ := q'
    cases o with
    | unreadable _ | failed _ | unrelated => cases hbuilt
    | rebuilt _ => cases hfail
  · obtain ⟨path, o⟩ := q
    cases o with
    | unreadable _ | failed _ | unrelated => cases hbuilt
    | rebuilt h => exact getElem?_rebuiltIn_of_mem (List.mem_flatMap.2 ⟨p, hp, hq⟩) idx

end Records

/-! ### The pass -/

section Pass

variable {W env} {r : Repo} {heads : TextMap Schema} {ctx : PassContext}
  {files : List (Text × Hash)}

/-- HEAD's manifests have paths of their own. -/
theorem Repo.Orderly.nodup_headManifests {full : Prop} (hr : r.Orderly W full)
    (hfiles : r.headManifests W = .ok files) : (files.map Prod.fst).Nodup := by
  obtain ⟨o, ho, hfiles⟩ := except_bind_eq_ok.1 hfiles
  cases o with
  | none =>
    cases hfiles
    exact List.nodup_nil
  | some root =>
    obtain ⟨L, hL⟩ := hr.headTree (mapError_eq_ok.1 ho) root rfl
    obtain ⟨leaves, hwalk, hfiles⟩ := except_bind_eq_ok.1 hfiles
    cases hfiles
    refine (nodup_walk hL.rootAt.1 hwalk).sublist (map_fst_filterMap_sublist (fun l p hp => ?_) leaves)
    split_ifs at hp
    cases hp
    rfl

/-- **What is recorded of a pass.** -/
theorem Passes.recorded {s s' : Store} {cache cache' : ProbeOutputCache}
    {staged : List (Text × Hash)} {ps : PassOutcomes}
    (h : Passes W ctx heads files s cache staged ps cache' s')
    (hnodup : (files.map Prod.fst).Nodup) (hall : AllRecordable ps) (idx : Index) :
    List.Forall₂ (Recorded ps (rebuiltIn (ps.flatMap Prod.snd) idx)) ps (ps.map summaryOf) := by
  rw [List.forall₂_map_right_iff, List.forall₂_same]
  intro p hp
  obtain ⟨_, _, _, _, -, -, hout, -⟩ := h.exists_changes hp
  exact recorded_summaryOf hp (hall p hp) (hout.map_fst ▸ hnodup) idx

/-- **What the pass of a commit comes to**, unless there is an outcome that cannot be recorded. -/
theorem Repo.run_reprobed (hdefer : env.deferReprobe = false)
    (hstaged : Repo.stagedSchemas (env.order r.index) ≠ [])
    (hinputs : r.passInputs W env = .ok (heads, ctx, files))
    (hvalid : ∀ x ∈ Repo.stagedSchemas (env.order r.index), ValidStaged W r.store x) :
    ∃ ps cache s, Passes W ctx heads files r.store []
        (Repo.stagedSchemas (env.order r.index)) ps cache s ∧
      (AllRecordable ps → ((Repo.reprobed W env r.index).run (Action.op W)).run r =
        (.ok (rebuiltIn (ps.flatMap Prod.snd) r.index, ps.map summaryOf),
          { r with store := s })) ∧
      (¬ AllRecordable ps →
        (((Repo.reprobed W env r.index).run (Action.op W)).run r).1 = .error .panic) := by
  obtain ⟨ps, cache, s, hpasses, hok, hpanic⟩ := run_pass ctx heads files hvalid
    ⟨r.index, [], []⟩
  have hrun : (Repo.reprobed W env r.index).run (Action.op W) =
      Repo.runAutoReprobe W env r.index := by
    rw [Repo.reprobed, hdefer]
    exact Repo.run_autoReprobe W env r.index
  have hread : (Op.inspects (Repo.passInputs W env) : RepoOp _).run r =
      (.ok (heads, ctx, files), r) := Op.inspects_eq_ok.2 ⟨hinputs, rfl⟩
  have hpass : (Repo.runAutoReprobe W env r.index).run r =
      (Repo.onStore ((Repo.stagedSchemas (env.order r.index)).foldlM
        (reprobeSchema W ctx heads files) ⟨r.index, [], []⟩) >>= fun tot : PassTotals =>
          pure (tot.index, tot.summaries) : RepoOp _).run r := by
    rw [Repo.runAutoReprobe]
    dsimp only
    rw [if_neg hstaged, Op.run_bind_of_ok hread]
  rw [hrun, hpass]
  refine ⟨ps, cache, s, hpasses, fun hall => ?_, fun hnot => ?_⟩
  · rw [Op.run_bind_of_ok (Repo.onStore_eq_ok.2 ⟨s, hok hall, rfl⟩)]
    rfl
  · have hstop : ((Repo.onStore ((Repo.stagedSchemas (env.order r.index)).foldlM
        (reprobeSchema W ctx heads files) ⟨r.index, [], []⟩)).run r).1 = .error .panic :=
      hpanic hnot
    exact congrArg Prod.fst (Op.run_bind_of_error (eq_mk_of_fst_eq hstop) _)

end Pass

/-! ### The edits of a commit -/

/-- **The staged paths are apart** from each other, and from HEAD's files but where they are the
path of one. -/
structure Repo.StagedApart (r : Repo) (files : List (Text × Hash)) : Prop where
  staged : ∀ p q : Text, p ∈ r.index → q ∈ r.index → Over W p q → p = q
  files : ∀ p : Text, p ∈ r.index → ∀ q ∈ files.map Prod.fst, Over W p q ∨ Over W q p → p = q

section Edits

variable {W env} {full : Prop} {r : Repo} {files : List (Text × Hash)} {o : Option Hash}
  {L M : Leaves Text Entry} {os : List (Text × FileOutcome)} {s : Store}

theorem RootAt.writable {P : Platform} {canon : Prop} {key : Option Key}
    (hL : RootAt P s key full canon o L) {q : List Text} (hq : L q ≠ none) : Writable q := by
  cases o with
  | none =>
    obtain rfl : L = Leaves.empty := hL
    exact absurd rfl hq
  | some root => exact hL.1.validName hq

/-- Where a commit puts something: at a staged path, or at a manifest of HEAD. -/
def Repo.Spot (r : Repo) (files : List (Text × Hash)) (p : Text) : Prop :=
  p ∈ r.index ∨ p ∈ files.map Prod.fst

variable (ho : r.headTree W = .ok o) (hL : RootAt W.toPlatform r.store none True True o L)
  (hfiles : r.headManifests W = .ok files) (hapart : r.StagedApart W files)
include ho hL hfiles

/-- A manifest of HEAD stands at a leaf. -/
theorem Repo.leaf_of_mem_files {p : Text} (hp : p ∈ files.map Prod.fst) {parts : List Text}
    (hsplit : split W.toPlatform p = .ok parts) : L parts ≠ none ∧ p = joinWith '/' parts := by
  obtain ⟨⟨path, hash⟩, hmem, rfl⟩ := List.mem_map.1 hp
  obtain ⟨q, hq, hpath, hq'⟩ := (Repo.mem_headManifests_iff ho hL hfiles).1 hmem
  cases hsplit.symm.trans hq'
  rw [hq]
  exact ⟨Option.some_ne_none _, hpath⟩

include hapart

/-- **No spot is above another.** -/
theorem Repo.Spot.eq_of_over {p q : Text} (hp : r.Spot files p) (hq : r.Spot files q)
    (hover : Over W p q) : p = q := by
  obtain hp | hp := hp <;> obtain hq | hq := hq
  · exact hapart.staged p q hp hq hover
  · exact hapart.files p hp q hq (.inl hover)
  · exact (hapart.files q hq p hp (.inr hover)).symm
  · obtain ⟨ps, qs, hps, hqs, hpre⟩ := hover
    obtain ⟨hleaf, hpath⟩ := Repo.leaf_of_mem_files ho hL hfiles hp hps
    obtain ⟨hleaf', hpath'⟩ := Repo.leaf_of_mem_files ho hL hfiles hq hqs
    rw [hpath, hpath', hL.prefixFree ps qs hpre hleaf hleaf']

variable (hos : ∀ path h, (path, .rebuilt h) ∈ os → path ∈ files.map Prod.fst)
  (hidx : OrderlyIndex W s (rebuiltIn os r.index))
include hos hidx

omit ho hL hfiles hapart in
/-- An edit of the commit is of a spot. -/
theorem Repo.exists_spot {f : Edit Text Entry}
    (hf : f ∈ (env.order (rebuiltIn os r.index)).map (edit W.toPlatform s)) :
    ∃ (p : Text) (c : StagedChange), split W.toPlatform p = .ok f.1 ∧
      (rebuiltIn os r.index)[p]? = some c ∧ f = edit W.toPlatform s c ∧
      (f.2 ≠ none ↔ c.kind = .upsert) ∧ r.Spot files p ∧
      (p ∉ files.map Prod.fst → r.index[p]? = some c) := by
  obtain ⟨c, hc, rfl⟩ := List.mem_map.1 hf
  obtain ⟨⟨p, c'⟩, hmem, rfl⟩ := List.mem_map.1 ((env.order_perm _).mem_iff.1 hc)
  have hget := TextMap.mem_toList.1 hmem
  obtain ⟨rfl, happlicable⟩ := hidx p c' hget
  obtain ⟨parts, hsplit, -⟩ := happlicable.split
  have hedit : (edit W.toPlatform s c').1 = parts := by simp [edit, hsplit, Except.toOption]
  refine ⟨c'.path, c', hedit ▸ hsplit, hget, rfl, happlicable.edit_ne_none_iff, ?_⟩
  obtain hsame | ⟨h, hbuilt, -⟩ := getElem?_rebuiltIn os r.index c'.path
  · exact ⟨.inl (mem_of_staged (hsame ▸ hget)), fun _ => hsame ▸ hget⟩
  · exact ⟨.inr (hos _ _ hbuilt), fun hnot => absurd (hos _ _ hbuilt) hnot⟩

/-- **The edits do not race.** -/
theorem Repo.edits_calm {e f : Edit Text Entry}
    (he : e ∈ (env.order (rebuiltIn os r.index)).map (edit W.toPlatform s))
    (hf : f ∈ (env.order (rebuiltIn os r.index)).map (edit W.toPlatform s))
    (hpre : e.1 <+: f.1) : e = f := by
  obtain ⟨p, c, hsplit, hget, rfl, -, hspot, -⟩ := Repo.exists_spot hos hidx he
  obtain ⟨q, d, hsplit', hget', rfl, -, hspot', -⟩ := Repo.exists_spot hos hidx hf
  obtain rfl := hspot.eq_of_over ho hL hfiles hapart hspot' ⟨_, _, hsplit, hsplit', hpre⟩
  cases hget.symm.trans hget'
  rfl

variable (hbefore : OrderlyIndex W r.store r.index) (hle : r.store ≤ s)
  (hedits : L.applyAll Writable ((env.order r.index).map (edit W.toPlatform r.store)) = some M)
include hbefore hle hedits

/-- **No write is refused**, as none is without the pass. -/
theorem Repo.edits_not_doomed {f : Edit Text Entry}
    (hf : f ∈ (env.order (rebuiltIn os r.index)).map (edit W.toPlatform s)) (hput : f.2 ≠ none) :
    ¬ Leaves.Doomed Writable L
      ((env.order (rebuiltIn os r.index)).map (edit W.toPlatform s)) f.1 := by
  intro hdoomed
  obtain ⟨p, c, hsplit, hget, rfl, hkind, hspot, hstaged⟩ := Repo.exists_spot hos hidx hf
  by_cases hfile : p ∈ files.map Prod.fst
  · -- it replaces a leaf of HEAD
    obtain ⟨hleaf, -⟩ := Repo.leaf_of_mem_files ho hL hfiles hfile hsplit
    obtain hnot | ⟨t, htpre, hne, ht, -⟩ := hdoomed
    · exact hnot (hL.writable hleaf)
    · exact hne (hL.prefixFree t _ htpre ht hleaf)
  · have hc := hstaged hfile
    have heq : edit W.toPlatform s c = edit W.toPlatform r.store c :=
      (hbefore p c hc).2.edit_eq hle
    rw [heq] at hsplit hdoomed hput
    have hmem := mem_edits W env r.store hc
    obtain ⟨e, he⟩ := Option.ne_none_iff_exists'.1 hput
    have hput' : ((edit W.toPlatform r.store c).1, some e) ∈
        (env.order r.index).map (edit W.toPlatform r.store) := by
      rwa [← he]
    have hnone : L.applyAll Writable ((env.order r.index).map (edit W.toPlatform r.store)) =
        none := by
      refine Leaves.applyAll_eq_none_of_doomed hput' ?_
      obtain hnot | ⟨t, htpre, hne, ht, -⟩ := hdoomed
      · exact .inl hnot
      refine .inr ⟨t, htpre, hne, ht, fun d hd hdpre => ?_⟩
      -- a deletion above the leaf would be staged above the write
      obtain ⟨c₂, hc₂, hd⟩ := List.mem_map.1 hd
      obtain ⟨⟨p₂, c₂'⟩, hmem₂, rfl⟩ := List.mem_map.1 ((env.order_perm _).mem_iff.1 hc₂)
      have hget₂ := TextMap.mem_toList.1 hmem₂
      obtain ⟨rfl, happlicable⟩ := hbefore p₂ c₂' hget₂
      obtain ⟨parts, hsplit₂, -⟩ := happlicable.split
      have hparts : parts = d := by
        have h₁ : (edit W.toPlatform r.store c₂').1 = parts := by
          simp [edit, hsplit₂, Except.toOption]
        rw [← h₁, hd]
      subst hparts
      obtain rfl := hapart.staged c₂'.path p (mem_of_staged hget₂) (mem_of_staged hc)
        ⟨_, _, hsplit₂, hsplit, hdpre.trans htpre⟩
      cases hsplit.symm.trans hsplit₂
      exact hne (htpre.eq_of_length_le hdpre.length_le)
    cases hnone.symm.trans hedits

/-- **The edits of the commit can be carried out.** -/
theorem Repo.exists_applyAll_rebuilt : ∃ M', L.applyAll Writable
    ((env.order (rebuiltIn os r.index)).map (edit W.toPlatform s)) = some M' := by
  refine Leaves.exists_applyAll_of_calm (fun e he f hf hrace => ?_) fun e he hput => ?_
  · exact hrace.1 (Repo.edits_calm ho hL hfiles hapart hos hidx he hf hrace.2.2)
  · exact Repo.edits_not_doomed ho hL hfiles hapart hos hidx hbefore hle hedits he hput

omit hbefore hle hedits

variable {M' : Leaves Text Entry} (hafter : L.applyAll Writable
  ((env.order (rebuiltIn os r.index)).map (edit W.toPlatform s)) = some M')
include hafter

/-- **What is written is there**: the tree is not empty. -/
theorem Repo.exists_leaf_after {p : Text} {c : StagedChange}
    (hget : (rebuiltIn os r.index)[p]? = some c) (hkind : c.kind = .upsert) :
    ∃ q, M' q ≠ none := by
  have hmem := mem_edits W env s hget
  refine ⟨(edit W.toPlatform s c).1, ?_⟩
  rw [Leaves.applyAll_apply hafter hmem fun f hf hpre =>
    Repo.edits_calm ho hL hfiles hapart hos hidx hf hmem hpre]
  exact ((hidx p c hget).2.edit_ne_none_iff).2 hkind

/-- **A file stays as it was** that is neither staged nor rebuilt. -/
theorem Repo.leaf_after {p : Text} (hp : p ∈ files.map Prod.fst) (hstaged : p ∉ r.index)
    (hkept : ∀ h, (p, .rebuilt h) ∉ os) {parts : List Text}
    (hsplit : split W.toPlatform p = .ok parts) : M' parts = L parts := by
  refine Leaves.applyAll_frame hafter fun e he hpre => ?_
  obtain ⟨q, c, hsplit', hget, rfl, -, hspot, -⟩ := Repo.exists_spot hos hidx he
  obtain rfl := hspot.eq_of_over ho hL hfiles hapart (.inr hp) ⟨_, _, hsplit', hsplit, hpre⟩
  obtain hsame | ⟨h, hbuilt, -⟩ := getElem?_rebuiltIn os r.index q
  · exact hstaged (mem_of_staged (hsame ▸ hget))
  · exact hkept h hbuilt

end Edits

/-! ### The commit -/

/-- The surroundings, with the pass put off. -/
def Env.deferred (env : Env) : Env := { env with deferReprobe := true }

/-- **A commit that is made without the pass is made with it**, where the staged paths are apart,
and a file that is neither staged nor rebuilt stays as it was. -/
def Proceeds (r : Repo) (files : List (Text × Hash)) (ps : PassOutcomes) : Prop :=
  r.StagedApart W files → ∀ message author res₀ r₀ out r',
    (Repo.locked ((Repo.commit W env.deferred message author).run (Action.op W))).run r =
      (.ok res₀, r₀) → r₀.store.CollisionFree W.toPlatform →
    (Repo.locked ((Repo.commit W env message author).run (Action.op W))).run r = (out, r') →
      r'.store.CollisionFree W.toPlatform →
    ∃ res root, out = .ok res ∧ Repo.commitTree W r'.store res.1 = .ok root ∧
      ∀ file ∈ files, file.1 ∉ r.index → (∀ h, (file.1, .rebuilt h) ∉ ps.flatMap Prod.snd) →
        getAt W.toPlatform r'.store none file.1 root = .ok (some ⟨.manifest, file.2⟩)

section Committing

variable {W env} {full : Prop} {r : Repo} {s : Store}

/-- The tree of a commit is stored, whatever comes of it. -/
theorem Repo.le_of_buildCommit {author : AuthorOverride} {a : Author} {idx : Index}
    {summaries : List ReprobeSummary} {o : Option Hash} (hempty : r.index.isEmpty = false)
    (hauthor : commitAuthor env author = .ok a)
    (hpass : ((Repo.reprobed W env r.index).run (Action.op W)).run r =
      (.ok (idx, summaries), { r with store := s }))
    (ho : Repo.headTree W { r with store := s } = .ok o) :
    ((buildTree W.toPlatform none o (env.order idx)).run s).2 ≤
      (((Repo.buildCommit W env author).run (Action.op W)).run r).2.store := by
  have hload : ((Script.act Action.loadIndex : RepoScript Index).run (Action.op W)).run r =
      (.ok r.index, r) := (Script.run_act_eq_ok _).2 rfl
  have hcheck : ((require (if r.index.isEmpty then .error (.conflict "no staged changes".toList)
      else .ok ()) : RepoScript Unit).run (Action.op W)).run r = (.ok (), r) := by
    rw [hempty]
    exact (Script.run_act_eq_ok _).2 rfl
  have hlock : ((Script.act Action.lockRefs : RepoScript Unit).run (Action.op W)).run r =
      (.ok (), r) := (Script.run_act_eq_ok _).2 rfl
  have hwho : ((require (commitAuthor env author) : RepoScript Author).run (Action.op W)).run r =
      (.ok a, r) := by
    rw [hauthor]
    exact (Script.run_act_eq_ok _).2 rfl
  have hhead : ((check fun r => r.headTree W : RepoScript (Option Hash)).run (Action.op W)).run
      { r with store := s } = (.ok o, { r with store := s }) :=
    (Script.run_act_eq_ok _).2 (Op.inspects_eq_ok.2 ⟨mapError_eq_ok.2 ho, rfl⟩)
  rw [Repo.buildCommit, Script.run_bind_of_ok _ hload, Script.run_bind_of_ok _ hcheck,
    Script.run_bind_of_ok _ hlock, Script.run_bind_of_ok _ hwho, Script.run_bind_of_ok _ hpass]
  dsimp only
  rw [Script.run_bind_of_ok _ hhead]
  have hbuild := Op.le_run_bind (Repo.onStore (buildTree W.toPlatform none o (env.order idx))) pure
    { r with store := s }
  have hact := Script.le_run_bind (Action.op W)
    (Script.act (Action.objects (buildTree W.toPlatform none o (env.order idx))))
    (fun root => pure (root, a, summaries)) { r with store := s }
  exact Repo.le_iff.1 (hbuild.trans hact)

/-- A lock that is sound does not change what is stored. -/
theorem Repo.store_locked {α : Type} (x : RepoOp α) (hsound : r.poisoned = false) :
    ((Repo.locked x).run r).2.store = (x.run r).2.store := by
  rw [Repo.locked]
  dsimp only
  rw [hsound, if_neg Bool.false_ne_true]
  generalize x.run r = res
  obtain ⟨(_ | _) | _, r'⟩ := res <;> rfl

/-- Where one commit can be published, another one can. -/
theorem Repo.exists_advance {h : Hash} {ra : Repo} (hadv : r.advance W h = .ok ra) (r' : Repo)
    (hhead : r'.head = r.head) (h' : Hash) : ∃ ra', r'.advance W h' = .ok ra' := by
  obtain ⟨head, hparse, hadv⟩ := except_bind_eq_ok.1 hadv
  have hparse' : parseHead W.toPlatform r'.readHead = .ok head := by
    rw [Repo.readHead, hhead]
    exact hparse
  cases head with
  | branch name =>
    obtain ⟨path, hpath, -⟩ := except_bind_eq_ok.1 hadv
    exact ⟨_, except_bind_eq_ok.2 ⟨_, hparse', except_bind_eq_ok.2 ⟨path, hpath, rfl⟩⟩⟩
  | detached g => exact ⟨_, except_bind_eq_ok.2 ⟨_, hparse', rfl⟩⟩

/-- A staged schema is written, and stays so after the pass. -/
theorem Repo.exists_upsert_of_staged (hstaged : Repo.stagedSchemas (env.order r.index) ≠ [])
    (os : List (Text × FileOutcome)) : ∃ (p : Text) (c : StagedChange),
      (rebuiltIn os r.index)[p]? = some c ∧ c.kind = .upsert := by
  obtain ⟨x, hx⟩ := List.exists_mem_of_ne_nil _ hstaged
  obtain ⟨c, hc, hx⟩ := List.mem_filterMap.1 hx
  obtain ⟨⟨path, c'⟩, hmem, rfl⟩ := List.mem_map.1 ((env.order_perm _).mem_iff.1 hc)
  have hget := TextMap.mem_toList.1 hmem
  obtain hsame | ⟨h, -, hnew⟩ := getElem?_rebuiltIn os r.index path
  · refine ⟨path, c', hsame.trans hget, ?_⟩
    dsimp only at hx
    split_ifs at hx with hkind
    · cases hx
    · exact not_not.1 hkind
  · exact ⟨path, _, hnew, rfl⟩

/-- **The commit is made**, if it is made without the pass. -/
theorem Repo.Orderly.proceeds (hr : r.Orderly W full) {files : List (Text × Hash)}
    {ps : PassOutcomes} (hfiles : r.headManifests W = .ok files)
    (hstaged : Repo.stagedSchemas (env.order r.index) ≠ [])
    (hos : ∀ path h, (path, .rebuilt h) ∈ ps.flatMap Prod.snd → path ∈ files.map Prod.fst)
    (hpass : ((Repo.reprobed W env r.index).run (Action.op W)).run r =
      (.ok (rebuiltIn (ps.flatMap Prod.snd) r.index, ps.map summaryOf),
        { r with store := s })) : Proceeds W env r files ps := by
  intro hapart message author res₀ r₀ out r' hrun₀ hC₀ hrun hC
  have hle : r.store ≤ s := Repo.le_iff.1 (Op.le_of_run hpass)
  -- the commit without the pass
  obtain ⟨hsound, hrun₀⟩ := Repo.locked_eq_ok.1 hrun₀
  obtain ⟨⟨root₀, author', summaries₀⟩, r₁, hbuilt₀, hpublish₀⟩ := Repo.commit_of_ok hrun₀
  obtain ⟨hempty, hauthor, idx₀, o, s₀, s₁, hpass₀, ho, htree₀, rfl⟩ :=
    Repo.buildCommit_eq_ok.1 hbuilt₀
  have hauthor : commitAuthor env author = .ok author' := hauthor
  obtain ⟨heq, hstore⟩ := Op.pure_eq_ok.1 hpass₀
  obtain rfl : r.index = idx₀ := (Prod.mk.inj heq).1
  obtain rfl : r.store = s₀ := congrArg Repo.store hstore
  obtain ⟨tree, parent, ra, hroot₀, hparent, -, hadv, rfl⟩ := Repo.publish_eq_ok.1 hpublish₀
  obtain ⟨L, hL⟩ := hr.exists_leaves ho
  obtain ⟨M, hedits⟩ : ∃ M, L.applyAll Writable
      ((env.order r.index).map (edit W.toPlatform r.store)) = some M := by
    obtain ⟨-, M, -, hedits, -⟩ | ⟨⟨_, herr⟩, -⟩ := buildTree_spec (fun h => absurd rfl h)
      (fun _ => hr.staged.applicable) hL htree₀ (hC₀.down (List.prefix_append _ _))
    · exact ⟨M, hedits⟩
    · cases herr
  -- the tree that is built after the pass
  have ho' : Repo.headTree W { r with store := s } = .ok o := Repo.headTree_mono hle ho
  cases hbuild : (buildTree W.toPlatform none o
      (env.order (rebuiltIn (ps.flatMap Prod.snd) r.index))).run s with
  | mk resb s' =>
    have hle' : s' ≤ r'.store := by
      have htree := Repo.le_of_buildCommit hempty hauthor hpass ho'
      rw [hbuild] at htree
      have hcommit := Script.le_run_bind (Action.op W) (Repo.buildCommit W env author)
        (fun res => (do
          let commitHash ← Repo.publish W res.1 res.2.1 message
          pure (commitHash, res.2.2) : RepoScript (Hash × List ReprobeSummary))) r
      have hlocked := Repo.store_locked
        ((Repo.commit W env message author).run (Action.op W)) hsound
      rw [hrun] at hlocked
      rw [hlocked]
      exact htree.trans (Repo.le_iff.1 hcommit)
    have hC' : s'.CollisionFree W.toPlatform := hC.down hle'
    have hidx := ((settles_reprobed hr hr.staged).ok hpass (hC'.down (Op.le_of_run hbuild))).2
    obtain ⟨M', hafter⟩ := Repo.exists_applyAll_rebuilt ho hL hfiles hapart hos hidx hr.staged hle
      hedits
    obtain ⟨o', M'', rfl, hM'', hroot⟩ | ⟨-, hnone⟩ := buildTree_spec (fun h => absurd rfl h)
      (fun _ => hidx.applicable) (hL.mono hle) hbuild hC'
    · cases hafter.symm.trans hM''
      obtain ⟨q, hq⟩ : ∃ q, M' q ≠ none := by
        obtain ⟨p, c, hget, hkind⟩ := Repo.exists_upsert_of_staged hstaged (ps.flatMap Prod.snd)
        exact Repo.exists_leaf_after ho hL hfiles hapart hos hidx hafter hget hkind
      cases o' with
      | none =>
        obtain rfl : M' = Leaves.empty := hroot
        exact absurd rfl hq
      | some root =>
        obtain ⟨ra', hadv'⟩ := Repo.exists_advance hadv { r with store := s' } rfl
          (hashOf W.toPlatform .commit (Commit.serialize ⟨root, parent.toList, author', message⟩))
        have hparent' : Repo.resolveHead W { r with store := s' } = .ok parent := hparent
        have hbuilt : ((Repo.buildCommit W env author).run (Action.op W)).run r =
            (.ok (some root, author', ps.map summaryOf), { r with store := s' }) :=
          Repo.buildCommit_eq_ok.2 ⟨hempty, hauthor, _, o, s, s', hpass, ho', hbuild, rfl⟩
        have hpublish := Repo.publish_eq_ok.2
          ⟨root, parent, ra', rfl, hparent', rfl, hadv', rfl⟩
        have hcommit : ((Repo.commit W env message author).run (Action.op W)).run r = _ :=
          (Script.run_bind_eq_ok (Action.op W)).2 ⟨_, _, hbuilt,
            (Script.run_bind_eq_ok (Action.op W)).2 ⟨_, _, hpublish, rfl⟩⟩
        obtain ⟨rfl, rfl⟩ := Prod.mk.inj
          (hrun.symm.trans (Repo.locked_eq_ok.2 ⟨hsound, hcommit⟩))
        refine ⟨_, root, rfl, Repo.commitTree_of_mem hC ?_, fun file hfile hunstaged hkept => ?_⟩
        · exact List.mem_append_right _ (List.mem_singleton.2 rfl)
        · -- no edit of the commit is at or above the file
          obtain ⟨q, hq, -, hsplit⟩ := (Repo.mem_headManifests_iff ho hL hfiles).1 hfile
          have hleaf : M' q = some ⟨.manifest, file.2⟩ :=
            (Repo.leaf_after ho hL hfiles hapart hos hidx hafter (List.mem_map_of_mem hfile)
              hunstaged hkept hsplit).trans hq
          exact (hroot.mono hle').getAt_of_leaf hsplit hleaf
    · cases hnone.symm.trans hafter

end Committing

/-! ### Isolation -/

/-- **Failures are isolated**: the pass is over, each file is recorded as what came of it, and the
commit is made. -/
structure Isolated (r : Repo) (files : List (Text × Hash)) (ps : PassOutcomes) (s : Store) :
    Prop where
  finished : ∃ idx summaries, ((Repo.reprobed W env r.index).run (Action.op W)).run r =
    (.ok (idx, summaries), { r with store := s }) ∧ List.Forall₂ (Recorded ps idx) ps summaries
  proceeds : Proceeds W env r files ps

/-- **Failures are isolated exactly when their texts can be cut** at 200 bytes, whatever else they
are.  HEAD is read and the schemas that are staged are valid. -/
theorem Repo.failures_isolated_iff {W : World} {env : Env} {r : Repo} {heads : TextMap Schema}
    {ctx : PassContext} {files : List (Text × Hash)}
    (hreach : (Repo.lts W).Reachable (fun r l => l.2.Clean W False r) Repo.init r)
    (hC : r.store.CollisionFree W.toPlatform) (hdefer : env.deferReprobe = false)
    (hstaged : Repo.stagedSchemas (env.order r.index) ≠ [])
    (hinputs : r.passInputs W env = .ok (heads, ctx, files))
    (hvalid : ∀ x ∈ Repo.stagedSchemas (env.order r.index), ValidStaged W r.store x) :
    ∃ ps cache s, Passes W ctx heads files r.store []
        (Repo.stagedSchemas (env.order r.index)) ps cache s ∧
      (Isolated W env r files ps s ↔ AllRecordable ps) := by
  have hr : r.Orderly W False := Repo.orderly_of_reachable hreach hC
  obtain ⟨ps, cache, s, hpasses, hok, hpanic⟩ :=
    Repo.run_reprobed hdefer hstaged hinputs hvalid
  refine ⟨ps, cache, s, hpasses, fun hisolated => ?_, fun hall => ?_⟩
  · by_contra hnot
    obtain ⟨idx, summaries, hrun, -⟩ := hisolated.finished
    cases (hpanic hnot).symm.trans (congrArg Prod.fst hrun)
  · have hfiles := Repo.headManifests_of_passInputs hinputs
    refine ⟨⟨_, _, hok hall, hpasses.recorded (hr.nodup_headManifests hfiles) hall _⟩, ?_⟩
    refine hr.proceeds hfiles hstaged (fun path h hmem => ?_) (hok hall)
    obtain ⟨p, hp, hmem⟩ := List.mem_flatMap.1 hmem
    obtain ⟨_, _, _, _, -, -, hout, -⟩ := hpasses.exists_changes hp
    rw [← hout.map_fst]
    exact List.mem_map_of_mem hmem

/-! ### A file that is rebuilt and one that is not -/

/-- A file is committed under a schema, and another schema is staged. -/
def pendingCalls : List Call :=
  fileCalls ++ [.commit "file".toList ⟨none, none, none⟩,
    addOf "schemas/note/schema.toml".toList (utf8 "MORE".toList)]

theorem reachable_pendingCalls (docs : Documents) : (Repo.lts (demoWorld docs)).Reachable
    (fun r l => l.2.Clean (demoWorld docs) False r) Repo.init
    (Repo.init.after (demoWorld docs) demoEnv pendingCalls) := by
  have hschema : split (demoWorld docs).toPlatform "schemas/note/schema.toml".toList =
      .ok ["schemas".toList, "note".toList, "schema.toml".toList] := split_schemaFile
  have ha : split (demoWorld docs).toPlatform "a".toList = .ok ["a".toList] := split_a
  refine Repo.reachable_after _ (.refl _) fun r => ?_
  exact List.forall_mem_cons.2 ⟨clean_of_split hschema (by decide +kernel) r,
    List.forall_mem_cons.2 ⟨trivial,
      List.forall_mem_cons.2 ⟨clean_of_split ha (by decide +kernel) r,
        List.forall_mem_cons.2 ⟨trivial,
          List.forall_mem_singleton.2 (clean_of_split hschema (by decide +kernel) r)⟩⟩⟩⟩

/-- The schemas that are staged are valid. -/
def stagedValid (W : World) (r : Repo) : Bool :=
  (Repo.stagedSchemas (demoEnv.order r.index)).all fun x =>
    (r.store.get W.toPlatform x.2).any fun o => (Schema.parse W o.content x.1).isOk

theorem validStaged_of_stagedValid {W : World} {r : Repo} (h : stagedValid W r = true) :
    ∀ x ∈ Repo.stagedSchemas (demoEnv.order r.index), ValidStaged W r.store x := by
  intro x hx
  obtain ⟨o, hget, hparse⟩ := Option.any_eq_true _ _ |>.1 (List.all_eq_true.1 h x hx)
  obtain ⟨schema, hparse⟩ := exists_eq_ok_of_isOk hparse
  exact ⟨o, schema, hget, hparse⟩

theorem Repo.failures_isolated_demo : ∃ heads ctx files ps cache s,
    (Repo.init.after twoSchemaWorld demoEnv pendingCalls).passInputs twoSchemaWorld demoEnv =
      .ok (heads, ctx, files) ∧
    Passes twoSchemaWorld ctx heads files
      (Repo.init.after twoSchemaWorld demoEnv pendingCalls).store []
      (Repo.stagedSchemas (demoEnv.order
        (Repo.init.after twoSchemaWorld demoEnv pendingCalls).index)) ps cache s ∧
    (Isolated twoSchemaWorld demoEnv (Repo.init.after twoSchemaWorld demoEnv pendingCalls)
      files ps s ↔ AllRecordable ps) := by
  obtain ⟨r, hr⟩ : ∃ r, r = Repo.init.after twoSchemaWorld demoEnv pendingCalls := ⟨_, rfl⟩
  have hreach : (Repo.lts twoSchemaWorld).Reachable
      (fun r l => l.2.Clean twoSchemaWorld False r) Repo.init r := by
    rw [hr]
    exact reachable_pendingCalls _
  obtain ⟨hC, hstaged, hread, hvalid⟩ : r.store.CollisionFree demo ∧
      Repo.stagedSchemas (demoEnv.order r.index) ≠ [] ∧
      (r.passInputs twoSchemaWorld demoEnv).isOk = true ∧ stagedValid twoSchemaWorld r = true := by
    rw [hr]
    decide +kernel
  rw [← hr]
  clear hr
  obtain ⟨⟨heads, ctx, files⟩, hinputs⟩ := exists_eq_ok_of_isOk hread
  obtain ⟨ps, cache, s, hpasses, hiff⟩ := Repo.failures_isolated_iff hreach hC rfl hstaged hinputs
    (validStaged_of_stagedValid hvalid)
  exact ⟨heads, ctx, files, ps, cache, s, hinputs, hpasses, hiff⟩

/-- A world with a schema without fields, and one with a required field with a long name, of which
the characters take two bytes each. -/
def longFieldWorld : World :=
  demoWorld ⟨[("NOTE".toList, ⟨"note".toList, ["*/*".toList], none, []⟩),
    ("MORE".toList, ⟨"note".toList, ["*/*".toList], none,
      [('x' :: List.replicate 100 'é', .mk "user_provided".toList (some "string".toList)
        (some true) none none none none none none none)]⟩)], [], []⟩

/-- An operation panicked. -/
def panicked {ε α : Type} : Except (Fault ε) α → Bool
  | .error .panic => true
  | .error (.err _) | .ok _ => false

theorem eq_panic_of_panicked {ε α : Type} {r : Except (Fault ε) α} (h : panicked r = true) :
    r = .error .panic := by
  cases r with
  | ok a => cases h
  | error f =>
    cases f with
    | err e => cases h
    | panic => rfl

/-- **A failure that is not isolated**: the text of the error is cut inside of a character, and the
pass panics, where the commit without the pass is made. -/
theorem Repo.failure_spreads : ∃ (r : Repo) (inputs : TextMap Schema × PassContext ×
      List (Text × Hash)),
    (Repo.lts longFieldWorld).Reachable (fun r l => l.2.Clean longFieldWorld False r)
      Repo.init r ∧ r.store.CollisionFree demo ∧
      Repo.stagedSchemas (demoEnv.order r.index) ≠ [] ∧
      r.passInputs longFieldWorld demoEnv = .ok inputs ∧
      (∀ x ∈ Repo.stagedSchemas (demoEnv.order r.index), ValidStaged longFieldWorld r.store x) ∧
      (((Repo.reprobed longFieldWorld demoEnv r.index).run (Action.op longFieldWorld)).run r).1 =
        .error .panic ∧
      ((Repo.locked ((Repo.commit longFieldWorld demoEnv.deferred "m".toList
        ⟨none, none, none⟩).run (Action.op longFieldWorld))).run r).1.isOk = true := by
  obtain ⟨r, hr⟩ : ∃ r, r = Repo.init.after longFieldWorld demoEnv pendingCalls := ⟨_, rfl⟩
  have hreach : (Repo.lts longFieldWorld).Reachable
      (fun r l => l.2.Clean longFieldWorld False r) Repo.init r := by
    rw [hr]
    exact reachable_pendingCalls _
  obtain ⟨hC, hstaged, hread, hvalid, hpanic, hcommit⟩ : r.store.CollisionFree demo ∧
      Repo.stagedSchemas (demoEnv.order r.index) ≠ [] ∧
      (r.passInputs longFieldWorld demoEnv).isOk = true ∧ stagedValid longFieldWorld r = true ∧
      panicked (((Repo.reprobed longFieldWorld demoEnv r.index).run
        (Action.op longFieldWorld)).run r).1 = true ∧
      ((Repo.locked ((Repo.commit longFieldWorld demoEnv.deferred "m".toList
        ⟨none, none, none⟩).run (Action.op longFieldWorld))).run r).1.isOk = true := by
    rw [hr]
    decide +kernel
  obtain ⟨inputs, hinputs⟩ := exists_eq_ok_of_isOk hread
  exact ⟨r, inputs, hreach, hC, hstaged, hinputs, validStaged_of_stagedValid hvalid,
    eq_panic_of_panicked hpanic, hcommit⟩

end Omp
