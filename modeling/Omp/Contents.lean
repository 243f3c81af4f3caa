import Omp.Sources
import Omp.UploadCommits

/-!
# The bytes of files

`bytes_of_staged` and `bytes_of` read the bytes of a file: what is stored under the hash at its
path, or under the source that the manifest there names.  They return that object as it is, so of a
file that was split they return the list of its pieces.

## Main definitions

* `Repo.bytesOfStaged`, `Repo.bytesOf` : the two reads.
* `Store.Yields` : what both of them find under a hash.
* `Repo.KeptWhole` : an addition of a file that is kept in one piece.
* `Repo.StandsAlone` : nothing that is committed comes in the way of a path.

## Main results

* `Repo.staged_bytes_iff` : the bytes that are staged are read back exactly when the file is kept in
  one piece.
* `Repo.resolveHead_of_commit` : what a commit leaves in HEAD.
* `Repo.bytes_read_back` : they are read back after the next commit too.
* `Repo.bytes_lost` : a file that was split.
-/

namespace Omp

open Lib RepoScript

variable (W : World) (env : Env)

/-! ### Reading -/

namespace Repo

/-- The rest of `bytes_of_staged`, once the hash is known. -/
def stagedBytes (s : Store) (path : Text) (hash : Hash) : Except OmpError Bytes :=
  match s.get W.toPlatform hash with
  | none => .error (.corrupt ("staged blob ".toList ++ hash.hex ++ " missing".toList))
  | some ⟨.blob, content⟩ => .ok content
  | some ⟨.manifest, content⟩ => do
    let m ← Manifest.parse W content
    match s.get W.toPlatform m.sourceHash with
    | none => .error (.corrupt "source_hash missing".toList)
    | some raw => .ok raw.content
  | some _ =>
    .error (.notFound ("staged path ".toList ++ W.debugStr path ++ " is not a file".toList))

/-- `bytes_of_staged`. -/
def bytesOfStaged (r : Repo) (path : Text) : Except OmpError Bytes :=
  match r.index[path]? with
  | none => .error (.notFound ("path ".toList ++ W.debugStr path ++ " not staged".toList))
  | some c =>
    if c.kind = .delete then
      .error (.notFound ("path ".toList ++ W.debugStr path ++ " is staged for deletion".toList))
    else match c.hash with
    | none => .error (.notFound ("path ".toList ++ W.debugStr path ++ " has no staged hash".toList))
    | some hash => stagedBytes W r.store path hash

/-- `bytes_of`. -/
def bytesOf (r : Repo) (path : Text) (at_ : Option Text) : Except OmpError Bytes := do
  let target ← match ← r.rootTree W at_ with
    | some root => getAt W.toPlatform r.store none path root
    | none => .ok none
  match target with
  | none => .error (.notFound ("path ".toList ++ W.debugStr path))
  | some ⟨.manifest, hash⟩ => match r.store.get W.toPlatform hash with
    | none => .error (.notFound ("manifest ".toList ++ hash.hex))
    | some o => do
      let m ← Manifest.parse W o.content
      match r.store.get W.toPlatform m.sourceHash with
      | none => .error (.notFound ("blob ".toList ++ m.sourceHash.hex))
      | some blob => .ok blob.content
  | some ⟨.blob, hash⟩ => match r.store.get W.toPlatform hash with
    | none => .error (.notFound ("blob ".toList ++ hash.hex))
    | some o => .ok o.content
  | some ⟨.tree, _⟩ =>
    .error (.invalidPath ("path ".toList ++ W.debugStr path ++ " is a directory".toList))

end Repo

/-- **What is read under a hash**: a blob, or what the source of a manifest names. -/
inductive Store.Yields (s : Store) (hash : Hash) (bytes : Bytes) : Prop where
  | blob (h : s.get W.toPlatform hash = some ⟨.blob, bytes⟩)
  | source {content : Bytes} {m : Manifest} {type : ObjectType}
      (h : s.get W.toPlatform hash = some ⟨.manifest, content⟩)
      (hparse : Manifest.parse W content = .ok m)
      (hsource : s.get W.toPlatform m.sourceHash = some ⟨type, bytes⟩)

section Reading

variable {W} {s s' : Store} {r : Repo} {path : Text} {bytes : Bytes} {hash : Hash}

theorem Store.Yields.mono (hle : s ≤ s') (h : s.Yields W hash bytes) : s'.Yields W hash bytes := by
  cases h with
  | blob h => exact .blob (Store.get_mono hle h)
  | source h hparse hsource =>
    exact .source (Store.get_mono hle h) hparse (Store.get_mono hle hsource)

theorem Repo.stagedBytes_eq_ok : Repo.stagedBytes W s path hash = .ok bytes ↔ s.Yields W hash bytes := by
  constructor
  · intro h
    unfold Repo.stagedBytes at h
    split at h
    · cases h
    · next hget =>
      cases h
      exact .blob hget
    · next content hget =>
      obtain ⟨m, hparse, h⟩ := except_bind_eq_ok.1 h
      split at h
      · cases h
      · next raw hsource =>
        cases h
        exact .source hget hparse hsource
    · cases h
  · rintro (hget | ⟨hget, hparse, hsource⟩)
    · simp only [Repo.stagedBytes, hget]
    · simp only [Repo.stagedBytes, hget]
      exact except_bind_eq_ok.2 ⟨_, hparse, by rw [hsource]⟩

/-- **What is read of what is staged.** -/
theorem Repo.bytesOfStaged_eq_ok :
    r.bytesOfStaged W path = .ok bytes ↔ ∃ c hash, r.index[path]? = some c ∧ c.kind = .upsert ∧
      c.hash = some hash ∧ r.store.Yields W hash bytes := by
  have hyields : ∀ hash, r.store.Yields W hash bytes ↔
      Repo.stagedBytes W r.store path hash = .ok bytes := fun _ => Repo.stagedBytes_eq_ok.symm
  simp only [hyields]
  unfold Repo.bytesOfStaged
  cases r.index[path]? with
  | none => simp
  | some c =>
    obtain ⟨p, kind, hash⟩ := c
    cases kind <;> cases hash <;> simp

/-- **What is read of a file of HEAD.** -/
theorem Repo.bytesOf_eq_ok {root : Hash} {e : Entry} (hroot : r.headTree W = .ok (some root))
    (hget : getAt W.toPlatform r.store none path root = .ok (some e))
    (hmode : storedMode W.toPlatform r.store e.hash = .ok e.mode)
    (h : r.store.Yields W e.hash bytes) : r.bytesOf W path none = .ok bytes := by
  refine except_bind_eq_ok.2 ⟨some root, hroot, except_bind_eq_ok.2 ⟨some e, hget, ?_⟩⟩
  obtain ⟨mode, hash⟩ := e
  cases h with
  | blob h =>
    simp only [storedMode, h, Except.ok.injEq] at hmode
    subst hmode
    simp only [h]
  | source h hparse hsource =>
    simp only [storedMode, h, Except.ok.injEq] at hmode
    subst hmode
    simp only [h]
    exact except_bind_eq_ok.2 ⟨_, hparse, by rw [hsource]⟩

end Reading

/-! ### What is staged by an addition -/

/-- The text that a file is kept under, if it is split: the list of its pieces. -/
def pieceList (chunkSize : Nat) (bytes : Bytes) : Bytes :=
  ChunksBody.serialize ((slices chunkSize bytes).map fun s => ⟨hashOf W.toPlatform .blob s, s.length⟩)

/-- **A file that is kept in one piece** : a blob path, or a file of less than a chunk whose manifest
has no character that TOML does not read.  (A longer one would have to be the list of its pieces.) -/
def Repo.KeptWhole (r : Repo) (req : AddRequest) : Prop :=
  isBlobPath req.path = true ∨ ∃ config m text, r.currentRepoConfig W env = .ok config ∧
    (config.chunkSizeBytes ≤ req.bytes.length →
      pieceList W config.chunkSizeBytes req.bytes = req.bytes) ∧
    r.addedManifest W env req config = .ok m ∧ m.serialize W = .ok (utf8 text) ∧ del ∉ text

section Staged

variable {W env} {r r' : Repo} {req : AddRequest} {res : AddResult}

/-- The object that the manifest of an addition names. -/
theorem Repo.get_source_of_added {config : RepoConfig} {m : Manifest} {s : Store}
    (hm : r.addedManifest W env req config = .ok m) (hC : s.CollisionFree W.toPlatform)
    (hsub : (r.withContent W config req.bytes).store.objects ⊆ s.objects) :
    ∃ type, s.get W.toPlatform m.sourceHash = some ⟨type,
      if config.chunkSizeBytes ≤ req.bytes.length then pieceList W config.chunkSizeBytes req.bytes
      else req.bytes⟩ := by
  unfold Repo.addedManifest at hm
  unfold Repo.withContent at hsub
  split_ifs at hm hsub ⊢ with hlong
  · rw [Repo.sourceHash_of_buildManifestWith hm]
    exact ⟨.chunks, get_of_mem hC (hsub (List.mem_append_right _ (List.mem_singleton.2 rfl)))⟩
  · rw [Repo.sourceHash_of_buildManifestWith hm]
    exact ⟨.blob, get_of_mem hC (hsub (List.mem_append_right _ (List.mem_singleton.2 rfl)))⟩

/-- **The bytes that are staged are read back** exactly when the file is kept in one piece. -/
theorem Repo.staged_bytes_iff (hW : W.Lawful)
    (hrun : ((Repo.add W env req).run (Action.op W)).run r = (.ok res, r'))
    (hC : r'.store.CollisionFree W.toPlatform) :
    r'.bytesOfStaged W req.path = .ok req.bytes ↔ r.KeptWhole W env req := by
  have hstaged := staged_of_add hrun
  unfold Repo.Staged at hstaged
  rw [Repo.bytesOfStaged_eq_ok, Repo.KeptWhole]
  split_ifs at hstaged with hblob
  · subst hstaged
    refine iff_of_true ⟨_, _, getElem?_staging _ _ _, rfl, rfl, .blob ?_⟩ (.inl hblob)
    exact get_of_mem hC (mem_staging _ _ _)
  · obtain ⟨config, m, content, hconfig, hm, hcontent, rfl⟩ := hstaged
    have hget := get_of_mem hC (mem_staging req.path .manifest content)
    obtain ⟨type, hsource⟩ := Repo.get_source_of_added (s := _) hm hC (List.subset_append_left _ _)
    obtain ⟨text, rfl, hparse⟩ := Manifest.parse_iff hW hcontent
    constructor
    · rintro ⟨c, hash, hc, -, hhash, hyields⟩
      cases (getElem?_staging _ _ _).symm.trans hc
      cases hhash
      cases hyields with
      | blob h => cases hget.symm.trans h
      | source h hread hsource' =>
        cases hget.symm.trans h
        obtain ⟨hdel, rfl⟩ := (hparse _).1 hread
        have hbytes := congrArg Object.content (Option.some.inj (hsource.symm.trans hsource'))
        exact .inr ⟨config, m, text, hconfig, fun hlong => (if_pos hlong).symm.trans hbytes, hm,
          hcontent, hdel⟩
    · rintro (h | ⟨config', m', text', hconfig', hpieces, hm', htext', hdel⟩)
      · exact absurd h hblob
      · cases hconfig.symm.trans hconfig'
        cases hm.symm.trans hm'
        obtain rfl := utf8_injective (Except.ok.inj (hcontent.symm.trans htext'))
        have hbytes : (if config.chunkSizeBytes ≤ req.bytes.length then
            pieceList W config.chunkSizeBytes req.bytes else req.bytes) = req.bytes := by
          split_ifs with hlong
          · exact hpieces hlong
          · rfl
        rw [hbytes] at hsource
        exact ⟨_, _, getElem?_staging _ _ _, rfl, rfl,
          .source hget ((hparse _).2 ⟨hdel, rfl⟩) hsource⟩

end Staged

/-! ### After the commit -/

/-- **Nothing comes in the way of a path** when a commit is made: no file there is rebuilt, and no
other change is staged at or above it. -/
structure Repo.StandsAlone (r : Repo) (path : Text) : Prop where
  kept : ∀ q, r.Rebuilds W env q → split W.toPlatform q ≠ split W.toPlatform path
  alone : ∀ q : Text, q ∈ r.index → Over W q path → q = path

section Committed

variable {W env} {full : Prop} {r r' : Repo}

/-- What a reference or `HEAD` is set to, `HEAD` stands for. -/
theorem Repo.resolveHead_advance {h : Hash} {ra : Repo} (hadv : r.advance W h = .ok ra) :
    ra.resolveHead W = .ok (some h) := by
  obtain ⟨head, hhead, hadv⟩ := except_bind_eq_ok.1 hadv
  cases head with
  | branch name =>
    obtain ⟨path, hpath, hadv⟩ := except_bind_eq_ok.1 hadv
    cases hadv
    refine except_bind_eq_ok.2 ⟨_, hhead, except_bind_eq_ok.2 ⟨path, hpath, ?_⟩⟩
    exact congrArg Except.ok Std.ExtTreeMap.getElem?_insert_self
  | detached g =>
    cases hadv
    exact except_bind_eq_ok.2 ⟨_, parseHead_hex W.toPlatform h, rfl⟩

/-- **A commit is what HEAD stands for.** -/
theorem Repo.resolveHead_of_commit {message : Text} {author : AuthorOverride}
    {res : Hash × List ReprobeSummary}
    (hrun : ((Repo.commit W env message author).run (Action.op W)).run r = (.ok res, r')) :
    r'.resolveHead W = .ok (some res.1) := by
  obtain ⟨⟨root, author', summaries⟩, r₁, -, hrun⟩ := (Script.run_bind_eq_ok _).1 hrun
  obtain ⟨h, r₂, hpublish, hrun⟩ := (Script.run_bind_eq_ok _).1 hrun
  obtain ⟨rfl, rfl⟩ := Op.pure_eq_ok.1 hrun
  obtain ⟨tree, parent, ra, -, -, rfl, hadv, rfl⟩ := Repo.publish_eq_ok.1 hpublish
  have hhead := Repo.resolveHead_advance hadv
  exact hhead

/-- **What is staged is read of HEAD** after a commit, if nothing comes in its way. -/
theorem Repo.Orderly.bytesOf_of_commit (hr : r.Orderly W full) {path : Text} {bytes : Bytes}
    (hstaged : r.bytesOfStaged W path = .ok bytes) (halone : r.StandsAlone W env path)
    {message : Text} {author : AuthorOverride} {res : Hash × List ReprobeSummary}
    (hrun : ((Repo.commit W env message author).run (Action.op W)).run r = (.ok res, r'))
    (hC : r'.store.CollisionFree W.toPlatform) : r'.bytesOf W path none = .ok bytes := by
  obtain ⟨c, hash, hc, hkind, hhash, hyields⟩ := Repo.bytesOfStaged_eq_ok.1 hstaged
  obtain ⟨idx, s, head, L, M, root, hcommit⟩ := hr.commitOf hrun hC
  obtain ⟨e, hget, hhash', hmode⟩ :=
    hcommit.getAt_of_upsert hr hC hc hkind halone.kept halone.alone
  cases hhash.symm.trans hhash'
  have hle : r ≤ r' := Op.le_of_run hrun
  have hroot : r'.headTree W = .ok (some root) :=
    except_bind_eq_ok.2 ⟨_, Repo.resolveHead_of_commit hrun,
      except_bind_eq_ok.2 ⟨root, hcommit.tree, rfl⟩⟩
  exact Repo.bytesOf_eq_ok hroot hget (storedMode_mono hcommit.le hmode) (hyields.mono hle)

end Committed

/-! ### Runs -/

/-- A repository that is reached has what the first one had stored. -/
theorem Repo.le_of_reachable {W : World} {P : Repo → Env × Call → Prop} {r r' : Repo}
    (h : (Repo.lts W).Reachable P r r') : r ≤ r' := by
  refine h.invariant (I := fun r' => r ≤ r') (le_refl r) ?_
  rintro r₁ l r₂ hle - rfl
  exact hle.trans ((l.2.run W l.1).grows r₁)

/-- **The bytes at a path are read back**: now from what is staged, and of HEAD after the next
commit, whatever else is done before it.  The paths that are added have names that a tree keeps, and
when the commit is made nothing comes in the way of the path. -/
def Repo.RoundTrips (r : Repo) (path : Text) (bytes : Bytes) : Prop :=
  r.bytesOfStaged W path = .ok bytes ∧
    ∀ r₁ r₂ env message author res,
      (Repo.lts W).Reachable (fun r l => l.2.Clean W False r) r r₁ →
      r₁.index[path]? = r.index[path]? → r₁.StandsAlone W env path →
      (Repo.locked ((Repo.commit W env message author).run (Action.op W))).run r₁ =
        (.ok res, r₂) →
      r₂.store.CollisionFree W.toPlatform → r₂.bytesOf W path none = .ok bytes

/-- **What is added is read back exactly when it is kept in one piece**, in every state. -/
theorem Repo.round_trips_iff {W : World} (hW : W.Lawful) {env : Env} {r r' : Repo}
    {req : AddRequest} {res : AddResult}
    (hreach : (Repo.lts W).Reachable (fun r l => l.2.Clean W False r) Repo.init r)
    (hclean : (Call.add req).Clean W False r)
    (hrun : (Repo.locked ((Repo.add W env req).run (Action.op W))).run r = (.ok res, r'))
    (hC : r'.store.CollisionFree W.toPlatform) :
    r'.RoundTrips W req.path req.bytes ↔ r.KeptWhole W env req := by
  have hle : r ≤ r' := Op.le_of_run hrun
  obtain ⟨-, hrun⟩ := Repo.locked_eq_ok.1 hrun
  have hr : r.Orderly W False := Repo.orderly_of_reachable hreach (hC.down hle)
  have hr' : r'.Orderly W False := (settles_add hr hclean).ok hrun hC
  rw [← Repo.staged_bytes_iff hW hrun hC]
  refine ⟨And.left, fun hbytes => ⟨hbytes, ?_⟩⟩
  intro r₁ r₂ env' message author res' hlater hsame halone hcommit hC₂
  have hle₁ : r' ≤ r₁ := Repo.le_of_reachable hlater
  have hle₂ : r₁ ≤ r₂ := Op.le_of_run hcommit
  obtain ⟨-, hcommit⟩ := Repo.locked_eq_ok.1 hcommit
  have hr₁ : r₁.Orderly W False := hr'.of_reachable hlater (hC₂.down hle₂)
  have hbytes₁ : r₁.bytesOfStaged W req.path = .ok req.bytes := by
    obtain ⟨c, hash, hc, hkind, hhash, hyields⟩ := Repo.bytesOfStaged_eq_ok.1 hbytes
    exact Repo.bytesOfStaged_eq_ok.2 ⟨c, hash, hsame.trans hc, hkind, hhash, hyields.mono hle₁⟩
  exact hr₁.bytesOf_of_commit hbytes₁ halone hcommit hC₂

/-! ### A short file and a long one -/

/-- A file is added at `a`. -/
def addRun (W : World) (bytes : Bytes) (r : Repo) : Except (Fault OmpError) AddResult × Repo :=
  (Repo.locked ((Repo.add W demoEnv ⟨"a".toList, bytes, none, none⟩).run (Action.op W))).run r

theorem Repo.round_trips_demo : ∃ res r', addRun twoSchemaWorld [1]
      (Repo.init.after twoSchemaWorld demoEnv (fileCalls.take 2)) = (.ok res, r') ∧
    r'.RoundTrips twoSchemaWorld "a".toList [1] := by
  have hW : twoSchemaWorld.Lawful := demoWorld_lawful _
  obtain ⟨r, hr⟩ : ∃ r, r = Repo.init.after twoSchemaWorld demoEnv (fileCalls.take 2) := ⟨_, rfl⟩
  have hreach : (Repo.lts twoSchemaWorld).Reachable
      (fun r l => l.2.Clean twoSchemaWorld False r) Repo.init r := by
    rw [hr]
    refine Repo.reachable_after _ (.refl _) fun r => ?_
    exact List.forall_mem_cons.2 ⟨clean_of_split split_schemaFile (by decide +kernel) r,
      List.forall_mem_singleton.2 trivial⟩
  obtain ⟨hok, hC, hbytes⟩ : (addRun twoSchemaWorld [1] r).1.isOk = true ∧
      (addRun twoSchemaWorld [1] r).2.store.CollisionFree demo ∧
      ((addRun twoSchemaWorld [1] r).2.bytesOfStaged twoSchemaWorld "a".toList).toOption =
        some [1] := by
    rw [hr]
    decide +kernel
  rw [← hr]
  clear hr
  obtain ⟨res, hres⟩ := exists_eq_ok_of_isOk hok
  have hrun : addRun twoSchemaWorld [1] r = (.ok res, (addRun twoSchemaWorld [1] r).2) :=
    Prod.ext hres rfl
  have hwhole := (Repo.staged_bytes_iff hW (Repo.locked_eq_ok.1 hrun).2 hC).1
    (toOption_eq_some.1 hbytes)
  exact ⟨res, _, hrun, (Repo.round_trips_iff hW hreach
    (clean_of_split split_a (by decide +kernel) r) hrun hC).2 hwhole⟩

/-- **A file that is split**: what is read is the list of its pieces. -/
theorem Repo.bytes_lost : ∃ (r r' : Repo) (res : AddResult) (other : Bytes),
    (Repo.lts splitWorld).Reachable (fun _ _ => True) Repo.init r ∧
      addRun splitWorld [1, 2] r = (.ok res, r') ∧ r'.store.CollisionFree demo ∧
      r'.bytesOfStaged splitWorld "a".toList = .ok other ∧ other ≠ [1, 2] ∧
      ¬ r'.RoundTrips splitWorld "a".toList [1, 2] := by
  obtain ⟨r, hr⟩ : ∃ r, r = Repo.init.after splitWorld demoEnv (splitCalls.take 3) := ⟨_, rfl⟩
  have hreach : (Repo.lts splitWorld).Reachable (fun _ _ => True) Repo.init r := by
    rw [hr]
    exact Repo.reachable_after _ (.refl _) fun _ _ _ => trivial
  obtain ⟨hok, hC, hsome, hother⟩ : (addRun splitWorld [1, 2] r).1.isOk = true ∧
      (addRun splitWorld [1, 2] r).2.store.CollisionFree demo ∧
      ((addRun splitWorld [1, 2] r).2.bytesOfStaged splitWorld "a".toList).isOk = true ∧
      ((addRun splitWorld [1, 2] r).2.bytesOfStaged splitWorld "a".toList).toOption ≠
        some [1, 2] := by
    rw [hr]
    decide +kernel
  clear hr
  obtain ⟨res, hres⟩ := exists_eq_ok_of_isOk hok
  obtain ⟨other, hread⟩ := exists_eq_ok_of_isOk hsome
  have hne : other ≠ [1, 2] := by
    rintro rfl
    exact hother (toOption_eq_some.2 hread)
  refine ⟨r, _, res, other, hreach, Prod.ext hres rfl, hC, hread, hne, fun htrips => ?_⟩
  exact hne (Except.ok.inj (hread.symm.trans htrips.1))

end Omp
