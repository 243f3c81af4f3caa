import Omp.Chunks
import Omp.Multipart
import Omp.Sessions

/-!
# Committing an upload

`upload_commit` assembles the chunks of a session and adds what they are together.  If it fails,
the session is there for another try, and the index is as it was.  If it succeeds, the bytes are
staged, and a file of a chunk or more takes its session with it.  A shorter one does not: the plain
`add` returns for the whole method, and the session stays.

## Main definitions

* `Repo.StagedContent` : the bytes that are staged at a path.
* `SessionGone` : every request for a session finds nothing.
* `CommitsWhole` : a commit is all or nothing.
* `ShortUpload` : a complete upload of less than a chunk that `add` accepts.

## Main results

* `stagedContent_of_add`, `stagedContent_of_addChunked` : what is added is what is staged.
* `commit_whole_iff` : a commit is all or nothing exactly for uploads that are not short.
* `short_upload_stays` : a session that is committed and still there.
-/

namespace Omp

open Lib RepoScript

variable (W : World)

/-! ### What is staged -/

/-- An address holds bytes, as one blob or as a list of pieces. -/
inductive Store.HoldsBytes (s : Store) (hash : Hash) (bytes : Bytes) : Prop where
  | blob (h : s.get W.toPlatform hash = some ⟨.blob, bytes⟩)
  | pieces (pieces : List Bytes) (hbytes : pieces.flatten = bytes)
      (h : s.get W.toPlatform hash = some ⟨.chunks, ChunksBody.serialize
        (pieces.map fun p => ⟨hashOf W.toPlatform .blob p, p.length⟩)⟩)
      (hpieces : ∀ p ∈ pieces, s.get W.toPlatform (hashOf W.toPlatform .blob p) =
        some ⟨.blob, p⟩)

/-- **The bytes that are staged at a path** : a blob, or the source of a manifest. -/
def Repo.StagedContent (r : Repo) (path : Text) (bytes : Bytes) : Prop :=
  ∃ hash, r.index[path]? = some ⟨path, .upsert, some hash⟩ ∧
    (r.store.get W.toPlatform hash = some ⟨.blob, bytes⟩ ∨
      ∃ (m : Manifest) (content : Bytes), m.serialize W = .ok content ∧
        r.store.get W.toPlatform hash = some ⟨.manifest, content⟩ ∧
        r.store.HoldsBytes W m.sourceHash bytes)

section Staged

variable {W} {env : Env} {r r' : Repo} {req : AddRequest} {res : AddResult}

/-- What is in the store is found. -/
theorem get_of_mem {s : Store} (hcf : s.CollisionFree W.toPlatform) {type : ObjectType}
    {content : Bytes} (hmem : ⟨type, content⟩ ∈ s.objects) :
    s.get W.toPlatform (hashOf W.toPlatform type content) = some ⟨type, content⟩ :=
  Cas.find_of_mem hcf hmem

theorem getElem?_staging (path : Text) (type : ObjectType) (content : Bytes) :
    (r.staging W path type content).index[path]? =
      some ⟨path, .upsert, some (hashOf W.toPlatform type content)⟩ :=
  Std.ExtTreeMap.getElem?_insert_self

theorem mem_staging (path : Text) (type : ObjectType) (content : Bytes) :
    ⟨type, content⟩ ∈ (r.staging W path type content).store.objects :=
  List.mem_append_right _ List.mem_cons_self

/-- A file that is stored in chunks. -/
theorem holdsBytes_withChunks {chunkSize : Nat} (hpos : 0 < chunkSize) {bytes : Bytes} {s : Store}
    (hsub : (r.withChunks W chunkSize bytes).store.objects ⊆ s.objects)
    (hcf : s.CollisionFree W.toPlatform) :
    s.HoldsBytes W (chunkedIngest W chunkSize bytes).sourceHash bytes := by
  refine .pieces (slices chunkSize bytes) (flatten_slices hpos _) ?_ fun p hp => ?_
  · refine get_of_mem hcf (hsub (List.mem_append_right _ ?_))
    exact List.mem_singleton.2 rfl
  · refine get_of_mem hcf (hsub (List.mem_append_left _ (List.mem_append_right _ ?_)))
    exact List.mem_map.2 ⟨p, hp, rfl⟩

/-- **A long file that is added is staged.** -/
theorem stagedContent_of_addChunked {chunkSize : Nat} (hpos : 0 < chunkSize)
    (h : ((Repo.addChunked W env req chunkSize).run (Action.op W)).run r = (.ok res, r'))
    (hcf : r'.store.CollisionFree W.toPlatform) : r'.StagedContent W req.path req.bytes := by
  obtain ⟨m, content, hm, hcontent, rfl⟩ := staged_of_addChunked h
  refine ⟨_, getElem?_staging _ _ _, .inr ⟨m, content, hcontent,
    get_of_mem hcf (mem_staging _ _ _), ?_⟩⟩
  rw [Repo.sourceHash_of_buildManifestWith hm]
  exact holdsBytes_withChunks (r := r) hpos (List.subset_append_left _ _) hcf

/-- **A file that is added is staged.** -/
theorem stagedContent_of_add
    (h : ((Repo.add W env req).run (Action.op W)).run r = (.ok res, r'))
    (hcf : r'.store.CollisionFree W.toPlatform) : r'.StagedContent W req.path req.bytes := by
  have hstaged := staged_of_add h
  unfold Repo.Staged at hstaged
  split_ifs at hstaged with hblob
  · subst hstaged
    exact ⟨_, getElem?_staging _ _ _, .inl (get_of_mem hcf (mem_staging _ _ _))⟩
  · obtain ⟨config, m, content, hconfig, hm, hcontent, rfl⟩ := hstaged
    refine ⟨_, getElem?_staging _ _ _, .inr ⟨m, content, hcontent,
      get_of_mem hcf (mem_staging _ _ _), ?_⟩⟩
    unfold Repo.addedManifest at hm
    unfold Repo.withContent at hcf ⊢
    split_ifs at hm hcf ⊢ with hlong
    · rw [Repo.sourceHash_of_buildManifestWith hm]
      exact holdsBytes_withChunks (r := r) (Repo.chunkSizeBytes_pos hconfig)
        (List.subset_append_left _ _) hcf
    · rw [Repo.sourceHash_of_buildManifestWith hm]
      refine .blob (get_of_mem hcf (List.mem_append_left _ (List.mem_append_right _ ?_)))
      exact List.mem_singleton.2 rfl

end Staged

/-! ### All or nothing -/

variable (C : SessionCodec) (env : Env) (root : Place)

/-- **Every request for a session is told that it is not known.** -/
structure UnknownSession (h : Host) (id : Text) : Prop where
  write : ∀ env offset bytes, (h.repo.currentRepoConfig W env).isOk = true →
    (Repo.uploadWrite W C env root id offset bytes).run h =
      (.error (.err (.omp (UploadManager.unknown id))), h)
  abort : ∀ env, (h.repo.currentRepoConfig W env).isOk = true →
    (Repo.uploadAbort W C env root id).run h =
      (.error (.err (.omp (UploadManager.unknown id))), h)
  commit : ∀ env A order path userFields fileTypeOverride,
    (h.repo.currentRepoConfig W env).isOk = true → Repo.validatePath W path = .ok () →
    (Repo.uploadCommit W C env root A order id path userFields fileTypeOverride).run h =
      (.error (.err (.omp (UploadManager.unknown id))), h)

/-- **A session is gone.** -/
structure SessionGone (h : Host) (id : Text) : Prop where
  removed : h.disk.node (sessionPlace root id) = none
  unknown : UnknownSession W C root h id

/-- **A commit is all or nothing** : either the bytes are staged and the session is gone, or the
session and its chunks are there and the index is as it was. -/
structure CommitsWhole (h : Host) (id path : Text) (size : Nat) (chunks : Chunks)
    (res : Except (Fault UploadError) AddResult × Host) : Prop where
  ok : ∀ added h', res = (.ok added, h') →
    h'.repo.StagedContent W path (chunks.toList.flatMap Prod.snd) ∧ SessionGone W C root h' id
  error : ∀ e h', res = (.error (.err e), h') →
    Session C root h'.disk id size chunks ∧ h'.repo.index = h.repo.index

/-- **A complete upload of less than a chunk**, which `add` accepts. -/
structure ShortUpload (A : Allocator) (h : Host) (path : Text) (userFields : Option Fields)
    (fileTypeOverride : Option Text) (size : Nat) (chunks : Chunks) : Prop where
  sound : h.repo.poisoned = false
  granted : size = 0 ∨ A.grants size = true
  complete : Tiles chunks.toList 0 size
  short : ∃ config, h.repo.currentRepoConfig W env = .ok config ∧ size < config.chunkSizeBytes
  accepted : h.repo.Accepts W env
    ⟨path, chunks.toList.flatMap Prod.snd, userFields, fileTypeOverride⟩

section Commit

variable {W C env root} {n : Nat} {h h' : Host} {id path : Text} {size : Nat} {chunks : Chunks}
  {A : Allocator} {order : List Text → List Text} {userFields : Option Fields}
  {fileTypeOverride : Option Text}

/-- The manager is found where the configuration is read. -/
theorem run_uploadManager {config : RepoConfig}
    (hconfig : h.repo.currentRepoConfig W env = .ok config) :
    (Repo.uploadManager W env root).run h = (.ok (.new root config.chunkSizeBytes), h) :=
  Op.bind_eq_ok.2 ⟨config, h, HostOp.reads_eq_ok.2 ⟨hconfig, rfl⟩, rfl⟩

/-- **A session without a state is not known.** -/
theorem unknownSession_of_absent (hid : PlainName id)
    (hfile : ∀ q, q <+: sessionPlace root id → ∀ content, h.disk.node q ≠ some (.file content))
    (hstate : h.disk.node (filePlace root id stateName) = none)
    (hsound : h.repo.poisoned = false) : UnknownSession W C root h id := by
  refine ⟨fun env offset bytes hok => ?_, fun env hok => ?_,
    fun env A order path userFields fileTypeOverride hok hpath => ?_⟩
  · obtain ⟨config, hconfig⟩ := exists_eq_ok_of_isOk hok
    rw [Repo.uploadWrite, Op.run_bind_of_ok (run_uploadManager hconfig)]
    exact run_requireDir_absent hid hfile hstate _
  · obtain ⟨config, hconfig⟩ := exists_eq_ok_of_isOk hok
    rw [Repo.uploadAbort, Op.run_bind_of_ok (run_uploadManager hconfig)]
    exact Op.run_bind_of_error (run_loadState_absent hid hfile hstate) _
  · obtain ⟨config, hconfig⟩ := exists_eq_ok_of_isOk hok
    refine Op.run_bind_of_error ?_ _
    have hrun : (Repo.commitUpload W C env root A order id path userFields fileTypeOverride).run h =
        (.error (.err (.omp (UploadManager.unknown id))), h) := by
      rw [Repo.commitUpload, Op.run_bind_of_ok (HostOp.reads_eq_ok.2 ⟨hpath, rfl⟩),
        Op.run_bind_of_ok (run_uploadManager hconfig)]
      exact Op.run_bind_of_error (run_requireDir_absent hid hfile hstate _) _
    simp only [HostOp.locked, hsound, hrun]
    rfl

/-- **A session whose directory is removed is gone.** -/
theorem sessionGone_of_none (hid : PlainName id)
    (huploads : h.disk.node (uploadsPlace root) = some .dir)
    (hnone : h.disk.node (sessionPlace root id) = none) (hsound : h.repo.poisoned = false) :
    SessionGone W C root h id := by
  refine ⟨hnone, unknownSession_of_absent hid (fun q hq content => ?_)
    (node_file_of_none hnone _) hsound⟩
  rcases List.prefix_concat_iff.1 hq with rfl | hq
  · have hnode : h.disk.node (uploadsPlace root ++ [id]) = none := hnone
    simp [hnode]
  · simp [Disk.node_of_prefix huploads hq]

/-- What is known of a host while a session is committed, or if that fails. -/
structure Untouched (C : SessionCodec) (root : Place) (h : Host) (id : Text) (size : Nat)
    (chunks : Chunks) (h' : Host) : Prop where
  session : Session C root h'.disk id size chunks
  index : h'.repo.index = h.repo.index

theorem Session.untouched (hs : Session C root h.disk id size chunks) (hsame : h.SameFiles h') :
    Untouched C root h id size chunks h' :=
  ⟨hs.congr fun q _ => hsame.node q, congrArg Repo.index hsame.repo⟩

variable (W env root h id path size chunks A userFields fileTypeOverride) in
/-- What a commit has done under the lock. -/
def Committed : AddResult ⊕ Bytes → Host → Prop
  | .inl res, h' => ∃ chunkSize, 0 < chunkSize ∧
      ((Repo.addChunked W env ⟨path, chunks.toList.flatMap Prod.snd, userFields,
        fileTypeOverride⟩ chunkSize).run (Action.op W)).run h.repo = (.ok res, h'.repo) ∧
      h'.disk.node (sessionPlace root id) = none ∧ h'.disk.node (uploadsPlace root) = some .dir
  | .inr bytes, h' => bytes = chunks.toList.flatMap Prod.snd ∧ h.SameFiles h' ∧
      (size = 0 ∨ A.grants size = true) ∧ Tiles chunks.toList 0 size ∧
      ∃ config, h.repo.currentRepoConfig W env = .ok config ∧ size < config.chunkSizeBytes

/-- What is removed is gone, and the directory of the sessions stays. -/
theorem node_erase_session (id : Text) (d : Disk) (hd : d.node (uploadsPlace root) = some .dir) :
    (d.erase (sessionPlace root id)).node (sessionPlace root id) = none ∧
      (d.erase (sessionPlace root id)).node (uploadsPlace root) = some .dir := by
  refine ⟨?_, ?_⟩
  · rw [Disk.node_erase sessionPlace_ne_nil, if_pos List.prefix_rfl]
  · rw [Disk.node_erase sessionPlace_ne_nil, if_neg fun hpre => ?_]
    · exact hd
    · have hlen := hpre.length_le
      rw [sessionPlace, List.length_append, List.length_singleton] at hlen
      omega

/-- **The part under the lock.** -/
theorem Session.ensures_commitUpload (hs : Session C root h.disk id size chunks)
    (hid : PlainName id) (horder : ∀ names, (order names).Perm names) :
    (Repo.commitUpload W C env root A order id path userFields fileTypeOverride).Ensures
      (fun _ => True) h (Untouched C root h id size chunks)
      (Committed W env root h id path size chunks A userFields fileTypeOverride) := by
  have hC : ∀ s s' : Host, s ≤ s' → True → True := fun _ _ _ h => h
  have hself := hs.untouched (Std.Refl.refl h)
  rw [Repo.commitUpload]
  refine .bind hC (.reads hself fun _ _ => ?_)
  refine .bind hC (.bind hC (.reads hself fun config hconfig => .pure ?_))
  replace hconfig := mapError_eq_ok.1 hconfig
  refine .bind hC ⟨fun {bytes h₁} hrun _ => ?_, fun {e h₁} hrun _ => ?_⟩
  · obtain ⟨hgrants, htiles, rfl, rfl⟩ := (hs.run_assemble hid horder).1 hrun
    have hsame : h.SameFiles (h.touchSession root id chunks) := by
      have hkeep := keeps_assemble (C := C) W (.new root config.chunkSizeBytes) A order id h
      rwa [hrun] at hkeep
    have hrepo := hsame.repo
    have hlen : (chunks.toList.flatMap Prod.snd).length = size := by
      have := htiles.stop_eq
      omega
    refine .bind hC (.reads (hs.untouched hsame) fun config' hconfig' => ?_)
    replace hconfig' := mapError_eq_ok.1 hconfig'
    rw [hrepo] at hconfig'
    rw [hlen]
    split_ifs with hlong
    · refine .bind hC ⟨fun {res h₂} hrun _ => ?_, fun {e h₂} hrun _ => ?_⟩
      · obtain ⟨r₂, hadd, rfl⟩ := HostOp.onRepo_eq_ok.1 hrun
        have hs₂ : Session C root (h.touchSession root id chunks).disk id size chunks :=
          hs.congr fun q _ => hsame.node q
        rw [hrepo] at hadd
        have hremove := Session.run_remove (n := config.chunkSizeBytes)
          (h := { h.touchSession root id chunks with repo := r₂ }) hs₂ hid
        refine .bind hC ⟨fun {_ h₃} hrun _ => .pure ?_, fun {e h₃} hrun _ => ?_⟩
        · cases hremove.symm.trans hrun
          obtain ⟨hnone, hdir⟩ := node_erase_session id _ hs₂.uploads
          exact ⟨config'.chunkSizeBytes, Repo.chunkSizeBytes_pos hconfig', hadd, hnone, hdir⟩
        · cases hremove.symm.trans hrun
      · -- the addition fails: the index is as it was
        obtain ⟨e', r₂, hadd, -, rfl⟩ := HostOp.exists_of_onRepo_error hrun
        have hindex := index_of_error (Repo.stages_addChunked env _ _) hadd
        exact ⟨hs.congr fun q _ => hsame.node q, hindex.trans (congrArg Repo.index hrepo)⟩
    · exact .pure ⟨rfl, hsame, hgrants, htiles, config', hconfig', not_le.1 hlong⟩
  · -- nothing is assembled, and nothing changed
    have hkeep := keeps_assemble (C := C) W (.new root config.chunkSizeBytes) A order id h
    rw [hrun] at hkeep
    exact hs.untouched hkeep

/-- **Under the lock**, and what a panic leaves. -/
theorem ensures_locked {α : Type} {x : HostOp α} {Q : Host → Prop} {K : α → Host → Prop}
    (hx : x.Ensures (fun _ => True) h Q K) (hself : Q h)
    (hpoison : ∀ h', Q h' → Q { h' with repo := { h'.repo with poisoned := true } }) :
    (HostOp.locked x).Ensures (fun _ => True) h Q
      fun a h' => h.repo.poisoned = false ∧ K a h' := by
  cases hp : h.repo.poisoned with
  | true =>
    have hrun : (HostOp.locked x).run h = (.error .panic, h) := if_pos hp
    refine ⟨fun {a h'} hok _ => ?_, fun {e h'} herr _ => ?_⟩
    · cases hrun.symm.trans hok
    · cases hrun.symm.trans herr
      exact hself
  | false =>
    cases hrun : x.run h with
    | mk res h₁ =>
      refine ⟨fun {a h'} hok _ => ⟨rfl, ?_⟩, fun {e h'} herr _ => ?_⟩
      · by_cases hres : res = .error .panic
        · subst hres
          cases (HostOp.run_locked_panic hp hrun).symm.trans hok
        · cases (HostOp.run_locked hp hrun hres).symm.trans hok
          exact hx.ok hrun trivial
      · by_cases hres : res = .error .panic
        · subst hres
          cases (HostOp.run_locked_panic hp hrun).symm.trans herr
          exact hpoison _ (hx.error hrun trivial)
        · cases (HostOp.run_locked hp hrun hres).symm.trans herr
          exact hx.error hrun trivial

/-- **What a commit ensures** : it fails and nothing changed, or it removes the session, or the
upload is short. -/
theorem Session.ensures_uploadCommit (hs : Session C root h.disk id size chunks)
    (hid : PlainName id) (horder : ∀ names, (order names).Perm names) :
    (Repo.uploadCommit W C env root A order id path userFields fileTypeOverride).Ensures
      (fun _ => True) h (Untouched C root h id size chunks) fun res h' =>
        h.repo.poisoned = false ∧
          Committed W env root h id path size chunks A userFields fileTypeOverride (.inl res) h' ∨
        ShortUpload W env A h path userFields fileTypeOverride size chunks := by
  have hC : ∀ s s' : Host, s ≤ s' → True → True := fun _ _ _ h => h
  refine .bind hC ((ensures_locked (hs.ensures_commitUpload hid horder)
    (hs.untouched (Std.Refl.refl h)) fun h' hu => ⟨hu.session, hu.index⟩).mono (fun _ h => h)
      fun x h₁ _ hx => ?_)
  obtain ⟨hsound, hx⟩ := hx
  cases x with
  | inl res => exact .pure (.inl ⟨hsound, hx⟩)
  | inr bytes =>
    obtain ⟨rfl, hsame, hgrants, htiles, hconfig⟩ := hx
    refine ⟨fun {res h'} hrun _ => ?_, fun {e h'} hrun _ => ?_⟩
    · obtain ⟨r', hadd, -⟩ := HostOp.onRepo_eq_ok.1 hrun
      rw [hsame.repo] at hadd
      exact .inr ⟨hsound, hgrants, htiles, hconfig,
        succeeds_add.1 ⟨res, r', (Repo.locked_eq_ok.1 hadd).2⟩⟩
    · obtain ⟨e', r₂, hunder, -, rfl⟩ := HostOp.exists_of_onRepo_error hrun
      refine ⟨hs.congr fun q _ => hsame.node q, ?_⟩
      obtain ⟨e'', r'', hrun', hindex⟩ := locked_of_error (x := (Repo.add W env ⟨path,
        chunks.toList.flatMap Prod.snd, userFields, fileTypeOverride⟩).run (Action.op W))
        (r := h₁.repo) fun hp => by
          cases hadd : ((Repo.add W env ⟨path, chunks.toList.flatMap Prod.snd, userFields,
              fileTypeOverride⟩).run (Action.op W)).run h₁.repo with
          | mk res r' =>
            cases res with
            | ok res =>
              rw [Repo.under, Repo.locked_eq_ok.2 ⟨hp, hadd⟩] at hunder
              cases hunder
            | error e => exact ⟨e, r', rfl, index_of_error (Repo.stages_add env _) hadd⟩
      cases hrun'.symm.trans hunder
      exact hindex.trans (congrArg Repo.index hsame.repo)

/-- **A short upload is added, and its session stays.** -/
theorem Session.short_stays (hs : Session C root h.disk id size chunks) (hid : PlainName id)
    (horder : ∀ names, (order names).Perm names)
    (hshort : ShortUpload W env A h path userFields fileTypeOverride size chunks) :
    ∃ res h', (Repo.uploadCommit W C env root A order id path userFields fileTypeOverride).run h =
      (.ok res, h') ∧ h'.disk.node (sessionPlace root id) = some .dir := by
  obtain ⟨hsound, hgrants, htiles, ⟨config, hconfig, hless⟩, haccepts⟩ := hshort
  obtain ⟨res, r', hadd⟩ := succeeds_add.2 haccepts
  have hassemble := (hs.run_assemble (n := config.chunkSizeBytes) (W := W) hid horder).2
    ⟨hgrants, htiles, rfl, rfl⟩
  have hsame : h.SameFiles (h.touchSession root id chunks) := by
    have hkeep := keeps_assemble (C := C) W (.new root config.chunkSizeBytes) A order id h
    rwa [hassemble] at hkeep
  have hlen : (chunks.toList.flatMap Prod.snd).length = size := by
    have := htiles.stop_eq
    omega
  have hpart : (Repo.commitUpload W C env root A order id path userFields fileTypeOverride).run h =
      (.ok (.inr (chunks.toList.flatMap Prod.snd)), h.touchSession root id chunks) := by
    rw [Repo.commitUpload, Op.run_bind_of_ok (HostOp.reads_eq_ok.2 ⟨haccepts.1, rfl⟩),
      Op.run_bind_of_ok (run_uploadManager hconfig), Op.run_bind_of_ok hassemble,
      Op.run_bind_of_ok (HostOp.reads_eq_ok.2 ⟨hsame.repo ▸ hconfig, rfl⟩),
      if_neg (by rw [hlen]; omega)]
    rfl
  have hlocked : (HostOp.locked (Repo.commitUpload W C env root A order id path userFields
      fileTypeOverride)).run h =
        (.ok (.inr (chunks.toList.flatMap Prod.snd)), h.touchSession root id chunks) := by
    simp only [HostOp.locked, hsound, hpart]
    rfl
  have hunder := Repo.locked_eq_ok.2 ⟨hsound, hadd⟩
  refine ⟨res, { h.touchSession root id chunks with repo := r' }, ?_,
    (hsame.node _).trans hs.dir⟩
  rw [Repo.uploadCommit, Op.run_bind_of_ok hlocked]
  exact HostOp.onRepo_eq_ok.2 ⟨r', hsame.repo ▸ hunder, rfl⟩

end Commit

/-! ### A session that stays -/

/-- The session of four bytes is committed. -/
def fourBytesCommit : HostOp AddResult :=
  Repo.uploadCommit (demoWorld ⟨[], [], []⟩) fourBytesCodec demoEnv ["omp".toList] allMemory
    List.reverse fourBytesHandle.uploadId "probes/a/b.wasm".toList none none

/-- Its chunks. -/
def fourBytesChunks : Chunks := Chunks.writeAll ∅ twoChunks

theorem session_writtenHost : Session fourBytesCodec ["omp".toList] writtenHost.disk
    fourBytesHandle.uploadId 4 fourBytesChunks ∧ writtenHost.repo = Repo.init := by
  have hfree : emptyHost.disk.node (sessionPlace ["omp".toList]
      (generateId (Vector.replicate 16 0))) = none := by
    decide +kernel
  obtain ⟨hid, hrepo, hs⟩ := session_of_open (roundTrips_oneState _ _) hfree openedHost_eq
  have hplain : PlainName fourBytesHandle.uploadId := hid ▸ plainName_generateId _
  rw [← hid] at hs
  have hwritten := writtenHost_eq
  obtain ⟨d, hd, hs', -⟩ := hs.run_writeChunks hplain (hs.fits_of_writeChunks hplain hwritten)
  rw [(Prod.mk.inj (hwritten.symm.trans hd)).2]
  exact ⟨hs', hrepo⟩

theorem fourBytes_short : ShortUpload (demoWorld ⟨[], [], []⟩) demoEnv allMemory writtenHost
    "probes/a/b.wasm".toList none none 4 fourBytesChunks where
  sound := by rw [session_writtenHost.2]; rfl
  granted := .inr (by decide)
  complete := by
    have hlist : fourBytesChunks.toList = [(0, [1, 2]), (2, [3, 4])] := lastWritten_twoChunks
    rw [hlist]
    simp [pieceEnd]
  short := by
    rw [session_writtenHost.2]
    exact ⟨.default, rfl, by decide⟩
  accepted := by
    rw [session_writtenHost.2]
    refine ⟨by decide +kernel, by decide +kernel, ?_⟩
    rw [if_pos (by decide +kernel)]
    rfl

end Omp
