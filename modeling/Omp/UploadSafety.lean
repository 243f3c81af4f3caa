import Omp.Grounded
import Omp.UploadCommits

/-!
# Requests on sessions are confined

The requests on sessions come with an id, which is joined to the directory of the sessions as it
is.  As long as the ids are plain names, what they read, write and remove is in the directories of
sessions that were opened, and what they find there is what a session holds.  So none of them
panics under the lock, if the declared size of what is committed can be allocated.

An id with a slash leads elsewhere.

## Main definitions

* `UploadStep.Meets` : a request with a plain id, for what can be allocated.
* `Host.Safe` : sessions are confined, unknown ones refused, and the repository is in service.
* `Host.Inv` : what the directory of the sessions holds.

## Main results

* `Host.Inv.step` : every request that meets the condition keeps the invariant.
* `uploads_safe` : in every run of such requests every host is safe.
* `abort_elsewhere` : an id with slashes that removes the files of another repository.
-/

namespace Omp

open Lib

variable (W : World) (C : SessionCodec) (root : Place)

/-! ### The condition and the property -/

/-- **A request with a plain id**, that opens a session where there is none, or commits one whose
declared size can be allocated. -/
def UploadStep.Meets (h : Host) (l : UploadStep) : Prop :=
  match l.request with
  | .open_ _ => h.disk.node (sessionPlace root (generateId l.random)) = none
  | .write id _ _ => PlainName id
  | .commit id _ _ _ => PlainName id ∧ ∀ size chunks, Session C root h.disk id size chunks →
      size = 0 ∨ l.allocator.grants size = true
  | .abort id => PlainName id

/-- **Sessions are confined, unknown ones are refused, and the repository is in service.** -/
structure Host.Safe (d₀ : Disk) (h : Host) : Prop where
  /-- What was read, written or removed is in the directory of a session that was opened. -/
  confined : ∀ p ∈ h.disk.touched, ∃ id size, (id, size) ∈ h.created ∧
    sessionPlace root id <+: p
  /-- What is elsewhere is as it was. -/
  outside : ∀ p, ¬ uploadsPlace root <+: p → h.disk.node p = d₀.node p
  /-- A session that was not opened is not known. -/
  unknown : ∀ id, PlainName id → (∀ size, (id, size) ∉ h.created) → UnknownSession W C root h id
  /-- No panic poisoned the lock. -/
  sound : h.repo.poisoned = false
  /-- The process runs. -/
  running : h.aborted = false

/-- **A host without sessions**, before the first request. -/
structure Host.Start (h : Host) : Prop where
  rootDir : h.disk.node root = some .dir
  uploads : h.disk.node (uploadsPlace root) = none ∨
    h.disk.node (uploadsPlace root) = some .dir
  none : ∀ id, h.disk.node (sessionPlace root id) = none
  touched : h.disk.touched = []
  created : h.created = []
  sound : h.repo.poisoned = false
  running : h.aborted = false
  /-- No chain of subtrees of `HEAD` goes on for ever. -/
  grounded : h.repo.HeadGrounded W

/-! ### The invariant -/

/-- What may stand at the place of a session: nothing, a session that was opened, or a directory
that its opening left empty. -/
inductive Standing (h : Host) (id : Text) : Prop where
  | none (hnone : h.disk.node (sessionPlace root id) = none)
  | session (size : Nat) (chunks : Chunks) (hs : Session C root h.disk id size chunks)
      (hcreated : (id, size) ∈ h.created)
  | bare (hdir : h.disk.node (sessionPlace root id) = some .dir)
      (hnone : ∀ name, h.disk.node (filePlace root id name) = none)

/-- **What holds between requests.** -/
structure Host.Inv (d₀ : Disk) (h : Host) : Prop where
  rootDir : h.disk.node root = some .dir
  uploads : h.disk.node (uploadsPlace root) = none ∨
    h.disk.node (uploadsPlace root) = some .dir
  standing : ∀ id, Standing C root h id
  confined : ∀ p ∈ h.disk.touched, ∃ id size, (id, size) ∈ h.created ∧
    sessionPlace root id <+: p
  outside : ∀ p, ¬ uploadsPlace root <+: p → h.disk.node p = d₀.node p
  sound : h.repo.poisoned = false
  running : h.aborted = false
  grounded : h.repo.HeadGrounded W

variable {W C root} {d₀ : Disk} {h h' : Host} {id : Text} {n : Nat}

theorem Host.Start.inv (hstart : h.Start W root) : h.Inv W C root h.disk where
  rootDir := hstart.rootDir
  uploads := hstart.uploads
  standing id := .none (hstart.none id)
  confined p hp := by
    rw [hstart.touched] at hp
    exact absurd hp List.not_mem_nil
  outside _ _ := rfl
  sound := hstart.sound
  running := hstart.running
  grounded := hstart.grounded

theorem not_file_of {o : Option Node} (ho : o = none ∨ o = some .dir) (content : Bytes) :
    o ≠ some (.file content) := by
  rcases ho with rfl | rfl
  · exact (Option.some_ne_none _).symm
  · simp

namespace Host.Inv

/-- Nothing stands at the place of a session, or a directory. -/
theorem node_session (hi : h.Inv W C root d₀) (id : Text) :
    h.disk.node (sessionPlace root id) = none ∨
      h.disk.node (sessionPlace root id) = some .dir := by
  cases hi.standing id with
  | none hnone => exact .inl hnone
  | session size chunks hs _ => exact .inr hs.dir
  | bare hdir _ => exact .inr hdir

/-- No file is on the way to a session. -/
theorem no_file (hi : h.Inv W C root d₀) (id : Text) (q : Place) (hq : q <+: sessionPlace root id)
    (content : Bytes) : h.disk.node q ≠ some (.file content) := by
  rcases List.prefix_concat_iff.1 hq with rfl | hq
  · exact not_file_of (hi.node_session id) content
  · rcases List.prefix_concat_iff.1 hq with rfl | hq
    · exact not_file_of hi.uploads content
    · exact not_file_of (.inr (Disk.node_of_prefix hi.rootDir hq)) content

/-- Where no session stands, there is no state. -/
theorem absent_or_session (hi : h.Inv W C root d₀) (id : Text) :
    h.disk.node (filePlace root id stateName) = none ∨
      ∃ size chunks, Session C root h.disk id size chunks ∧ (id, size) ∈ h.created := by
  cases hi.standing id with
  | none hnone => exact .inl (node_file_of_none hnone _)
  | session size chunks hs hcreated => exact .inr ⟨size, chunks, hs, hcreated⟩
  | bare _ hnone => exact .inl (hnone stateName)

/-- **What the invariant is for.** -/
theorem safe (hi : h.Inv W C root d₀) : h.Safe W C root d₀ where
  confined := hi.confined
  outside := hi.outside
  unknown id hid hnot := by
    refine unknownSession_of_absent hid (hi.no_file id) ?_ hi.sound
    refine (hi.absent_or_session id).resolve_right ?_
    rintro ⟨size, _, -, hcreated⟩
    exact hnot size hcreated
  sound := hi.sound
  running := hi.running

end Host.Inv

/-! ### What a request changes -/

/-- The places of two sessions are apart. -/
theorem session_prefix_inj {id' : Text} {q : Place} (hq : sessionPlace root id <+: q)
    (hq' : sessionPlace root id' <+: q) : id = id' := by
  have hlen : (sessionPlace root id).length = (sessionPlace root id').length := by
    simp [sessionPlace]
  have heq := (List.prefix_of_prefix_length_le hq hq' hlen.le).eq_of_length hlen
  exact List.singleton_injective (List.append_cancel_left heq)

theorem uploads_prefix_session : uploadsPlace root <+: sessionPlace root id :=
  List.prefix_append _ _

theorem not_session_of_uploads {q : Place} (hq : q <+: uploadsPlace root) :
    ¬ sessionPlace root id <+: q := by
  intro hpre
  have hlen := hpre.length_le
  have hlen' := hq.length_le
  rw [sessionPlace, List.length_append, List.length_singleton] at hlen
  omega

theorem Standing.congr (hs : Standing C root h id)
    (hnode : ∀ q, sessionPlace root id <+: q → h'.disk.node q = h.disk.node q)
    (hcreated : ∀ c ∈ h.created, c ∈ h'.created) : Standing C root h' id := by
  cases hs with
  | none hnone => exact .none ((hnode _ List.prefix_rfl).trans hnone)
  | session size chunks hs hmem => exact .session size chunks (hs.congr hnode) (hcreated _ hmem)
  | bare hdir hnone =>
    exact .bare ((hnode _ List.prefix_rfl).trans hdir) fun name =>
      (hnode _ (List.prefix_append _ _)).trans (hnone name)

/-- **What a request on a session may change** : what is in its directory, and it may add files to
the repository. -/
structure Host.Moves (root : Place) (id : Text) (h h' : Host) : Prop where
  repo : h.repo.AddsFiles h'.repo
  running : h'.aborted = h.aborted
  created : ∀ c ∈ h.created, c ∈ h'.created
  outside : ∀ q, ¬ sessionPlace root id <+: q → h'.disk.node q = h.disk.node q
  touched : ∀ p ∈ h'.disk.touched, p ∈ h.disk.touched ∨
    sessionPlace root id <+: p ∧ ∃ size, (id, size) ∈ h'.created

/-- **Such a request keeps the invariant**, if it leaves what may stand there. -/
theorem Host.Inv.moves (hi : h.Inv W C root d₀) (hm : Host.Moves root id h h')
    (hs : Standing C root h' id) : h'.Inv W C root d₀ where
  rootDir := (hm.outside _ (not_session_of_uploads (List.prefix_append _ _))).trans hi.rootDir
  uploads := by
    rw [hm.outside _ (not_session_of_uploads List.prefix_rfl)]
    exact hi.uploads
  standing id' := by
    by_cases hid : id' = id
    · exact hid ▸ hs
    · refine (hi.standing id').congr (fun q hq => hm.outside q fun hq' => hid ?_) hm.created
      exact session_prefix_inj hq hq'
  confined p hp := by
    rcases hm.touched p hp with hp | ⟨hpre, size, hcreated⟩
    · obtain ⟨id', size, hmem, hpre⟩ := hi.confined p hp
      exact ⟨id', size, hm.created _ hmem, hpre⟩
    · exact ⟨id, size, hcreated, hpre⟩
  outside p hp := (hm.outside p fun hpre => hp (uploads_prefix_session.trans hpre)).trans
    (hi.outside p hp)
  sound := hm.repo.poisoned.trans hi.sound
  running := hm.running.trans hi.running
  grounded := hi.grounded.of_addsFiles hm.repo

/-! ### Reading -/

/-- Files of a session are read, and nothing changes. -/
structure Host.Visits (root : Place) (id : Text) (h h' : Host) : Prop where
  repo : h'.repo = h.repo
  running : h'.aborted = h.aborted
  created : h'.created = h.created
  node : ∀ q, h'.disk.node q = h.disk.node q
  touched : ∀ p ∈ h'.disk.touched, p ∈ h.disk.touched ∨ sessionPlace root id <+: p

theorem Host.Visits.refl (h : Host) : Host.Visits root id h h :=
  ⟨rfl, rfl, rfl, fun _ => rfl, fun _ => .inl⟩

theorem Host.Visits.trans {h'' : Host} (hv : Host.Visits root id h h')
    (hv' : Host.Visits root id h' h'') : Host.Visits root id h h'' :=
  ⟨hv'.repo.trans hv.repo, hv'.running.trans hv.running, hv'.created.trans hv.created,
    fun q => (hv'.node q).trans (hv.node q), fun p hp =>
      (hv'.touched p hp).elim (hv.touched p) .inr⟩

theorem Host.Visits.touch (root : Place) (id : Text) (h : Host) (name : Text) :
    Host.Visits root id h (h.touch (filePlace root id name)) := by
  refine ⟨rfl, rfl, rfl, fun _ => rfl, fun p hp => ?_⟩
  rcases List.mem_cons.1 hp with rfl | hp
  · exact .inr (List.prefix_append _ _)
  · exact .inl hp

theorem Host.Visits.moves {size : Nat} (hv : Host.Visits root id h h')
    (hcreated : (id, size) ∈ h.created) : Host.Moves root id h h' where
  repo := hv.repo ▸ .refl _
  running := hv.running
  created _ hc := hv.created ▸ hc
  outside q _ := hv.node q
  touched p hp := (hv.touched p hp).imp_right fun hpre => ⟨hpre, size, hv.created ▸ hcreated⟩

variable {A : Allocator} {order : List Text → List Text} {size : Nat} {chunks : Chunks}

/-- The loop of `assemble` returns. -/
theorem returns_splice (hid : PlainName id) {pieces : List (Nat × Bytes)} (capacity : Nat)
    (buf : Bytes) (hdir : h.disk.node (sessionPlace root id) = some .dir)
    (hpieces : ∀ p ∈ pieces, h.disk.node (filePlace root id (chunkName p.1)) = some (.file p.2) ∧
      p.1 < 2 ^ 64 ∧ pieceEnd p ≤ capacity) :
    (UploadManager.splice A id (pieces.map fun p =>
      (p.1, ((UploadManager.new root n).sessionDir id).entry (chunkName p.1)))
      buf.length capacity buf).Returns h (Host.Visits root id h) fun _ => Host.Visits root id h := by
  induction pieces generalizing h buf with
  | nil => exact .pure (.refl h)
  | cons p pieces ih =>
    obtain ⟨⟨hfile, hword, hend⟩, hrest⟩ := List.forall_mem_cons.1 hpieces
    rw [List.map_cons, UploadManager.splice]
    by_cases ho : p.1 = buf.length
    · rw [if_neg (not_not.2 ho)]
      have hname := plainName_chunkName hword
      have hresolve := resolve_file (n := n) hid hname hdir
      rw [Loc.join_plain hname] at hresolve
      have hread := Disk.read_of_resolve hresolve hfile
      have hlen : (buf ++ p.2).length = pieceEnd p := by
        rw [List.length_append, pieceEnd, ho]
      have hreserve : A.reserve capacity (buf.length + p.2.length) = pure capacity := by
        rw [Allocator.reserve, if_pos (by rw [← List.length_append, hlen]; exact hend)]
      have hvisit := Host.Visits.touch root id h (chunkName p.1)
      refine .bind (.of_ok (HostOp.onDisk_eq_ok.2 ⟨_, hread, rfl⟩) ?_)
      rw [hreserve, ← List.length_append]
      refine .bind (.pure ?_)
      exact (ih (h := h.touch (filePlace root id (chunkName p.1))) _ hdir hrest).mono
        (fun _ hv => hvisit.trans hv) fun _ _ hv => hvisit.trans hv
    · rw [if_pos ho]
      exact .throw (.refl h)

/-- **`assemble` returns**, if the declared size can be allocated. -/
theorem Session.returns_assemble (hs : Session C root h.disk id size chunks) (hid : PlainName id)
    (horder : ∀ names, (order names).Perm names) (hgrants : size = 0 ∨ A.grants size = true) :
    ((UploadManager.new root n).assemble W C A order id).Returns h (Host.Visits root id h)
      fun _ => Host.Visits root id h := by
  obtain ⟨st, hsize, hload⟩ := hs.run_loadState (n := n) hid
  have hvisit := Host.Visits.touch root id h stateName
  have hs' : Session C root (h.touch (filePlace root id stateName)).disk id size chunks :=
    hs.congr fun _ _ => rfl
  have hlist := Disk.list_of_resolve (resolve_sessionDir (n := n) hid hs'.uploads) hs'.dir
  rw [UploadManager.assemble]
  refine .bind (.of_ok (hs.run_requireDir hid) (.bind (.of_ok hload ?_)))
  refine .bind (.reads hvisit fun names hnames => .bind (.reads hvisit fun files hfiles => ?_))
  obtain rfl := Except.ok.inj (hlist.symm.trans (mapError_eq_ok.1 hnames))
  have hentries := chunkEntries_eq_ok (W := W) id
    ((UploadManager.new root n).sessionDir id) fun name hname =>
      hs'.of_children ((horder _).mem_iff.1 hname)
  obtain rfl := Except.ok.inj (hentries.symm.trans (mapError_eq_ok.1 hfiles))
  rw [hsize, hs'.mergeSort_entries _ (horder _)]
  refine .bind (.of_ok (Allocator.run_allocate.2 ⟨hgrants, rfl⟩) (.bind ?_))
  refine (returns_splice hid _ [] hs'.dir fun p hp => ?_).mono
    (fun _ hv => hvisit.trans hv) fun out h' hv => ?_
  · have hchunk := Std.ExtTreeMap.mem_toList_iff_getElem?_eq_some.1 hp
    have hfits := hs'.fits _ _ hchunk
    exact ⟨hs'.chunk _ _ hchunk, by omega, hfits.2⟩
  · dsimp only
    split_ifs
    · exact .throw (hvisit.trans hv)
    · exact .pure (hvisit.trans hv)

/-! ### Requests that return -/

section Rules

variable {α : Type} {Q : Host → Prop} {K : α → Host → Prop}

theorem returns_onRepo {x : RepoOp α} (hx : x.Returns h.repo (fun r => Q { h with repo := r })
    fun a r => K a { h with repo := r }) : (HostOp.onRepo x).Returns h Q K := by
  refine ⟨fun hrun => ?_, fun hrun => ?_⟩
  · obtain ⟨r, hr, rfl⟩ := HostOp.onRepo_eq_ok.1 hrun
    exact hx.ok hr
  · obtain ⟨e', r, hr, rfl, rfl⟩ := HostOp.exists_of_onRepo_error hrun
    obtain ⟨hpanic, hQ⟩ := hx.error hr
    refine ⟨fun heq => hpanic ?_, hQ⟩
    cases e' with
    | err e => cases heq
    | panic => rfl

theorem returns_onDisk {wrap : IoError → UploadError} {f : Disk → Except IoError α × Disk}
    (hf : ∀ res d, f h.disk = (res, d) → match res with
      | .ok a => K a { h with disk := d }
      | .error _ => Q { h with disk := d }) : (HostOp.onDisk wrap f).Returns h Q K := by
  have hrun := hf _ _ rfl
  cases hres : (f h.disk).1 with
  | ok a =>
    rw [hres] at hrun
    exact .of_ok (HostOp.onDisk_eq_ok.2 ⟨_, eq_mk_of_fst_eq hres, rfl⟩) hrun
  | error e =>
    rw [hres] at hrun
    have herr : ((HostOp.onDisk wrap f).run h).1 = .error (.err (wrap e)) := by
      show (f h.disk).1.mapError _ = _
      rw [hres]
      rfl
    exact .of_err (eq_mk_of_fst_eq herr) hrun

/-- What returns does not poison the lock. -/
theorem returns_locked {x : HostOp α} (hsound : h.repo.poisoned = false) (hx : x.Returns h Q K) :
    (HostOp.locked x).Returns h Q K := by
  cases hrun : x.run h with
  | mk res h₁ =>
    cases res with
    | ok a => exact .of_ok (HostOp.run_locked hsound hrun (by simp)) (hx.ok hrun)
    | error e =>
      obtain ⟨hpanic, hQ⟩ := hx.error hrun
      cases e with
      | panic => exact absurd rfl hpanic
      | err e => exact .of_err (HostOp.run_locked hsound hrun (by simp)) hQ

theorem returns_uploadManager {env : Env} {k : UploadManager → HostOp α} (hQ : Q h)
    (hk : ∀ n, (k (.new root n)).Returns h Q K) :
    (Repo.uploadManager W env root >>= k).Returns h Q K :=
  .bind (.bind (.reads hQ fun config _ => .pure (hk config.chunkSizeBytes)))

end Rules

namespace Host.Inv

variable {env : Env} {path : Text} {userFields : Option Fields} {fileTypeOverride : Option Text}

theorem visits {size : Nat} {chunks : Chunks} (hi : h.Inv W C root d₀)
    (hs : Session C root h.disk id size chunks) (hcreated : (id, size) ∈ h.created)
    (hv : Host.Visits root id h h') : h'.Inv W C root d₀ :=
  hi.moves (hv.moves hcreated) (.session size chunks (hs.congr fun q _ => hv.node q)
    (hv.created ▸ hcreated))

/-- **Writing keeps the invariant.** -/
theorem returns_write (hi : h.Inv W C root d₀) (hid : PlainName id) (o : Nat) (bytes : Bytes) :
    (Repo.uploadWrite W C env root id o bytes).Returns h (Host.Inv W C root d₀)
      fun _ => Host.Inv W C root d₀ := by
  refine returns_uploadManager hi fun n => ?_
  rcases hi.absent_or_session id with hstate | ⟨size, chunks, hs, hcreated⟩
  · exact .of_err (run_requireDir_absent hid (hi.no_file id) hstate _) hi
  · by_cases hover : 2 ^ 64 ≤ o + bytes.length ∨ size < o + bytes.length
    · exact .of_err (hs.run_writeChunk_over hid hover) (hi.visits hs hcreated (.touch root id h _))
    · obtain ⟨d, hrun, htouched, hs', hnode⟩ := hs.run_writeChunk (n := n) (o := o)
        hid bytes (by omega) (by omega)
      refine .of_ok hrun (hi.moves ⟨.refl _, rfl, fun _ hc => hc, fun q hq => ?_, fun p hp => ?_⟩
        (.session size _ hs' hcreated))
      · have hne : filePlace root id (chunkName o) ≠ q := by
          rintro rfl
          exact hq (List.prefix_append _ _)
        rw [hnode, if_neg hne]
      · rw [htouched] at hp
        rcases List.mem_cons.1 hp with rfl | hp
        · exact .inr ⟨List.prefix_append _ _, size, hcreated⟩
        · rcases List.mem_cons.1 hp with rfl | hp
          · exact .inr ⟨List.prefix_append _ _, size, hcreated⟩
          · exact .inl hp

/-- Removing a session keeps the invariant. -/
theorem erase {size : Nat} (hi : h.Inv W C root d₀) (hcreated : (id, size) ∈ h.created) :
    Host.Inv W C root d₀ { h with disk := h.disk.erase (sessionPlace root id) } := by
  have hm : Host.Moves root id h { h with disk := h.disk.erase (sessionPlace root id) } := by
    refine ⟨.refl _, rfl, fun _ hc => hc, fun q hq => ?_, fun p hp => ?_⟩
    · rw [Disk.node_erase sessionPlace_ne_nil, if_neg hq]
    · rcases Disk.of_mem_touched_erase hp with hpre | hp
      · exact .inr ⟨hpre, size, hcreated⟩
      · exact .inl hp
  refine hi.moves hm (.none ?_)
  rw [Disk.node_erase sessionPlace_ne_nil, if_pos List.prefix_rfl]

/-- **Aborting keeps the invariant.** -/
theorem returns_abort (hi : h.Inv W C root d₀) (hid : PlainName id) :
    (Repo.uploadAbort W C env root id).Returns h (Host.Inv W C root d₀)
      fun _ => Host.Inv W C root d₀ := by
  refine returns_uploadManager hi fun n => ?_
  rcases hi.absent_or_session id with hstate | ⟨size, chunks, hs, hcreated⟩
  · exact .bind (.of_err (run_loadState_absent hid (hi.no_file id) hstate) hi)
  · obtain ⟨st, -, hload⟩ := hs.run_loadState (n := n) hid
    have hi' := hi.visits hs hcreated (.touch root id h stateName)
    have hs' : Session C root (h.touch (filePlace root id stateName)).disk id size chunks :=
      hs.congr fun _ _ => rfl
    exact .bind (.of_ok hload (.of_ok (hs'.run_remove hid) (hi'.erase hcreated)))

/-- Adding files to the repository keeps the invariant. -/
theorem addsFiles (hi : h.Inv W C root d₀) {r : Repo} (hr : h.repo.AddsFiles r) :
    Host.Inv W C root d₀ { h with repo := r } := by
  obtain ⟨hroot, huploads, hstanding, hconfined, houtside, hsound, hrunning, hgrounded⟩ := hi
  refine ⟨hroot, huploads, fun id => (hstanding id).congr (fun _ _ => rfl) fun _ hc => hc,
    hconfined, houtside, hr.poisoned.trans hsound, hrunning, hgrounded.of_addsFiles hr⟩

/-- **Committing keeps the invariant**, if the declared size can be allocated. -/
theorem returns_commit (hi : h.Inv W C root d₀) (hid : PlainName id)
    (horder : ∀ names, (order names).Perm names)
    (hgrants : ∀ size chunks, Session C root h.disk id size chunks →
      size = 0 ∨ A.grants size = true) :
    (Repo.uploadCommit W C env root A order id path userFields fileTypeOverride).Returns h
      (Host.Inv W C root d₀) fun _ => Host.Inv W C root d₀ := by
  refine .bind ((returns_locked hi.sound (K := fun _ => Host.Inv W C root d₀) ?_).mono
    (fun _ h => h) fun x h₁ hi₁ => ?_)
  · refine .bind (.reads hi fun _ _ => returns_uploadManager hi fun n => ?_)
    rcases hi.absent_or_session id with hstate | ⟨size, chunks, hs, hcreated⟩
    · exact .bind (.of_err (run_requireDir_absent hid (hi.no_file id) hstate _) hi)
    · refine .bind ((hs.returns_assemble hid horder (hgrants size chunks hs)).mono
        (fun _ hv => hi.visits hs hcreated hv) fun bytes h₁ hv => ?_)
      have hi₁ := hi.visits hs hcreated hv
      have hs₁ : Session C root h₁.disk id size chunks := hs.congr fun q _ => hv.node q
      refine .bind (.reads hi₁ fun config _ => ?_)
      split_ifs
      · refine .bind (returns_onRepo ((tame_addChunked hi₁.grounded _ _ (.refl _)).mono
          (fun r hr => hi₁.addsFiles hr) fun res r hr => ?_))
        have hi₂ := hi₁.addsFiles hr
        have hremove := Session.run_remove (n := n) (h := { h₁ with repo := r }) hs₁ hid
        have hcreated₁ : (id, size) ∈ h₁.created := hv.created ▸ hcreated
        exact .bind (.of_ok hremove (.pure (hi₂.erase hcreated₁)))
      · exact .pure hi₁
  · cases x with
    | inl res => exact .pure hi₁
    | inr bytes =>
      exact returns_onRepo ((returns_add hi₁.grounded hi₁.sound _).mono
        (fun r hr => hi₁.addsFiles hr) fun _ r hr => hi₁.addsFiles hr)

/-! ### Opening -/

/-- What creating the directory of a session may add. -/
theorem addsDirs_cases {d d' : Disk} {names : List Text}
    (hnames : names <+: ["uploads".toList, id]) (hroot : d.node root = some .dir)
    (hadds : Disk.AddsDirs root names d d') (q : Place) :
    d'.node q = d.node q ∨ d.node q = none ∧ d'.node q = some .dir ∧
      (q = uploadsPlace root ∨ q = sessionPlace root id) := by
  refine (hadds.2 q).imp_right fun ⟨hnone, hdir, ns, hns, hq⟩ => ⟨hnone, hdir, ?_⟩
  have hcases : ns = [] ∨ ns = ["uploads".toList] ∨ ns = ["uploads".toList, id] := by
    have hns : ns <+: ["uploads".toList] ++ [id] := hns.trans hnames
    rcases List.prefix_concat_iff.1 hns with rfl | hns
    · exact .inr (.inr rfl)
    · have hns : ns <+: [] ++ ["uploads".toList] := hns
      rcases List.prefix_concat_iff.1 hns with rfl | hns
      · exact .inr (.inl rfl)
      · exact .inl (List.prefix_nil.1 hns)
  rcases hcases with rfl | rfl | rfl
  · -- the root is there already
    rw [hq, List.append_nil, hroot] at hnone
    cases hnone
  · exact .inl hq
  · refine .inr (hq.trans ?_)
    rw [sessionPlace, uploadsPlace, List.append_assoc]
    rfl

/-- **Creating directories keeps the invariant.** -/
theorem addsDirs (hi : h.Inv W C root d₀) {names : List Text} {d : Disk}
    (hnames : names <+: ["uploads".toList, id]) (hadds : Disk.AddsDirs root names h.disk d) :
    Host.Inv W C root d₀ { h with disk := d } := by
  have hcases := addsDirs_cases hnames hi.rootDir hadds
  have hsame {q : Place} (hq : q ≠ uploadsPlace root) (hq' : q ≠ sessionPlace root id) :
      d.node q = h.disk.node q :=
    (hcases q).resolve_right fun ⟨_, _, hor⟩ => hor.elim hq hq'
  -- what is below the directory of a session is not on the way to one
  have hbelow {id' : Text} {q : Place} (hq : sessionPlace root id' <+: q) :
      q ≠ uploadsPlace root := by
    rintro rfl
    exact not_session_of_uploads List.prefix_rfl hq
  obtain ⟨hroot, huploads, hstanding, hconfined, houtside, hsound, hrunning, hgrounded⟩ := hi
  refine ⟨?_, ?_, fun id' => ?_, ?_, fun p hp => ?_, hsound, hrunning, hgrounded⟩
  · rcases hcases root with heq | ⟨hnone, -, -⟩
    · exact heq.trans hroot
    · rw [hroot] at hnone
      cases hnone
  · rcases hcases (uploadsPlace root) with heq | ⟨-, hdir, -⟩
    · exact heq ▸ huploads
    · exact .inr hdir
  · by_cases hid : id' = id
    · subst hid
      rcases hcases (sessionPlace root id') with heq | ⟨hnone, hdir, -⟩
      · refine (hstanding id').congr (fun q hq => ?_) fun _ hc => hc
        by_cases hself : q = sessionPlace root id'
        · rw [hself, heq]
        · exact hsame (hbelow hq) hself
      · refine .bare hdir fun name => ?_
        have hfile : filePlace root id' name ≠ uploadsPlace root := hbelow (List.prefix_append _ _)
        refine (hsame hfile fun heq => ?_).trans (node_file_of_none hnone name)
        exact absurd (congrArg List.length heq) (by simp [filePlace])
    · refine (hstanding id').congr (fun q hq => hsame (hbelow hq) ?_) fun _ hc => hc
      rintro rfl
      exact hid (session_prefix_inj hq List.prefix_rfl)
  · rw [hadds.1]
    exact hconfined
  · refine (hsame ?_ ?_).trans (houtside p hp)
    · rintro rfl
      exact hp List.prefix_rfl
    · rintro rfl
      exact hp uploads_prefix_session

/-- **Opening keeps the invariant**, once what is opened is handed out. -/
theorem returns_open (hi : h.Inv W C root d₀) (hC : C.RoundTrips) {random : Vector UInt8 16}
    (hfree : h.disk.node (sessionPlace root (generateId random)) = none) (declaredSize : Nat) :
    (Repo.uploadOpen W C env root random declaredSize).Returns h (Host.Inv W C root d₀)
      fun handle h' => Host.Inv W C root d₀
        { h' with created := (handle.uploadId, declaredSize) :: h'.created } := by
  have hid := plainName_generateId random
  have hnames : ["uploads".toList] <+: ["uploads".toList, generateId random] :=
    List.prefix_append _ [_]
  refine .bind (.reads hi fun _ _ => returns_uploadManager hi fun n => ?_)
  refine .bind (returns_onDisk fun res d₁ hmk => ?_)
  have hadds := Disk.createDirAll_plain uploadsDir_plain hmk
  have hi₁ := hi.addsDirs hnames (by rwa [uploadsDir_new] at hadds)
  cases res with
  | error e => exact hi₁
  | ok _ =>
    refine .bind (returns_onDisk fun res d₂ hmk' => ?_)
    have hadds' := Disk.createDirAll_plain (sessionDir_plain hid) hmk'
    have hi₂ := hi₁.addsDirs (List.prefix_refl ["uploads".toList, generateId random])
      (by rwa [sessionDir_new hid, uploadsDir_new] at hadds')
    cases res with
    | error e => exact hi₂
    | ok _ =>
      have hnone := node_file_of_addsDirs hid hfree hadds hadds'
      refine .bind (.reads hi₂ fun body hbody => .bind (returns_onDisk fun res d₃ hwrite => ?_))
      have hplace := stateFile_place root n hid
      rw [Loc.join_plain plainName_stateName] at hwrite
      rcases Disk.write_plain ((sessionDir_plain hid).entry plainName_stateName)
        (hplace ▸ filePlace_ne_nil) hwrite with ⟨e, rfl, rfl⟩ | ⟨rfl, hdir, htouched, hnode⟩
      · exact hi₂
      · rw [hplace] at hdir hnode htouched
        rw [dropLast_filePlace] at hdir
        have hs := session_of_write (hC.parse (mapError_eq_ok.1 hbody)) rfl hnone hdir hnode
        refine .pure (hi₂.moves ⟨.refl _, rfl, fun _ hc => List.mem_cons_of_mem _ hc,
          fun q hq => ?_, fun p hp => ?_⟩ (.session declaredSize ∅ hs List.mem_cons_self))
        · have hne : filePlace root (generateId random) stateName ≠ q := by
            rintro rfl
            exact hq (List.prefix_append _ _)
          rw [hnode, if_neg hne]
        · rw [htouched] at hp
          rcases List.mem_cons.1 hp with rfl | hp
          · exact .inr ⟨List.prefix_append _ _, declaredSize, List.mem_cons_self⟩
          · exact .inl hp

/-- **Every request that meets the condition keeps the invariant.** -/
theorem step (hC : C.RoundTrips) {l : UploadStep} (hi : h.Inv W C root d₀)
    (hl : l.Meets C root h) : Host.Inv W C root d₀ (l.serve W C root h).2 := by
  have hreturns : (l.run W C root).Returns h (Host.Inv W C root d₀)
      fun _ => Host.Inv W C root d₀ := by
    rw [UploadStep.Meets] at hl
    rw [UploadStep.run]
    cases hreq : l.request with
    | open_ declaredSize =>
      rw [hreq] at hl
      refine .bind ((hi.returns_open hC hl declaredSize).mono (fun _ h => h) fun _ h' hi' => ?_)
      exact .bind (.of_ok rfl (.pure hi'))
    | write id offset bytes =>
      rw [hreq] at hl
      exact .bind ((hi.returns_write hl offset bytes).mono (fun _ h => h) fun _ _ hi' => .pure hi')
    | commit id path userFields fileTypeOverride =>
      rw [hreq] at hl
      exact .bind ((hi.returns_commit hl.1 l.order_perm hl.2).mono (fun _ h => h)
        fun _ _ hi' => .pure hi')
    | abort id =>
      rw [hreq] at hl
      exact .bind ((hi.returns_abort hl).mono (fun _ h => h) fun _ _ hi' => .pure hi')
  rw [UploadStep.serve, hi.running]
  exact hreturns.holds

end Host.Inv

/-- **In every run of requests with plain ids, sessions are confined**, unknown ones are refused,
and the repository stays in service. -/
theorem uploads_safe (hC : C.RoundTrips) {h₀ h : Host} (h₀start : h₀.Start W root)
    (hreach : (Host.lts W C root).Reachable (fun h l => l.Meets C root h) h₀ h) :
    h.Safe W C root h₀.disk := by
  refine (hreach.invariant (I := Host.Inv W C root h₀.disk) h₀start.inv ?_).safe
  rintro h l _ hi hl rfl
  exact hi.step hC hl

/-! ### Two repositories -/

/-- A request, where all memory is granted. -/
def demoStep (request : UploadRequest) : UploadStep where
  env := demoEnv
  allocator := allMemory
  random := Vector.replicate 16 0
  order := fun names => names
  order_perm := fun _ => .refl _
  request := request

/-- A host of files that no request has touched. -/
def hostOf (d : Disk) : Host := ⟨Repo.init, { d with touched := [] }, false, []⟩

/-- A host without sessions. -/
theorem hostOf_start {d : Disk} (hroot : d.node root = some .dir)
    (huploads : d.node (uploadsPlace root) = none ∨ d.node (uploadsPlace root) = some .dir)
    (hnone : d.children (uploadsPlace root) = []) (W : World) : (hostOf d).Start W root where
  rootDir := hroot
  uploads := huploads
  none id := by
    by_contra hthere
    have hmem : id ∈ d.children (uploadsPlace root) := Disk.mem_children.2 hthere
    rw [hnone] at hmem
    cases hmem
  touched := rfl
  created := rfl
  sound := rfl
  running := rfl
  grounded := by
    intro t ht
    cases ht

/-- The session of four bytes, as it is opened with the default configuration. -/
def openedFour : SessionState :=
  { fourBytes with createdAt := demoEnv.now, chunkSizeBytes := RepoConfig.default.chunkSizeBytes }

/-- Its format. -/
def openedFourCodec : SessionCodec :=
  oneState openedFour ("id = \"AAAAAAAAAAAAAAAA\"\ndeclared_size = 4\ncreated_at = \"".toList ++
    demoEnv.now ++ "\"\nchunk_size_bytes = 16777216\n".toList)

/-- The host on which it is opened. -/
def openedFourHost : Host :=
  ((demoStep (.open_ 4)).serve (demoWorld ⟨[], [], []⟩) openedFourCodec [] (hostOf Disk.empty)).2

theorem uploads_safe_demo : openedFourHost.created = [(openedFour.id, 4)] ∧
    openedFourHost.Safe (demoWorld ⟨[], [], []⟩) openedFourCodec [] Disk.empty := by
  have hstart : (hostOf Disk.empty).Start (demoWorld ⟨[], [], []⟩) [] :=
    hostOf_start rfl (.inl (by decide +kernel)) (by decide +kernel) _
  refine ⟨by decide +kernel, uploads_safe (roundTrips_oneState _ _) hstart
    (.tail (.refl _) ?_ rfl)⟩
  exact hstart.none _

/-- The files of two repositories, one of which has a session. -/
def twoRepos : Disk := (openedHost.disk.createDirAll ⟨[], ["b".toList, "uploads".toList]⟩).2

/-- The session of the other repository, seen from the directory of the sessions. -/
def otherSession : Text := "../../omp/uploads/AAAAAAAAAAAAAAAA".toList

/-- **A session of another repository is aborted.** -/
theorem abort_elsewhere : (hostOf twoRepos).Start (demoWorld ⟨[], [], []⟩) ["b".toList] ∧
    ∃ h, (Host.lts (demoWorld ⟨[], [], []⟩) fourBytesCodec ["b".toList]).Reachable
        (fun _ _ => True) (hostOf twoRepos) h ∧
      ¬ h.Safe (demoWorld ⟨[], [], []⟩) fourBytesCodec ["b".toList] (hostOf twoRepos).disk := by
  refine ⟨hostOf_start (by decide +kernel) (.inr (by decide +kernel)) (by decide +kernel) _,
    _, .tail (.refl _) (l := demoStep (.abort otherSession)) trivial rfl, fun hsafe => ?_⟩
  have hout := hsafe.outside (filePlace ["omp".toList] fourBytesHandle.uploadId stateName)
    (by decide +kernel)
  have hgone : (((demoStep (.abort otherSession)).serve (demoWorld ⟨[], [], []⟩) fourBytesCodec
      ["b".toList] (hostOf twoRepos)).2).disk.node
        (filePlace ["omp".toList] fourBytesHandle.uploadId stateName) = none := by
    decide +kernel
  have hthere : (hostOf twoRepos).disk.node
      (filePlace ["omp".toList] fourBytesHandle.uploadId stateName) ≠ none := by
    decide +kernel
  exact hthere (hout.symm.trans hgone)

end Omp
