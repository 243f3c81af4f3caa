import Omp.Lib.FileSystem
import Omp.Lib.Lts
import Omp.Server
import Omp.Streaming

/-!
# Upload sessions

A session is a directory `uploads/<id>` of a repository, with its state and one file for each
chunk.  `UploadManager` works on these files, and what is committed is read from them.  The id is
that of the request: it is joined to a path as it is.

The files are in a file system with all else that is there.  Of the format of the state nothing is
assumed but that it is read back, and of the allocator that what it grants fits in half the memory.
An allocation that is refused ends the process.

## Main definitions

* `Host`, `HostOp` : a repository with the files around it, and what changes them.
* `UploadManager` : the files of the sessions.
* `Repo.uploadOpen`, `Repo.uploadWrite`, `Repo.uploadCommit`, `Repo.uploadAbort` : the methods.
* `UploadStep`, `Host.lts` : the requests that a host serves.

## Main results

* `HostOp.onDisk_eq_ok`, `HostOp.onRepo_eq_ok`, `HostOp.reads_eq_ok` : when the parts succeed.
* `plainName_generateId`, `plainName_chunkName` : an id that was drawn is a plain name, and so is
  that of a chunk.
-/

namespace Omp

open Lib

/-! ### The host -/

/-- What an upload fails with. -/
inductive UploadError where
  | omp (e : OmpError)
  /-- `OmpError::io`. -/
  | io (path : Loc) (e : IoError)
  deriving DecidableEq

/-- A repository, the file system it is in, and its process. -/
structure Host where
  repo : Repo
  disk : Disk
  /-- Whether the process has ended. -/
  aborted : Bool
  /-- The sessions that were handed out, with their sizes. -/
  created : List (Text × Nat)

/-- Hosts grow with their repositories. -/
instance : Preorder Host := Preorder.lift Host.repo

/-- An operation of a host. -/
abbrev HostOp (α : Type) := Op Host UploadError α

namespace HostOp

variable {α : Type}

/-- An operation on files. -/
def onDisk (wrap : IoError → UploadError) (f : Disk → Except IoError α × Disk) : HostOp α where
  run h := ((f h.disk).1.mapError fun e => .err (wrap e), { h with disk := (f h.disk).2 })
  grows h := le_refl h.repo

/-- An error of an operation on the repository. -/
def repoFault : Fault OmpError → Fault UploadError
  | .err e => .err (.omp e)
  | .panic => .panic

/-- An operation on the repository. -/
def onRepo (x : RepoOp α) : HostOp α where
  run h := ((x.run h.repo).1.mapError repoFault, { h with repo := (x.run h.repo).2 })
  grows h := x.grows h.repo

/-- A computation that does not look at the files. -/
def reads (f : Repo → Except OmpError α) : HostOp α :=
  Op.reads fun h => (f h.repo).mapError .omp

/-- End with an error. -/
def throw (e : OmpError) : HostOp α := Op.throw (.omp e)

/-- The process ends. -/
def abort : HostOp α where
  run h := (.error .panic, { h with aborted := true })
  grows h := le_refl h.repo

/-- Run an operation under the write lock, which a panic poisons. -/
def locked (x : HostOp α) : HostOp α where
  run h :=
    if h.repo.poisoned then (.error .panic, h)
    else match x.run h with
      | (.error .panic, h') =>
        (.error .panic, { h' with repo := { h'.repo with poisoned := true } })
      | res => res
  grows h := by
    have hgrows := x.grows h
    split
    · exact le_refl h
    · split
      · next heq => rwa [heq] at hgrows
      · exact hgrows

/-- A session is handed out. -/
def record (id : Text) (declaredSize : Nat) : HostOp Unit where
  run h := (.ok (), { h with created := (id, declaredSize) :: h.created })
  grows h := le_refl h.repo

variable {h h' : Host} {a : α}

theorem onDisk_eq_ok {wrap : IoError → UploadError} {f : Disk → Except IoError α × Disk} :
    (onDisk wrap f).run h = (.ok a, h') ↔
      ∃ d, f h.disk = (.ok a, d) ∧ h' = { h with disk := d } := by
  rw [onDisk, Prod.mk.injEq, mapError_eq_ok]
  constructor
  · rintro ⟨ha, rfl⟩
    exact ⟨_, eq_mk_of_fst_eq ha, rfl⟩
  · rintro ⟨d, hd, rfl⟩
    rw [hd]
    exact ⟨rfl, rfl⟩

theorem onRepo_eq_ok {x : RepoOp α} :
    (onRepo x).run h = (.ok a, h') ↔
      ∃ r, x.run h.repo = (.ok a, r) ∧ h' = { h with repo := r } := by
  rw [onRepo, Prod.mk.injEq, mapError_eq_ok]
  constructor
  · rintro ⟨ha, rfl⟩
    exact ⟨_, eq_mk_of_fst_eq ha, rfl⟩
  · rintro ⟨r, hr, rfl⟩
    rw [hr]
    exact ⟨rfl, rfl⟩

theorem exists_of_onRepo_error {x : RepoOp α} {e : Fault UploadError}
    (hrun : (onRepo x).run h = (.error e, h')) :
    ∃ e' r, x.run h.repo = (.error e', r) ∧ repoFault e' = e ∧ h' = { h with repo := r } := by
  obtain ⟨hres, rfl⟩ := Prod.mk.inj hrun
  obtain ⟨e', he', he⟩ := mapError_eq_error.1 hres
  exact ⟨e', _, eq_mk_of_fst_eq he', he, rfl⟩

/-- Under the lock an operation that does not panic runs as it does without. -/
theorem run_locked {x : HostOp α} {res : Except (Fault UploadError) α}
    (hsound : h.repo.poisoned = false) (hrun : x.run h = (res, h')) (hres : res ≠ .error .panic) :
    (locked x).run h = (res, h') := by
  simp only [locked, hsound, hrun]
  rcases res with (e | _) | a
  · rfl
  · exact absurd rfl hres
  · rfl

/-- A panic poisons the lock. -/
theorem run_locked_panic {x : HostOp α} (hsound : h.repo.poisoned = false)
    (hrun : x.run h = (.error .panic, h')) : (locked x).run h =
      (.error .panic, { h' with repo := { h'.repo with poisoned := true } }) := by
  simp only [locked, hsound, hrun]
  rfl

theorem reads_eq_ok {f : Repo → Except OmpError α} :
    (reads f).run h = (.ok a, h') ↔ f h.repo = .ok a ∧ h = h' := by
  rw [reads, Op.reads_eq_ok, mapError_eq_ok]

end HostOp

/-! ### Memory -/

/-- Which allocations are granted. -/
structure Allocator where
  grants : Nat → Bool
  grants_lt : ∀ n, grants n = true → n < 2 ^ 63

namespace Allocator

variable (A : Allocator)

/-- `Vec::with_capacity`, which panics over a capacity beyond half the memory. -/
def allocate (n : Nat) : HostOp Unit :=
  if n = 0 then pure ()
  else if 2 ^ 63 ≤ n then Op.panic
  else if A.grants n then pure ()
  else HostOp.abort

/-- `Vec::resize` : a vector that is full grows to twice its capacity at least. -/
def reserve (capacity n : Nat) : HostOp Nat :=
  if n ≤ capacity then pure capacity
  else do
    let grown := max (max (2 * capacity) n) 8
    A.allocate grown
    pure grown

end Allocator

/-! ### Sessions -/

/-- The content of `state.toml`. -/
structure SessionState where
  id : Text
  declaredSize : Nat
  path : Option Text
  createdAt : Text
  chunkSizeBytes : Nat
  deriving DecidableEq

/-- `toml::from_str` and `toml::to_string_pretty`, for the state of a session. -/
structure SessionCodec where
  fromStr : Text → Except Text SessionState
  toStringPretty : SessionState → Except Text Text

/-- **What is written is read back.** -/
def SessionCodec.RoundTrips (C : SessionCodec) : Prop :=
  ∀ s t, C.toStringPretty s = .ok t → C.fromStr t = .ok s

variable (W : World) (C : SessionCodec)

namespace SessionState

/-- `parse`. -/
def parse (bytes : Bytes) : Except OmpError SessionState :=
  match fromUtf8 bytes with
  | none => .error (.corrupt "upload state.toml is not UTF-8".toList)
  | some s => (C.fromStr s).mapError fun e => .corrupt ("upload state.toml: ".toList ++ e)

/-- `serialize`. -/
def serialize (s : SessionState) : Except OmpError Bytes := do
  let t ← (C.toStringPretty s).mapError fun e => .internal ("serialize session: ".toList ++ e)
  .ok (utf8 t)

end SessionState

/-- **What is serialized is parsed.** -/
theorem SessionCodec.RoundTrips.parse {C : SessionCodec} (hC : C.RoundTrips) {s : SessionState}
    {bytes : Bytes} (h : SessionState.serialize C s = .ok bytes) :
    SessionState.parse C bytes = .ok s := by
  obtain ⟨t, ht, h⟩ := except_bind_eq_ok.1 h
  cases h
  rw [SessionState.parse, fromUtf8_utf8]
  exact mapError_eq_ok.2 (hC s t (mapError_eq_ok.1 ht))

/-- `UploadManager`. -/
structure UploadManager where
  uploadsDir : Loc
  defaultChunkSize : Nat

/-- `UploadHandle`. -/
structure UploadHandle where
  uploadId : Text
  chunkSizeBytes : Nat
  deriving DecidableEq

/-- The name of the state of a session. -/
def stateName : Text := "state.toml".toList

/-- The name of a chunk: its offset in twenty digits. -/
def chunkName (offset : Nat) : Text :=
  "chunk.".toList ++ (List.replicate (20 - (decimal offset).length) '0' ++ decimal offset)

/-- The letters of an id. -/
def idAlphabet : Text :=
  "ABCDEFGHIJKLMNOPQRSTUVWXYZabcdefghijklmnopqrstuvwxyz0123456789".toList

/-- `generate_id`, from sixteen random bytes. -/
def generateId (random : Vector UInt8 16) : Text :=
  random.toList.map fun b => idAlphabet.getD (b.toNat % idAlphabet.length) 'A'

/-- Letters and digits, and a dot, may stand in a plain name. -/
theorem plain_of_isAlphanum {c : Char} (hc : c.isAlphanum = true ∨ c = '.') :
    c ≠ '/' ∧ c ≠ '\x00' := by
  rcases hc with hc | rfl
  · refine ⟨?_, ?_⟩
    · rintro rfl
      exact absurd hc (by decide)
    · rintro rfl
      exact absurd hc (by decide)
  · decide

theorem isAlphanum_of_mem {s : Text} (h : s.all (fun c => c.isAlphanum || c == '.') = true)
    {c : Char} (hc : c ∈ s) : c.isAlphanum = true ∨ c = '.' := by
  simpa using List.all_eq_true.1 h c hc

theorem plainName_stateName : PlainName stateName :=
  plainName_of_chars (c := 's') (by decide +kernel) (by decide) (by decide +kernel) fun _ hc =>
    plain_of_isAlphanum (isAlphanum_of_mem (by decide +kernel) hc)

/-- **The name of a chunk is plain.** -/
theorem plainName_chunkName {offset : Nat} (h : offset < 2 ^ 64) :
    PlainName (chunkName offset) := by
  have hlen : (decimal offset).length ≤ 20 :=
    (Nat.length_toDigits_le_iff (by omega) (by omega)).2 (by omega)
  refine plainName_of_chars (c := 'c') ?_ (by decide) ?_ fun c hc => plain_of_isAlphanum ?_
  · exact List.mem_append_left _ (by decide +kernel)
  · have hstem : "chunk.".toList.length = 6 := by decide +kernel
    rw [chunkName, List.length_append, List.length_append, List.length_replicate, hstem]
    omega
  · rw [chunkName, List.mem_append, List.mem_append] at hc
    rcases hc with hc | hc | hc
    · exact isAlphanum_of_mem (by decide +kernel) hc
    · rw [List.eq_of_mem_replicate hc]
      decide
    · refine .inl ?_
      have hdigit := Nat.isDigit_of_mem_toDigits (by omega) (by omega) hc
      rw [Char.isAlphanum, hdigit, Bool.or_true]

/-- **An id that was drawn is a plain name.** -/
theorem plainName_generateId (random : Vector UInt8 16) : PlainName (generateId random) := by
  have halpha : ∀ c ∈ generateId random, c.isAlphanum = true := by
    intro c hc
    obtain ⟨b, -, rfl⟩ := List.mem_map.1 hc
    have hall : idAlphabet.all Char.isAlphanum = true := by decide +kernel
    rw [List.getD_eq_getElem?_getD]
    cases hb : idAlphabet[b.toNat % idAlphabet.length]? with
    | none => rfl
    | some c => exact List.all_eq_true.1 hall c (List.mem_of_getElem? hb)
  have hlen : (generateId random).length = 16 := by
    rw [generateId, List.length_map, Vector.length_toList]
  obtain ⟨c, cs, hcons⟩ := List.exists_cons_of_length_pos (l := generateId random) (by omega)
  have hc : c ∈ generateId random := hcons ▸ List.mem_cons_self
  refine plainName_of_chars hc ?_ (by omega) fun c hc => plain_of_isAlphanum (.inl (halpha c hc))
  rintro rfl
  exact absurd (halpha _ hc) (by decide)

namespace UploadManager

/-- `UploadManager::new`. -/
def new (ompDir : Place) (defaultChunkSize : Nat) : UploadManager :=
  ⟨Loc.join ⟨ompDir, []⟩ "uploads".toList, defaultChunkSize⟩

variable (mgr : UploadManager)

/-- `session_dir`. -/
def sessionDir (id : Text) : Loc := mgr.uploadsDir.join id

/-- The error over an id that is not known. -/
def unknown (id : Text) : OmpError := .notFound ("upload session ".toList ++ id)

/-- The error over a chunk that reaches past the declared size. -/
def overflow (id : Text) (offset len declaredSize : Nat) : OmpError :=
  .invalidPath ("upload ".toList ++ id ++ ": chunk at offset ".toList ++ decimal offset ++
    " (len ".toList ++ decimal len ++ ") overflows declared size ".toList ++ decimal declaredSize)

/-- `load_state`. -/
def loadState (id : Text) : HostOp SessionState := do
  let path := (mgr.sessionDir id).join stateName
  let bytes ← HostOp.onDisk
    (fun e => if e = .notFound then .omp (unknown id) else .io path e) fun d => d.read path
  HostOp.reads fun _ => SessionState.parse C bytes

/-- The check that a session is there. -/
def requireDir (id : Text) : HostOp Unit :=
  Op.reads fun h => if h.disk.isDir (mgr.sessionDir id) then .ok () else .error (.omp (unknown id))

/-- `open`, for the random bytes of the id. -/
def open_ (now : Text) (random : Vector UInt8 16) (declaredSize : Nat) : HostOp UploadHandle := do
  HostOp.onDisk (.io mgr.uploadsDir) fun d => d.createDirAll mgr.uploadsDir
  let id := generateId random
  let dir := mgr.sessionDir id
  HostOp.onDisk (.io dir) fun d => d.createDirAll dir
  let body ← HostOp.reads fun _ =>
    SessionState.serialize C ⟨id, declaredSize, none, now, mgr.defaultChunkSize⟩
  HostOp.onDisk (.io dir) fun d => d.write (dir.join stateName) body
  pure ⟨id, mgr.defaultChunkSize⟩

/-- `write_chunk`. -/
def writeChunk (id : Text) (offset : Nat) (bytes : Bytes) : HostOp Unit := do
  mgr.requireDir id
  let state ← mgr.loadState C id
  if 2 ^ 64 ≤ offset + bytes.length ∨ state.declaredSize < offset + bytes.length then
    HostOp.throw (overflow id offset bytes.length state.declaredSize)
  else
    let file := (mgr.sessionDir id).join (chunkName offset)
    HostOp.onDisk (.io file) fun d => d.write file bytes

/-- The chunks among the entries of the directory of a session. -/
def chunkEntries (id : Text) (dir : Loc) : List Text → Except OmpError (List (Nat × Loc))
  | [] => .ok []
  | name :: rest => match stripPrefix "chunk.".toList name with
    | none => chunkEntries id dir rest
    | some digits => match parseUsize digits with
      | none => .error (.corrupt ("upload ".toList ++ id ++ ": bad chunk name ".toList ++
          W.debugStr name))
      | some offset => do
        let chunks ← chunkEntries id dir rest
        .ok ((offset, dir.entry name) :: chunks)

/-- The loop of `assemble` : read the chunks, each where the one before it ends. -/
def splice (A : Allocator) (id : Text) :
    List (Nat × Loc) → Nat → Nat → Bytes → HostOp (Nat × Bytes)
  | [], cursor, _, buf => pure (cursor, buf)
  | (offset, path) :: rest, cursor, capacity, buf =>
    if offset ≠ cursor then HostOp.throw (.corrupt ("upload ".toList ++ id ++
      ": chunk gap: expected offset ".toList ++ decimal cursor ++ ", got ".toList ++
      decimal offset))
    else do
      let content ← HostOp.onDisk (.io path) fun d => d.read path
      let capacity ← A.reserve capacity (buf.length + content.length)
      splice A id rest (cursor + content.length) capacity (buf ++ content)

/-- `assemble`, for an order in which the entries of a directory are listed. -/
def assemble (A : Allocator) (order : List Text → List Text) (id : Text) : HostOp Bytes := do
  mgr.requireDir id
  let state ← mgr.loadState C id
  let dir := mgr.sessionDir id
  let names ← Op.reads fun h => (h.disk.list dir).mapError (.io dir)
  let chunks ← HostOp.reads fun _ => chunkEntries W id dir (order names)
  A.allocate state.declaredSize
  let (cursor, buf) ← splice A id (chunks.mergeSort fun a b => a.1 ≤ b.1) 0 state.declaredSize []
  if cursor ≠ state.declaredSize then HostOp.throw (.corrupt ("upload ".toList ++ id ++
    ": assembled ".toList ++ decimal cursor ++ " bytes but declared ".toList ++
    decimal state.declaredSize))
  else pure buf

/-- `remove`. -/
def remove (id : Text) : HostOp Unit := do
  let dir := mgr.sessionDir id
  let present ← Op.reads fun h => .ok (h.disk.present dir)
  if present then HostOp.onDisk (.io dir) fun d => d.removeDirAll dir
  else pure ()

end UploadManager

/-! ### Requests -/

namespace Repo

variable (env : Env) (root : Place)

/-- `upload_manager`, of the repository at a place. -/
def uploadManager : HostOp UploadManager := do
  let config ← HostOp.reads fun r => r.currentRepoConfig W env
  pure (.new root config.chunkSizeBytes)

/-- `upload_open`. -/
def uploadOpen (random : Vector UInt8 16) (declaredSize : Nat) : HostOp UploadHandle := do
  HostOp.reads fun r => checkQuotaForWrite W env.quotas r.store declaredSize 1
  let mgr ← uploadManager W env root
  mgr.open_ C env.now random declaredSize

/-- `upload_write`. -/
def uploadWrite (id : Text) (offset : Nat) (bytes : Bytes) : HostOp Unit := do
  let mgr ← uploadManager W env root
  mgr.writeChunk C id offset bytes

/-- The part of `upload_commit` under the lock: what is added, unless it is less than a chunk. -/
def commitUpload (A : Allocator) (order : List Text → List Text) (id path : Text)
    (userFields : Option Fields) (fileTypeOverride : Option Text) :
    HostOp (AddResult ⊕ Bytes) := do
  HostOp.reads fun _ => validatePath W path
  let mgr ← uploadManager W env root
  let bytes ← mgr.assemble W C A order id
  let config ← HostOp.reads fun r => r.currentRepoConfig W env
  if config.chunkSizeBytes ≤ bytes.length then do
    let res ← HostOp.onRepo ((addChunked W env ⟨path, bytes, userFields, fileTypeOverride⟩
      config.chunkSizeBytes).run (Action.op W))
    mgr.remove id
    pure (.inl res)
  else pure (.inr bytes)

/-- `upload_commit`. -/
def uploadCommit (A : Allocator) (order : List Text → List Text) (id path : Text)
    (userFields : Option Fields) (fileTypeOverride : Option Text) : HostOp AddResult := do
  match ← HostOp.locked (commitUpload W C env root A order id path userFields fileTypeOverride) with
  | .inl res => pure res
  | .inr bytes => HostOp.onRepo (Repo.under W (Repo.add W env
      ⟨path, bytes, userFields, fileTypeOverride⟩))

/-- `upload_abort`. -/
def uploadAbort (id : Text) : HostOp Unit := do
  let mgr ← uploadManager W env root
  let _ ← mgr.loadState C id
  mgr.remove id

end Repo

/-- A request. -/
inductive UploadRequest where
  | open_ (declaredSize : Nat)
  | write (id : Text) (offset : Nat) (bytes : Bytes)
  | commit (id path : Text) (userFields : Option Fields) (fileTypeOverride : Option Text)
  | abort (id : Text)

/-- A request, with what surrounds it. -/
structure UploadStep where
  env : Env
  allocator : Allocator
  /-- The random bytes of an id. -/
  random : Vector UInt8 16
  /-- The order in which the entries of a directory are listed. -/
  order : List Text → List Text
  /-- Each is listed once. -/
  order_perm : ∀ names, (order names).Perm names
  request : UploadRequest

/-- What a request that succeeds yields. -/
inductive UploadReply where
  | opened (handle : UploadHandle)
  | added (res : AddResult)
  | done

/-- What a request does. -/
def UploadStep.run (root : Place) (l : UploadStep) : HostOp UploadReply :=
  match l.request with
  | .open_ declaredSize => do
    let handle ← Repo.uploadOpen W C l.env root l.random declaredSize
    HostOp.record handle.uploadId declaredSize
    pure (.opened handle)
  | .write id offset bytes => do
    Repo.uploadWrite W C l.env root id offset bytes
    pure .done
  | .commit id path userFields fileTypeOverride => do
    let res ← Repo.uploadCommit W C l.env root l.allocator l.order id path userFields
      fileTypeOverride
    pure (.added res)
  | .abort id => do
    Repo.uploadAbort W C l.env root id
    pure .done

/-- A process that has ended serves nothing. -/
def UploadStep.serve (root : Place) (l : UploadStep) (h : Host) :
    Except (Fault UploadError) UploadReply × Host :=
  if h.aborted then (.error .panic, h) else (l.run W C root).run h

/-- A host to which requests are made. -/
def Host.lts (root : Place) : Lts Host UploadStep where
  step h l h' := (l.serve W C root h).2 = h'

end Omp
