import Omp.Lib.Script
import Omp.Repo

/-!
# Staging files

`add` ingests a file, stores what comes of it and stages it; a long file is stored in chunks.
`patch_fields` rebuilds the manifest of a file with some of its fields replaced, and `remove`
stages a deletion.

An operation of a repository is a script of actions, each of which touches one thing: the object
store, the index file, a reference or `HEAD`.  What lies between two actions is decided from what
they have read.

## Main definitions

* `Action`, `Action.op` : the actions of a repository, and what they do.
* `ChunksBody` : the object that lists the chunks of a long file.
* `Repo.buildManifestWith` : ingest with what HEAD and the working tree hold.
* `Repo.add`, `Repo.patchFields`, `Repo.remove` : the scripts.
-/

namespace Omp

open Lib

/-! ### Actions -/

/-- The actions of a repository. -/
inductive Action : Type → Type 1
  /-- Read, and decide. -/
  | look {α : Type} (f : Repo → Except (Fault OmpError) α) : Action α
  /-- Write objects. -/
  | objects {α : Type} (x : StoreOp α) : Action α
  /-- `load_index`. -/
  | loadIndex : Action Index
  /-- `lock_refs`. -/
  | lockRefs : Action Unit
  /-- `write_ref`. -/
  | writeRef (name : Text) (commit : Hash) : Action Unit
  /-- `write_head`. -/
  | writeHead (value : Text) : Action Unit
  /-- `save_index`. -/
  | saveIndex (idx : Index) : Action Unit

/-- A script of actions of a repository. -/
abbrev RepoScript := Script Action

variable (W : World)

/-- What an action does when it goes well.  The lock on the references is not part of the state:
it only keeps other processes out. -/
def Action.op {α : Type} : Action α → RepoOp α
  | look f => Op.inspects f
  | objects x => Repo.onStore x
  | loadIndex => Op.inspects fun r => .ok r.index
  | lockRefs => pure ()
  | writeRef name commit => Repo.writeRef W name commit
  | writeHead value => Repo.writeHead value
  | saveIndex idx => Repo.saveIndex idx

namespace Action

/-- The actions that write nothing but objects, each of them in a certain relation of stores. -/
def Quiet (R : Store → Store → Prop) {α : Type} : Action α → Prop
  | objects x => x.Keeps R
  | look _ | loadIndex | lockRefs => True
  | writeRef .. | writeHead _ | saveIndex _ => False

/-- The actions that save the index. -/
def SavesIndex {α : Type} : Action α → Prop
  | saveIndex _ => True
  | _ => False

/-- The actions that write a reference or `HEAD`. -/
def MovesRef {α : Type} : Action α → Prop
  | writeRef .. | writeHead _ => True
  | _ => False

/-- No action. -/
def Never {α : Type} (_ : Action α) : Prop := False

end Action

/-- The commits of the second store are in the first. -/
def NoNewCommits (s s' : Store) : Prop :=
  ∀ o ∈ s'.objects, o.type = .commit → o ∈ s.objects

instance : Std.Refl NoNewCommits := ⟨fun _ _ ho _ => ho⟩

instance : IsTrans Store NoNewCommits :=
  ⟨fun _ _ _ h₁ h₂ o ho htype => h₁ o (h₂ o ho htype) htype⟩

theorem keeps_put {type : ObjectType} (htype : type ≠ .commit) (content : Bytes) :
    (Store.put W.toPlatform type content).Keeps NoNewCommits := by
  intro s o ho hcommit
  rw [Store.run_put] at ho
  rcases List.mem_append.1 ho with ho | ho
  · exact ho
  · cases List.mem_singleton.1 ho
    exact absurd hcommit htype

namespace RepoScript

/-- Read what does not panic. -/
def check {α : Type} (f : Repo → Except OmpError α) : RepoScript α :=
  .act (.look fun r => (f r).mapError .err)

/-- Read what may panic. -/
def inspect {α : Type} (f : Repo → Except (Fault OmpError) α) : RepoScript α := .act (.look f)

/-- Go on with what was computed, if anything was. -/
def require {α : Type} (r : Except OmpError α) : RepoScript α := check fun _ => r

/-- Store an object. -/
def put (type : ObjectType) (content : Bytes) : RepoScript Hash :=
  .act (.objects (Store.put W.toPlatform type content))

/-- `stage_upsert`. -/
def stage (path : Text) (hash : Hash) : RepoScript Unit := do
  let idx ← .act .loadIndex
  .act (.saveIndex (idx.insert path ⟨path, .upsert, some hash⟩))

/-- The two actions of `stage_upsert` together. -/
theorem run_stage (path : Text) (hash : Hash) (r : Repo) :
    ((stage path hash).run (Action.op W)).run r = (Repo.stageUpsert path hash).run r := rfl

section Shapes

variable {W} {R : Store → Store → Prop} {α β : Type}

theorem quiet_check (f : Repo → Except OmpError α) :
    Script.Within (Action.Quiet R) (check f) := .act trivial

theorem quiet_inspect (f : Repo → Except (Fault OmpError) α) :
    Script.Within (Action.Quiet R) (inspect f) := .act trivial

theorem quiet_objects {x : StoreOp α} (hx : x.Keeps R) :
    Script.Within (Action.Quiet R) (Script.act (.objects x) : RepoScript α) := .act hx

theorem quiet_loadIndex :
    Script.Within (Action.Quiet R) (Script.act .loadIndex : RepoScript Index) :=
  .act trivial

theorem quiet_lockRefs :
    Script.Within (Action.Quiet R) (Script.act .lockRefs : RepoScript Unit) :=
  .act trivial

/-- Staging saves the index once. -/
theorem writesOnce_stage (path : Text) (hash : Hash) :
    Script.WritesOnce (Action.Quiet R) Action.SavesIndex Action.Never (stage path hash) :=
  quiet_loadIndex.bind_writesOnce fun _ => .act trivial

end Shapes

/-! Each action that succeeds, at the head of a script. -/

section Rules

variable {W} {α β : Type} {r r' : Repo} {b : β}

theorem check_eq_ok {f : Repo → Except OmpError α} {k : α → RepoScript β} :
    ((check f >>= k).run (Action.op W)).run r = (.ok b, r') ↔
      ∃ a, f r = .ok a ∧ ((k a).run (Action.op W)).run r = (.ok b, r') := by
  refine (Script.run_step_eq_ok _).trans ⟨?_, ?_⟩
  · rintro ⟨a, r₁, hx, hk⟩
    obtain ⟨hf, rfl⟩ := Op.reads_eq_ok.1 hx
    exact ⟨a, hf, hk⟩
  · rintro ⟨a, hf, hk⟩
    exact ⟨a, r, Op.reads_eq_ok.2 ⟨hf, rfl⟩, hk⟩

theorem inspect_eq_ok {f : Repo → Except (Fault OmpError) α} {k : α → RepoScript β} :
    ((inspect f >>= k).run (Action.op W)).run r = (.ok b, r') ↔
      ∃ a, f r = .ok a ∧ ((k a).run (Action.op W)).run r = (.ok b, r') := by
  refine (Script.run_step_eq_ok _).trans ⟨?_, ?_⟩
  · rintro ⟨a, r₁, hx, hk⟩
    obtain ⟨hf, rfl⟩ := Op.inspects_eq_ok.1 hx
    exact ⟨a, hf, hk⟩
  · rintro ⟨a, hf, hk⟩
    exact ⟨a, r, Op.inspects_eq_ok.2 ⟨hf, rfl⟩, hk⟩

theorem require_eq_ok {x : Except OmpError α} {k : α → RepoScript β} :
    ((require x >>= k).run (Action.op W)).run r = (.ok b, r') ↔
      ∃ a, x = .ok a ∧ ((k a).run (Action.op W)).run r = (.ok b, r') := check_eq_ok

theorem objects_eq_ok {x : StoreOp α} {k : α → RepoScript β} :
    ((Script.act (.objects x) >>= k).run (Action.op W)).run r = (.ok b, r') ↔
      ∃ a s, x.run r.store = (.ok a, s) ∧
        ((k a).run (Action.op W)).run { r with store := s } = (.ok b, r') := by
  refine (Script.run_step_eq_ok _).trans ⟨?_, ?_⟩
  · rintro ⟨a, r₁, hx, hk⟩
    obtain ⟨s, hs, rfl⟩ := Repo.onStore_eq_ok.1 hx
    exact ⟨a, s, hs, hk⟩
  · rintro ⟨a, s, hx, hk⟩
    exact ⟨a, _, Repo.onStore_eq_ok.2 ⟨s, hx, rfl⟩, hk⟩

theorem put_eq_ok {type : ObjectType} {content : Bytes} {k : Hash → RepoScript β} :
    ((put W type content >>= k).run (Action.op W)).run r = (.ok b, r') ↔
      ((k (hashOf W.toPlatform type content)).run (Action.op W)).run
        { r with store := ⟨r.store.objects ++ [⟨type, content⟩]⟩ } = (.ok b, r') := by
  refine objects_eq_ok.trans ⟨?_, fun hk => ⟨_, _, Store.run_put .., hk⟩⟩
  rintro ⟨a, s, hx, hk⟩
  obtain ⟨rfl, rfl⟩ := Store.put_eq_ok hx
  exact hk

theorem loadIndex_eq_ok {k : Index → RepoScript β} :
    ((Script.act .loadIndex >>= k).run (Action.op W)).run r = (.ok b, r') ↔
      ((k r.index).run (Action.op W)).run r = (.ok b, r') := by
  refine (Script.run_step_eq_ok _).trans ⟨?_, fun hk => ⟨_, r, rfl, hk⟩⟩
  rintro ⟨a, r₁, hx, hk⟩
  obtain ⟨hf, rfl⟩ := Op.inspects_eq_ok.1 hx
  cases hf
  exact hk

theorem lockRefs_eq_ok {k : Unit → RepoScript β} :
    ((Script.act .lockRefs >>= k).run (Action.op W)).run r = (.ok b, r') ↔
      ((k ()).run (Action.op W)).run r = (.ok b, r') := by
  refine (Script.run_step_eq_ok _).trans ⟨?_, fun hk => ⟨_, r, rfl, hk⟩⟩
  rintro ⟨a, r₁, hf, hk⟩
  obtain ⟨rfl, rfl⟩ := Op.pure_eq_ok.1 hf
  exact hk

theorem writeRef_eq_ok {name : Text} {commit : Hash} {k : Unit → RepoScript β} :
    ((Script.act (.writeRef name commit) >>= k).run (Action.op W)).run r = (.ok b, r') ↔
      ∃ path, refPath W name = .ok path ∧ ((k ()).run (Action.op W)).run
        { r with refs := r.refs.insert path commit } = (.ok b, r') := by
  refine (Script.run_step_eq_ok _).trans ⟨?_, ?_⟩
  · rintro ⟨a, r₁, hx, hk⟩
    obtain ⟨path, r₂, hlift, hx⟩ := Op.bind_eq_ok.1 hx
    obtain ⟨hpath, rfl⟩ := Op.lift_eq_ok.1 hlift
    cases hx
    exact ⟨path, hpath, hk⟩
  · rintro ⟨path, hpath, hk⟩
    exact ⟨(), _, Op.bind_eq_ok.2 ⟨path, r, Op.lift_eq_ok.2 ⟨hpath, rfl⟩, rfl⟩, hk⟩

theorem writeHead_eq_ok {value : Text} {k : Unit → RepoScript β} :
    ((Script.act (.writeHead value) >>= k).run (Action.op W)).run r = (.ok b, r') ↔
      ((k ()).run (Action.op W)).run { r with head := value } = (.ok b, r') := by
  refine (Script.run_step_eq_ok _).trans ⟨?_, fun hk => ⟨_, _, rfl, hk⟩⟩
  rintro ⟨a, r₁, hx, hk⟩
  cases hx
  exact hk

theorem saveIndex_eq_ok {idx : Index} {k : Unit → RepoScript β} :
    ((Script.act (.saveIndex idx) >>= k).run (Action.op W)).run r = (.ok b, r') ↔
      ((k ()).run (Action.op W)).run { r with index := idx } = (.ok b, r') := by
  refine (Script.run_step_eq_ok _).trans ⟨?_, fun hk => ⟨_, _, rfl, hk⟩⟩
  rintro ⟨a, r₁, hx, hk⟩
  cases hx
  exact hk

end Rules

end RepoScript

open RepoScript

/-! ### Long files -/

/-- One chunk of a long file. -/
structure ChunkEntry where
  hash : Hash
  length : Nat
  deriving DecidableEq

/-- The body of a `chunks` object. -/
abbrev ChunksBody := List ChunkEntry

namespace ChunksBody

/-- `serialize`. -/
def serialize (body : ChunksBody) : Bytes :=
  utf8 (body.flatMap fun e => e.hash.hex ++ ' ' :: decimal e.length ++ ['\n'])

/-- Read one line, which has the given number. -/
def parseLine (i : Nat) (line : Text) : Except OmpError ChunkEntry :=
  let at_ : Text := "chunks body line ".toList ++ decimal i
  match splitOnce ' ' line with
  | none => .error (.corrupt (at_ ++ " missing space separator".toList))
  | some (hashPart, lenPart) => match Hash.parse W.toPlatform hashPart with
    | .error e => .error (.corrupt (at_ ++ ": ".toList ++ e))
    | .ok hash => match parseUsize lenPart with
      | none => .error (.corrupt (at_ ++ ": bad length ".toList ++ W.debugStr lenPart))
      | some length => .ok ⟨hash, length⟩

/-- Read the lines, of which empty ones do not count. -/
def parseLines : Nat → List Text → Except OmpError ChunksBody
  | _, [] => .ok []
  | i, line :: lines =>
    if line = [] then parseLines (i + 1) lines
    else do
      let e ← parseLine W i line
      let es ← parseLines (i + 1) lines
      .ok (e :: es)

/-- `parse`. -/
def parse (bytes : Bytes) : Except OmpError ChunksBody :=
  match fromUtf8 bytes with
  | none => .error (.corrupt "chunks body is not UTF-8".toList)
  | some s => parseLines W 1 (s.splitOn '\n')

end ChunksBody

/-- The pieces of a file, all of the given length but for the last. -/
def slices (n : Nat) (bytes : Bytes) : List Bytes :=
  (List.range ((bytes.length + n - 1) / n)).map fun i => (bytes.drop (i * n)).take n

/-! ### Ingest -/

/-- A byte that `looks_like_text` takes for printable. -/
def isPrintable (b : UInt8) : Bool :=
  b == 0x0A || b == 0x0D || b == 0x09 || (0x20 ≤ b && b < 0x7F) || 0x80 ≤ b

/-- `looks_like_text`. -/
def looksLikeText (bytes : Bytes) : Bool :=
  let sample := bytes.take 4096
  bytes.isEmpty || (!sample.contains 0 &&
    decide (95 ≤ sample.countP isPrintable * 100 / sample.length))

/-- `sniff_mime`. -/
def sniffMime (bytes : Bytes) : Text :=
  (W.inferMime bytes).getD
    (if looksLikeText bytes then "text/plain".toList else "application/octet-stream".toList)

/-- What is known of a file that was stored in chunks. -/
structure ChunkedIngest where
  sourceHash : Hash
  fileSize : Nat
  sha256Hex : Text
  sniffPrefix : Bytes

/-- What a caller adds. -/
structure AddRequest where
  path : Text
  bytes : Bytes
  userFields : Option Fields
  fileTypeOverride : Option Text

/-- What comes of an addition. -/
inductive AddResult where
  | blob (path : Text) (blobHash : Hash) (size : Nat)
  | manifest (path : Text) (manifestHash sourceHash : Hash)

namespace Repo

/-- The schema a file is ingested under, with its bytes. -/
def schemaFor (env : Env) (r : Repo) (config : RepoConfig) (fileTypeOverride : Option Text)
    (mime : Text) : Except (Fault OmpError) (Schema × Bytes) := do
  let schemas ← r.loadAllSchemas W env
  match detectFileType fileTypeOverride mime schemas with
  | some schema => do
    match ← (r.schemaBytesAtHead W env schema.fileType).mapError .err with
    | some bytes => .ok (schema, bytes)
    | none => .error (.err (.internal "schema detected but blob missing".toList))
  | none => match config.defaultSchemaPolicy with
    | .reject => .error (.err (.ingestValidation ("no schema matches MIME type ".toList ++
        W.debugStr mime ++
        "; set default_schema_policy to 'minimal' or define a schema".toList)))
    | .minimal => do
      let schema ← (Schema.parse W minimalSchema "_minimal".toList).mapError .err
      .ok (schema, minimalSchema)

/-- `build_manifest_with`, where no schema is proposed. -/
def buildManifestWith (env : Env) (r : Repo) (path : Text) (bytes : Bytes) (userFields : Fields)
    (fileTypeOverride : Option Text) (chunked : Option ChunkedIngest) :
    Except (Fault OmpError) Manifest := do
  let config ← (r.currentRepoConfig W env).mapError .err
  let mime := sniffMime W ((chunked.map ChunkedIngest.sniffPrefix).getD bytes)
  let (schema, schemaBytes) ← r.schemaFor W env config fileTypeOverride mime
  let probes ← r.currentProbes W
  (schema.validateProbeRefs W (probes.toList.map Prod.fst)).mapError .err
  let input : IngestInput :=
    { bytes := bytes
      userFields := userFields
      path := path
      ingestedAt := env.now
      streamingBuiltins := chunked.map fun c => ⟨c.sha256Hex, c.fileSize⟩
      contentLength := (chunked.map ChunkedIngest.fileSize).getD bytes.length
      overrideSourceHash := chunked.map ChunkedIngest.sourceHash }
  let view : TreeView := ⟨schema, schemaBytes, probes, env.quotas.clampProbe config.probes⟩
  (ingest W env.runProbe input view).mapError .err

variable {W} in
theorem sourceHash_of_buildManifestWith {env : Env} {r : Repo} {path : Text} {bytes : Bytes}
    {userFields : Fields} {fileTypeOverride : Option Text} {chunked : Option ChunkedIngest}
    {m : Manifest}
    (h : r.buildManifestWith W env path bytes userFields fileTypeOverride chunked = .ok m) :
    m.sourceHash = (chunked.map ChunkedIngest.sourceHash).getD (hashOf W.toPlatform .blob bytes) := by
  obtain ⟨_, -, h⟩ := except_bind_eq_ok.1 h
  obtain ⟨_, -, h⟩ := except_bind_eq_ok.1 h
  obtain ⟨_, -, h⟩ := except_bind_eq_ok.1 h
  obtain ⟨_, -, h⟩ := except_bind_eq_ok.1 h
  exact sourceHash_of_ingest (mapError_eq_ok.1 h)

/-- What is checked of a file that is stored as a blob: a schema, `omp.toml`, or anything. -/
def preflight (r : Repo) (path : Text) (bytes : Bytes) : Except (Fault OmpError) Unit :=
  match schemaFileTypeFromPath path with
  | some stem => do
    let parsed ← (Schema.parse W bytes stem).mapError .err
    let probeNames ← r.currentProbeNames W
    (parsed.validateProbeRefs W probeNames).mapError .err
  | none =>
    if path = "omp.toml".toList then do
      let _ ← (RepoConfig.parse W bytes).mapError .err
      .ok ()
    else .ok ()

/-- Store and stage a manifest. -/
def stageManifest (path : Text) (m : Manifest) (sourceHash : Hash) : RepoScript AddResult := do
  let manifestBytes ← require (m.serialize W)
  let manifestHash ← put W .manifest manifestBytes
  stage path manifestHash
  pure (.manifest path manifestHash sourceHash)

/-- The loop of `add_chunked` : store the pieces of a file. -/
def putSlices : List Bytes → StoreOp ChunksBody
  | [] => pure []
  | slice :: rest => do
    let hash ← Store.put W.toPlatform .blob slice
    let entries ← putSlices rest
    pure (⟨hash, slice.length⟩ :: entries)

/-- `add_chunked`. -/
def addChunked (env : Env) (req : AddRequest) (chunkSize : Nat) : RepoScript AddResult := do
  let entries ← .act (.objects (putSlices W (slices chunkSize req.bytes)))
  let chunksHash ← put W .chunks (ChunksBody.serialize entries)
  let m ← inspect fun r => r.buildManifestWith W env req.path [] (req.userFields.getD ∅)
    req.fileTypeOverride (some ⟨chunksHash, req.bytes.length, (W.sha256 req.bytes).hex,
      req.bytes.take (8 * 1024)⟩)
  stageManifest W req.path m chunksHash

/-- `add`. -/
def add (env : Env) (req : AddRequest) : RepoScript AddResult := do
  require (validatePath W req.path)
  check fun r => checkQuotaForWrite W env.quotas r.store req.bytes.length 1
  if isBlobPath req.path then do
    inspect fun r => r.preflight W req.path req.bytes
    let blobHash ← put W .blob req.bytes
    stage req.path blobHash
    pure (.blob req.path blobHash req.bytes.length)
  else do
    let config ← check fun r => r.currentRepoConfig W env
    if config.chunkSizeBytes ≤ req.bytes.length then addChunked W env req config.chunkSizeBytes
    else do
      let m ← inspect fun r => r.buildManifestWith W env req.path req.bytes
        (req.userFields.getD ∅) req.fileTypeOverride none
      let blobHash ← put W .blob req.bytes
      stageManifest W req.path m blobHash

/-! ### Changing what is staged -/

/-- The manifest of a user file and the bytes it is rebuilt from. -/
def manifestToPatch (r : Repo) (path : Text) : Except OmpError (Manifest × Bytes) := do
  let e ← r.resolveStagedOrHead W path
  if e.mode ≠ .manifest then
    .error (.invalidPath ("path ".toList ++ W.debugStr path ++ " is not a user file".toList))
  else match r.store.get W.toPlatform e.hash with
    | none => .error (.notFound ("manifest ".toList ++ e.hash.hex))
    | some o => do
      let prev ← Manifest.parse W o.content
      match r.store.get W.toPlatform prev.sourceHash with
      | none => .error (.notFound ("blob ".toList ++ prev.sourceHash.hex))
      | some source => .ok (prev, source.content)

/-- `patch_fields`. -/
def patchFields (env : Env) (path : Text) (updates : Fields) : RepoScript Manifest := do
  require (validatePath W path)
  let (prev, source) ← check fun r => r.manifestToPatch W path
  let userFields := updates.toList.foldl (fun m p => m.insert p.1 p.2) prev.fields
  let m ← inspect fun r => r.buildManifestWith W env path source userFields
    (some prev.fileType) none
  let manifestBytes ← require (m.serialize W)
  let manifestHash ← put W .manifest manifestBytes
  stage path manifestHash
  pure m

/-- `remove`. -/
def remove (path : Text) : RepoScript Unit := do
  require (validatePath W path)
  let idx ← .act .loadIndex
  .act (.saveIndex (idx.insert path ⟨path, .delete, none⟩))

/-! ### What staging writes -/

section Shapes

variable {W}

/-- The shape of staging: objects that are no commits, and then the index. -/
abbrev Stages {α : Type} (t : RepoScript α) : Prop :=
  Script.WritesOnce (Action.Quiet NoNewCommits) Action.SavesIndex Action.Never t

/-- The shape of staging, with what is kept by the objects that are put. -/
abbrev StagesWithin (R : Store → Store → Prop) {α : Type} (t : RepoScript α) : Prop :=
  Script.WritesOnce (Action.Quiet R) Action.SavesIndex Action.Never t

variable {R : Store → Store → Prop}

theorem stagesWithin_stageManifest (hR : ∀ bs, (Store.put W.toPlatform .manifest bs).Keeps R)
    (path : Text) (m : Manifest) (sourceHash : Hash) :
    StagesWithin R (stageManifest W path m sourceHash) :=
  (quiet_check _).bind_writesOnce fun _ => (quiet_objects (hR _)).bind_writesOnce fun _ =>
    (writesOnce_stage _ _).bind_done

theorem stagesWithin_patchFields (hR : ∀ bs, (Store.put W.toPlatform .manifest bs).Keeps R)
    (env : Env) (path : Text) (updates : Fields) :
    StagesWithin R (patchFields W env path updates) :=
  (quiet_check _).bind_writesOnce fun _ => (quiet_check _).bind_writesOnce fun _ =>
    (quiet_inspect _).bind_writesOnce fun _ => (quiet_check _).bind_writesOnce fun _ =>
      (quiet_objects (hR _)).bind_writesOnce fun _ => (writesOnce_stage _ _).bind_done

theorem stagesWithin_remove (path : Text) : StagesWithin R (remove W path) :=
  (quiet_check _).bind_writesOnce fun _ => quiet_loadIndex.bind_writesOnce fun _ => .act trivial

variable [Std.Refl R] [IsTrans Store R]

theorem keeps_putSlices (hR : ∀ bs, (Store.put W.toPlatform .blob bs).Keeps R) :
    ∀ pieces : List Bytes, (putSlices W pieces).Keeps R
  | [] => Op.Keeps.pure _
  | _ :: rest => (hR _).bind fun _ => (keeps_putSlices hR rest).bind fun _ => Op.Keeps.pure _

theorem stagesWithin_addChunked
    (hR : ∀ type bs, type ≠ .commit → type ≠ .tree → (Store.put W.toPlatform type bs).Keeps R)
    (env : Env) (req : AddRequest) (chunkSize : Nat) :
    StagesWithin R (addChunked W env req chunkSize) :=
  (quiet_objects (keeps_putSlices (fun bs => hR _ bs (by decide) (by decide)) _)).bind_writesOnce
    fun _ => (quiet_objects (hR _ _ (by decide) (by decide))).bind_writesOnce fun _ =>
      (quiet_inspect _).bind_writesOnce fun _ =>
        stagesWithin_stageManifest (fun bs => hR _ bs (by decide) (by decide)) _ _ _

theorem stagesWithin_add
    (hR : ∀ type bs, type ≠ .commit → type ≠ .tree → (Store.put W.toPlatform type bs).Keeps R)
    (env : Env) (req : AddRequest) : StagesWithin R (add W env req) := by
  refine (quiet_check _).bind_writesOnce fun _ => (quiet_check _).bind_writesOnce fun _ => ?_
  split_ifs
  · exact (quiet_inspect _).bind_writesOnce fun _ =>
      (quiet_objects (hR _ _ (by decide) (by decide))).bind_writesOnce fun _ =>
        (writesOnce_stage _ _).bind_done
  · refine (quiet_check _).bind_writesOnce fun config => ?_
    split_ifs
    · exact stagesWithin_addChunked hR env req _
    · exact (quiet_inspect _).bind_writesOnce fun _ =>
        (quiet_objects (hR _ _ (by decide) (by decide))).bind_writesOnce fun _ =>
          stagesWithin_stageManifest (fun bs => hR _ bs (by decide) (by decide)) _ _ _

theorem stages_add (env : Env) (req : AddRequest) : Stages (add W env req) :=
  stagesWithin_add (fun _ _ hcommit _ => keeps_put W hcommit _) env req

theorem stages_addChunked (env : Env) (req : AddRequest) (chunkSize : Nat) :
    Stages (addChunked W env req chunkSize) :=
  stagesWithin_addChunked (fun _ _ hcommit _ => keeps_put W hcommit _) env req chunkSize

theorem stages_patchFields (env : Env) (path : Text) (updates : Fields) :
    Stages (patchFields W env path updates) :=
  stagesWithin_patchFields (fun _ => keeps_put W (by decide) _) env path updates

theorem stages_remove (path : Text) : Stages (remove W path) := stagesWithin_remove path

end Shapes

end Repo

end Omp
