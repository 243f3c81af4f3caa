import Omp.Branches
import Omp.Concrete

/-!
# A file as one blob and in chunks

The probes of a file that is stored as one blob run in the sandbox, on all of its bytes.  A file
that is stored in chunks is never in memory as a whole: `file.size` and `file.sha256` are then
answered by what was counted while it was split, whatever program stands under these names, and no
other probe runs.  The two ways should give one manifest.

A file can be too long for a probe and yet be stored as one blob: the probe is skipped and nothing
stands in for it.  And a program in the tree that shadows one of the two names is heard on the one
way only.  The fields agree for every schema exactly when neither happens.

## Main definitions

* `Repo.ingestUnder` : `build_manifest_with` from where the schema is known.
* `Builtin`, `ProbeUse`, `Schema.UsesOnly` : the probes with a built-in, and schemas that use them.
* `Repo.ChunkingAgrees` : the fields are the same on both ways.
* `Faithful` : the sandbox yields what the built-ins say.

## Main results

* `Repo.chunking_agrees_iff` : the fields agree exactly when the sandbox is faithful.
-/

namespace Omp

open Lib

variable (W : World)

/-! ### The two ways -/

/-- What `build_manifest_with` tells the engine of a file. -/
def ingestInput (env : Env) (path : Text) (bytes : Bytes) (userFields : Fields)
    (chunked : Option ChunkedIngest) : IngestInput where
  bytes := bytes
  userFields := userFields
  path := path
  ingestedAt := env.now
  streamingBuiltins := chunked.map fun c => ⟨c.sha256Hex, c.fileSize⟩
  contentLength := (chunked.map ChunkedIngest.fileSize).getD bytes.length
  overrideSourceHash := chunked.map ChunkedIngest.sourceHash

/-- A file as one blob. -/
abbrev wholeInput (env : Env) (path : Text) (bytes : Bytes) (userFields : Fields) : IngestInput :=
  ingestInput env path bytes userFields none

/-- What is known of a file once it is stored in chunks. -/
def chunkedIngest (chunkSize : Nat) (bytes : Bytes) : ChunkedIngest where
  sourceHash := hashOf W.toPlatform .chunks (ChunksBody.serialize
    ((slices chunkSize bytes).map fun s => ⟨hashOf W.toPlatform .blob s, s.length⟩))
  fileSize := bytes.length
  sha256Hex := (W.sha256 bytes).hex
  sniffPrefix := bytes.take (8 * 1024)

/-- A file in chunks. -/
abbrev splitInput (env : Env) (path : Text) (bytes : Bytes) (chunkSize : Nat)
    (userFields : Fields) : IngestInput :=
  ingestInput env path [] userFields (some (chunkedIngest W chunkSize bytes))

namespace Repo

/-- `build_manifest_with` from where the limits and the schema are known. -/
def ingestUnder (env : Env) (r : Repo) (path : Text) (bytes : Bytes) (userFields : Fields)
    (chunked : Option ChunkedIngest) (limits : ProbeLimits) (schema : Schema)
    (schemaBytes : Bytes) : Except (Fault OmpError) Manifest := do
  let probes ← r.currentProbes W
  (schema.validateProbeRefs W (probes.toList.map Prod.fst)).mapError .err
  (ingest W env.runProbe (ingestInput env path bytes userFields chunked)
    ⟨schema, schemaBytes, probes, limits⟩).mapError .err

/-- `build_manifest_with` finds the limits and the schema, and goes on. -/
theorem buildManifestWith_eq (env : Env) (r : Repo) (path : Text) (bytes : Bytes)
    (userFields : Fields) (fileTypeOverride : Option Text) (chunked : Option ChunkedIngest) :
    r.buildManifestWith W env path bytes userFields fileTypeOverride chunked = (do
      let config ← (r.currentRepoConfig W env).mapError .err
      let mime := sniffMime W ((chunked.map ChunkedIngest.sniffPrefix).getD bytes)
      let (schema, schemaBytes) ← r.schemaFor W env config fileTypeOverride mime
      r.ingestUnder W env path bytes userFields chunked (env.quotas.clampProbe config.probes)
        schema schemaBytes) := rfl

/-- The repository once a file is stored in chunks. -/
def withChunks (chunkSize : Nat) (bytes : Bytes) (r : Repo) : Repo :=
  let pieces := slices chunkSize bytes
  { r with store := ⟨r.store.objects ++ pieces.map (Object.mk .blob) ++
      [⟨.chunks, ChunksBody.serialize
        (pieces.map fun s => ⟨hashOf W.toPlatform .blob s, s.length⟩)⟩]⟩ }

/-- The manifest that `add` builds, on the way the length of the file asks for. -/
def addedManifest (env : Env) (r : Repo) (req : AddRequest) (config : RepoConfig) :
    Except (Fault OmpError) Manifest :=
  if config.chunkSizeBytes ≤ req.bytes.length then
    (r.withChunks W config.chunkSizeBytes req.bytes).buildManifestWith W env req.path []
      (req.userFields.getD ∅) req.fileTypeOverride
      (some (chunkedIngest W config.chunkSizeBytes req.bytes))
  else r.buildManifestWith W env req.path req.bytes (req.userFields.getD ∅)
    req.fileTypeOverride none

variable {W}

theorem run_putSlices (pieces : List Bytes) (s : Store) : (putSlices W pieces).run s =
    (.ok (pieces.map fun x => ⟨hashOf W.toPlatform .blob x, x.length⟩),
      ⟨s.objects ++ pieces.map (Object.mk .blob)⟩) := by
  induction pieces generalizing s with
  | nil =>
    rw [List.map_nil, List.map_nil, List.append_nil]
    rfl
  | cons x rest ih =>
    have htail := ih ⟨s.objects ++ [⟨.blob, x⟩]⟩
    rw [putSlices, Op.run_bind, Store.run_put]
    dsimp only
    rw [Op.run_bind, htail, List.append_assoc]
    rfl

theorem stageManifest_eq_ok {path : Text} {m : Manifest} {sourceHash : Hash} {r r' : Repo}
    {result : AddResult} (hrun : ((stageManifest W path m sourceHash).run (Action.op W)).run r =
      (.ok result, r')) :
    ∃ bytes, m.serialize W = .ok bytes ∧
      result = .manifest path (hashOf W.toPlatform .manifest bytes) sourceHash := by
  obtain ⟨bytes, hbytes, hput⟩ := RepoScript.require_eq_ok.1 hrun
  refine ⟨bytes, hbytes, ?_⟩
  have hstage := RepoScript.saveIndex_eq_ok.1 (RepoScript.loadIndex_eq_ok.1
    (RepoScript.put_eq_ok.1 hput))
  cases hstage
  rfl

/-- A file that `add` ingests gets the manifest of `addedManifest`. -/
theorem add_builds {env : Env} {req : AddRequest} {r r' : Repo} {path : Text}
    {manifestHash sourceHash : Hash} (hrun : ((Repo.add W env req).run (Action.op W)).run r =
      (.ok (.manifest path manifestHash sourceHash), r')) :
    ∃ config m bytes, r.currentRepoConfig W env = .ok config ∧
      r.addedManifest W env req config = .ok m ∧ m.serialize W = .ok bytes ∧
      manifestHash = hashOf W.toPlatform .manifest bytes := by
  obtain ⟨-, -, hrun⟩ := RepoScript.require_eq_ok.1 hrun
  obtain ⟨-, -, hrun⟩ := RepoScript.check_eq_ok.1 hrun
  split_ifs at hrun
  · -- a blob path: the result is no manifest
    obtain ⟨-, -, hrun⟩ := RepoScript.inspect_eq_ok.1 hrun
    cases RepoScript.saveIndex_eq_ok.1 (RepoScript.loadIndex_eq_ok.1
      (RepoScript.put_eq_ok.1 hrun))
  · obtain ⟨config, hconfig, hrun⟩ := RepoScript.check_eq_ok.1 hrun
    refine ⟨config, ?_⟩
    unfold addedManifest
    split_ifs at hrun ⊢ with hlong
    · obtain ⟨entries, s, hslices, hrun⟩ := RepoScript.objects_eq_ok.1 hrun
      rw [run_putSlices] at hslices
      cases hslices
      obtain ⟨m, hm, hrun⟩ := RepoScript.inspect_eq_ok.1 (RepoScript.put_eq_ok.1 hrun)
      obtain ⟨bytes, hbytes, hresult⟩ := stageManifest_eq_ok hrun
      cases hresult
      exact ⟨m, bytes, hconfig, hm, hbytes, rfl⟩
    · obtain ⟨m, hm, hrun⟩ := RepoScript.inspect_eq_ok.1 hrun
      obtain ⟨bytes, hbytes, hresult⟩ := stageManifest_eq_ok (RepoScript.put_eq_ok.1 hrun)
      cases hresult
      exact ⟨m, bytes, hconfig, hm, hbytes, rfl⟩

end Repo

/-! ### Schemas that use the built-ins -/

/-- The probes that have a streaming built-in. -/
inductive Builtin where
  | size | sha256
  deriving DecidableEq

namespace Builtin

/-- The name of the probe. -/
def name : Builtin → Text
  | size => "file.size".toList
  | sha256 => "file.sha256".toList

/-- The type of the fields that take it. -/
def type : Builtin → FieldType
  | size => .int
  | sha256 => .string

/-- What it says of a file. -/
def value (bytes : Bytes) : Builtin → FieldValue
  | size => .int (Int64.ofNat bytes.length)
  | sha256 => .string (W.sha256 bytes).hex

variable {W} in
/-- The values of the two are of different kinds. -/
theorem value_inj {bytes : Bytes} {b c : Builtin} (h : b.value W bytes = c.value W bytes) :
    b = c := by
  cases b <;> cases c
  · rfl
  · cases h
  · cases h
  · rfl

end Builtin

/-- A probe with a built-in, and the arguments a schema gives it. -/
abbrev ProbeUse := Builtin × Fields

/-- The only probes a source takes are of the given uses. -/
def Source.UsesOnly (U : Set ProbeUse) : Source → Prop
  | .probe p args => ∃ b : Builtin, p = b.name ∧ (b, args) ∈ U
  | _ => True

/-- The same for a field and what it falls back to. -/
def Field.UsesOnly (U : Set ProbeUse) : Field → Prop
  | .mk _ source _ _ _ none => source.UsesOnly U
  | .mk _ source _ _ _ (some fallback) => source.UsesOnly U ∧ fallback.UsesOnly U

/-- The same for the fields of a schema. -/
def Schema.UsesOnly (U : Set ProbeUse) (schema : Schema) : Prop :=
  ∀ f ∈ schema.fields, f.UsesOnly U

/-- For every schema with the given uses, the fields are the same on both ways.  The chunk size is
part of the configuration, so the two repositories may differ. -/
def Repo.ChunkingAgrees (env : Env) (whole split : Repo) (path : Text) (bytes : Bytes)
    (chunkSize : Nat) (limits : ProbeLimits) (U : Set ProbeUse) : Prop :=
  ∀ (schema : Schema) (schemaBytes : Bytes) (userFields : Fields), schema.UsesOnly U →
    (whole.ingestUnder W env path bytes userFields none limits schema schemaBytes).map
        Manifest.fields =
      (split.ingestUnder W env path [] userFields (some (chunkedIngest W chunkSize bytes)) limits
        schema schemaBytes).map Manifest.fields

/-! ### When the sandbox is faithful -/

/-- The arguments a probe runs with on a file. -/
def argsAt (path : Text) (args : Fields) : Fields :=
  if args.contains "path".toList then args else args.insert "path".toList (.string path)

/-- What the programs under the two names yield in the sandbox is what the built-ins say. -/
structure Faithful (runProbe : RunProbe) (probes : TextMap ProbeBlob) (limits : ProbeLimits)
    (path : Text) (bytes : Bytes) (U : Set ProbeUse) : Prop where
  /-- The file is not too long for the probe. -/
  fits : ∀ u ∈ U, ∀ blob, probes[u.1.name]? = some blob →
    bytes.length ≤ blob.maxInputBytes.getD (limits.memoryMb * 1024 * 1024)
  /-- The probe yields the value. -/
  yields : ∀ u ∈ U, ∀ blob, probes[u.1.name]? = some blob →
    runProbe u.1.name blob.wasm bytes (argsAt path u.2) limits = .ok (u.1.value W bytes)
  /-- The two names do not stand for one program that is given the same arguments. -/
  apart : ∀ u ∈ U, ∀ v ∈ U, ∀ blob blob', probes[u.1.name]? = some blob →
    probes[v.1.name]? = some blob' → blob.framedHash = blob'.framedHash →
    W.argsJson (argsAt path u.2) = W.argsJson (argsAt path v.2) → u.1 = v.1

section Lockstep

variable {W} {env : Env} {path : Text} {bytes : Bytes} (chunkSize : Nat) {userFields : Fields}
  {view : TreeView} {U : Set ProbeUse}

/-- The values in a cache are those of the built-ins. -/
def Sound (W : World) (input : IngestInput) (view : TreeView) (bytes : Bytes) (U : Set ProbeUse)
    (cache : ProbeOutputCache) : Prop :=
  ∀ u ∈ U, ∀ blob, view.probes[u.1.name]? = some blob → ∀ v,
    cache.get (input.cacheKey W blob u.2) = some v → v = u.1.value W bytes

/-- Two outcomes are the same, and the first leaves a sound cache. -/
structure InStep {α : Type} (W : World) (input : IngestInput) (view : TreeView) (bytes : Bytes)
    (U : Set ProbeUse) (x x' : Except OmpError α × IngestState) : Prop where
  /-- The outcomes are the same. -/
  fst : x.1 = x'.1
  /-- The cache is sound. -/
  sound : Sound W input view bytes U x.2.cache

/-- In chunks a probe yields the value of the built-in. -/
theorem resolveProbe_split (name : Text) (b : Builtin) (args : Fields) {blob : ProbeBlob}
    (hblob : view.probes[b.name]? = some blob) (st : IngestState) :
    resolveProbe W env.runProbe name b.name args
      (splitInput W env path bytes chunkSize userFields) view st =
      (.ok (b.value W bytes), st) := by
  have hskip : (splitInput W env path bytes chunkSize userFields).skipsProbe view blob = true :=
    Bool.or_true _
  simp only [resolveProbe, hblob, hskip, if_true]
  cases b <;> rfl

/-- As one blob a probe that is not skipped runs, or its output is in the cache. -/
theorem resolveProbe_whole (name : Text) (b : Builtin) (args : Fields) {blob : ProbeBlob}
    (hblob : view.probes[b.name]? = some blob) (st : IngestState) :
    resolveProbe W env.runProbe name b.name args (wholeInput env path bytes userFields) view st =
      if bytes.length ≤ blob.maxInputBytes.getD (view.limits.memoryMb * 1024 * 1024) then
        match st.cache.fetch ((wholeInput env path bytes userFields).cacheKey W blob args)
          (env.runProbe b.name blob.wasm bytes (argsAt path args) view.limits) with
        | (.error e, cache) => (.error e, { st with cache := cache })
        | (.ok v, cache) => (.ok v, ⟨st.probeHashes.insert b.name blob.framedHash, cache⟩)
      else (.ok .null, st) := by
  have hskip : (wholeInput env path bytes userFields).skipsProbe view blob =
      !decide (bytes.length ≤ blob.maxInputBytes.getD (view.limits.memoryMb * 1024 * 1024)) := by
    refine (Bool.or_false _).trans ?_
    rw [← decide_not]
    exact decide_eq_decide.2 Nat.not_le.symm
  simp only [resolveProbe, hblob, hskip]
  by_cases hfits : bytes.length ≤ blob.maxInputBytes.getD (view.limits.memoryMb * 1024 * 1024)
  · simp only [decide_eq_true hfits, Bool.not_true, Bool.false_eq_true, if_false, if_pos hfits]
    rfl
  · simp only [decide_eq_false hfits, Bool.not_false, if_true, if_neg hfits]
    rfl

/-- **One use of a probe**: it resolves alike on both ways, and the cache stays sound. -/
theorem resolveProbe_lockstep
    (hfaith : Faithful W env.runProbe view.probes view.limits path bytes U) (name : Text)
    {u : ProbeUse} (hu : u ∈ U) {st : IngestState} (st' : IngestState)
    (hsound : Sound W (wholeInput env path bytes userFields) view bytes U st.cache) :
    InStep W (wholeInput env path bytes userFields) view bytes U
      (resolveProbe W env.runProbe name u.1.name u.2 (wholeInput env path bytes userFields) view st)
      (resolveProbe W env.runProbe name u.1.name u.2
        (splitInput W env path bytes chunkSize userFields) view st') := by
  cases hblob : view.probes[u.1.name]? with
  | none =>
    simp only [resolveProbe, hblob]
    exact ⟨rfl, hsound⟩
  | some blob =>
    rw [resolveProbe_split chunkSize name u.1 u.2 hblob, resolveProbe_whole name u.1 u.2 hblob,
      if_pos (hfaith.fits u hu blob hblob), hfaith.yields u hu blob hblob]
    cases hget : st.cache.get ((wholeInput env path bytes userFields).cacheKey W blob u.2) with
    | some v =>
      simp only [Memo.fetch, hget]
      exact ⟨by rw [hsound u hu blob hblob v hget], hsound⟩
    | none =>
      simp only [Memo.fetch, hget]
      refine ⟨rfl, ?_⟩
      -- the new entry answers only uses of the same built-in
      intro w hw blob' hblob' v hv
      rw [Memo.get_cons] at hv
      split_ifs at hv with hkey
      · simp only [IngestInput.cacheKey, Prod.mk.injEq] at hkey
        rw [← hfaith.apart u hu w hw blob blob' hblob hblob' hkey.2.1 hkey.2.2]
        exact (Option.some.inj hv).symm
      · exact hsound w hw blob' hblob' v hv

/-- One source. -/
theorem resolveSource_lockstep
    (hfaith : Faithful W env.runProbe view.probes view.limits path bytes U) (name : Text)
    {source : Source} (huses : source.UsesOnly U) (resolved : Fields) {st : IngestState}
    (st' : IngestState)
    (hsound : Sound W (wholeInput env path bytes userFields) view bytes U st.cache) :
    InStep W (wholeInput env path bytes userFields) view bytes U
      (resolveSource W env.runProbe name source (wholeInput env path bytes userFields) view
        resolved st)
      (resolveSource W env.runProbe name source
        (splitInput W env path bytes chunkSize userFields) view resolved st') := by
  cases source with
  | probe p args =>
    obtain ⟨b, rfl, hu⟩ := huses
    exact resolveProbe_lockstep chunkSize hfaith name hu st' hsound
  | constant | userProvided | field => exact ⟨rfl, hsound⟩

/-- One field, by induction on what it falls back to. -/
theorem resolveField_lockstep
    (hfaith : Faithful W env.runProbe view.probes view.limits path bytes U) (resolved : Fields) :
    ∀ (f : Field) {st : IngestState} (st' : IngestState), f.UsesOnly U →
      Sound W (wholeInput env path bytes userFields) view bytes U st.cache →
    InStep W (wholeInput env path bytes userFields) view bytes U
      (resolveField W env.runProbe (wholeInput env path bytes userFields) view resolved f st)
      (resolveField W env.runProbe (splitInput W env path bytes chunkSize userFields) view
        resolved f st')
  | .mk name source _ _ _ none, st, st', huses, hsound => by
    rw [resolveField, resolveField]
    exact resolveSource_lockstep chunkSize hfaith name huses resolved st' hsound
  | .mk name source _ _ _ (some fallback), st, st', huses, hsound => by
    obtain ⟨hsource, hfallback⟩ := huses
    obtain ⟨hfst, hsound'⟩ := resolveSource_lockstep chunkSize hfaith name hsource
      resolved st' hsound
    rw [resolveField, resolveField]
    revert hfst hsound'
    rcases resolveSource W env.runProbe name source (wholeInput env path bytes userFields)
      view resolved st with ⟨x, t⟩
    rcases resolveSource W env.runProbe name source
      (splitInput W env path bytes chunkSize userFields) view resolved st' with ⟨x', t'⟩
    intro hfst hsound'
    dsimp only at hfst
    subst hfst
    cases x with
    | error e => exact ⟨rfl, hsound'⟩
    | ok v =>
      dsimp only
      split_ifs
      · exact resolveField_lockstep hfaith resolved fallback t' hfallback hsound'
      · exact ⟨rfl, hsound'⟩

/-- **The fields of a schema**: they resolve alike on both ways. -/
theorem resolveFields_lockstep
    (hfaith : Faithful W env.runProbe view.probes view.limits path bytes U) {fs : List Field}
    (huses : ∀ f ∈ fs, f.UsesOnly U) (resolved : Fields) {st : IngestState} (st' : IngestState)
    (hsound : Sound W (wholeInput env path bytes userFields) view bytes U st.cache) :
    (resolveFields W env.runProbe (wholeInput env path bytes userFields) view fs resolved st).1 =
      (resolveFields W env.runProbe (splitInput W env path bytes chunkSize userFields) view fs
        resolved st').1 := by
  induction fs generalizing resolved st st' with
  | nil => rfl
  | cons f fs ih =>
    rw [List.forall_mem_cons] at huses
    obtain ⟨hfst, hsound'⟩ := resolveField_lockstep chunkSize hfaith resolved f st'
      huses.1 hsound
    rw [resolveFields, resolveFields]
    revert hfst hsound'
    rcases resolveField W env.runProbe (wholeInput env path bytes userFields) view resolved
      f st with ⟨x, t⟩
    rcases resolveField W env.runProbe (splitInput W env path bytes chunkSize userFields) view
      resolved f st' with ⟨x', t'⟩
    intro hfst hsound'
    dsimp only at hfst
    subst hfst
    cases x with
    | error e => rfl
    | ok v =>
      dsimp only
      cases checkValue W f v with
      | error e => rfl
      | ok _ => exact ih huses.2 _ t' hsound'

end Lockstep

/-! ### Schemas that tell the two ways apart -/

/-- A field that takes a probe with a built-in. -/
def useField (name : Text) (u : ProbeUse) : Field :=
  .mk name (.probe u.1.name u.2) u.1.type false none none

/-- A schema of such fields. -/
def useSchema (uses : List (Text × ProbeUse)) : Schema :=
  ⟨"any".toList, ["*/*".toList], false, uses.map fun p => useField p.1 p.2⟩

theorem useSchema_usesOnly {U : Set ProbeUse} {uses : List (Text × ProbeUse)}
    (hU : ∀ p ∈ uses, p.2 ∈ U) : (useSchema uses).UsesOnly U := by
  rintro f hf
  obtain ⟨p, hp, rfl⟩ := List.mem_map.1 hf
  exact ⟨p.2.1, rfl, hU p hp⟩

section Distinguish

variable {W} {env : Env} {path : Text} {bytes : Bytes} (chunkSize : Nat) {userFields : Fields}
  {view : TreeView} {uses : List (Text × ProbeUse)}

theorem validate_useSchema {names : List Text} (hnames : ∀ p ∈ uses, p.2.1.name ∈ names) :
    (useSchema uses).validateProbeRefs W names = .ok () := by
  have hfields : ∀ f ∈ (useSchema uses).fields, validateProbeRefsInner W names f = .ok () := by
    intro f hf
    obtain ⟨p, hp, rfl⟩ := List.mem_map.1 hf
    exact if_pos (hnames p hp)
  unfold Schema.validateProbeRefs
  revert hfields
  induction (useSchema uses).fields with
  | nil => exact fun _ => rfl
  | cons f fs ih =>
    intro hfields
    rw [List.forall_mem_cons] at hfields
    rw [List.forM, hfields.1]
    exact ih hfields.2

theorem normalizeValue_type (b : Builtin) (v : FieldValue) : normalizeValue v b.type = v := by
  cases b <;> rfl

/-- In chunks every such field takes the value of its built-in. -/
theorem resolveFields_split (hblobs : ∀ p ∈ uses, ∃ blob, view.probes[p.2.1.name]? = some blob)
    (resolved : Fields) (st : IngestState) :
    resolveFields W env.runProbe (splitInput W env path bytes chunkSize userFields) view
        (useSchema uses).fields resolved st =
      (.ok (uses.foldl (fun m p => m.insert p.1 (p.2.1.value W bytes)) resolved), st) := by
  induction uses generalizing resolved with
  | nil => rfl
  | cons p uses ih =>
    rw [List.forall_mem_cons] at hblobs
    obtain ⟨⟨blob, hblob⟩, hblobs⟩ := hblobs
    have hcheck : checkValue W (useField p.1 p.2) (p.2.1.value W bytes) = .ok () := by
      obtain ⟨name, b, args⟩ := p
      cases b <;> rfl
    have hfield : resolveField W env.runProbe (splitInput W env path bytes chunkSize userFields)
        view resolved (useField p.1 p.2) st = (.ok (p.2.1.value W bytes), st) := by
      rw [useField, resolveField]
      exact resolveProbe_split chunkSize p.1 p.2.1 p.2.2 hblob st
    have hrest := ih hblobs (resolved.insert p.1 (p.2.1.value W bytes))
    rw [useSchema, List.map_cons, resolveFields, hfield]
    simp only [hcheck]
    rw [useField, Field.name, Field.type, normalizeValue_type]
    exact hrest

/-- As one blob the first such field takes what its probe resolves to. -/
theorem resolveFields_whole {input : IngestInput} {p : Text × ProbeUse} {resolved out : Fields}
    {st : IngestState}
    (h : (resolveFields W env.runProbe input view (useSchema (p :: uses)).fields resolved st).1 =
      .ok out) :
    ∃ v t, resolveProbe W env.runProbe p.1 p.2.1.name p.2.2 input view st = (.ok v, t) ∧
      (resolveFields W env.runProbe input view (useSchema uses).fields (resolved.insert p.1 v)
        t).1 = .ok out := by
  have hfield : resolveField W env.runProbe input view resolved (useField p.1 p.2) st =
      resolveProbe W env.runProbe p.1 p.2.1.name p.2.2 input view st := by
    rw [useField, resolveField, resolveSource]
  rw [useSchema, List.map_cons, resolveFields, hfield] at h
  revert h
  rcases resolveProbe W env.runProbe p.1 p.2.1.name p.2.2 input view st with ⟨x, t⟩
  intro h
  cases x with
  | error e => cases h
  | ok v =>
    dsimp only at h
    cases hcheck : checkValue W (useField p.1 p.2) v with
    | error e =>
      rw [hcheck] at h
      cases h
    | ok _ =>
      rw [hcheck, useField, Field.name, Field.type, normalizeValue_type] at h
      exact ⟨v, t, rfl, h⟩

end Distinguish

/-! ### The fields of both ways -/

section Agree

variable {W} {env : Env} {whole split : Repo} {path : Text} {bytes : Bytes} {chunkSize : Nat}
  {limits : ProbeLimits} {probes : TextMap ProbeBlob} {U : Set ProbeUse}

/-- The fields of an ingest: what is resolved, and the extra values of the caller. -/
theorem ingest_map_fields (input : IngestInput) (view : TreeView) :
    (ingest W env.runProbe input view).map Manifest.fields =
      (resolveFields W env.runProbe input view view.schema.fields ∅ ⟨∅, []⟩).1.bind
        (addExtras W view.schema input.userFields) := by
  unfold ingest ingestWithCache
  rcases resolveFields W env.runProbe input view view.schema.fields ∅ ⟨∅, []⟩ with ⟨x, t⟩
  cases x with
  | error e => rfl
  | ok resolved =>
    dsimp only [Except.bind]
    cases addExtras W view.schema input.userFields resolved <;> rfl

theorem ingestUnder_map_fields {r : Repo} (hprobes : r.currentProbes W = .ok probes)
    (userFields : Fields) (source : Bytes) (chunked : Option ChunkedIngest) (schema : Schema)
    (schemaBytes : Bytes) :
    (r.ingestUnder W env path source userFields chunked limits schema schemaBytes).map
        Manifest.fields =
      ((schema.validateProbeRefs W (probes.toList.map Prod.fst)).mapError .err).bind fun _ =>
        ((resolveFields W env.runProbe (ingestInput env path source userFields chunked)
          ⟨schema, schemaBytes, probes, limits⟩ schema.fields ∅ ⟨∅, []⟩).1.bind
            (addExtras W schema userFields)).mapError .err := by
  let input := ingestInput env path source userFields chunked
  let view : TreeView := ⟨schema, schemaBytes, probes, limits⟩
  have hfields : (ingest W env.runProbe input view).map Manifest.fields =
      (resolveFields W env.runProbe input view schema.fields ∅ ⟨∅, []⟩).1.bind
        (addExtras W schema userFields) := ingest_map_fields input view
  unfold Repo.ingestUnder
  rw [hprobes]
  dsimp only [bind, Except.bind]
  cases schema.validateProbeRefs W (probes.toList.map Prod.fst) with
  | error e => rfl
  | ok _ =>
    refine Eq.trans ?_ (congrArg (Except.mapError Fault.err) hfields)
    dsimp only [Except.mapError]
    cases ingest W env.runProbe (ingestInput env path source userFields chunked)
      ⟨schema, schemaBytes, probes, limits⟩ <;> rfl

/-- If the fields agree, what the schema of some uses takes in chunks it takes as one blob. -/
theorem Repo.ChunkingAgrees.whole_eq (hagrees : Repo.ChunkingAgrees W env whole split path bytes
      chunkSize limits U) (hwhole : whole.currentProbes W = .ok probes)
    (hsplit : split.currentProbes W = .ok probes) {uses : List (Text × ProbeUse)}
    (hU : ∀ p ∈ uses, p.2 ∈ U) (hblobs : ∀ p ∈ uses, ∃ blob, probes[p.2.1.name]? = some blob) :
    (resolveFields W env.runProbe (wholeInput env path bytes ∅)
      ⟨useSchema uses, [], probes, limits⟩ (useSchema uses).fields ∅ ⟨∅, []⟩).1 =
      .ok (uses.foldl (fun m p => m.insert p.1 (p.2.1.value W bytes)) ∅) := by
  have hnames : ∀ p ∈ uses, p.2.1.name ∈ probes.toList.map Prod.fst := by
    intro p hp
    obtain ⟨blob, hblob⟩ := hblobs p hp
    exact List.mem_map.2 ⟨(p.2.1.name, blob), TextMap.mem_toList.2 hblob, rfl⟩
  have hextras : ∀ m, addExtras W (useSchema uses) ∅ m = .ok m := by
    intro m
    rw [addExtras]
    exact if_neg nofun
  have h := hagrees (useSchema uses) [] ∅ (useSchema_usesOnly hU)
  rw [ingestUnder_map_fields hwhole, ingestUnder_map_fields hsplit, validate_useSchema hnames,
    resolveFields_split chunkSize hblobs] at h
  have hok : (resolveFields W env.runProbe (wholeInput env path bytes ∅)
      ⟨useSchema uses, [], probes, limits⟩ (useSchema uses).fields ∅ ⟨∅, []⟩).1.bind
        (addExtras W (useSchema uses) ∅) =
      .ok (uses.foldl (fun m p => m.insert p.1 (p.2.1.value W bytes)) ∅) :=
    mapError_eq_ok.1 (h.trans (congrArg (Except.mapError Fault.err) (hextras _)))
  obtain ⟨m, hm, hextra⟩ := except_bind_eq_ok.1 hok
  rw [hextras] at hextra
  rw [hm, hextra]

/-- A probe that resolves to the value of its built-in did run, from an empty cache. -/
theorem resolveProbe_of_value {name : Text} {u : ProbeUse} {userFields : Fields} {view : TreeView}
    {blob : ProbeBlob} (hblob : view.probes[u.1.name]? = some blob) {t : IngestState}
    (h : resolveProbe W env.runProbe name u.1.name u.2 (wholeInput env path bytes userFields) view
      ⟨∅, []⟩ = (.ok (u.1.value W bytes), t)) :
    bytes.length ≤ blob.maxInputBytes.getD (view.limits.memoryMb * 1024 * 1024) ∧
      env.runProbe u.1.name blob.wasm bytes (argsAt path u.2) view.limits =
        .ok (u.1.value W bytes) ∧
      t.cache = [((wholeInput env path bytes userFields).cacheKey W blob u.2,
        u.1.value W bytes)] := by
  rw [resolveProbe_whole name u.1 u.2 hblob] at h
  split_ifs at h with hfits
  · refine ⟨hfits, ?_⟩
    simp only [Memo.fetch, Memo.get_nil] at h
    cases hrun : env.runProbe u.1.name blob.wasm bytes (argsAt path u.2) view.limits with
    | error e =>
      rw [hrun] at h
      cases h
    | ok v =>
      rw [hrun] at h
      cases h
      exact ⟨rfl, rfl⟩
  · -- a null is no value of a built-in
    obtain ⟨b, args⟩ := u
    cases b <;> cases h

/-- If the fields agree, two uses after each other resolve to the values of their built-ins. -/
theorem Repo.ChunkingAgrees.resolves (hagrees : Repo.ChunkingAgrees W env whole split path bytes
      chunkSize limits U) (hwhole : whole.currentProbes W = .ok probes)
    (hsplit : split.currentProbes W = .ok probes) {u v : ProbeUse} (hu : u ∈ U) (hv : v ∈ U)
    (hublob : ∃ blob, probes[u.1.name]? = some blob)
    (hvblob : ∃ blob, probes[v.1.name]? = some blob) :
    let view : TreeView := ⟨useSchema [("a".toList, u), ("b".toList, v)], [], probes, limits⟩
    ∃ t t', resolveProbe W env.runProbe "a".toList u.1.name u.2 (wholeInput env path bytes ∅) view
        ⟨∅, []⟩ = (.ok (u.1.value W bytes), t) ∧
      resolveProbe W env.runProbe "b".toList v.1.name v.2 (wholeInput env path bytes ∅) view t =
        (.ok (v.1.value W bytes), t') := by
  intro view
  have hU : ∀ p ∈ [("a".toList, u), ("b".toList, v)], p.2 ∈ U :=
    List.forall_mem_cons.2 ⟨hu, List.forall_mem_singleton.2 hv⟩
  have hall := hagrees.whole_eq hwhole hsplit hU
    (List.forall_mem_cons.2 ⟨hublob, List.forall_mem_singleton.2 hvblob⟩)
  obtain ⟨x, t, hx, hrest⟩ := resolveFields_whole hall
  obtain ⟨y, t', hy, hrest⟩ := resolveFields_whole hrest
  have hmap : ((∅ : Fields).insert "a".toList x).insert "b".toList y =
      ((∅ : Fields).insert "a".toList (u.1.value W bytes)).insert "b".toList
        (v.1.value W bytes) := Except.ok.inj hrest
  have hne : ("a".toList : Text) ≠ "b".toList := by decide
  have ha := congrArg (fun m : Fields => m["a".toList]?) hmap
  have hb := congrArg (fun m : Fields => m["b".toList]?) hmap
  simp only [TextMap.getElem?_insert, if_true, if_neg hne, if_neg hne.symm,
    Option.some.injEq] at ha hb
  subst ha hb
  exact ⟨t, t', hx, hy⟩

/-- If the fields agree, the sandbox is faithful. -/
theorem Repo.ChunkingAgrees.faithful (hagrees : Repo.ChunkingAgrees W env whole split path bytes
      chunkSize limits U) (hwhole : whole.currentProbes W = .ok probes)
    (hsplit : split.currentProbes W = .ok probes) :
    Faithful W env.runProbe probes limits path bytes U := by
  have hruns : ∀ u ∈ U, ∀ blob, probes[u.1.name]? = some blob →
      bytes.length ≤ blob.maxInputBytes.getD (limits.memoryMb * 1024 * 1024) ∧
      env.runProbe u.1.name blob.wasm bytes (argsAt path u.2) limits =
        .ok (u.1.value W bytes) := by
    intro u hu blob hblob
    obtain ⟨t, t', hx, -⟩ := hagrees.resolves hwhole hsplit hu hu ⟨blob, hblob⟩ ⟨blob, hblob⟩
    obtain ⟨hfits, hrun, -⟩ := resolveProbe_of_value hblob hx
    exact ⟨hfits, hrun⟩
  refine ⟨fun u hu blob hblob => (hruns u hu blob hblob).1,
    fun u hu blob hblob => (hruns u hu blob hblob).2, ?_⟩
  intro u hu v hv blob blob' hblob hblob' hhash hargs
  -- the output of the first is found in the cache for the second
  obtain ⟨t, t', hx, hy⟩ := hagrees.resolves hwhole hsplit hu hv ⟨blob, hblob⟩ ⟨blob', hblob'⟩
  obtain ⟨-, -, hcache⟩ := resolveProbe_of_value hblob hx
  have hkey : (wholeInput env path bytes ∅).cacheKey W blob u.2 =
      (wholeInput env path bytes ∅).cacheKey W blob' v.2 := by
    rw [IngestInput.cacheKey, IngestInput.cacheKey, hhash]
    exact congrArg (fun a => (_, _, a)) hargs
  rw [resolveProbe_whole "b".toList v.1 v.2 hblob', if_pos (hruns v hv blob' hblob').1, hcache,
    hkey] at hy
  simp only [Memo.fetch, Memo.get_cons, if_true] at hy
  exact Builtin.value_inj (Except.ok.inj (congrArg Prod.fst hy))

/-- In a faithful sandbox the fields agree. -/
theorem Faithful.agrees (hfaith : Faithful W env.runProbe probes limits path bytes U)
    (hwhole : whole.currentProbes W = .ok probes) (hsplit : split.currentProbes W = .ok probes) :
    Repo.ChunkingAgrees W env whole split path bytes chunkSize limits U := by
  intro schema schemaBytes userFields huses
  rw [ingestUnder_map_fields hwhole, ingestUnder_map_fields hsplit,
    resolveFields_lockstep chunkSize hfaith huses]
  intro u _ blob _ v hv
  cases hv

/-- **The fields agree exactly when the sandbox is faithful.** -/
theorem Repo.chunking_agrees_iff (hwhole : whole.currentProbes W = .ok probes)
    (hsplit : split.currentProbes W = .ok probes) :
    Repo.ChunkingAgrees W env whole split path bytes chunkSize limits U ↔
      Faithful W env.runProbe probes limits path bytes U :=
  ⟨fun hagrees => hagrees.faithful hwhole hsplit, fun hfaith => hfaith.agrees hwhole hsplit⟩

/-- **Two additions of one file**, as one blob in the one repository and in chunks in the other:
in a faithful sandbox, and under one schema, the manifests have the same fields. -/
theorem Repo.added_fields_eq {req : AddRequest} {config config' : RepoConfig} {schema : Schema}
    {schemaBytes : Bytes} {m m' : Manifest} (hshort : req.bytes.length < config.chunkSizeBytes)
    (hlong : config'.chunkSizeBytes ≤ req.bytes.length) (hlimits : config'.probes = config.probes)
    (hconfig : whole.currentRepoConfig W env = .ok config)
    (hconfig' : (split.withChunks W config'.chunkSizeBytes req.bytes).currentRepoConfig W env =
      .ok config')
    (hschema : whole.schemaFor W env config req.fileTypeOverride (sniffMime W req.bytes) =
      .ok (schema, schemaBytes))
    (hschema' : (split.withChunks W config'.chunkSizeBytes req.bytes).schemaFor W env config'
      req.fileTypeOverride (sniffMime W (req.bytes.take (8 * 1024))) = .ok (schema, schemaBytes))
    (hwhole : whole.currentProbes W = .ok probes)
    (hsplit : (split.withChunks W config'.chunkSizeBytes req.bytes).currentProbes W = .ok probes)
    (huses : schema.UsesOnly U)
    (hfaith : Faithful W env.runProbe probes (env.quotas.clampProbe config.probes) req.path
      req.bytes U)
    (hm : whole.addedManifest W env req config = .ok m)
    (hm' : split.addedManifest W env req config' = .ok m') : m.fields = m'.fields := by
  rw [Repo.addedManifest, if_neg hshort.not_ge, Repo.buildManifestWith_eq, hconfig] at hm
  rw [Repo.addedManifest, if_pos hlong, Repo.buildManifestWith_eq, hconfig'] at hm'
  obtain ⟨c, hc, hm⟩ := except_bind_eq_ok.1 hm
  cases hc
  obtain ⟨c', hc', hm'⟩ := except_bind_eq_ok.1 hm'
  cases hc'
  obtain ⟨chosen, hchosen, hm⟩ := except_bind_eq_ok.1 hm
  cases hchosen.symm.trans hschema
  obtain ⟨chosen', hchosen', hm'⟩ := except_bind_eq_ok.1 hm'
  cases hchosen'.symm.trans hschema'
  have hagree : Repo.ChunkingAgrees W env whole
      (split.withChunks W config'.chunkSizeBytes req.bytes) req.path req.bytes
      config'.chunkSizeBytes (env.quotas.clampProbe config.probes) U :=
    hfaith.agrees hwhole hsplit
  have hfields := hagree schema schemaBytes (req.userFields.getD ∅) huses
  dsimp only at hm hm'
  rw [hlimits] at hm'
  rw [hm, hm'] at hfields
  exact Except.ok.inj hfields

end Agree

/-! ### Two sandboxes -/

/-- The texts of the two probe manifests. -/
def builtinToml (b : Builtin) : Text := "name = \"".toList ++ b.name ++ "\"".toList

/-- A world with the two probes, whose caps are not set. -/
def probeWorld : World :=
  { demoWorld ⟨[], [], [Builtin.size, Builtin.sha256].map fun b => (builtinToml b, ⟨none⟩)⟩ with
    starterProbes := [⟨Builtin.size.name, [1], utf8 (builtinToml .size)⟩,
      ⟨Builtin.sha256.name, [2], utf8 (builtinToml .sha256)⟩] }

/-- An environment in which the programs of the two probes yield what they should. -/
def probeEnv : Env :=
  { demoEnv with
    runProbe := fun _ wasm bytes _ _ =>
      .ok ((if wasm = [1] then Builtin.size else .sha256).value probeWorld bytes) }

/-- The probes of a repository without commits. -/
def probePair : TextMap ProbeBlob :=
  ((∅ : TextMap ProbeBlob).insert Builtin.size.name
    ⟨[1], hashOf probeWorld.toPlatform .blob [1], none⟩).insert Builtin.sha256.name
    ⟨[2], hashOf probeWorld.toPlatform .blob [2], none⟩

theorem currentProbes_init : Repo.init.currentProbes probeWorld = .ok probePair := by
  have hparse : ∀ b : Builtin, parseMaxInputBytes probeWorld (utf8 (builtinToml b)) = .ok none := by
    intro b
    cases b <;> decide +kernel
  have hstarter : Repo.starterProbes probeWorld = .ok probePair := by
    unfold Repo.starterProbes
    rw [show probeWorld.starterProbes = [⟨Builtin.size.name, [1], utf8 (builtinToml .size)⟩,
      ⟨Builtin.sha256.name, [2], utf8 (builtinToml .sha256)⟩] from rfl]
    simp only [List.foldlM_cons, List.foldlM_nil, hparse]
    rfl
  have hleaves : Repo.init.headLeaves probeWorld = .ok none := by decide +kernel
  unfold Repo.currentProbes
  rw [hstarter, hleaves]
  rfl

theorem probePair_size : probePair[Builtin.size.name]? =
    some ⟨[1], hashOf probeWorld.toPlatform .blob [1], none⟩ := by
  rw [probePair, TextMap.getElem?_insert, if_neg (by decide), TextMap.getElem?_insert, if_pos rfl]

theorem probePair_sha256 : probePair[Builtin.sha256.name]? =
    some ⟨[2], hashOf probeWorld.toPlatform .blob [2], none⟩ := by
  rw [probePair, TextMap.getElem?_insert, if_pos rfl]

/-- The sandbox is faithful to files that are not too long for it. -/
theorem probeEnv_faithful {limits : ProbeLimits} (path : Text) {bytes : Bytes}
    (hfits : bytes.length ≤ limits.memoryMb * 1024 * 1024) (U : Set ProbeUse) :
    Faithful probeWorld probeEnv.runProbe probePair limits path bytes U := by
  have hhash : hashOf probeWorld.toPlatform .blob [1] ≠ hashOf probeWorld.toPlatform .blob [2] := by
    decide +kernel
  refine ⟨?_, ?_, ?_⟩
  · rintro ⟨b, args⟩ - blob hblob
    cases b
    · cases probePair_size.symm.trans hblob
      exact hfits
    · cases probePair_sha256.symm.trans hblob
      exact hfits
  · rintro ⟨b, args⟩ - blob hblob
    cases b
    · cases probePair_size.symm.trans hblob
      rfl
    · cases probePair_sha256.symm.trans hblob
      rfl
  · rintro ⟨b, args⟩ - ⟨b', args'⟩ - blob blob' hblob hblob' heq -
    cases b <;> cases b'
    · rfl
    · cases probePair_size.symm.trans hblob
      cases probePair_sha256.symm.trans hblob'
      exact absurd heq hhash
    · cases probePair_sha256.symm.trans hblob
      cases probePair_size.symm.trans hblob'
      exact absurd heq.symm hhash
    · rfl

/-- A file that fits is given the same fields on both ways. -/
theorem Repo.chunking_agrees_iff_demo : Repo.ChunkingAgrees probeWorld probeEnv Repo.init Repo.init
    "notes.bin".toList [7, 8, 9] 2 ⟨64, 1000000000, 10⟩ Set.univ :=
  (Repo.chunking_agrees_iff currentProbes_init currentProbes_init).2
    (probeEnv_faithful _ (by decide) _)

/-- A file that is too long for the sandbox is given other fields as one blob than in chunks. -/
theorem Repo.chunking_differs_of_long {limits : ProbeLimits} (path : Text) {bytes : Bytes}
    (hlong : limits.memoryMb * 1024 * 1024 < bytes.length) (chunkSize : Nat) :
    ¬ Repo.ChunkingAgrees probeWorld probeEnv Repo.init Repo.init path bytes chunkSize limits
      Set.univ := by
  intro hagrees
  have hfaith := hagrees.faithful currentProbes_init currentProbes_init
  exact absurd (hfaith.fits (.size, ∅) (Set.mem_univ _) _ probePair_size) hlong.not_ge

/-- With one mebibyte of memory for the sandbox, a file of a mebibyte and a byte. -/
theorem Repo.chunking_differs_of_mebibyte : ¬ Repo.ChunkingAgrees probeWorld probeEnv Repo.init
    Repo.init "long.bin".toList (List.replicate (1024 * 1024 + 1) 0) (1024 * 1024)
    ⟨1, 1000000000, 10⟩ Set.univ :=
  Repo.chunking_differs_of_long _ (List.length_replicate.symm ▸ by decide) _

end Omp
