import Omp.Repo

/-!
# Rebuilding manifests after a schema change

When a commit stages a schema that differs from HEAD's, every manifest of its type in HEAD is
rebuilt against it in the same commit.  A file that cannot be rebuilt is skipped, with the reason
cut to 200 bytes.

To save probe runs, the probe cache of the pass is primed with values of the old manifest, for the
fields whose source has not changed.

## Main definitions

* `schemasEqual` : whether a staged schema changes anything.
* `primeCache`, `carriedFields`, `reprobeManifest`, `reprobeOne` : rebuilding one manifest.
* `reprobeFile`, `recordOutcome`, `runAutoReprobe` : the pass.
-/

namespace Omp

open Lib

/-! ### Comparing schemas -/

/-- The derived `PartialEq` of sources. -/
def Source.eq : Source → Source → Bool
  | .constant v, .constant w => v.eq w
  | .probe p args, .probe q args' =>
    p == q && FieldValue.eqEntries args.toList args'.toList
  | .userProvided, .userProvided => true
  | .field f t, .field g u => f == g && t == u
  | _, _ => false

/-- The derived `PartialEq` of fields. -/
def Field.eq : Field → Field → Bool
  | .mk n s t r d none, .mk n' s' t' r' d' none =>
    n == n' && s.eq s' && t == t' && r == r' && d == d'
  | .mk n s t r d (some f), .mk n' s' t' r' d' (some f') =>
    n == n' && s.eq s' && t == t' && r == r' && d == d' && f.eq f'
  | _, _ => false

/-- The same for the fallbacks of fields. -/
def fallbackEq : Option Field → Option Field → Bool
  | none, none => true
  | some f, some g => f.eq g
  | _, _ => false

/-- `schemas_equal` : equal in all that affects manifests; patterns and the descriptions of
fields do not. -/
def schemasEqual (a b : Schema) : Bool :=
  a.fileType == b.fileType && a.allowExtraFields == b.allowExtraFields &&
    a.fields.length == b.fields.length &&
    (a.fields.zip b.fields).all fun p =>
      p.1.name == p.2.name && p.1.required == p.2.required && p.1.type == p.2.type &&
        p.1.source.eq p.2.source && fallbackEq p.1.fallback p.2.fallback

/-! ### One manifest -/

/-- The field of a schema with a name. -/
def Schema.field? (s : Schema) (name : Text) : Option Field := s.fields.find? fun f => f.name = name

/-- A staged schema that differs from HEAD's. -/
structure NewSchema where
  fileType : Text
  hash : Hash
  schema : Schema
  bytes : Bytes
  /-- The schema of the type that `load_all_schemas` finds. -/
  old : Option Schema

/-- What is fixed during a pass. -/
structure PassContext where
  runProbe : RunProbe
  probes : TextMap ProbeBlob
  limits : ProbeLimits
  now : Text

variable (W : World) (ctx : PassContext) (n : NewSchema)

/-- Whether a name is that of a field the caller provides. -/
def Schema.isUserProvided (s : Schema) (name : Text) : Bool :=
  match (s.field? name).map Field.source with
  | some .userProvided => true
  | _ => false

/-- The values of the old manifest that are carried over as the caller's. -/
def carriedFields (m : Manifest) : Fields :=
  m.fields.filter fun name _ => n.old.any fun s => s.isUserProvided name

/-- The value of the old manifest that is reused for a field: its source is the same as before,
and a probe has the same program as before. -/
def reusedValue (m : Manifest) (f : Field) : Option FieldValue := do
  let old ← n.old
  let oldField ← old.field? f.name
  if !oldField.source.eq f.source then none
  let value ← m.fields[f.name]?
  match f.source with
  | .probe probe _ => do
    let loaded ← ctx.probes[probe]?
    let oldHash ← m.probeHashes[probe]?
    if oldHash ≠ loaded.framedHash then none else some value
  | _ => some value

/-- What a rebuilt manifest is ingested from. -/
def reprobeInput (path : Text) (m : Manifest) (source : Bytes) : IngestInput where
  bytes := source
  userFields := carriedFields n m
  path := path
  ingestedAt := ctx.now
  streamingBuiltins := none
  contentLength := source.length
  overrideSourceHash := some m.sourceHash

/-- The view a manifest is rebuilt under. -/
def reprobeView : TreeView := ⟨n.schema, n.bytes, ctx.probes, ctx.limits⟩

/-- The entry of the cache that the reused value of a field becomes. -/
def primedEntry (path : Text) (m : Manifest) (source : Bytes) (f : Field) :
    Option (CacheKey × FieldValue) := do
  let value ← reusedValue ctx n m f
  match f.source with
  | .probe probe args => do
    let loaded ← ctx.probes[probe]?
    some ((reprobeInput ctx n path m source).cacheKey W loaded args, value)
  | _ => none

/-- The cache with the reused values. -/
def primeCache (path : Text) (m : Manifest) (source : Bytes) (cache : ProbeOutputCache) :
    ProbeOutputCache :=
  n.schema.fields.foldl (fun cache f => match primedEntry W ctx n path m source f with
    | some e => e :: cache
    | none => cache) cache

/-- The manifest `reprobe_one` builds, with the cache it leaves. -/
def reprobeManifest (s : Store) (path : Text) (m : Manifest) (cache : ProbeOutputCache) :
    Except OmpError Manifest × ProbeOutputCache :=
  match s.get W.toPlatform m.sourceHash with
  | none => (.error (.notFound ("source blob ".toList ++ m.sourceHash.hex ++ " for ".toList ++
      path ++ " missing".toList)), cache)
  | some o =>
    if o.type ≠ .blob then
      (.error (.ingestValidation ("reprobe of chunked source ".toList ++
        W.debugStr o.type.asStr ++ " not yet supported (path ".toList ++ path ++ ")".toList)),
        cache)
    else ingestWithCache W ctx.runProbe (reprobeInput ctx n path m o.content)
      (reprobeView ctx n) (primeCache W ctx n path m o.content cache)

/-- Store a manifest that was built, if it can be written. -/
def storeManifest (m : Manifest) : StoreOp (Except OmpError Hash) :=
  match m.serialize W with
  | .error e => pure (.error e)
  | .ok bytes => do
    let h ← Store.put W.toPlatform .manifest bytes
    pure (.ok h)

/-- `reprobe_one`, whose error is a value. -/
def reprobeOne (path : Text) (m : Manifest) (cache : ProbeOutputCache) :
    StoreOp (Except OmpError Hash × ProbeOutputCache) := do
  let (r, cache) ← Op.reads fun s => .ok (reprobeManifest W ctx n s path m cache)
  match r with
  | .error e => pure (.error e, cache)
  | .ok m' => do
    let h ← storeManifest W m'
    pure (h, cache)

/-! ### The pass -/

/-- What comes of one file. -/
inductive FileOutcome where
  /-- It is of another type, or at the new schema. -/
  | unrelated
  /-- Its manifest could not be read. -/
  | unreadable (reason : Text)
  /-- It was rebuilt. -/
  | rebuilt (manifest : Hash)
  /-- It could not be rebuilt. -/
  | failed (e : OmpError)
  deriving DecidableEq

/-- The body of the loop over HEAD's manifests, up to what is recorded. -/
def reprobeFile (cache : ProbeOutputCache) (file : Text × Hash) :
    StoreOp (FileOutcome × ProbeOutputCache) := do
  match ← Op.reads fun s => .ok (s.get W.toPlatform file.2) with
  | none =>
    pure (.unreadable ("manifest blob ".toList ++ file.2.hex ++ " missing".toList), cache)
  | some o => match Manifest.parse W o.content with
    | .error e => pure (.unreadable ("manifest parse: ".toList ++ e.display), cache)
    | .ok m =>
      if m.fileType ≠ n.fileType ∨ m.schemaHash = n.hash then pure (.unrelated, cache)
      else do
        let (r, cache) ← reprobeOne W ctx n file.1 m cache
        match r with
        | .ok h => pure (.rebuilt h, cache)
        | .error e => pure (.failed e, cache)

/-- A file that was skipped. -/
structure ReprobeSkip where
  path : Text
  reason : Text
  deriving DecidableEq

/-- What came of one schema. -/
structure ReprobeSummary where
  fileType : Text
  count : Nat
  skipped : List ReprobeSkip
  deriving DecidableEq

/-- The first `k` bytes of a text, unless they end inside a character. -/
def takeBytes : Nat → Text → Option Text
  | 0, _ => some []
  | _ + 1, [] => none
  | k + 1, c :: cs =>
    if c.utf8Size ≤ k + 1 then (takeBytes (k + 1 - c.utf8Size) cs).map (c :: ·) else none

/-- The reason that is recorded for an error: slicing a text inside a character panics. -/
def truncateReason (reason : Text) : Option Text :=
  if 200 < (utf8 reason).length then (takeBytes 200 reason).map fun t => t ++ ['…']
  else some reason

/-- What a pass has gathered for one schema. -/
structure PassState where
  index : Index
  cache : ProbeOutputCache
  count : Nat
  skipped : List ReprobeSkip

/-- Record the outcome of a file; `none` is a panic. -/
def recordOutcome (path : Text) (st : PassState) : FileOutcome → Option PassState
  | .unrelated => some st
  | .unreadable reason => some { st with skipped := st.skipped ++ [⟨path, reason⟩] }
  | .rebuilt h => some { st with
      index := st.index.insert path ⟨path, .upsert, some h⟩
      count := st.count + 1 }
  | .failed e => (truncateReason e.display).map fun reason =>
      { st with skipped := st.skipped ++ [⟨path, reason⟩] }

/-- The body of the loop over HEAD's manifests. -/
def reprobeStep (st : PassState) (file : Text × Hash) : StoreOp PassState := do
  let (o, cache) ← reprobeFile W ctx n st.cache file
  match recordOutcome file.1 { st with cache := cache } o with
  | some st => pure st
  | none => Op.panic

/-- What a pass carries from schema to schema. -/
structure PassTotals where
  index : Index
  cache : ProbeOutputCache
  summaries : List ReprobeSummary

/-- The body of the loop over the staged schemas. -/
def reprobeSchema (heads : TextMap Schema) (files : List (Text × Hash)) (tot : PassTotals)
    (staged : Text × Hash) : StoreOp PassTotals := do
  match ← Op.reads fun s => .ok (s.get W.toPlatform staged.2) with
  | none => Op.throw (.internal ("staged schema blob ".toList ++ staged.2.hex ++
      " missing from store".toList))
  | some o => do
    let schema ← Op.lift (Schema.parse W o.content staged.1)
    if heads[staged.1]?.any (schemasEqual schema) then pure tot
    else do
      let n : NewSchema := ⟨staged.1, staged.2, schema, o.content, heads[staged.1]?⟩
      let st ← files.foldlM (reprobeStep W ctx n) ⟨tot.index, tot.cache, 0, []⟩
      pure ⟨st.index, st.cache, tot.summaries ++ [⟨staged.1, st.count, st.skipped⟩]⟩

namespace Repo

/-- The schemas a list of staged changes upserts, with their types. -/
def stagedSchemas (changes : List StagedChange) : List (Text × Hash) :=
  changes.filterMap fun c => do
    if c.kind ≠ .upsert then none
    let stem ← schemaFileTypeFromPath c.path
    let hash ← c.hash
    some (stem, hash)

/-- The manifests of HEAD's tree. -/
def headManifests (r : Repo) : Except (Fault OmpError) (List (Text × Hash)) := do
  match ← (r.headTree W).mapError .err with
  | none => .ok []
  | some root => do
    let leaves ← walk W.toPlatform r.store none root
    .ok (leaves.filterMap fun l => if l.2.mode = .manifest then some (l.1, l.2.hash) else none)

/-- What a pass reads before its loops: HEAD's schemas and manifests, and its context. -/
def passInputs (env : Env) (r : Repo) :
    Except (Fault OmpError) (TextMap Schema × PassContext × List (Text × Hash)) := do
  let heads ← r.loadAllSchemas W env
  let probes ← r.currentProbes W
  let files ← r.headManifests W
  let config ← (r.currentRepoConfig W env).mapError .err
  .ok (heads, ⟨env.runProbe, probes, env.quotas.clampProbe config.probes, env.now⟩, files)

variable {W} in
theorem headManifests_of_passInputs {env : Env} {r : Repo} {heads : TextMap Schema}
    {ctx : PassContext} {files : List (Text × Hash)}
    (h : r.passInputs W env = .ok (heads, ctx, files)) : r.headManifests W = .ok files := by
  obtain ⟨_, -, h⟩ := except_bind_eq_ok.1 h
  obtain ⟨_, -, h⟩ := except_bind_eq_ok.1 h
  obtain ⟨files', hfiles, h⟩ := except_bind_eq_ok.1 h
  obtain ⟨_, -, h⟩ := except_bind_eq_ok.1 h
  cases h
  exact hfiles

/-- `run_auto_reprobe` : the index with the rebuilt manifests, and a summary for each schema. -/
def runAutoReprobe (env : Env) (idx : Index) : RepoOp (Index × List ReprobeSummary) :=
  let staged := stagedSchemas (env.order idx)
  if staged = [] then pure (idx, [])
  else do
    let (heads, ctx, files) ← Op.inspects (passInputs W env)
    let tot ← onStore (staged.foldlM (reprobeSchema W ctx heads files) ⟨idx, [], []⟩)
    pure (tot.index, tot.summaries)

end Repo

end Omp
