import Omp.Config
import Omp.Lib.Memo
import Omp.Schema

/-!
# The ingest engine

Given the bytes of a file, the values its caller supplies and a schema, `ingest` resolves every
field and checks it against its type.  Probes are sandboxed programs; what one yields on given
bytes and arguments is the parameter `runProbe`.  Their outputs are kept in a cache, which a
caller may share between files.

## Main definitions

* `IngestInput`, `TreeView` : what determines an ingest.
* `ProbeOutputCache` : outputs by source, probe and arguments.
* `ingestWithCache`, `ingest` : the engine.
-/

namespace Omp

open Lib

/-! ### Inputs -/

/-- What running a probe yields: its name, its program, the bytes of the file, its arguments and
the limits it runs under. -/
abbrev RunProbe := Text → Bytes → Bytes → Fields → ProbeLimits → Except OmpError FieldValue

/-- Values computed while a file is split, in place of what the probes would yield. -/
structure StreamingBuiltins where
  fileSha256Hex : Text
  fileSize : Nat

/-- What determines an ingest, apart from the tree. -/
structure IngestInput where
  bytes : Bytes
  userFields : Fields
  path : Text
  ingestedAt : Text
  streamingBuiltins : Option StreamingBuiltins
  contentLength : Nat
  overrideSourceHash : Option Hash

/-- A probe as it is loaded. -/
structure ProbeBlob where
  wasm : Bytes
  framedHash : Hash
  maxInputBytes : Option Nat

/-- What the engine takes from the tree. -/
structure TreeView where
  schema : Schema
  schemaBlob : Bytes
  probes : TextMap ProbeBlob
  limits : ProbeLimits

/-- A source, a probe and the canonical form of its arguments. -/
abbrev CacheKey := Hash × Hash × Text

/-- Outputs of probes. -/
abbrev ProbeOutputCache := Memo CacheKey FieldValue

/-- What changes while fields are resolved. -/
structure IngestState where
  probeHashes : TextMap Hash
  cache : ProbeOutputCache

/-- `INGESTER_VERSION`. -/
def ingesterVersion : Text := "0.1.0".toList

variable (W : World) (runProbe : RunProbe)

namespace IngestInput

/-- The address of the source, as the caller sets it or as that of a blob. -/
def sourceHash (input : IngestInput) : Hash :=
  input.overrideSourceHash.getD (hashOf W.toPlatform .blob input.bytes)

/-- The arguments a probe runs with: it is told the path unless the schema sets it. -/
def effectiveArgs (input : IngestInput) (args : Fields) : Fields :=
  if args.contains "path".toList then args
  else args.insert "path".toList (.string input.path)

/-- The key of a probe's output in the cache. -/
def cacheKey (input : IngestInput) (blob : ProbeBlob) (args : Fields) : CacheKey :=
  (input.sourceHash W, blob.framedHash, W.argsJson (input.effectiveArgs args))

/-- What a probe yields on the file. -/
def runOn (input : IngestInput) (view : TreeView) (probe : Text) (blob : ProbeBlob)
    (args : Fields) : Except OmpError FieldValue :=
  runProbe probe blob.wasm input.bytes (input.effectiveArgs args) view.limits

/-- Whether a probe does not run: the file is too long for it, or split. -/
def skipsProbe (input : IngestInput) (view : TreeView) (blob : ProbeBlob) : Bool :=
  decide (blob.maxInputBytes.getD (view.limits.memoryMb * 1024 * 1024) < input.contentLength) ||
    input.streamingBuiltins.isSome

/-- What stands for the output of a probe that does not run. -/
def builtinValue (input : IngestInput) (probe : Text) : FieldValue :=
  match input.streamingBuiltins with
  | none => .null
  | some b =>
    if probe = "file.size".toList then .int (Int64.ofNat b.fileSize)
    else if probe = "file.sha256".toList then .string b.fileSha256Hex
    else .null

end IngestInput

/-! ### Resolving fields -/

/-- The probe case of `resolve_source`. -/
def resolveProbe (name probe : Text) (args : Fields) (input : IngestInput) (view : TreeView)
    (st : IngestState) : Except OmpError FieldValue × IngestState :=
  match view.probes[probe]? with
  | none => (.error (.schemaValidation ("field ".toList ++ W.debugStr name ++
      ": probe ".toList ++ W.debugStr probe ++ " not available in tree".toList)), st)
  | some blob =>
    if input.skipsProbe view blob then (.ok (input.builtinValue probe), st)
    else match st.cache.fetch (input.cacheKey W blob args)
        (input.runOn runProbe view probe blob args) with
      | (.error e, cache) => (.error e, { st with cache := cache })
      | (.ok v, cache) => (.ok v, ⟨st.probeHashes.insert probe blob.framedHash, cache⟩)

/-- `resolve_source`. -/
def resolveSource (name : Text) (source : Source) (input : IngestInput) (view : TreeView)
    (resolved : Fields) (st : IngestState) : Except OmpError FieldValue × IngestState :=
  match source with
  | .constant value => (.ok value, st)
  | .probe probe args => resolveProbe W runProbe name probe args input view st
  | .userProvided => (.ok (input.userFields[name]?.getD .null), st)
  | .field from_ transform => (.ok (transform.apply W (resolved[from_]?.getD .null)), st)

/-- `resolve_field` : the source, and the fallback if it gives nothing. -/
def resolveField (input : IngestInput) (view : TreeView) (resolved : Fields) :
    Field → IngestState → Except OmpError FieldValue × IngestState
  | .mk name source _ _ _ none, st => resolveSource W runProbe name source input view resolved st
  | .mk name source _ _ _ (some fallback), st =>
    match resolveSource W runProbe name source input view resolved st with
    | (.error e, st) => (.error e, st)
    | (.ok v, st) =>
      if v.isNull then resolveField input view resolved fallback st else (.ok v, st)

/-- `normalize_value` : integers become floats where the type says so. -/
def normalizeValue (v : FieldValue) (ty : FieldType) : FieldValue :=
  let promote : FieldValue → FieldValue
    | .int i => .float (F64.ofInt i.toInt)
    | v => v
  match ty, v with
  | .float, v => promote v
  | .listFloat, .list items => .list (items.map promote)
  | _, v => v

/-- The checks on the value of a field. -/
def checkValue (f : Field) (v : FieldValue) : Except OmpError Unit :=
  if f.required && v.isNull then
    .error (.ingestValidation
      ("required field ".toList ++ W.debugStr f.name ++ " resolved to null".toList))
  else if !f.type.accepts v then
    .error (.ingestValidation ("field ".toList ++ W.debugStr f.name ++ ": value ".toList ++
      v.debug W ++ " does not match declared type ".toList ++ f.type.debug))
  else .ok ()

/-- Resolve and check the fields in order. -/
def resolveFields (input : IngestInput) (view : TreeView) :
    List Field → Fields → IngestState → Except OmpError Fields × IngestState
  | [], resolved, st => (.ok resolved, st)
  | f :: fs, resolved, st =>
    match resolveField W runProbe input view resolved f st with
    | (.error e, st) => (.error e, st)
    | (.ok v, st) => match checkValue W f v with
      | .error e => (.error e, st)
      | .ok () => resolveFields input view fs (resolved.insert f.name (normalizeValue v f.type)) st

/-- The values the caller supplies under names that are no fields: an error, or taken as they
are where the schema allows it. -/
def addExtras (schema : Schema) (userFields resolved : Fields) : Except OmpError Fields :=
  if schema.allowExtraFields then
    .ok (userFields.toList.foldl
      (fun m p => if m.contains p.1 then m else m.insert p.1 p.2) resolved)
  else match userFields.toList.find? fun p => !schema.fields.any fun f => f.name == p.1 with
    | some p => .error (.ingestValidation ("field ".toList ++ W.debugStr p.1 ++
        " is not declared in schema (and allow_extra_fields is false)".toList))
    | none => .ok resolved

/-- `schema_hash`. -/
def schemaHash (schemaBytes : Bytes) : Hash := hashOf W.toPlatform .blob schemaBytes

/-- `ingest_with_cache`. -/
def ingestWithCache (input : IngestInput) (view : TreeView) (cache : ProbeOutputCache) :
    Except OmpError Manifest × ProbeOutputCache :=
  match resolveFields W runProbe input view view.schema.fields ∅ ⟨∅, cache⟩ with
  | (.error e, st) => (.error e, st.cache)
  | (.ok resolved, st) => match addExtras W view.schema input.userFields resolved with
    | .error e => (.error e, st.cache)
    | .ok fields => (.ok
        { sourceHash := input.sourceHash W
          fileType := view.schema.fileType
          schemaHash := schemaHash W view.schemaBlob
          ingestedAt := input.ingestedAt
          ingesterVersion := ingesterVersion
          probeHashes := st.probeHashes
          fields := fields }, st.cache)

/-- `ingest`, which starts from an empty cache. -/
def ingest (input : IngestInput) (view : TreeView) : Except OmpError Manifest :=
  (ingestWithCache W runProbe input view []).1

variable {W runProbe} in
/-- **The source of a manifest is that of the input.** -/
theorem sourceHash_of_ingest {input : IngestInput} {view : TreeView} {m : Manifest}
    (h : ingest W runProbe input view = .ok m) : m.sourceHash = input.sourceHash W := by
  unfold ingest ingestWithCache at h
  split at h
  · cases h
  · split at h
    · cases h
    · cases h
      rfl

/-- `detect_file_type` : the schema asked for, or else the first in name order with a pattern
that matches. -/
def detectFileType (overrideType : Option Text) (mime : Text) (schemas : TextMap Schema) :
    Option Schema :=
  match overrideType with
  | some t => schemas[t]?
  | none => (schemas.toList.map Prod.snd).find? fun s =>
      s.mimePatterns.any fun pat => mimeMatches pat mime

end Omp
