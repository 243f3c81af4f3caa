import Mathlib.Logic.Function.Basic
import Omp.Lib.Lts
import Omp.Store

/-!
# The marketplace

The marketplace keeps two catalogs, of probes and of schemas, each in memory and in a file, and the
blobs that their entries refer to.  A publisher adds an entry for a version, edits its description
and its readme, or yanks it.

A publish request looks up the version under the lock of the catalog, lets go of the lock while it
builds the program and stores the blobs, and takes the lock again to write the entry: other requests
come in between.  An edit and a yank hold the lock from beginning to end.  What the build yields,
what the clock says and which writes to the disk fail is part of the event that happens.

The handlers of the two catalogs differ in their forms, in how an entry is made and in their
messages; a `Kind` collects what differs.

## Main definitions

* `CatalogEntry`, `SchemaCatalogEntry`, `Catalog`, `Catalog.upsert` : the catalogs.
* `requireAuthedPublisher`, `isSafeIdent`, `entryId`, `schemaEntryId` : the helpers.
* `Kind`, `probeKind`, `schemaKind` : what the handlers of a catalog are made of.
* `Shelf.next`, `Market.next` : what an event does.
-/

namespace Omp

open Lib

/-! ### Catalogs -/

/-- A published probe. -/
structure CatalogEntry where
  id : Text
  publisherSub : Text
  namespace_ : Text
  name : Text
  version : Text
  description : Option Text
  wasmHash : Text
  manifestHash : Text
  readmeHash : Option Text
  sourceHash : Option Text
  publishedAt : Nat
  yankedAt : Option Nat
  downloads : Nat
  deriving DecidableEq

/-- A published schema. -/
structure SchemaCatalogEntry where
  id : Text
  publisherSub : Text
  fileType : Text
  version : Text
  description : Option Text
  schemaHash : Text
  readmeHash : Option Text
  publishedAt : Nat
  yankedAt : Option Nat
  deriving DecidableEq

/-- A catalog: the entries in memory, and those in its file. -/
structure Catalog (E : Type) where
  state : TextMap E
  file : TextMap E

/-- `upsert` : the entry is set in memory, and the file is written unless that fails. -/
def Catalog.upsert {E : Type} (c : Catalog E) (id : Text) (entry : E) (flush : Option Text) :
    Except Text Unit × Catalog E :=
  let state := c.state.insert id entry
  match flush with
  | none => (.ok (), ⟨state, state⟩)
  | some e => (.error e, ⟨state, c.file⟩)

/-- The stored blobs, by the hexadecimal form of their hashes. -/
abbrev Blobs := TextMap Bytes

/-- `BlobStore::put`, given the errors of the disk. -/
def Blobs.put (faults : Text → Option Text) (blobs : Blobs) (hash : Text) (bytes : Bytes) :
    Except Text Blobs :=
  if blobs.contains hash then .ok blobs
  else match faults hash with
    | some e => .error e
    | none => .ok (blobs.insert hash bytes)

/-- Several blobs in order, up to the first that fails. -/
def Blobs.putAll (faults : Text → Option Text) :
    List (Text × Bytes) → Blobs → Except Text Unit × Blobs
  | [], blobs => (.ok (), blobs)
  | (hash, bytes) :: rest, blobs => match blobs.put faults hash bytes with
    | .error e => (.error e, blobs)
    | .ok blobs => putAll faults rest blobs

/-! ### Requests and answers -/

/-- An error that a handler answers with; a failed build has a log. -/
structure ErrorResponse where
  status : Nat
  code : Text
  message : Text
  log : Option Text
  deriving DecidableEq

/-- `error_response`. -/
def errorResponse (status : Nat) (code message : String) : ErrorResponse :=
  ⟨status, code.toList, message.toList, none⟩

/-- A context that names who a request is from. -/
structure TenantContext where
  tenantId : Text
  sub : Option Text

/-- What the marketplace takes from crates and from its configuration. -/
structure MarketWorld extends Platform where
  /-- Whether there is a key to verify contexts with. -/
  verified : Bool
  /-- `TenantContext::verify` or `decode_unverified`, at a time. -/
  readContext : Nat → Text → Except Text TenantContext
  /-- `toml::from_str` for the fields of a schema that are checked: its type and its patterns. -/
  minimalSchema : Text → Except Text (Text × List Text)

/-- The header with the context: it may be missing, and it may not be text. -/
abbrev ContextHeader := Option (Option Text)

/-- A part of a multipart form, as text and as bytes where it can be read. -/
structure Part where
  name : Option Text
  text : Option Text
  bytes : Option Bytes

/-- What a publisher changes of an entry. -/
structure EntryPatch where
  description : Option Text
  readme : Option Text

/-- What a handler answers with when all went well. -/
inductive Reply (E : Type) where
  | published (entry : E) (log : Option Text)
  | patched (entry : E)
  | yanked (already : Bool)
  deriving DecidableEq

/-- An answer. -/
abbrev Answer (E : Type) := Except ErrorResponse (Reply E)

variable (W : MarketWorld)

/-- `require_authed_publisher`. -/
def requireAuthedPublisher (now : Nat) (header : ContextHeader) :
    Except ErrorResponse (Text × Text) :=
  match header with
  | none => .error (errorResponse 401 "missing_context" "X-OMP-Tenant-Context required")
  | some none => .error (errorResponse 401 "bad_context" "X-OMP-Tenant-Context not utf8")
  | some (some raw) => match W.readContext now raw with
    | .error e => .error (
        if W.verified then ⟨401, "bad_context".toList, "verify: ".toList ++ e, none⟩
        else ⟨400, "bad_context".toList, "decode: ".toList ++ e, none⟩)
    | .ok ctx =>
      if ctx.sub.getD [] = [] then .error (errorResponse 403 "no_sub"
        "publishing requires a WorkOS-authenticated session (no `sub` in context)")
      else .ok (ctx.tenantId, ctx.sub.getD [])

/-! ### Helpers -/

/-- `sha256_hex`. -/
def sha256Hex (bytes : Bytes) : Text := (W.sha256 bytes).hex

/-- `is_safe_ident`. -/
def isSafeIdent (s : Text) : Bool :=
  let bytes := utf8 s
  !bytes.isEmpty && decide (bytes.length ≤ 64) && bytes.all fun b =>
    (0x61 ≤ b && b ≤ 0x7A) || (0x41 ≤ b && b ≤ 0x5A) || (0x30 ≤ b && b ≤ 0x39) ||
      b == 0x2E || b == 0x5F || b == 0x2D

/-- What the id of a probe is the hash of. -/
def entryIdBytes (publisherSub namespace_ name version : Text) : Bytes :=
  utf8 publisherSub ++ 0 :: (utf8 namespace_ ++ 0 :: (utf8 name ++ 0 :: utf8 version))

/-- `entry_id`. -/
def entryId (publisherSub namespace_ name version : Text) : Text :=
  sha256Hex W (entryIdBytes publisherSub namespace_ name version)

/-- What the id of a schema is the hash of. -/
def schemaEntryIdBytes (publisherSub fileType version : Text) : Bytes :=
  utf8 publisherSub ++ 0 :: (utf8 "schema".toList ++ 0 :: (utf8 fileType ++ 0 :: utf8 version))

/-- `schema_entry_id`. -/
def schemaEntryId (publisherSub fileType version : Text) : Text :=
  sha256Hex W (schemaEntryIdBytes publisherSub fileType version)

/-- A part that has something in it. -/
def nonEmpty {α : Type} (x : Option (List α)) : Option (List α) :=
  x.filter fun l => !l.isEmpty

/-! ### What the handlers of a catalog are made of -/

/-- What a build or what stands for one leads to: the blobs, the entry at a time, and the log. -/
structure Prepared (E : Type) where
  blobs : List (Text × Bytes)
  entry : Nat → E
  log : Option Text

/-- What the handlers of a catalog are made of: entries `E`, drafts `D` of entries and outcomes `B`
of a build. -/
structure Kind (E D B : Type) where
  id : E → Text
  publisherSub : E → Text
  yankedAt : E → Option Nat
  /-- The checks on a publish request of a publisher. -/
  readForm : Text → List Part → Except ErrorResponse D
  draftId : D → Text
  /-- What is prepared once the build is done. -/
  prepare : D → B → Except ErrorResponse (Prepared E)
  /-- An entry with a new description, and with the hash of a new readme. -/
  edit : E → Option Text → Option Text → E
  description : E → Option Text
  readmeHash : E → Option Text
  /-- An entry that is yanked at a time. -/
  yank : Nat → E → E
  versionExists : ErrorResponse
  notFound : ErrorResponse
  notEditor : ErrorResponse
  notYanker : ErrorResponse

/-! ### Probes -/

/-- The form of a publish request for a probe. -/
structure ProbeForm where
  namespace_ : Text
  name : Text
  version : Text
  description : Option Text
  manifest : Option Bytes
  readme : Option Bytes
  source : Option Bytes
  gotWasmField : Bool

namespace ProbeForm

/-- The form before a part is read. -/
def empty : ProbeForm := ⟨[], [], [], none, none, none, none, false⟩

/-- One round of the loop over the parts. -/
def absorb (form : ProbeForm) (part : Part) : ProbeForm :=
  match part.name with
  | none => form
  | some n =>
    if n = "namespace".toList then { form with namespace_ := part.text.getD [] }
    else if n = "name".toList then { form with name := part.text.getD [] }
    else if n = "version".toList then { form with version := part.text.getD [] }
    else if n = "description".toList then { form with description := nonEmpty part.text }
    else if n = "manifest".toList then { form with manifest := part.bytes }
    else if n = "readme".toList then { form with readme := part.bytes }
    else if n = "source".toList then { form with source := part.bytes }
    else if n = "wasm".toList then { form with gotWasmField := true }
    else form

end ProbeForm

/-- A publish request for a probe that passed the checks on its form. -/
structure ProbeDraft where
  publisherSub : Text
  namespace_ : Text
  name : Text
  version : Text
  description : Option Text
  source : Bytes
  manifest : Bytes
  readme : Option Bytes
  deriving DecidableEq

/-- The checks of `publish_probe` on the form. -/
def ProbeForm.check (form : ProbeForm) (publisherSub : Text) : Except ErrorResponse ProbeDraft :=
  if form.gotWasmField then .error (errorResponse 400 "wasm_upload_forbidden"
    "publishers must upload `source` (Rust lib.rs); OMP builds the wasm server-side")
  else if form.namespace_ = [] ∨ form.name = [] ∨ form.version = [] then
    .error (errorResponse 400 "missing_fields" "namespace, name, version are required")
  else if !(isSafeIdent form.namespace_ && isSafeIdent form.name && isSafeIdent form.version) then
    .error (errorResponse 400 "bad_ident"
      "namespace/name/version must be [a-zA-Z0-9._-]+ and at most 64 chars each")
  else match nonEmpty form.source, nonEmpty form.manifest with
    | none, _ =>
      .error (errorResponse 400 "missing_source" "missing `source` field (Rust lib.rs)")
    | some _, none => .error (errorResponse 400 "missing_manifest" "missing `manifest` field")
    | some source, some manifest =>
      if [0x00, 0x61, 0x73, 0x6D] <+: source then .error (errorResponse 400 "wasm_upload_forbidden"
        "source field looks like a wasm module; upload Rust lib.rs source instead")
      else if (fromUtf8 source).isNone then .error (errorResponse 400 "bad_source"
        "source must be UTF-8 (single Rust lib.rs file)")
      else if (fromUtf8 manifest).isNone then
        .error (errorResponse 400 "bad_manifest" "manifest must be UTF-8 TOML")
      else .ok ⟨publisherSub, form.namespace_, form.name, form.version, form.description, source,
        manifest, form.readme⟩

/-- What `omp_builder::build_inline` yields: the program and the log, or the reason and the log. -/
abbrev BuildOutcome := Except (Text × Text) (Bytes × Text)

/-- The part of `publish_probe` after the build, up to where the entry is written. -/
def ProbeDraft.prepare (d : ProbeDraft) : BuildOutcome → Except ErrorResponse (Prepared CatalogEntry)
  | .error (reason, log) => .error ⟨422, "build_failed".toList, reason, some log⟩
  | .ok (wasm, log) => .ok
    { blobs := [(sha256Hex W wasm, wasm), (sha256Hex W d.manifest, d.manifest)] ++
        (d.readme.map fun b => (sha256Hex W b, b)).toList ++ [(sha256Hex W d.source, d.source)]
      entry := fun now =>
        { id := entryId W d.publisherSub d.namespace_ d.name d.version
          publisherSub := d.publisherSub
          namespace_ := d.namespace_
          name := d.name
          version := d.version
          description := d.description
          wasmHash := sha256Hex W wasm
          manifestHash := sha256Hex W d.manifest
          readmeHash := d.readme.map (sha256Hex W)
          sourceHash := some (sha256Hex W d.source)
          publishedAt := now
          yankedAt := none
          downloads := 0 }
      log := some log }

/-- The handlers of probes. -/
def probeKind : Kind CatalogEntry ProbeDraft BuildOutcome where
  id := CatalogEntry.id
  publisherSub := CatalogEntry.publisherSub
  yankedAt := CatalogEntry.yankedAt
  readForm sub parts := (parts.foldl ProbeForm.absorb .empty).check sub
  draftId d := entryId W d.publisherSub d.namespace_ d.name d.version
  prepare d := d.prepare W
  edit e description readmeHash := { e with description := description, readmeHash := readmeHash }
  description := CatalogEntry.description
  readmeHash := CatalogEntry.readmeHash
  yank now e := { e with yankedAt := some now }
  versionExists := errorResponse 409 "version_exists"
    "this publisher already published this namespace/name/version"
  notFound := errorResponse 404 "not_found" "no such probe id"
  notEditor := errorResponse 403 "not_publisher"
    "only the original publisher can edit this probe"
  notYanker := errorResponse 403 "not_publisher"
    "only the original publisher can yank this probe"

/-! ### Schemas -/

/-- The form of a publish request for a schema. -/
structure SchemaForm where
  version : Text
  description : Option Text
  schema : Option Bytes
  readme : Option Bytes

namespace SchemaForm

/-- The form before a part is read. -/
def empty : SchemaForm := ⟨[], none, none, none⟩

/-- One round of the loop over the parts. -/
def absorb (form : SchemaForm) (part : Part) : SchemaForm :=
  match part.name with
  | none => form
  | some n =>
    if n = "version".toList then { form with version := part.text.getD [] }
    else if n = "description".toList then { form with description := nonEmpty part.text }
    else if n = "schema".toList then { form with schema := part.bytes }
    else if n = "readme".toList then { form with readme := part.bytes }
    else form

end SchemaForm

/-- A publish request for a schema that passed the checks on its form. -/
structure SchemaDraft where
  publisherSub : Text
  fileType : Text
  version : Text
  description : Option Text
  schema : Bytes
  readme : Option Bytes
  deriving DecidableEq

/-- `validate_schema_toml`. -/
def validateSchemaToml (bytes : Bytes) : Except Text Text :=
  match fromUtf8 bytes with
  | none => .error "schema must be UTF-8".toList
  | some s => match W.minimalSchema s with
    | .error e => .error ("schema TOML: ".toList ++ e)
    | .ok (fileType, mimePatterns) =>
      if fileType = [] then .error "schema: file_type must be non-empty".toList
      else if !isSafeIdent fileType then
        .error "schema: file_type must be [a-zA-Z0-9._-]+ and at most 64 chars".toList
      else if mimePatterns = [] then .error "schema: mime_patterns must be non-empty".toList
      else .ok fileType

/-- The checks of `publish_schema` on the form. -/
def SchemaForm.check (form : SchemaForm) (publisherSub : Text) : Except ErrorResponse SchemaDraft :=
  if form.version = [] then .error (errorResponse 400 "missing_fields" "version is required")
  else if !isSafeIdent form.version then .error (errorResponse 400 "bad_ident"
    "version must be [a-zA-Z0-9._-]+ and at most 64 chars")
  else match nonEmpty form.schema with
    | none =>
      .error (errorResponse 400 "missing_schema" "missing `schema` field (schema.toml body)")
    | some schema => match validateSchemaToml W schema with
      | .error e => .error ⟨400, "bad_schema".toList, e, none⟩
      | .ok fileType =>
        .ok ⟨publisherSub, fileType, form.version, form.description, schema, form.readme⟩

/-- The part of `publish_schema` after the look-up, up to where the entry is written. -/
def SchemaDraft.prepare (d : SchemaDraft) : Prepared SchemaCatalogEntry where
  blobs := (sha256Hex W d.schema, d.schema) :: (d.readme.map fun b => (sha256Hex W b, b)).toList
  entry now :=
    { id := schemaEntryId W d.publisherSub d.fileType d.version
      publisherSub := d.publisherSub
      fileType := d.fileType
      version := d.version
      description := d.description
      schemaHash := sha256Hex W d.schema
      readmeHash := d.readme.map (sha256Hex W)
      publishedAt := now
      yankedAt := none }
  log := none

/-- The handlers of schemas, which build nothing. -/
def schemaKind : Kind SchemaCatalogEntry SchemaDraft Unit where
  id := SchemaCatalogEntry.id
  publisherSub := SchemaCatalogEntry.publisherSub
  yankedAt := SchemaCatalogEntry.yankedAt
  readForm sub parts := (parts.foldl SchemaForm.absorb .empty).check W sub
  draftId d := schemaEntryId W d.publisherSub d.fileType d.version
  prepare d _ := .ok (d.prepare W)
  edit e description readmeHash := { e with description := description, readmeHash := readmeHash }
  description := SchemaCatalogEntry.description
  readmeHash := SchemaCatalogEntry.readmeHash
  yank now e := { e with yankedAt := some now }
  versionExists := errorResponse 409 "version_exists"
    "this publisher already published this file_type/version"
  notFound := errorResponse 404 "not_found" "no such schema id"
  notEditor := errorResponse 403 "not_publisher"
    "only the original publisher can edit this schema"
  notYanker := errorResponse 403 "not_publisher"
    "only the original publisher can yank this schema"

/-! ### The handlers -/

namespace EntryPatch

/-- The description after an edit. -/
def newDescription (p : EntryPatch) (old : Option Text) : Option Text :=
  match p.description with
  | none => old
  | some d => if d = [] then none else some d

/-- The readme hash after an edit. -/
def newReadmeHash (p : EntryPatch) (old : Option Text) : Option Text :=
  match p.readme with
  | none => old
  | some r => if r = [] then none else some (sha256Hex W (utf8 r))

/-- The blob an edit stores. -/
def blobs (p : EntryPatch) : List (Text × Bytes) :=
  ((nonEmpty p.readme).map fun r => (sha256Hex W (utf8 r), utf8 r)).toList

end EntryPatch

namespace Kind

variable {E D B : Type} (K : Kind E D B)

/-- `publish_probe` and `publish_schema` up to the look-up of the version. -/
def lookUp (c : Catalog E) (now : Nat) (header : ContextHeader) (parts : List Part) :
    Except ErrorResponse (Text × D) := do
  let (_, sub) ← requireAuthedPublisher W now header
  let draft ← K.readForm sub parts
  match c.state[K.draftId draft]? with
  | some existing =>
    if (K.yankedAt existing).isNone then .error K.versionExists else .ok (sub, draft)
  | none => .ok (sub, draft)

/-- The entry under an id, if the request is from its publisher. -/
def owned (refused : ErrorResponse) (c : Catalog E) (now : Nat) (header : ContextHeader)
    (id : Text) : Except ErrorResponse E := do
  let (_, sub) ← requireAuthedPublisher W now header
  match c.state[id]? with
  | none => .error K.notFound
  | some entry => if K.publisherSub entry ≠ sub then .error refused else .ok entry

/-- Write an entry, and answer. -/
def writeBack (c : Catalog E) (entry : E) (flush : Option Text) (reply : Reply E) :
    Answer E × Catalog E :=
  match c.upsert (K.id entry) entry flush with
  | (.ok (), c) => (.ok reply, c)
  | (.error e, c) => (.error ⟨500, "catalog_io".toList, e, none⟩, c)

/-- `patch_probe` and `patch_schema`. -/
def patch (c : Catalog E) (blobs : Blobs) (now : Nat) (header : ContextHeader) (id : Text)
    (p : EntryPatch) (faults : Text → Option Text) (flush : Option Text) :
    Answer E × Catalog E × Blobs :=
  match K.owned W K.notEditor c now header id with
  | .error e => (.error e, c, blobs)
  | .ok entry => match Blobs.putAll faults (p.blobs W) blobs with
    | (.error e, blobs) => (.error ⟨500, "blob_put".toList, e, none⟩, c, blobs)
    | (.ok (), blobs) =>
      let updated := K.edit entry (p.newDescription (K.description entry))
        (p.newReadmeHash W (K.readmeHash entry))
      let (answer, c) := K.writeBack c updated flush (.patched updated)
      (answer, c, blobs)

/-- `yank_probe` and `yank_schema`. -/
def yankEntry (c : Catalog E) (now : Nat) (header : ContextHeader) (id : Text)
    (flush : Option Text) : Answer E × Catalog E :=
  match K.owned W K.notYanker c now header id with
  | .error e => (.error e, c)
  | .ok entry =>
    if (K.yankedAt entry).isSome then (.ok (.yanked true), c)
    else K.writeBack c (K.yank now entry) flush (.yanked false)

end Kind

/-! ### What happens -/

/-- Where a publish request stands: it is not known, its version was looked up, its entry is ready
to be written, it is answered, or the process it ran in has ended. -/
inductive Progress (E D : Type) where
  | unknown
  | checked (sub : Text) (draft : D)
  | ready (sub : Text) (entry : E) (log : Option Text)
  | answered (answer : Answer E)
  | lost
  deriving DecidableEq

/-- A catalog, and the publish requests for it. -/
structure Shelf (E D : Type) where
  catalog : Catalog E
  requests : Nat → Progress E D

/-- What happens to a catalog. -/
inductive ShelfEvent (B : Type) where
  /-- A publish request arrives, and its version is looked up. -/
  | publish (n now : Nat) (header : ContextHeader) (parts : List Part)
  /-- Its build is done, and its blobs are stored. -/
  | build (n now : Nat) (outcome : B) (faults : Text → Option Text)
  /-- Its entry is written. -/
  | write (n : Nat) (flush : Option Text)
  /-- An entry is edited. -/
  | patch (now : Nat) (header : ContextHeader) (id : Text) (p : EntryPatch)
      (faults : Text → Option Text) (flush : Option Text)
  /-- An entry is yanked. -/
  | yank (now : Nat) (header : ContextHeader) (id : Text) (flush : Option Text)

namespace Shelf

variable {E D B : Type} (K : Kind E D B)

/-- A catalog without entries. -/
def empty : Shelf E D := ⟨⟨∅, ∅⟩, fun _ => .unknown⟩

/-- A publish request stands somewhere else. -/
def move (s : Shelf E D) (n : Nat) (p : Progress E D) : Shelf E D :=
  { s with requests := Function.update s.requests n p }

/-- A publish request is answered. -/
def answer (s : Shelf E D) (n : Nat) (a : Answer E) : Option (Answer E) × Shelf E D :=
  (some a, s.move n (.answered a))

/-- What an event does to a catalog and to the blobs, and the answer it gives, unless the event
cannot happen. -/
def next (s : Shelf E D) (blobs : Blobs) :
    ShelfEvent B → Option ((Option (Answer E) × Shelf E D) × Blobs)
  | .publish n now header parts => match s.requests n with
    | .unknown => match K.lookUp W s.catalog now header parts with
      | .error e => some (s.answer n (.error e), blobs)
      | .ok (sub, draft) => some ((none, s.move n (.checked sub draft)), blobs)
    | _ => none
  | .build n now outcome faults => match s.requests n with
    | .checked sub draft => match K.prepare draft outcome with
      | .error e => some (s.answer n (.error e), blobs)
      | .ok prepared => match Blobs.putAll faults prepared.blobs blobs with
        | (.error e, blobs) => some (s.answer n (.error ⟨500, "blob_put".toList, e, none⟩), blobs)
        | (.ok (), blobs) =>
          some ((none, s.move n (.ready sub (prepared.entry now) prepared.log)), blobs)
    | _ => none
  | .write n flush => match s.requests n with
    | .ready _ entry log =>
      let (a, catalog) := K.writeBack s.catalog entry flush (.published entry log)
      some (answer { s with catalog := catalog } n a, blobs)
    | _ => none
  | .patch now header id p faults flush =>
    let (a, catalog, blobs) := K.patch W s.catalog blobs now header id p faults flush
    some ((some a, { s with catalog := catalog }), blobs)
  | .yank now header id flush =>
    let (a, catalog) := K.yankEntry W s.catalog now header id flush
    some ((some a, { s with catalog := catalog }), blobs)

/-- `open` : the entries are read from the file, and the requests that were not answered are
lost. -/
def restart (s : Shelf E D) : Shelf E D where
  catalog := ⟨s.catalog.file, s.catalog.file⟩
  requests n := match s.requests n with
    | .unknown => .unknown
    | .answered a => .answered a
    | _ => .lost

end Shelf

/-- The marketplace. -/
structure Market where
  probes : Shelf CatalogEntry ProbeDraft
  schemas : Shelf SchemaCatalogEntry SchemaDraft
  blobs : Blobs

/-- What happens to the marketplace. -/
inductive MarketEvent where
  | probe (e : ShelfEvent BuildOutcome)
  | schema (e : ShelfEvent Unit)
  /-- The process ends, and another opens the files. -/
  | restart

namespace Market

/-- A marketplace on an empty directory. -/
def empty : Market := ⟨.empty, .empty, ∅⟩

/-- What an event does to the marketplace, unless it cannot happen. -/
def next (m : Market) : MarketEvent → Option Market
  | .probe e => (m.probes.next W (probeKind W) m.blobs e).map fun r =>
      ⟨r.1.2, m.schemas, r.2⟩
  | .schema e => (m.schemas.next W (schemaKind W) m.blobs e).map fun r =>
      ⟨m.probes, r.1.2, r.2⟩
  | .restart => some ⟨m.probes.restart, m.schemas.restart, m.blobs⟩

/-- The transitions the events are. -/
def lts : Lts Market MarketEvent := .ofNext (next W)

end Market

end Omp
