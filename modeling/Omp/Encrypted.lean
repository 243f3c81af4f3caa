import Omp.Branches
import Omp.Sealing

/-!
# Encrypted repositories

A tenant with keys has the names in its trees sealed under one of them, the messages of its commits
under another, and each file under a key of its own.  The manifest of a file is sealed as well; it
is stored in an envelope together with the wrapped key of the file.  The header of a commit stays
plain.

What reads HEAD takes the key of the names; without one it is what a repository in plain uses.

## Main definitions

* `EncryptedManifestEnvelope` : the envelope, how it is sealed and how it is opened.
* `Repo.buildManifestWithKey` : ingest with what HEAD and the working tree hold.
* `Repo.addEncrypted`, `Repo.showEncrypted`, `Repo.commitWithKeys` : the operations of a tenant
  with keys.

## Main results

* `Repo.buildManifestWithKey_none`, `Repo.commitWithKeys_none` : without keys, these are the
  operations of a repository in plain.
-/

namespace Omp

open Lib RepoScript

/-- The keys of a tenant that a repository uses. -/
structure TenantKeys where
  /-- Wraps the keys of files. -/
  dataKey : Key
  /-- Seals manifests. -/
  manifestKey : Key
  /-- Seals names in trees. -/
  pathKey : Key
  /-- Seals the messages of commits. -/
  commitKey : Key

/-- What `aead::random_key` and `aead::random_nonce` yield in the course of a call. -/
structure Randomness where
  contentKey : Key
  wrapNonce : { bs : Bytes // bs.length = 12 }
  bodyNonce : { bs : Bytes // bs.length = 12 }

/-! ### Envelopes -/

/-- What is stored as the manifest of an encrypted file. -/
structure EncryptedManifestEnvelope where
  alg : Text
  /-- The key of the file, sealed, in hexadecimal. -/
  wrappedContentKey : Text
  /-- The manifest, sealed, in hexadecimal. -/
  sealedBody : Text

/-- What an encrypted repository takes from crates besides. -/
structure KeyedWorld extends World where
  /-- `toml::from_str` for envelopes, with the text of its error. -/
  rawEnvelope : Text → Except Text EncryptedManifestEnvelope

namespace EncryptedManifestEnvelope

/-- `AAD_MANIFEST`. -/
def aadManifest : Bytes := utf8 "omp-encrypted-manifest".toList

/-- `AAD_CONTENT_KEY_WRAP`. -/
def aadContentKeyWrap : Bytes := utf8 "omp-content-key-wrap".toList

/-- `ALG`. -/
def algTag : Text := "chacha20poly1305".toList

/-- An envelope around a manifest that is written as the given bytes. -/
def enclose (P : Platform) (keys : TenantKeys) (rnd : Randomness) (body : Bytes) :
    EncryptedManifestEnvelope :=
  ⟨algTag,
    hexEncode (aeadSeal P keys.dataKey rnd.wrapNonce aadContentKeyWrap rnd.contentKey.1),
    hexEncode (aeadSeal P keys.manifestKey rnd.bodyNonce aadManifest body)⟩

/-- The canonical text of an envelope. -/
def text (W : World) (e : EncryptedManifestEnvelope) : Except OmpError Text :=
  canonicalize W (W.toml.print (.flat
    [("alg".toList, .str e.alg), ("wrapped_content_key".toList, .str e.wrappedContentKey),
      ("sealed_body".toList, .str e.sealedBody)] []))

variable (K : KeyedWorld)

/-- `EncryptedManifestEnvelope::parse`. -/
def parse (bytes : Bytes) : Except OmpError EncryptedManifestEnvelope :=
  match fromUtf8 bytes with
  | none => .error (.corrupt "envelope is not UTF-8".toList)
  | some s => match K.rawEnvelope s with
    | .error e => .error (.corrupt ("envelope TOML: ".toList ++ e))
    | .ok env =>
      if env.alg ≠ algTag then
        .error (.corrupt ("envelope alg ".toList ++ K.debugStr env.alg ++
          " not supported (want ".toList ++ K.debugStr algTag ++ ")".toList))
      else .ok env

/-- `EncryptedManifestEnvelope::open` : the manifest and the key of the file. -/
def open_ (keys : TenantKeys) (e : EncryptedManifestEnvelope) : Except OmpError (Manifest × Key) := do
  let wrapped ← hexDecodeField K.toPlatform e.wrappedContentKey
  let contentKey ← (aeadOpen K.toPlatform keys.dataKey aadContentKeyWrap wrapped).mapError fun _ =>
    .unauthorized "unable to unwrap content key (wrong key or tampered envelope)".toList
  if h : contentKey.length = 32 then do
    let sealed ← hexDecodeField K.toPlatform e.sealedBody
    let body ← (aeadOpen K.toPlatform keys.manifestKey aadManifest sealed).mapError fun _ =>
      .unauthorized "unable to open manifest body (wrong key or tampered envelope)".toList
    let m ← Manifest.parse K.toWorld body
    .ok (m, ⟨contentKey, h⟩)
  else
    .error (.corrupt ("wrapped content key has wrong length: ".toList ++ decimal contentKey.length))

end EncryptedManifestEnvelope

/-- `EncryptedManifestEnvelope::seal`. -/
def EncryptedManifestEnvelope.seal (W : World) (keys : TenantKeys) (rnd : Randomness)
    (m : Manifest) : Except OmpError Bytes := do
  let body ← m.serialize W
  let canonical ← (enclose W.toPlatform keys rnd body).text W
  .ok (utf8 canonical)

namespace Repo

/-! ### Reading HEAD with a key -/

section Readers

variable (W : World) (env : Env) (key : Option Key)

/-- The content of a blob at a path of a tree, if there is one. -/
def blobAtWithKey (s : Store) (root : Hash) (path : Text) : Except OmpError (Option Bytes) := do
  match ← getAt W.toPlatform s key path root with
  | some ⟨.blob, h⟩ => .ok ((s.get W.toPlatform h).map Object.content)
  | _ => .ok none

/-- The content of a blob at a path of HEAD's tree, or else of a file of the working tree. -/
def headOrWorkFileWithKey (r : Repo) (path : Text) : Except OmpError (Option Bytes) := do
  let committed ← match ← r.headTree W with
    | some root => blobAtWithKey W key r.store root path
    | none => .ok none
  .ok (committed.or (env.workFile path))

/-- `current_repo_config_with_key`. -/
def currentRepoConfigWithKey (r : Repo) : Except OmpError RepoConfig := do
  match ← headOrWorkFileWithKey W env key r "omp.toml".toList with
  | some content => RepoConfig.parse W content
  | none => .ok .default

/-- `schema_bytes_at_head_with_key`. -/
def schemaBytesAtHeadWithKey (r : Repo) (fileType : Text) : Except OmpError (Option Bytes) :=
  headOrWorkFileWithKey W env key r (schemaPath fileType)

/-- The schemas of a tree. -/
def treeSchemasWithKey (s : Store) (root : Hash) : Except (Fault OmpError) (List Schema) := do
  match ← (getAt W.toPlatform s key "schemas".toList root).mapError .err with
  | some ⟨.tree, subtree⟩ => do
    let leaves ← walk W.toPlatform s key subtree
    .ok (leaves.filterMap (schemaOfLeaf W s))
  | _ => .ok []

/-- `load_all_schemas_with_key`. -/
def loadAllSchemasWithKey (r : Repo) : Except (Fault OmpError) (TextMap Schema) := do
  let committed ← match ← (r.headTree W).mapError .err with
    | some root => treeSchemasWithKey W key r.store root
    | none => .ok []
  let out := committed.foldl (fun m s => m.insert s.fileType s) (∅ : TextMap Schema)
  .ok ((workSchemas W env).foldl
    (fun m s => if m.contains s.fileType then m else m.insert s.fileType s) out)

/-- The schema a file is ingested under, with its bytes. -/
def schemaForWithKey (r : Repo) (config : RepoConfig) (fileTypeOverride : Option Text)
    (mime : Text) : Except (Fault OmpError) (Schema × Bytes) := do
  let schemas ← r.loadAllSchemasWithKey W env key
  match detectFileType fileTypeOverride mime schemas with
  | some schema => do
    match ← (r.schemaBytesAtHeadWithKey W env key schema.fileType).mapError .err with
    | some bytes => .ok (schema, bytes)
    | none => .error (.err (.internal "schema detected but blob missing".toList))
  | none => match config.defaultSchemaPolicy with
    | .reject => .error (.err (.ingestValidation ("no schema matches MIME type ".toList ++
        W.debugStr mime ++
        "; set default_schema_policy to 'minimal' or define a schema".toList)))
    | .minimal => do
      let schema ← (Schema.parse W minimalSchema "_minimal".toList).mapError .err
      .ok (schema, minimalSchema)

/-- `build_manifest_with`, where no schema is proposed.  The probes are those of a tree in plain,
whatever the key. -/
def buildManifestWithKey (r : Repo) (path : Text) (bytes : Bytes) (userFields : Fields)
    (fileTypeOverride : Option Text) (chunked : Option ChunkedIngest) :
    Except (Fault OmpError) Manifest := do
  let config ← (r.currentRepoConfigWithKey W env key).mapError .err
  let mime := sniffMime W ((chunked.map ChunkedIngest.sniffPrefix).getD bytes)
  let (schema, schemaBytes) ← r.schemaForWithKey W env key config fileTypeOverride mime
  let probes ← r.currentProbes W
  (schema.validateProbeRefs W (probes.toList.map Prod.fst)).mapError .err
  let input : IngestInput :=
    { bytes := bytes
      userFields := userFields
      path := path
      ingestedAt := env.now
      streamingBuiltins := chunked.map fun c => ⟨c.sha256Hex, c.fileSize⟩
      contentLength := (chunked.map ChunkedIngest.fileSize).getD bytes.length
      overrideSourceHash := chunked.map ChunkedIngest.sourceHash }
  let view : TreeView := ⟨schema, schemaBytes, probes, env.quotas.clampProbe config.probes⟩
  (ingest W env.runProbe input view).mapError .err

theorem currentRepoConfigWithKey_none (r : Repo) :
    r.currentRepoConfigWithKey W env none = r.currentRepoConfig W env := rfl

theorem schemaForWithKey_none (r : Repo) (config : RepoConfig) (fileTypeOverride : Option Text)
    (mime : Text) : r.schemaForWithKey W env none config fileTypeOverride mime =
      r.schemaFor W env config fileTypeOverride mime := rfl

/-- **Without a key, ingest is that of a repository in plain.** -/
theorem buildManifestWithKey_none (r : Repo) (path : Text) (bytes : Bytes) (userFields : Fields)
    (fileTypeOverride : Option Text) (chunked : Option ChunkedIngest) :
    r.buildManifestWithKey W env none path bytes userFields fileTypeOverride chunked =
      r.buildManifestWith W env path bytes userFields fileTypeOverride chunked := rfl

end Readers

/-! ### Sealing a file -/

/-- Seal a file, in pieces if it is long. -/
def sealSource (P : Platform) (contentKey : Key) (plaintext : Bytes) (chunkSize : Nat) :
    StoreOp ChunkedIngest :=
  if chunkSize ≤ plaintext.length then sealChunked P contentKey plaintext chunkSize
  else sealSingleBlob P contentKey plaintext

/-- What is stored is sealed in one of the two layouts. -/
theorem sealSource_eq_seal (P : Platform) (contentKey : Key) (plaintext : Bytes) (chunkSize : Nat) :
    sealSource P contentKey plaintext chunkSize =
      (if chunkSize ≤ plaintext.length then Layout.chunked chunkSize else .single).seal P contentKey
        plaintext := by
  unfold sealSource
  split_ifs
  · rfl
  · rfl

variable (W : World) (env : Env)

/-- Seal the bytes of a file, ingest them, and store the manifest in an envelope and stage it :
the second half of `add_encrypted`, and of `revoke_share`. -/
def stageSealed (keys : TenantKeys) (rnd : Randomness) (req : AddRequest) :
    RepoScript (Hash × Hash) := do
  let config ← check fun r => r.currentRepoConfigWithKey W env (some keys.pathKey)
  let source ← .act (.objects
    (sealSource W.toPlatform rnd.contentKey req.bytes config.chunkSizeBytes))
  let m ← inspect fun r => r.buildManifestWithKey W env (some keys.pathKey) req.path []
    (req.userFields.getD ∅) req.fileTypeOverride (some source)
  let envelopeBytes ← require (EncryptedManifestEnvelope.seal W keys rnd m)
  let manifestHash ← put W .manifest envelopeBytes
  stage req.path manifestHash
  pure (manifestHash, source.sourceHash)

/-- `add_encrypted`. -/
def addEncrypted (keys : TenantKeys) (rnd : Randomness) (req : AddRequest) :
    RepoScript AddResult := do
  require (validatePath W req.path)
  check fun r => checkQuotaForWrite W env.quotas r.store req.bytes.length 2
  require (if isBlobPath req.path then .error (.invalidPath ("path ".toList ++
    W.debugStr req.path ++
    " is a config/schema blob path; encrypted ingest only accepts user files".toList)) else .ok ())
  let (manifestHash, sourceHash) ← stageSealed W env keys rnd req
  pure (.manifest req.path manifestHash sourceHash)

/-- What stands at a path of the tree that is shown; at the empty path, the tree itself. -/
def targetAt (keys : TenantKeys) (s : Store) (path : Text) :
    Option Hash → Except OmpError (Option Entry)
  | none => .ok none
  | some root =>
    if path = [] then .ok (some ⟨.tree, root⟩)
    else getAt W.toPlatform s (some keys.pathKey) path root

/-- `show_encrypted`; `overflowChecks` says how the program is built. -/
def showEncrypted (K : KeyedWorld) (overflowChecks : Bool) (keys : TenantKeys) (r : Repo)
    (path : Text) (at_ : Option Text) : Except (Fault OmpError) (Manifest × Bytes) := do
  let root ← (r.rootTree K.toWorld at_).mapError .err
  match ← (targetAt K.toWorld keys r.store path root).mapError .err with
  | none => .error (.err (.notFound ("path ".toList ++ K.debugStr path)))
  | some e =>
    if e.mode ≠ .manifest then
      .error (.err (.invalidPath
        ("path ".toList ++ K.debugStr path ++ " is not a manifest".toList)))
    else match r.store.get K.toPlatform e.hash with
      | none => .error (.err (.notFound ("manifest ".toList ++ e.hash.hex)))
      | some o => do
        let envelope ← (EncryptedManifestEnvelope.parse K o.content).mapError .err
        let (m, contentKey) ← (envelope.open_ K keys).mapError .err
        let plaintext ← decryptSource K.toWorld overflowChecks (r.view K.toWorld) m.sourceHash
          contentKey
        .ok (m, plaintext)

/-! ### Committing with keys -/

/-- The first part of `commit_with_keys`: the tree of the commit.  The pass over the manifests is
made without keys only. -/
def buildCommitWithKeys (keys : Option TenantKeys) (author : AuthorOverride) :
    RepoScript (Option Hash × Author × List ReprobeSummary) := do
  let idx ← .act .loadIndex
  require (if idx.isEmpty then .error (.conflict "no staged changes".toList) else .ok ())
  .act .lockRefs
  let author ← require (commitAuthor env author)
  let (idx, summaries) ← if keys.isNone then reprobed W env idx else pure (idx, [])
  let root ← check fun r => r.headTree W
  let root ← .act (.objects
    (buildTree W.toPlatform (keys.map TenantKeys.pathKey) root (env.order idx)))
  pure (root, author, summaries)

/-- What a commit does once its tree is built: store it, advance HEAD and empty the index. -/
def publishWithKey (commitKey : Option Key) (root : Option Hash) (author : Author)
    (message : Text) : RepoScript Hash :=
  match root with
  | none => require (.error (.conflict "commit would be empty".toList))
  | some root => do
    let parent ← check fun r => r.resolveHead W
    let commitHash ← put W .commit (Commit.serializeWithCommitKey W.toPlatform commitKey
      ⟨root, parent.toList, author, message⟩)
    match ← check fun r => parseHead W.toPlatform r.readHead with
    | .branch name => .act (.writeRef name commitHash)
    | .detached _ => .act (.writeHead commitHash.hex)
    .act (.saveIndex ∅)
    pure commitHash

/-- `commit_with_keys`. -/
def commitWithKeys (keys : Option TenantKeys) (message : Text) (author : AuthorOverride) :
    RepoScript (Hash × List ReprobeSummary) := do
  let (root, author, summaries) ← buildCommitWithKeys W env keys author
  let commitHash ← publishWithKey W (keys.map TenantKeys.commitKey) root author message
  pure (commitHash, summaries)

/-- `commit_encrypted`. -/
def commitEncrypted (keys : TenantKeys) (message : Text) (author : AuthorOverride) :
    RepoScript Hash := do
  let (h, _) ← commitWithKeys W env (some keys) message author
  pure h

theorem publishWithKey_none (root : Option Hash) (author : Author) (message : Text) :
    publishWithKey W none root author message = publish W root author message := by
  cases root with
  | none => rfl
  | some root =>
    unfold publishWithKey publish
    simp only [Commit.serializeWithCommitKey_none]
    all_goals rfl

/-- **Without keys, a commit is that of a repository in plain.** -/
theorem commitWithKeys_none (message : Text) (author : AuthorOverride) :
    commitWithKeys W env none message author = commit W env message author := by
  unfold commitWithKeys commit
  simp only [Option.map_none, publishWithKey_none]
  rfl

end Repo

end Omp
