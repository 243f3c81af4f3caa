import Omp.Branches
import Omp.Lib.Unwinding

/-!
# The server for many tenants

The server keeps a repository for each tenant.  A request carries a bearer token, the registry
gives the tenant of the token, and the handler is handed the repository of that tenant, which is
opened or made the first time.  Handlers of `/healthz`, `/livez`, `/readyz`, `/startupz`,
`/metrics` and `/watch` are handed no repository.

What is shared by all tenants is the registry, the directory the repositories are in, the counters
and the event bus: a commit spawns a task that publishes an envelope, which every open stream
receives.

A request is one step, as are the task of a commit and what a client reads of a stream.  The
methods of a repository that the handlers call are those of the model where it has them, and
otherwise a parameter: functions of the repository they are called on.

## Main definitions

* `TenantRegistry`, `extractBearer` : who a request is from.
* `Methods`, `TenantRoute`, `TenantRoute.handle` : the handlers that are handed a repository.
* `Server`, `Server.resolve`, `Server.request` : the state of the server, and what a request does.
* `Server.reactor` : the server, step by step.
-/

namespace Omp

open Lib

/-! ### Errors as replies -/

/-- Stable error codes. -/
inductive ErrorCode where
  | notFound | schemaValidationFailed | ingestValidationFailed | probeFailed | conflict | invalidPath
  | unauthorized | quotaExceeded | encryptionModeMismatch | internal
  deriving DecidableEq

namespace ErrorCode

/-- The text of a code. -/
def asStr : ErrorCode → Text
  | notFound => "not_found".toList
  | schemaValidationFailed => "schema_validation_failed".toList
  | ingestValidationFailed => "ingest_validation_failed".toList
  | probeFailed => "probe_failed".toList
  | conflict => "conflict".toList
  | invalidPath => "invalid_path".toList
  | unauthorized => "unauthorized".toList
  | quotaExceeded => "quota_exceeded".toList
  | encryptionModeMismatch => "encryption_mode_mismatch".toList
  | internal => "internal".toList

/-- The status a code is sent with. -/
def httpStatus : ErrorCode → Nat
  | notFound => 404
  | schemaValidationFailed | ingestValidationFailed | probeFailed | invalidPath => 400
  | conflict | encryptionModeMismatch => 409
  | unauthorized => 401
  | quotaExceeded => 429
  | internal => 500

end ErrorCode

/-- The code of an error. -/
def OmpError.code : OmpError → ErrorCode
  | notFound _ => .notFound
  | schemaValidation _ => .schemaValidationFailed
  | ingestValidation _ => .ingestValidationFailed
  | probeFailed .. => .probeFailed
  | conflict _ => .conflict
  | invalidPath _ => .invalidPath
  | unauthorized _ => .unauthorized
  | quotaExceeded _ => .quotaExceeded
  | corrupt _ | internal _ => .internal

/-- What is sent as JSON; `J` is what the methods outside the model yield. -/
inductive Body (J : Type) where
  /-- `{"ok": true}`. -/
  | ok
  /-- The answer of `/livez`. -/
  | alive
  /-- The answer of `/readyz`: whether the directory of the tenants is there. -/
  | checks (tenantsBase : Bool)
  | error (code message : Text)
  | value (v : J)
  /-- A list of objects without certain keys. -/
  | stripped (keys : List Text) (v : J)
  /-- A manifest without certain keys, with how to show it. -/
  | shown (keys : List Text) (manifest render : J)
  /-- What is told of a blob. -/
  | blob (hash : Hash) (size : Nat) (render : J)
  | added (r : AddResult)
  | manifest (m : Manifest)
  | branches (bs : List Repo.BranchInfo)
  | committed (hash : Hash) (reprobed : List ReprobeSummary)

/-- A reply. -/
inductive Response (J : Type) where
  | json (status : Nat) (body : Body J)
  | octets (bytes : Bytes)
  | empty (status : Nat)
  /-- The counters, by operation and status. -/
  | counters (counted : List (Text × Nat))
  /-- A stream of events follows. -/
  | stream
  /-- The handler panicked. -/
  | closed

namespace Response

variable {J : Type}

/-- `ok_json`. -/
def okJson (v : J) : Response J := .json 200 (.value v)

/-- `ok_json(json!({"ok": true}))`. -/
def done : Response J := .json 200 .ok

/-- `to_response`. -/
def toResponse (e : OmpError) : Response J :=
  .json e.code.httpStatus (.error e.code.asStr e.display)

/-- The reply to a request that an encrypted tenant must not make. -/
def modeMismatch (endpoint : Text) : Response J :=
  .json ErrorCode.encryptionModeMismatch.httpStatus (.error ErrorCode.encryptionModeMismatch.asStr
    ("encryption mode mismatch: endpoint ".toList ++ endpoint ++
      " expects plaintext objects; this tenant is encrypted — perform ingest client-side and ".toList
      ++ "upload ciphertext objects directly".toList))

/-- `ok_compact`, unless everything is asked for. -/
def compactUnless (verbose : Bool) (keys : List Text) (v : J) : Response J :=
  if verbose then okJson v else .json 200 (.stripped keys v)

/-- The status of a reply, which a handler that panicked has not. -/
def status : Response J → Option Nat
  | json status _ | empty status => some status
  | octets _ | counters _ | stream => some 200
  | closed => none

/-- Whether a reply is that of `/metrics`. -/
def isCounters : Response J → Bool
  | counters _ => true
  | _ => false

end Response

/-! ### Tenants -/

/-- End-to-end encryption mode for a tenant. -/
inductive EncryptionMode where
  | plaintext
  | encrypted (identityPub : Bytes)

/-- `is_encrypted`. -/
def EncryptionMode.isEncrypted : EncryptionMode → Bool
  | plaintext => false
  | encrypted _ => true

/-- Entry stored for one tenant. -/
structure TenantEntry where
  id : Text
  tokenSha256 : Text
  quotas : Quotas
  encryptionMode : EncryptionMode

/-- The registry, in the order of its file. -/
abbrev TenantRegistry := List TenantEntry

variable (W : World)

/-- `hash_token`. -/
def hashToken (token : Text) : Text := (W.sha256 (utf8 token)).hex

/-- `by_token`. -/
def TenantRegistry.byToken (registry : TenantRegistry) (token : Text) : Option TenantEntry :=
  registry.find? fun e => e.tokenSha256 = hashToken W token

/-- `extract_bearer`, of the header's text if it has one. -/
def extractBearer (authorization : Option Text) : Option Text := do
  let tail ← stripPrefix "Bearer ".toList (← authorization)
  some (trim tail)

/-- The tenant a request is from, if it carries a valid token. -/
def TenantRegistry.callerOf (registry : TenantRegistry) (authorization : Option Text) :
    Option Text := do
  let token ← extractBearer authorization
  let entry ← registry.byToken W token
  some entry.id

/-- What a handler is handed: the tenant, and what its repository was opened with. -/
structure TenantRepo where
  tenant : Text
  quotas : Quotas
  encryptionMode : EncryptionMode

/-! ### Events -/

/-- The payload of `commit.created`. -/
structure CommitCreated where
  branch : Text
  commitHash : Text
  parentHashes : List Text
  pathsTouched : List Text

/-- What is published. -/
structure Envelope where
  version : Nat
  type : Text
  tenant : Text
  occurredAt : Text
  traceId : Text
  idempotencyKey : Text
  payload : CommitCreated

/-- `envelope_for`, at a time. -/
def envelopeFor (type tenant : Text) (traceId idempotencyKey : Option Text)
    (payload : CommitCreated) (now : Text) : Envelope :=
  ⟨1, type, tenant, now, traceId.getD [], idempotencyKey.getD [], payload⟩

/-- What `/watch` sends of an envelope. -/
structure WatchEvent where
  type : Text
  tenant : Text
  occurredAt : Text
  traceId : Text
  deriving DecidableEq

/-- The event of an envelope. -/
def Envelope.event (e : Envelope) : WatchEvent := ⟨e.type, e.tenant, e.occurredAt, e.traceId⟩

/-! ### Handlers -/

/-- The form of an upload, of which the last part of a name counts. -/
structure Form where
  path : Option Text
  file : Option Bytes
  fileType : Option Text
  fields : Fields
  proposedSchema : Option Bytes

/-- The parameters of reading at a path. -/
structure AtQuery where
  at_ : Option Text
  recursive : Bool
  verbose : Bool
  staged : Bool

/-- What there is at a path. -/
inductive ShowResult (J : Type) where
  | manifest (manifest render : J)
  | blob (hash : Hash) (size : Nat) (render : J)
  | tree (entries : J)

/-- A method that reads a repository. -/
abbrev ReadMethod (α : Type) := Env → Repo → Except (Fault OmpError) α

/-- A method that may write to a repository. -/
abbrev WriteMethod (α : Type) := Env → RepoOp α

/-- The methods of a repository that are not modelled, as the handlers call them. -/
structure Methods (J : Type) where
  status : ReadMethod J
  files (at_ start : Option Text) : ReadMethod J
  show_ (path : Text) (at_ : Option Text) : ReadMethod (ShowResult J)
  showStaged (path : Text) : ReadMethod (ShowResult J)
  bytesOf (path : Text) (at_ : Option Text) : ReadMethod Bytes
  bytesOfStaged (path : Text) : ReadMethod Bytes
  ls (path : Text) (at_ : Option Text) (recursive : Bool) : ReadMethod J
  lsStaged : ReadMethod J
  logCommits (path : Option Text) (max : Nat) : ReadMethod J
  diff (from_ to_ : Text) (path : Option Text) : ReadMethod J
  testIngest (path : Text) (bytes : Bytes) (fields : Fields) (proposedSchema : Option Bytes) :
    ReadMethod J
  /-- What is wrong with a predicate, if it does not parse. -/
  badQuery (predicate : Text) : Option Text
  query (at_ start predicate cursor : Option Text) (limit : Nat) : ReadMethod J
  listSchemas (at_ : Option Text) : ReadMethod J
  readChainVerified (limit : Nat) : ReadMethod J
  uploadOpen (declaredSize : Nat) : WriteMethod J
  uploadWrite (id : Text) (offset : Nat) (body : Bytes) : WriteMethod Unit
  uploadCommit (id path : Text) (fields : Option Fields) (fileType : Option Text) : WriteMethod J
  uploadAbort (id : Text) : WriteMethod Unit

/-- The requests whose handlers are handed a repository, as the extractors yield them. -/
inductive TenantRoute where
  | status
  | listFiles (at_ start : Option Text) (verbose : Bool)
  | postFile (form : Form)
  | getFile (path : Text) (q : AtQuery)
  | getBytes (path : Text) (q : AtQuery)
  | patchFields (path : Text) (updates : Fields)
  | deleteFile (path : Text)
  | treeRoot (q : AtQuery)
  | treePath (path : Text) (q : AtQuery)
  | commit (message : Text) (author : Option AuthorOverride)
  | log (path : Option Text) (max : Nat) (verbose : Bool)
  | diff (from_ to_ : Text) (path : Option Text)
  | listBranches
  | createBranch (name : Text) (start : Option Text)
  | checkout (ref_ : Text)
  | query (predicate start at_ cursor : Option Text) (limit : Nat)
  | listSchemas (at_ : Option Text)
  | audit (limit : Nat)
  | testIngest (form : Form)
  | postUpload (declaredSize : Nat)
  | patchUploadChunk (id : Text) (offset : Nat) (body : Bytes)
  | postUploadCommit (id path : Text) (fileType : Option Text) (fields : Option Fields)
  | deleteUpload (id : Text)

/-- The operation a request is counted under. -/
def TenantRoute.op : TenantRoute → Text
  | status => "GET /status".toList
  | listFiles .. => "GET /files".toList
  | postFile _ => "POST /files".toList
  | getFile .. => "GET /files/*path".toList
  | getBytes .. => "GET /bytes/*path".toList
  | patchFields .. => "PATCH /files/*path".toList
  | deleteFile _ => "DELETE /files/*path".toList
  | treeRoot _ => "GET /tree".toList
  | treePath .. => "GET /tree/*path".toList
  | commit .. => "POST /commit".toList
  | log .. => "GET /log".toList
  | diff .. => "GET /diff".toList
  | listBranches => "GET /branches".toList
  | createBranch .. => "POST /branches".toList
  | checkout _ => "POST /checkout".toList
  | query .. => "GET /query".toList
  | listSchemas _ => "GET /schemas".toList
  | audit _ => "GET /audit".toList
  | testIngest _ => "POST /test/ingest".toList
  | postUpload _ => "POST /uploads".toList
  | patchUploadChunk .. => "PATCH /uploads/:id".toList
  | postUploadCommit .. => "POST /uploads/:id/commit".toList
  | deleteUpload _ => "DELETE /uploads/:id".toList

/-- A method of the model, under the write lock. -/
def Repo.under {α : Type} (t : RepoScript α) : RepoOp α := Repo.locked (t.run (Action.op W))

/-- `current_branch`, or nothing. -/
def Repo.currentBranch (r : Repo) : Text :=
  match parseHead W.toPlatform r.readHead with
  | .ok (.branch name) => name
  | _ => []

section Handlers

variable {J : Type} (M : Methods J) (tr : TenantRepo) (env : Env)

/-- Call a method that reads. -/
def reading {α : Type} (x : ReadMethod α) : RepoOp α := Op.inspects (x env)

/-- Go on unless the tenant is encrypted. -/
def requirePlaintextMode (endpoint : Text) (x : RepoOp (Response J)) : RepoOp (Response J) :=
  if tr.encryptionMode.isEncrypted then pure (Response.modeMismatch endpoint) else x

/-- The path and the file of a form. -/
def Form.pathAndFile (form : Form) : RepoOp (Text × Bytes) :=
  match form.path, form.file with
  | none, _ => Op.throw (.invalidPath "missing path".toList)
  | _, none => Op.throw (.invalidPath "missing file".toList)
  | some path, some bytes => pure (path, bytes)

/-- `post_file`. -/
def postFile (form : Form) : RepoOp (Response J) :=
  requirePlaintextMode tr "POST /files".toList do
    let (path, bytes) ← form.pathAndFile
    let res ← Repo.under W (Repo.add W env ⟨path, bytes, some form.fields, form.fileType⟩)
    pure (.json 200 (.added res))

/-- `get_file`. -/
def getFile (path : Text) (q : AtQuery) : RepoOp (Response J) := do
  match ← reading env (if q.staged then M.showStaged path else M.show_ path q.at_) with
  | .manifest manifest render =>
    let keys := if q.verbose then []
      else ["source_hash", "schema_hash", "probe_hashes", "ingester_version"].map String.toList
    pure (.json 200 (.shown keys manifest render))
  | .blob hash size render => pure (.json 200 (.blob hash size render))
  | .tree entries => pure (.compactUnless q.verbose ["hash".toList] entries)

/-- `get_bytes`. -/
def getBytes (path : Text) (q : AtQuery) : RepoOp (Response J) := do
  let bytes ← reading env (if q.staged then M.bytesOfStaged path else M.bytesOf path q.at_)
  pure (.octets bytes)

/-- `tree_path`, of which `tree_root` is the case of the empty path. -/
def treePath (path : Text) (q : AtQuery) : RepoOp (Response J) := do
  let entries ← reading env (if q.staged then M.lsStaged else M.ls path q.at_ q.recursive)
  pure (.compactUnless q.verbose ["hash".toList] entries)

/-- `commit_route`, with what its task is to publish. -/
def commitRoute (now message : Text) (author : Option AuthorOverride) :
    RepoOp (Response J × Option Envelope) := do
  let (h, reprobed) ← Repo.under W (Repo.commit W env message (author.getD ⟨none, none, none⟩))
  let branch ← reading env fun _ r => .ok (r.currentBranch W)
  let payload : CommitCreated := ⟨branch, h.hex, [], []⟩
  pure (.json 200 (.committed h reprobed),
    some (envelopeFor "commit.created".toList tr.tenant none none payload now))

/-- `query_route`. -/
def queryRoute (predicate start at_ cursor : Option Text) (limit : Nat) : RepoOp (Response J) :=
  let predicate := predicate.filter fun p => !p.isEmpty
  match predicate.bind M.badQuery with
  | some message => pure (.json 400 (.error "bad_query".toList message))
  | none => do
    let v ← reading env (M.query at_ start predicate cursor limit)
    pure (.okJson v)

/-- `test_ingest`. -/
def testIngest (form : Form) : RepoOp (Response J) :=
  requirePlaintextMode tr "POST /test/ingest".toList do
    let (path, bytes) ← form.pathAndFile
    let v ← reading env (M.testIngest path bytes form.fields form.proposedSchema)
    pure (.okJson v)

/-- The reply of a handler that publishes nothing. -/
def quietly (x : RepoOp (Response J)) : RepoOp (Response J × Option Envelope) := do
  let reply ← x
  pure (reply, none)

/-- The handlers, each on the repository of the tenant, at a time. -/
def TenantRoute.handle (now : Text) : TenantRoute → RepoOp (Response J × Option Envelope)
  | status => quietly do
    let v ← reading env M.status
    pure (.okJson v)
  | listFiles at_ start verbose => quietly do
    let v ← reading env (M.files at_ start)
    pure (.compactUnless verbose ["manifest_hash".toList, "source_hash".toList] v)
  | postFile form => quietly (Omp.postFile W tr env form)
  | getFile path q => quietly (Omp.getFile M env path q)
  | getBytes path q => quietly (Omp.getBytes M env path q)
  | patchFields path updates => quietly <|
    requirePlaintextMode tr "PATCH /files/*path".toList do
      let m ← Repo.under W (Repo.patchFields W env path updates)
      pure (.json 200 (.manifest m))
  | deleteFile path => quietly do
    Repo.under W (Repo.remove W path)
    pure .done
  | treeRoot q => quietly (Omp.treePath M env [] q)
  | treePath path q => quietly (Omp.treePath M env path q)
  | commit message author => commitRoute W tr env now message author
  | log path max verbose => quietly do
    let v ← reading env (M.logCommits path max)
    pure (.compactUnless verbose ["tree".toList, "parents".toList] v)
  | diff from_ to_ path => quietly do
    let v ← reading env (M.diff from_ to_ path)
    pure (.okJson v)
  | listBranches => quietly do
    let bs ← reading env fun _ r => (r.listBranches W).mapError .err
    pure (.json 200 (.branches bs))
  | createBranch name start => quietly do
    Repo.under W (Repo.branch W name start)
    pure .done
  | checkout ref_ => quietly do
    Repo.under W (Repo.checkout W ref_)
    pure .done
  | query predicate start at_ cursor limit =>
    quietly (queryRoute M env predicate start at_ cursor limit)
  | listSchemas at_ => quietly do
    let v ← reading env (M.listSchemas at_)
    pure (.okJson v)
  | audit limit => quietly do
    let v ← reading env (M.readChainVerified (max 1 (min limit 1000)))
    pure (.okJson v)
  | testIngest form => quietly (Omp.testIngest M tr env form)
  | postUpload declaredSize => quietly <|
    requirePlaintextMode tr "POST /uploads".toList do
      let v ← M.uploadOpen declaredSize env
      pure (.json 201 (.value v))
  | patchUploadChunk id offset body => quietly do
    M.uploadWrite id offset body env
    pure (.empty 204)
  | postUploadCommit id path fileType fields => quietly <|
    requirePlaintextMode tr "POST /uploads/:id/commit".toList do
      let v ← M.uploadCommit id path fields fileType env
      pure (.okJson v)
  | deleteUpload id => quietly do
    M.uploadAbort id env
    pure (.empty 204)

/-- What is replied, what the task of the handler is to publish, and the repository afterwards. -/
def serve (x : RepoOp (Response J × Option Envelope)) (r : Repo) :
    (Response J × Option Envelope) × Repo :=
  match x.run r with
  | (.ok res, r') => (res, r')
  | (.error (.err e), r') => ((.toResponse e, none), r')
  | (.error .panic, r') => ((.closed, none), r')

end Handlers

/-! ### The server -/

/-- A task that is to publish an envelope. -/
structure PublishTask where
  id : Nat
  envelope : Envelope

/-- An open stream, with what it has received and its client has not read. -/
structure WatchStream where
  /-- Who opened it, which the server does not know. -/
  caller : Option Text
  id : Nat
  pending : List Envelope

/-- A request that was counted. -/
structure Counted where
  /-- Who made it, which the server does not know. -/
  caller : Option Text
  op : Text
  status : Nat

/-- The state of the server. -/
structure Server where
  registry : TenantRegistry
  /-- Whether the directory of the tenants is there. -/
  baseExists : Bool
  /-- The repositories, by tenant. -/
  disk : TextMap Repo
  /-- The handles that are open, by tenant, with the quotas they were opened with. -/
  repos : TextMap Quotas
  tasks : List PublishTask
  streams : List WatchStream
  counted : List Counted

/-- A request. -/
inductive Route where
  | healthz | livez | readyz | startupz | metrics | watch
  | tenant (r : TenantRoute)

/-- The operation a request is counted under. -/
def Route.op : Route → Text
  | healthz => "GET /healthz".toList
  | livez => "GET /livez".toList
  | readyz => "GET /readyz".toList
  | startupz => "GET /startupz".toList
  | metrics => "GET /metrics".toList
  | watch => "GET /watch".toList
  | tenant r => r.op

namespace Server

/-- The server as it starts. -/
def start (registry : TenantRegistry) (baseExists : Bool) (disk : TextMap Repo) : Server :=
  ⟨registry, baseExists, disk, ∅, [], [], []⟩

/-- `get_or_open` : the quotas of the handle, and the server with the handle open. -/
def getOrOpen (s : Server) (tenant : Text) (quotas : Quotas) : Quotas × Server :=
  match s.repos[tenant]? with
  | some opened => (opened, s)
  | none =>
    let s := if s.disk.contains tenant then s
      else { s with baseExists := true, disk := s.disk.insert tenant Repo.init }
    (quotas, { s with repos := s.repos.insert tenant quotas })

/-- `resolve`, in the mode for many tenants. -/
def resolve (s : Server) (authorization : Option Text) : Except OmpError (TenantRepo × Server) :=
  match extractBearer authorization with
  | none => .error (.unauthorized "missing or malformed Authorization header".toList)
  | some token => match s.registry.byToken W token with
    | none => .error (.unauthorized "invalid token".toList)
    | some entry =>
      let (quotas, s) := s.getOrOpen entry.id entry.quotas
      .ok (⟨entry.id, quotas, entry.encryptionMode⟩, s)

/-- The handlers, by route.  The tenant of an opened handle has a repository. -/
def respond {J : Type} (M : Methods J) (s : Server) (id : Nat) (authorization : Option Text)
    (env : Env) (now : Text) : Route → Response J × Server
  | .healthz => (.done, s)
  | .livez => (.json 200 .alive, s)
  | .readyz | .startupz => (.json (if s.baseExists then 200 else 503) (.checks s.baseExists), s)
  | .metrics => (.counters (s.counted.map fun c => (c.op, c.status)), s)
  | .watch => (.stream,
      { s with streams := s.streams ++ [⟨s.registry.callerOf W authorization, id, []⟩] })
  | .tenant r => match s.resolve W authorization with
    | .error e => (.toResponse e, s)
    | .ok (tr, s) =>
      let ((reply, envelope), repo) :=
        serve (r.handle W M tr { env with quotas := tr.quotas } now) (s.disk[tr.tenant]?.getD .init)
      (reply, { s with
        disk := s.disk.insert tr.tenant repo
        tasks := s.tasks ++ (envelope.map (PublishTask.mk id)).toList })

/-- A request: the handler under `record_request`. -/
def request {J : Type} (M : Methods J) (s : Server) (id : Nat) (authorization : Option Text)
    (env : Env) (now : Text) (route : Route) : Response J × Server :=
  let caller := s.registry.callerOf W authorization
  let (reply, s) := s.respond W M id authorization env now route
  (reply, { s with counted := s.counted ++ (reply.status.map (Counted.mk caller route.op)).toList })

/-- How many envelopes a stream holds that its client has not read. -/
def capacity : Nat := 1024

/-- An envelope reaches a stream, which lets go of the oldest when it holds too many. -/
def receive (e : Envelope) (x : WatchStream) : WatchStream :=
  let pending := x.pending ++ [e]
  { x with pending := pending.drop (pending.length - capacity) }

/-- Whether a task is the one a request of a tenant spawned. -/
def isTask (tenant : Text) (id : Nat) (t : PublishTask) : Bool :=
  t.envelope.tenant == tenant && t.id == id

/-- Whether a stream is the one a request opened. -/
def isStream (caller : Option Text) (id : Nat) (x : WatchStream) : Bool :=
  x.caller == caller && x.id == id

/-- A task publishes its envelope, to every open stream. -/
def publish (s : Server) (tenant : Text) (id : Nat) : Server :=
  match s.tasks.find? (isTask tenant id) with
  | none => s
  | some t => { s with
      tasks := s.tasks.filter fun t => !isTask tenant id t
      streams := s.streams.map (receive t.envelope) }

/-- The client of a stream reads its next event. -/
def read (s : Server) (caller : Option Text) (id : Nat) : Option WatchEvent × Server :=
  match s.streams.find? (isStream caller id) with
  | none => (none, s)
  | some x => ((x.pending.head?).map Envelope.event,
      { s with streams := s.streams.map fun y =>
          if isStream caller id y then { y with pending := y.pending.tail } else y })

/-- A stream is closed. -/
def close (s : Server) (caller : Option Text) (id : Nat) : Server :=
  { s with streams := s.streams.filter fun x => !isStream caller id x }

/-- A step of the server. -/
inductive Step where
  /-- A request, with what surrounds it and the time of its event. -/
  | request (id : Nat) (authorization : Option Text) (route : Route) (env : Env) (now : Text)
  /-- The task that a request of a tenant spawned publishes its envelope. -/
  | publish (tenant : Text) (id : Nat)
  /-- A client reads on in a stream. -/
  | read (caller : Option Text) (id : Nat)
  /-- A client leaves a stream. -/
  | close (caller : Option Text) (id : Nat)

/-- What a step shows, and to whom. -/
structure Output (J : Type) where
  caller : Option Text
  shown : Response J ⊕ WatchEvent

/-- **The server, step by step.** -/
def reactor {J : Type} (M : Methods J) : Reactor Server Step (Output J) where
  step s
    | .request id authorization route env now =>
      let (reply, s') := s.request W M id authorization env now route
      (s', some ⟨s.registry.callerOf W authorization, .inl reply⟩)
    | .publish tenant id => (s.publish tenant id, none)
    | .read caller id =>
      let (event, s') := s.read caller id
      (s', event.map fun e => ⟨caller, .inr e⟩)
    | .close caller id => (s.close caller id, none)

end Server

end Omp
