import Omp.Commit
import Omp.Engine
import Omp.Staging
import Omp.Walk

/-!
# Repositories

The state of a repository is its object store, its references, `HEAD`, the staging index and the
open uploads.  An operation never takes an object out of the store, so repositories are
preordered by their stores.  What an operation takes from outside the repository, the clock, the
working tree, the sandbox and the order a hash map is iterated in, is its `Env`.

The readers here are those of a repository that is not encrypted, which look names up without a
key.

## Main definitions

* `Repo`, `RepoOp`, `Env` : the state, the operations and their surroundings.
* `headTree`, `resolveRef` : what `HEAD` and expressions stand for.
* `currentRepoConfig`, `loadAllSchemas`, `currentProbes` : what ingest takes from `HEAD`.
-/

namespace Omp

open Lib

/-! ### State -/

/-- A resumable upload: the size declared for it and the chunks written, by offset. -/
structure UploadSession where
  declaredSize : Nat
  chunks : List (Nat × Bytes)

/-- The state of a repository. -/
structure Repo where
  /-- The objects. -/
  store : Store
  /-- The reference files, by path. -/
  refs : TextMap Hash
  /-- The content of the `HEAD` file. -/
  head : Text
  /-- The staging index. -/
  index : Index
  /-- The open uploads. -/
  uploads : TextMap UploadSession
  /-- Whether a thread panicked while it held the write lock. -/
  poisoned : Bool

/-- Repositories grow with their stores. -/
instance : Preorder Repo := Preorder.lift Repo.store

/-- An operation on a repository. -/
abbrev RepoOp (α : Type) := Op Repo OmpError α

/-- What surrounds an operation. -/
structure Env where
  /-- The clock. -/
  now : Text
  /-- The sandbox. -/
  runProbe : RunProbe
  /-- Whether `OMP_DEFER_REPROBE` is set. -/
  deferReprobe : Bool
  /-- The order in which the staged changes are iterated. -/
  order : Index → List StagedChange
  /-- Each is iterated once. -/
  order_perm : ∀ idx, (order idx).Perm (idx.toList.map Prod.snd)
  /-- The files of the working tree. -/
  workFile : Text → Option Bytes
  /-- The directories below `schemas` in the working tree. -/
  schemaDirs : List Text
  /-- The author's name and email in `.omp/local.toml`. -/
  localAuthor : Except OmpError (Text × Text)
  /-- The quotas the repository was opened with. -/
  quotas : Quotas

namespace Repo

/-- `Repo::init` : a repository without commits.  The starter files it drops are in the working
tree. -/
def init : Repo := ⟨⟨[]⟩, ∅, "ref: refs/heads/main".toList, ∅, ∅, false⟩

theorem le_iff {r r' : Repo} : r ≤ r' ↔ r.store ≤ r'.store := Iff.rfl

/-- An operation on the store. -/
def onStore {α : Type} (x : StoreOp α) : RepoOp α where
  run r := ((x.run r.store).1, { r with store := (x.run r.store).2 })
  grows r := x.grows r.store

/-- Change what is not the store. -/
def modify (f : Repo → Repo) (hf : ∀ r, (f r).store = r.store) : RepoOp Unit where
  run r := (.ok (), f r)
  grows r := by rw [le_iff, hf]

/-- Run an operation under the write lock, which a panic poisons. -/
def locked {α : Type} (x : RepoOp α) : RepoOp α where
  run r :=
    if r.poisoned then (.error .panic, r)
    else match x.run r with
      | (.error .panic, r') => (.error .panic, { r' with poisoned := true })
      | res => res
  grows r := by
    have h := x.grows r
    split
    · exact le_refl r
    · split
      · next heq => rwa [heq] at h
      · exact h

/-- `save_index`. -/
def saveIndex (idx : Index) : RepoOp Unit := modify (fun r => { r with index := idx }) fun _ => rfl

@[simp] theorem run_onStore {α : Type} (x : StoreOp α) (r : Repo) :
    (onStore x).run r = ((x.run r.store).1, { r with store := (x.run r.store).2 }) := rfl

@[simp] theorem run_saveIndex (idx : Index) (r : Repo) :
    (saveIndex idx).run r = (.ok (), { r with index := idx }) := rfl

theorem onStore_eq_ok {α : Type} {x : StoreOp α} {r r' : Repo} {a : α} :
    (onStore x).run r = (.ok a, r') ↔
      ∃ s', x.run r.store = (.ok a, s') ∧ r' = { r with store := s' } := by
  rw [run_onStore, Prod.mk.injEq]
  constructor
  · rintro ⟨h₁, rfl⟩
    exact ⟨_, Prod.ext h₁ rfl, rfl⟩
  · rintro ⟨s', h, rfl⟩
    rw [h]
    exact ⟨rfl, rfl⟩

/-- **An operation under the lock succeeds exactly when the lock is sound and it succeeds.** -/
theorem locked_eq_ok {α : Type} {x : RepoOp α} {r r' : Repo} {a : α} :
    (locked x).run r = (.ok a, r') ↔ r.poisoned = false ∧ x.run r = (.ok a, r') := by
  rw [locked]
  cases hp : r.poisoned with
  | true => simp [hp]
  | false =>
    simp only [hp, Bool.false_eq_true, if_false, true_and]
    rcases x.run r with ⟨(_ | _) | _, _⟩ <;> simp

end Repo

variable (W : World)

/-! ### References -/

/-- The file of a reference, relative to `.omp`; empty components and dots do not count. -/
def refPath (name : Text) : Except OmpError Text :=
  if "..".toList <:+: name ∨ name.head? = some '/' ∨ name = [] then
    .error (.invalidPath ("ref name: ".toList ++ W.debugStr name))
  else .ok (joinWith '/' ((name.splitOn '/').filter fun c => c ≠ [] ∧ c ≠ ".".toList))

namespace Repo

/-- `read_ref`. -/
def readRef (r : Repo) (name : Text) : Except OmpError (Option Hash) := do
  let path ← refPath W name
  .ok r.refs[path]?

/-- `write_ref`. -/
def writeRef (name : Text) (commit : Hash) : RepoOp Unit := do
  let path ← Op.lift (refPath W name)
  modify (fun r => { r with refs := r.refs.insert path commit }) fun _ => rfl

/-- `write_head`. -/
def writeHead (value : Text) : RepoOp Unit :=
  modify (fun r => { r with head := value }) fun _ => rfl

/-- `read_head`. -/
def readHead (r : Repo) : Text := trim r.head

/-- `resolve_head`, which is also `head_commit`. -/
def resolveHead (r : Repo) : Except OmpError (Option Hash) := do
  match ← parseHead W.toPlatform r.readHead with
  | .detached h => .ok (some h)
  | .branch name => r.readRef W name

/-- The commit stored at an address. -/
def getCommit (s : Store) (h : Hash) : Except OmpError Bytes :=
  match s.get W.toPlatform h with
  | none => .error (.notFound ("commit ".toList ++ h.hex))
  | some o =>
    if o.type = .commit then .ok o.content
    else .error (.corrupt ("expected commit at ".toList ++ h.hex))

variable {W} in
theorem exists_of_getCommit {s : Store} {h : Hash} {content : Bytes}
    (hget : getCommit W s h = .ok content) :
    ∃ o, s.get W.toPlatform h = some o ∧ o.type = .commit ∧ o.content = content := by
  unfold getCommit at hget
  split at hget
  · cases hget
  · next o ho =>
    split_ifs at hget with htype
    cases hget
    exact ⟨o, ho, htype, rfl⟩

/-- `nth_ancestor`, along first parents. -/
def nthAncestor (s : Store) : Hash → Nat → Except OmpError Hash
  | cur, 0 => .ok cur
  | cur, n + 1 => do
    let content ← getCommit W s cur
    let commit ← Commit.parse W.toPlatform content
    match commit.parents with
    | [] => .error (.notFound "no further ancestors".toList)
    | parent :: _ => nthAncestor s parent n

/-- `resolve_ref`. -/
def resolveRef (r : Repo) (expr : Text) : Except OmpError Hash := do
  let (base, back) := splitAncestor expr
  let start ←
    if base = "HEAD".toList then do
      match ← r.resolveHead W with
      | some h => .ok h
      | none => .error (.notFound "HEAD has no commits".toList)
    else if "refs/".toList <+: base then do
      match ← r.readRef W base with
      | some h => .ok h
      | none => .error (.notFound ("ref ".toList ++ base))
    else match Hash.parse W.toPlatform base with
      | .ok h => .ok h
      | .error _ => do
        match ← r.readRef W ("refs/heads/".toList ++ base) with
        | some h => .ok h
        | none => .error (.notFound ("branch ".toList ++ base))
  nthAncestor W r.store start back

/-- `commit_tree` : the tree of a commit, read from its header. -/
def commitTree (s : Store) (commit : Hash) : Except OmpError Hash := do
  let content ← getCommit W s commit
  treeHeader W.toPlatform commit content

/-- `head_tree`. -/
def headTree (r : Repo) : Except OmpError (Option Hash) := do
  match ← r.resolveHead W with
  | some h => do
    let t ← commitTree W r.store h
    .ok (some t)
  | none => .ok none

/-- `root_tree`. -/
def rootTree (r : Repo) (at_ : Option Text) : Except OmpError (Option Hash) :=
  match at_ with
  | some expr => do
    let commit ← r.resolveRef W expr
    let t ← commitTree W r.store commit
    .ok (some t)
  | none => r.headTree W

/-! ### What ingest takes from HEAD -/

/-- The content of a blob at a path of a tree, if there is one. -/
def blobAt (s : Store) (root : Hash) (path : Text) : Except OmpError (Option Bytes) := do
  match ← getAt W.toPlatform s none path root with
  | some ⟨.blob, h⟩ => .ok ((s.get W.toPlatform h).map Object.content)
  | _ => .ok none

/-- The content of a blob at a path of HEAD's tree, or else of a file of the working tree. -/
def headOrWorkFile (env : Env) (r : Repo) (path : Text) : Except OmpError (Option Bytes) := do
  let committed ← match ← r.headTree W with
    | some root => blobAt W r.store root path
    | none => .ok none
  .ok (committed.or (env.workFile path))

/-- `current_repo_config`. -/
def currentRepoConfig (env : Env) (r : Repo) : Except OmpError RepoConfig := do
  match ← headOrWorkFile W env r "omp.toml".toList with
  | some content => RepoConfig.parse W content
  | none => .ok .default

variable {W} in
theorem chunkSizeBytes_pos {env : Env} {r : Repo} {config : RepoConfig}
    (h : r.currentRepoConfig W env = .ok config) : 0 < config.chunkSizeBytes := by
  obtain ⟨content, -, h⟩ := except_bind_eq_ok.1 h
  cases content with
  | none =>
    cases h
    decide
  | some content => exact RepoConfig.chunkSizeBytes_pos h

/-- The path of a schema. -/
def schemaPath (fileType : Text) : Text :=
  "schemas/".toList ++ fileType ++ "/schema.toml".toList

/-- `schema_bytes_at_head`. -/
def schemaBytesAtHead (env : Env) (r : Repo) (fileType : Text) : Except OmpError (Option Bytes) :=
  headOrWorkFile W env r (schemaPath fileType)

/-- `schema_file_type_from_tree_name`. -/
def schemaFileTypeFromTreeName (name : Text) : Option Text := do
  let stem ← stripSuffix "/schema.toml".toList name
  if stem = [] ∨ '/' ∈ stem then none else some stem

/-- `schema_file_type_from_path`. -/
def schemaFileTypeFromPath (path : Text) : Option Text := do
  let rest ← stripPrefix "schemas/".toList path
  schemaFileTypeFromTreeName rest

/-- The schema in a leaf of the `schemas` directory of a tree; leaves that hold none, and texts
that do not parse, are passed over. -/
def schemaOfLeaf (s : Store) (leaf : Text × Entry) : Option Schema := do
  if leaf.2.mode ≠ .blob then none
  let stem ← schemaFileTypeFromTreeName leaf.1
  let o ← s.get W.toPlatform leaf.2.hash
  (Schema.parse W o.content stem).toOption

/-- The schemas of a tree. -/
def treeSchemas (s : Store) (root : Hash) : Except (Fault OmpError) (List Schema) := do
  match ← (getAt W.toPlatform s none "schemas".toList root).mapError .err with
  | some ⟨.tree, subtree⟩ => do
    let leaves ← walk W.toPlatform s none subtree
    .ok (leaves.filterMap (schemaOfLeaf W s))
  | _ => .ok []

/-- The schemas of the working tree. -/
def workSchemas (env : Env) : List Schema :=
  env.schemaDirs.filterMap fun stem => do
    let bytes ← env.workFile (schemaPath stem)
    (Schema.parse W bytes stem).toOption

/-- `load_all_schemas` : those of HEAD's tree, and where there is none of a type, those of the
working tree. -/
def loadAllSchemas (env : Env) (r : Repo) : Except (Fault OmpError) (TextMap Schema) := do
  let committed ← match ← (r.headTree W).mapError .err with
    | some root => treeSchemas W r.store root
    | none => .ok []
  let out := committed.foldl (fun m s => m.insert s.fileType s) (∅ : TextMap Schema)
  .ok ((workSchemas W env).foldl
    (fun m s => if m.contains s.fileType then m else m.insert s.fileType s) out)

/-- The probes built into the program. -/
def starterProbes : Except OmpError (TextMap ProbeBlob) :=
  W.starterProbes.foldlM (fun out p => do
    let maxInputBytes ← parseMaxInputBytes W p.manifestToml
    .ok (out.insert p.name ⟨p.wasm, hashOf W.toPlatform .blob p.wasm, maxInputBytes⟩)) ∅

/-- The directory of a probe in a tree, `<namespace>/<name>`, from the path of its program. -/
def probeDir (leaf : Text × Entry) : Option Text := do
  if leaf.2.mode ≠ .blob then none
  let rest ← stripPrefix "probes/".toList leaf.1
  let dir ← stripSuffix "/probe.wasm".toList rest
  if dir.count '/' = 1 then some dir else none

/-- The name a probe goes by. -/
def qualifiedName (dir : Text) : Text := dir.map fun c => if c = '/' then '.' else c

/-- The manifest of a probe of a tree. -/
def probeManifestAt (s : Store) (root : Hash) (dir : Text) : Except OmpError (Option Hash) := do
  match ← getAt W.toPlatform s none ("probes/".toList ++ dir ++ "/probe.toml".toList) root with
  | some ⟨.blob, h⟩ => .ok (some h)
  | _ => .ok none

/-- The body of the loop of `current_probes`. -/
def addTreeProbe (s : Store) (root : Hash) (out : TextMap ProbeBlob) (leaf : Text × Entry) :
    Except OmpError (TextMap ProbeBlob) :=
  match probeDir leaf with
  | none => .ok out
  | some dir => do
    match ← probeManifestAt W s root dir with
    | none => .ok out
    | some manifestHash =>
      if (out[qualifiedName dir]?).map ProbeBlob.framedHash = some leaf.2.hash then .ok out
      else match s.get W.toPlatform leaf.2.hash, s.get W.toPlatform manifestHash with
        | none, _ => .error (.corrupt ("probe blob ".toList ++ leaf.2.hash.hex ++
            " listed in tree but missing from store".toList))
        | _, none => .error (.corrupt ("probe.toml blob ".toList ++ manifestHash.hex ++
            " listed in tree but missing from store".toList))
        | some wasm, some manifest => do
          let maxInputBytes ← parseMaxInputBytes W manifest.content
          .ok (out.insert (qualifiedName dir) ⟨wasm.content, leaf.2.hash, maxInputBytes⟩)

/-- The leaves of HEAD's tree, none where there is no commit or the tree is encrypted. -/
def headLeaves (r : Repo) : Except (Fault OmpError) (Option (Hash × List (Text × Entry))) := do
  match ← (r.headTree W).mapError .err with
  | none => .ok none
  | some root => match walk W.toPlatform r.store none root with
    | .ok leaves => .ok (some (root, leaves))
    | .error (.err (.unauthorized _)) => .ok none
    | .error e => .error e

/-- `current_probes`. -/
def currentProbes (r : Repo) : Except (Fault OmpError) (TextMap ProbeBlob) := do
  let out ← (starterProbes W).mapError .err
  match ← r.headLeaves W with
  | none => .ok out
  | some (root, leaves) => (leaves.foldlM (addTreeProbe W r.store root) out).mapError .err

/-- The body of the loop of `current_probe_names`. -/
def addTreeProbeName (s : Store) (root : Hash) (out : List Text) (leaf : Text × Entry) :
    Except OmpError (List Text) :=
  match probeDir leaf with
  | none => .ok out
  | some dir => do
    match ← probeManifestAt W s root dir with
    | some _ => .ok (qualifiedName dir :: out)
    | none => .ok out

/-- `current_probe_names`. -/
def currentProbeNames (r : Repo) : Except (Fault OmpError) (List Text) := do
  let out := W.starterProbes.map StarterProbe.name
  match ← r.headLeaves W with
  | none => .ok out
  | some (root, leaves) => (leaves.foldlM (addTreeProbeName W r.store root) out).mapError .err

/-! ### Paths and quotas -/

/-- `validate_path`. -/
def validatePath (path : Text) : Except OmpError Unit :=
  if path = [] then .error (.invalidPath "empty path".toList)
  else if path.head? = some '/' ∨ "//".toList <:+: path then
    .error (.invalidPath ("absolute or double-slash path: ".toList ++ W.debugStr path))
  else if ".omp/".toList <+: path ∨ path = ".omp".toList then
    .error (.invalidPath ".omp/ is reserved for private state".toList)
  else do
    let _ ← split W.toPlatform path
    .ok ()

/-- `classify_path` : whether a path holds a blob rather than a manifest. -/
def isBlobPath (path : Text) : Bool :=
  let s := path.map fun c => if c = '\\' then '/' else c
  s == "omp.toml".toList || "schemas/".toList.isPrefixOf s || "probes/".toList.isPrefixOf s

/-- `stage_upsert`. -/
def stageUpsert (path : Text) (hash : Hash) : RepoOp Unit :=
  modify (fun r => { r with index := r.index.insert path ⟨path, .upsert, some hash⟩ }) fun _ => rfl

/-- `resolve_staged_or_head`. -/
def resolveStagedOrHead (r : Repo) (path : Text) : Except OmpError Entry :=
  let quoted := "path ".toList ++ W.debugStr path
  match r.index[path]? with
  | some change => match change.kind, change.hash with
    | .delete, _ => .error (.notFound (quoted ++ " is staged for deletion".toList))
    | .upsert, none => .error (.internal "staged upsert without hash".toList)
    | .upsert, some hash => do
      let mode ← storedMode W.toPlatform r.store hash
      .ok ⟨mode, hash⟩
  | none => do
    match ← r.headTree W with
    | none => .error (.notFound (quoted ++ ": no HEAD".toList))
    | some root => match ← getAt W.toPlatform r.store none path root with
      | some e => .ok e
      | none => .error (.notFound quoted)

/-- `usage` : the number of object files and their bytes. -/
def usage (s : Store) : Nat × Nat :=
  let files := s.objects.foldl (fun (l : List (Hash × Nat)) o =>
    let h := o.address W.toPlatform
    if l.any fun p => p.1 = h then l else (h, W.fileLength o.frame) :: l) []
  (files.length, (files.map Prod.snd).sum)

/-- `saturating_add` on 64 bits. -/
def saturatingAdd (a b : Nat) : Nat := min (a + b) (2 ^ 64 - 1)

/-- `check_quota_for_write`. -/
def checkQuotaForWrite (q : Quotas) (s : Store) (incomingBytes incomingObjects : Nat) :
    Except OmpError Unit :=
  if q.bytes.isNone ∧ q.objectCount.isNone then .ok ()
  else
    let (count, bytes) := usage W s
    let exceeded (what : Text) (cur incoming cap : Nat) : OmpError := .quotaExceeded
      (what ++ ": ".toList ++ decimal cur ++ " + ".toList ++ decimal incoming ++
        " > ".toList ++ decimal cap)
    if ∃ cap ∈ q.bytes, cap < saturatingAdd bytes incomingBytes then
      .error (exceeded "bytes".toList bytes incomingBytes (q.bytes.getD 0))
    else if ∃ cap ∈ q.objectCount, cap < saturatingAdd count incomingObjects then
      .error (exceeded "object_count".toList count incomingObjects (q.objectCount.getD 0))
    else .ok ()

end Repo

end Omp
