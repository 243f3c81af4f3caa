import Omp.CommitCodec
import Omp.Files
import Omp.Lib.Lts
import Omp.Reprobe

/-!
# Commits and branches

`commit` folds the staged changes into HEAD's tree, stores a commit of it, advances HEAD's branch
and empties the index.  `branch` and `checkout` write a reference and `HEAD`.

The calls that change a repository are collected in `Call`; each runs under the write lock of the
repository, and a repository is reachable if calls lead to it from an empty one.

## Main definitions

* `Repo.commit`, `Repo.branch`, `Repo.checkout`, `Repo.listBranches`.
* `Call`, `Call.run`, `Repo.lts` : calls, and the transitions they are.

## Main results

* `Repo.buildCommit_eq_ok`, `Repo.publish_eq_ok`, `Repo.branch_eq_ok`, `Repo.checkout_eq_ok` : what
  a call that succeeds does.
* `Call.writesOnce` : each call writes once, but for a commit, which then saves the index.
* `Call.sameRefs_of_staging` : what staging leaves alone.
-/

namespace Omp

open Lib RepoScript

variable (W : World) (env : Env)

/-- What a caller sets of a commit's author. -/
structure AuthorOverride where
  name : Option Text
  email : Option Text
  timestamp : Option Text

namespace Repo

/-! ### Committing -/

/-- `run_auto_reprobe`, by its actions. -/
def autoReprobe (idx : Index) : RepoScript (Index × List ReprobeSummary) :=
  let staged := stagedSchemas (env.order idx)
  if staged = [] then pure (idx, [])
  else do
    let (heads, ctx, files) ← inspect (passInputs W env)
    let tot ← .act (.objects (staged.foldlM (reprobeSchema W ctx heads files) ⟨idx, [], []⟩))
    pure (tot.index, tot.summaries)

/-- The actions of the pass are the pass. -/
theorem run_autoReprobe (idx : Index) :
    (autoReprobe W env idx).run (Action.op W) = runAutoReprobe W env idx := by
  unfold autoReprobe runAutoReprobe
  dsimp only
  split_ifs
  · rfl
  · rfl

/-- The author of a commit. -/
def commitAuthor (author : AuthorOverride) : Except OmpError Author := do
  let (name, email) ← env.localAuthor
  .ok ⟨author.name.getD name, author.email.getD email, author.timestamp.getD env.now⟩

/-- What a commit does once its tree is built: store it, advance HEAD and empty the index. -/
def publish (root : Option Hash) (author : Author) (message : Text) : RepoScript Hash :=
  match root with
  | none => require (.error (.conflict "commit would be empty".toList))
  | some root => do
    let parent ← check fun r => r.resolveHead W
    let commitHash ← put W .commit (Commit.serialize ⟨root, parent.toList, author, message⟩)
    match ← check fun r => parseHead W.toPlatform r.readHead with
    | .branch name => .act (.writeRef name commitHash)
    | .detached _ => .act (.writeHead commitHash.hex)
    .act (.saveIndex ∅)
    pure commitHash

/-- The index as a commit uses it, with what the pass adds unless it is put off. -/
def reprobed (idx : Index) : RepoScript (Index × List ReprobeSummary) :=
  if env.deferReprobe then pure (idx, []) else autoReprobe W env idx

/-- The first part of `commit_with_keys`: the tree of the commit. -/
def buildCommit (author : AuthorOverride) :
    RepoScript (Option Hash × Author × List ReprobeSummary) := do
  let idx ← .act .loadIndex
  require (if idx.isEmpty then .error (.conflict "no staged changes".toList) else .ok ())
  .act .lockRefs
  let author ← require (commitAuthor env author)
  let (idx, summaries) ← reprobed W env idx
  let root ← check fun r => r.headTree W
  let root ← .act (.objects (buildTree W.toPlatform none root (env.order idx)))
  pure (root, author, summaries)

/-- `commit_with_keys`, without keys. -/
def commit (message : Text) (author : AuthorOverride) :
    RepoScript (Hash × List ReprobeSummary) := do
  let (root, author, summaries) ← buildCommit W env author
  let commitHash ← publish W root author message
  pure (commitHash, summaries)

/-! ### What a commit stores -/

section Keeps

variable {W} {R : Store → Store → Prop} [Std.Refl R] [IsTrans Store R] {key : Option Key}

theorem keeps_putInner (hR : ∀ t, (storeTree W.toPlatform key t).Keeps R) (entry : Entry) :
    ∀ (parts : List Text) (o : Option Hash), (putInner W.toPlatform key entry parts o).Keeps R
  | [], _ => Op.Keeps.panic
  | [_], o => by
    have hload : (loadOrNew W.toPlatform key o).Keeps R := by
      cases o with
      | none => exact Op.Keeps.pure _
      | some h => exact Op.Keeps.reads _
    exact hload.bind fun _ => (Op.Keeps.reads _).bind fun _ => hR _
  | _ :: next :: rest, o => by
    have hload : (loadOrNew W.toPlatform key o).Keeps R := by
      cases o with
      | none => exact Op.Keeps.pure _
      | some h => exact Op.Keeps.reads _
    exact hload.bind fun _ => (Op.Keeps.reads _).bind fun child =>
      (keeps_putInner hR entry (next :: rest) child).bind fun _ =>
        (Op.Keeps.reads _).bind fun _ => hR _

theorem keeps_putAt (hR : ∀ t, (storeTree W.toPlatform key t).Keeps R) (o : Option Hash)
    (path : Text) (entry : Entry) : (putAt W.toPlatform key o path entry).Keeps R := by
  refine (Op.Keeps.reads _).bind fun parts => ?_
  split_ifs
  · exact Op.Keeps.throw _
  · exact keeps_putInner hR entry parts o

theorem keeps_storeUnlessEmpty (hR : ∀ t, (storeTree W.toPlatform key t).Keeps R) (t : Tree) :
    (storeUnlessEmpty W.toPlatform key t).Keeps R := by
  unfold storeUnlessEmpty
  split_ifs
  · exact Op.Keeps.pure _
  · exact (hR t).bind fun _ => Op.Keeps.pure _

theorem keeps_deleteInner (hR : ∀ t, (storeTree W.toPlatform key t).Keeps R) :
    ∀ (parts : List Text) (h : Hash), (deleteInner W.toPlatform key parts h).Keeps R
  | [], _ => Op.Keeps.panic
  | [_], _ => (Op.Keeps.reads _).bind fun _ => keeps_storeUnlessEmpty hR _
  | head :: next :: rest, h => by
    refine (Op.Keeps.reads _).bind fun tree => ?_
    cases tree.get head with
    | none => exact Op.Keeps.pure _
    | some e =>
      dsimp only
      split_ifs
      · refine (keeps_deleteInner hR (next :: rest) e.hash).bind fun o => ?_
        cases o with
        | none => exact keeps_storeUnlessEmpty hR _
        | some h => exact (Op.Keeps.reads _).bind fun _ => keeps_storeUnlessEmpty hR _
      · exact Op.Keeps.pure _

theorem keeps_deleteAt (hR : ∀ t, (storeTree W.toPlatform key t).Keeps R) (root : Hash)
    (path : Text) : (deleteAt W.toPlatform key root path).Keeps R := by
  refine (Op.Keeps.reads _).bind fun parts => ?_
  split_ifs
  · exact Op.Keeps.throw _
  · exact keeps_deleteInner hR parts root

theorem keeps_applyChange (hR : ∀ t, (storeTree W.toPlatform key t).Keeps R) (root : Option Hash)
    (c : StagedChange) : (applyChange W.toPlatform key root c).Keeps R := by
  unfold applyChange
  cases c.kind with
  | upsert =>
    cases c.hash with
    | none => exact Op.Keeps.throw _
    | some hash => exact (Op.Keeps.reads _).bind fun _ =>
        (keeps_putAt hR root c.path _).bind fun _ => Op.Keeps.pure _
  | delete =>
    cases root with
    | none => exact Op.Keeps.pure _
    | some root => exact keeps_deleteAt hR root c.path

/-- What every tree that is stored keeps, the building of a tree keeps. -/
theorem keeps_buildTree (hR : ∀ t, (storeTree W.toPlatform key t).Keeps R) (root : Option Hash)
    (cs : List StagedChange) : (buildTree W.toPlatform key root cs).Keeps R :=
  Op.Keeps.foldlM (keeps_applyChange hR) cs root

theorem keeps_reprobeOne (hR : ∀ bs, (Store.put W.toPlatform .manifest bs).Keeps R)
    (ctx : PassContext) (n : NewSchema) (path : Text) (m : Manifest) (cache : ProbeOutputCache) :
    (reprobeOne W ctx n path m cache).Keeps R := by
  refine (Op.Keeps.reads _).bind fun res => ?_
  obtain ⟨_ | m', cache⟩ := res
  · exact Op.Keeps.pure _
  · refine Op.Keeps.bind ?_ fun _ => Op.Keeps.pure _
    unfold storeManifest
    split
    · exact Op.Keeps.pure _
    · exact (hR _).bind fun _ => Op.Keeps.pure _

theorem keeps_reprobeFile (hR : ∀ bs, (Store.put W.toPlatform .manifest bs).Keeps R)
    (ctx : PassContext) (n : NewSchema) (cache : ProbeOutputCache) (file : Text × Hash) :
    (reprobeFile W ctx n cache file).Keeps R := by
  refine (Op.Keeps.reads _).bind fun o => ?_
  cases o with
  | none => exact Op.Keeps.pure _
  | some o =>
    dsimp only
    cases Manifest.parse W o.content with
    | error e => exact Op.Keeps.pure _
    | ok m =>
      dsimp only
      split_ifs
      · exact Op.Keeps.pure _
      · refine (keeps_reprobeOne hR ctx n _ m cache).bind fun res => ?_
        obtain ⟨_ | h, cache⟩ := res
        · exact Op.Keeps.pure _
        · exact Op.Keeps.pure _

/-- What every manifest that is stored keeps, the pass over the manifests keeps. -/
theorem keeps_reprobeSchema (hR : ∀ bs, (Store.put W.toPlatform .manifest bs).Keeps R)
    (ctx : PassContext) (heads : TextMap Schema) (files : List (Text × Hash)) (tot : PassTotals)
    (staged : Text × Hash) : (reprobeSchema W ctx heads files tot staged).Keeps R := by
  refine (Op.Keeps.reads _).bind fun o => ?_
  cases o with
  | none => exact Op.Keeps.throw _
  | some o =>
    refine (Op.Keeps.reads _).bind fun schema => ?_
    dsimp only
    split_ifs
    · exact Op.Keeps.pure _
    · refine Op.Keeps.bind (Op.Keeps.foldlM (fun st file => ?_) files _) fun _ => Op.Keeps.pure _
      refine (keeps_reprobeFile hR ctx _ st.cache file).bind fun res => ?_
      obtain ⟨outcome, cache⟩ := res
      dsimp only
      split
      · exact Op.Keeps.pure _
      · exact Op.Keeps.panic

end Keeps

/-! ### Branches -/

/-- The reference of a branch. -/
def branchRef (name : Text) : Text := "refs/heads/".toList ++ name

/-- The commit a new branch starts at. -/
def startCommit (r : Repo) (start : Option Text) : Except OmpError Hash :=
  match start with
  | some expr => r.resolveRef W expr
  | none => do
    match ← r.resolveHead W with
    | some h => .ok h
    | none => .error (.conflict "no commit to branch from".toList)

/-- `branch`. -/
def branch (name : Text) (start : Option Text) : RepoScript Unit := do
  let startHash ← check fun r => r.startCommit W start
  let existing ← check fun r => r.readRef W (branchRef name)
  require (if existing.isSome then
    .error (.conflict ("branch ".toList ++ name ++ " already exists".toList)) else .ok ())
  .act (.writeRef (branchRef name) startHash)

/-- Whether `checkout` takes an expression for the name of a branch before anything else. -/
def maybeBranch (expr : Text) : Bool :=
  !expr.contains '/' && !"refs/".toList.isPrefixOf expr && !(Hash.parse W.toPlatform expr).isOk

/-- What `checkout` writes to `HEAD`. -/
def checkoutHead (r : Repo) (expr : Text) : Except OmpError Text := do
  let existing ← if maybeBranch W expr then r.readRef W (branchRef expr) else .ok none
  if existing.isSome then .ok ("ref: ".toList ++ branchRef expr)
  else do
    let h ← r.resolveRef W expr
    .ok h.hex

/-- `checkout`. -/
def checkout (expr : Text) : RepoScript Unit := do
  let head ← check fun r => r.checkoutHead W expr
  .act (.writeHead head)

/-- A line of `list_branches`. -/
structure BranchInfo where
  name : Text
  head : Hash
  isCurrent : Bool
  deriving DecidableEq

/-- `list_branches`; the references come in the order of their paths, which is that of the
names. -/
def listBranches (r : Repo) : Except OmpError (List BranchInfo) := do
  let head ← parseHead W.toPlatform r.readHead
  .ok (r.refs.toList.filterMap fun p =>
    (stripPrefix "refs/heads/".toList p.1).map fun name =>
      ⟨name, p.2, decide (head = .branch p.1)⟩)

/-! ### What the calls do -/

/-- HEAD's branch, or `HEAD` itself, moved to a commit. -/
def advance (r : Repo) (commit : Hash) : Except OmpError Repo := do
  match ← parseHead W.toPlatform r.readHead with
  | .branch name => do
    let path ← refPath W name
    .ok { r with refs := r.refs.insert path commit }
  | .detached _ => .ok { r with head := commit.hex }

section Specs

variable {W} {env}

theorem publish_eq_ok {root : Option Hash} {author : Author} {message : Text} {h : Hash}
    {r r' : Repo} :
    ((publish W root author message).run (Action.op W)).run r = (.ok h, r') ↔
      ∃ tree parent ra, root = some tree ∧ r.resolveHead W = .ok parent ∧
        h = hashOf W.toPlatform .commit (Commit.serialize ⟨tree, parent.toList, author, message⟩) ∧
        r.advance W h = .ok ra ∧
        r' = { ra with
          store := ⟨r.store.objects ++
            [⟨.commit, Commit.serialize ⟨tree, parent.toList, author, message⟩⟩]⟩
          index := ∅ } := by
  cases root with
  | none =>
    refine ⟨fun hrun => ?_, fun ⟨_, _, _, hroot, _⟩ => by cases hroot⟩
    obtain ⟨a, ha, -⟩ := require_eq_ok (k := pure).1 hrun
    cases ha
  | some tree =>
    rw [publish, check_eq_ok]
    constructor
    · rintro ⟨parent, hparent, hrun⟩
      rw [put_eq_ok, check_eq_ok] at hrun
      obtain ⟨head, hhead, hrun⟩ := hrun
      cases head with
      | branch name =>
        obtain ⟨path, hpath, hrun⟩ := writeRef_eq_ok.1 hrun
        obtain ⟨rfl, rfl⟩ := Op.pure_eq_ok.1 (saveIndex_eq_ok.1 hrun)
        refine ⟨tree, parent, { r with refs := r.refs.insert path _ }, rfl, hparent, rfl, ?_, rfl⟩
        exact except_bind_eq_ok.2 ⟨_, hhead, except_bind_eq_ok.2 ⟨path, hpath, rfl⟩⟩
      | detached g =>
        obtain ⟨rfl, rfl⟩ := Op.pure_eq_ok.1 (saveIndex_eq_ok.1 (writeHead_eq_ok.1 hrun))
        exact ⟨tree, parent, { r with head := _ }, rfl, hparent, rfl,
          except_bind_eq_ok.2 ⟨_, hhead, rfl⟩, rfl⟩
    · rintro ⟨_, parent, ra, hroot, hparent, rfl, hadv, rfl⟩
      cases hroot
      refine ⟨parent, hparent, ?_⟩
      rw [put_eq_ok, check_eq_ok]
      rw [advance, except_bind_eq_ok] at hadv
      obtain ⟨head, hhead, hadv⟩ := hadv
      refine ⟨head, hhead, ?_⟩
      cases head with
      | branch name =>
        obtain ⟨path, hpath, hadv⟩ := except_bind_eq_ok.1 hadv
        cases hadv
        exact writeRef_eq_ok.2 ⟨path, hpath, saveIndex_eq_ok.2 rfl⟩
      | detached g =>
        cases hadv
        exact writeHead_eq_ok.2 (saveIndex_eq_ok.2 rfl)

/-- What the pass changes of a repository is its store. -/
theorem store_of_reprobed {idx : Index} {res : Index × List ReprobeSummary} {r r' : Repo}
    (hrun : ((reprobed W env idx).run (Action.op W)).run r = (.ok res, r')) :
    ∃ s, r.store ≤ s ∧ r' = { r with store := s } := by
  unfold reprobed at hrun
  split_ifs at hrun
  · obtain ⟨-, rfl⟩ := Op.pure_eq_ok.1 hrun
    exact ⟨r.store, le_refl _, rfl⟩
  · unfold autoReprobe at hrun
    dsimp only at hrun
    split_ifs at hrun
    · obtain ⟨-, rfl⟩ := Op.pure_eq_ok.1 hrun
      exact ⟨r.store, le_refl _, rfl⟩
    · obtain ⟨inputs, -, hrun⟩ := inspect_eq_ok.1 hrun
      obtain ⟨tot, s, hs, hrun⟩ := objects_eq_ok.1 hrun
      obtain ⟨-, rfl⟩ := Op.pure_eq_ok.1 hrun
      exact ⟨s, Op.le_of_run hs, rfl⟩

/-- **The first part of a commit**, step by step. -/
theorem buildCommit_eq_ok {author : AuthorOverride}
    {res : Option Hash × Author × List ReprobeSummary} {r r' : Repo} :
    ((buildCommit W env author).run (Action.op W)).run r = (.ok res, r') ↔
      r.index.isEmpty = false ∧ commitAuthor env author = .ok res.2.1 ∧
      ∃ idx o s s', ((reprobed W env r.index).run (Action.op W)).run r =
          (.ok (idx, res.2.2), { r with store := s }) ∧
        headTree W { r with store := s } = .ok o ∧
        (buildTree W.toPlatform none o (env.order idx)).run s = (.ok res.1, s') ∧
        r' = { r with store := s' } := by
  rw [buildCommit, loadIndex_eq_ok, require_eq_ok]
  constructor
  · rintro ⟨_, hidx, hrun⟩
    rw [lockRefs_eq_ok, require_eq_ok] at hrun
    obtain ⟨author', hauthor, hrun⟩ := hrun
    obtain ⟨⟨idx, summaries⟩, r₁, hpass, hrun⟩ := (Script.run_bind_eq_ok _).1 hrun
    obtain ⟨s, -, rfl⟩ := store_of_reprobed hpass
    obtain ⟨o, ho, hrun⟩ := check_eq_ok.1 hrun
    obtain ⟨root, s', hbuild, hrun⟩ := objects_eq_ok.1 hrun
    obtain ⟨rfl, rfl⟩ := Op.pure_eq_ok.1 hrun
    split_ifs at hidx with hempty
    exact ⟨Bool.eq_false_iff.2 hempty, hauthor, idx, o, s, s', hpass, ho, hbuild, rfl⟩
  · rintro ⟨hempty, hauthor, idx, o, s, s', hpass, ho, hbuild, rfl⟩
    refine ⟨(), if_neg (Bool.eq_false_iff.1 hempty), lockRefs_eq_ok.2 (require_eq_ok.2
      ⟨res.2.1, hauthor, (Script.run_bind_eq_ok _).2 ⟨(idx, res.2.2), _, hpass, ?_⟩⟩)⟩
    exact check_eq_ok.2 ⟨o, ho, objects_eq_ok.2 ⟨res.1, s', hbuild, rfl⟩⟩

/-- What the first part of a commit yields. -/
theorem buildCommit_of_ok {author : AuthorOverride}
    {res : Option Hash × Author × List ReprobeSummary} {r r' : Repo}
    (hrun : ((buildCommit W env author).run (Action.op W)).run r = (.ok res, r')) :
    ∃ idx o s s', r.store ≤ s ∧ headTree W { r with store := s } = .ok o ∧
      (buildTree W.toPlatform none o (env.order idx)).run s = (.ok res.1, s') ∧
      commitAuthor env author = .ok res.2.1 ∧ r' = { r with store := s' } := by
  obtain ⟨-, hauthor, idx, o, s, s', hpass, ho, hbuild, rfl⟩ := buildCommit_eq_ok.1 hrun
  have hle : r ≤ { r with store := s } := Op.le_of_run hpass
  exact ⟨idx, o, s, s', hle, ho, hbuild, hauthor, rfl⟩

/-- A commit that succeeds publishes the tree it built. -/
theorem commit_of_ok {message : Text} {author : AuthorOverride}
    {res : Hash × List ReprobeSummary} {r r' : Repo}
    (hrun : ((commit W env message author).run (Action.op W)).run r = (.ok res, r')) :
    ∃ built r₁, ((buildCommit W env author).run (Action.op W)).run r = (.ok built, r₁) ∧
      ((publish W built.1 built.2.1 message).run (Action.op W)).run r₁ = (.ok res.1, r') := by
  obtain ⟨⟨root, author', summaries⟩, r₁, hbuild, hrun⟩ := (Script.run_bind_eq_ok _).1 hrun
  obtain ⟨h, r₂, hpublish, hrun⟩ := (Script.run_bind_eq_ok _).1 hrun
  obtain ⟨rfl, rfl⟩ := Op.pure_eq_ok.1 hrun
  exact ⟨_, r₁, hbuild, hpublish⟩

/-- **What a new branch does.** -/
theorem branch_eq_ok {name : Text} {start : Option Text} {r r' : Repo} :
    ((branch W name start).run (Action.op W)).run r = (.ok (), r') ↔
      ∃ h path, r.startCommit W start = .ok h ∧ refPath W (branchRef name) = .ok path ∧
        r.refs[path]? = none ∧ r' = { r with refs := r.refs.insert path h } := by
  have hread : ∀ o, r.readRef W (branchRef name) = .ok o ↔
      ∃ path, refPath W (branchRef name) = .ok path ∧ r.refs[path]? = o := by
    intro o
    rw [readRef, except_bind_eq_ok]
    simp only [Except.ok.injEq]
  rw [branch, check_eq_ok]
  constructor
  · rintro ⟨h, hstart, hrun⟩
    obtain ⟨o, ho, hrun⟩ := check_eq_ok.1 hrun
    obtain ⟨u, hnone, hrun⟩ := require_eq_ok.1 hrun
    obtain ⟨path, hpath, hrun⟩ := writeRef_eq_ok (k := .done) |>.1 hrun
    obtain ⟨-, rfl⟩ := Op.pure_eq_ok.1 hrun
    obtain ⟨path', hpath', rfl⟩ := (hread o).1 ho
    obtain rfl : path = path' := Except.ok.inj (hpath.symm.trans hpath')
    refine ⟨h, path, hstart, hpath, ?_, rfl⟩
    by_contra hsome
    rw [if_pos (Option.isSome_iff_ne_none.2 hsome)] at hnone
    cases hnone
  · rintro ⟨h, path, hstart, hpath, hnone, rfl⟩
    refine ⟨h, hstart, check_eq_ok.2 ⟨none, (hread none).2 ⟨path, hpath, hnone⟩, ?_⟩⟩
    exact require_eq_ok.2 ⟨(), rfl, (writeRef_eq_ok (k := .done)).2 ⟨path, hpath, rfl⟩⟩

/-- **What a checkout does.** -/
theorem checkout_eq_ok {expr : Text} {r r' : Repo} :
    ((checkout W expr).run (Action.op W)).run r = (.ok (), r') ↔
      ∃ value, r.checkoutHead W expr = .ok value ∧ r' = { r with head := value } := by
  rw [checkout, check_eq_ok]
  constructor
  · rintro ⟨value, hvalue, hrun⟩
    obtain ⟨-, rfl⟩ := Op.pure_eq_ok.1 ((writeHead_eq_ok (k := .done)).1 hrun)
    exact ⟨value, hvalue, rfl⟩
  · rintro ⟨value, hvalue, rfl⟩
    exact ⟨value, hvalue, (writeHead_eq_ok (k := .done)).2 rfl⟩

end Specs

/-! ### What the calls write -/

section Shapes

variable {W} {env}

theorem writesOnce_branch (name : Text) (start : Option Text) :
    Script.WritesOnce (Action.Quiet NoNewCommits) Action.MovesRef Action.Never
      (branch W name start) :=
  (quiet_check _).bind_writesOnce fun _ => (quiet_check _).bind_writesOnce fun _ =>
    (quiet_check _).bind_writesOnce fun _ => .act trivial

theorem writesOnce_checkout (expr : Text) :
    Script.WritesOnce (Action.Quiet NoNewCommits) Action.MovesRef Action.Never
      (checkout W expr) :=
  (quiet_check _).bind_writesOnce fun _ => .act trivial

theorem quiet_autoReprobe (idx : Index) :
    Script.Within (Action.Quiet NoNewCommits) (autoReprobe W env idx) := by
  unfold autoReprobe
  dsimp only
  split_ifs
  · exact .done _
  · exact (quiet_inspect _).bind fun _ => (quiet_objects (Op.Keeps.foldlM
      (keeps_reprobeSchema (fun _ => keeps_put W (by decide) _) _ _ _) _ _)).bind fun _ => .done _

/-- Until its tree is built, a commit writes objects only, and none of them is a commit. -/
theorem quiet_buildCommit (author : AuthorOverride) :
    Script.Within (Action.Quiet NoNewCommits) (buildCommit W env author) := by
  refine quiet_loadIndex.bind fun idx => (quiet_check _).bind fun _ => quiet_lockRefs.bind
    fun _ => (quiet_check _).bind fun author => Script.Within.bind ?_ fun res => ?_
  · unfold reprobed
    split_ifs
    · exact .done _
    · exact quiet_autoReprobe idx
  · exact (quiet_check _).bind fun o =>
      (quiet_objects (keeps_buildTree (fun _ => keeps_put W (by decide) _) o _)).bind
        fun _ => .done _

/-- Then it moves HEAD's branch or `HEAD`, and last it saves the index. -/
theorem writesOnce_commit (message : Text) (author : AuthorOverride) :
    Script.WritesOnce (Action.Quiet fun _ _ => True) Action.MovesRef Action.SavesIndex
      (commit W env message author) := by
  refine ((quiet_buildCommit author).mono ?_).bind_writesOnce fun ⟨root, author', summaries⟩ => ?_
  · intro _ x hx
    cases x with
    | objects x => exact fun _ => trivial
    | look _ | loadIndex | lockRefs => trivial
    | writeRef _ _ | writeHead _ | saveIndex _ => exact hx.elim
  · refine Script.WritesOnce.bind_done ?_
    cases root with
    | none => exact .within (quiet_check _)
    | some root =>
      refine (quiet_check _).bind_writesOnce fun parent =>
        (quiet_objects fun _ => trivial).bind_writesOnce fun h =>
          (quiet_check _).bind_writesOnce fun head => ?_
      have hsave : Script.Within Action.SavesIndex
          (do .act (.saveIndex ∅); pure h : RepoScript Hash) :=
        .step (x := Action.saveIndex ∅) trivial fun _ => .done h
      cases head with
      | branch name => exact .write trivial fun _ => hsave
      | detached g => exact .write trivial fun _ => hsave

end Shapes

end Repo

/-! ### Calls -/

/-- A call that changes a repository. -/
inductive Call where
  | add (req : AddRequest)
  | patchFields (path : Text) (updates : Fields)
  | remove (path : Text)
  | commit (message : Text) (author : AuthorOverride)
  | branch (name : Text) (start : Option Text)
  | checkout (expr : Text)

namespace Call

/-- The script of a call, whose result does not matter here. -/
def script : Call → RepoScript Unit
  | add req => do
    let _ ← Repo.add W env req
    pure ()
  | patchFields path updates => do
    let _ ← Repo.patchFields W env path updates
    pure ()
  | remove path => Repo.remove W path
  | commit message author => do
    let _ ← Repo.commit W env message author
    pure ()
  | branch name start => Repo.branch W name start
  | checkout expr => Repo.checkout W expr

/-- A call on a repository, under its write lock. -/
def run (c : Call) : RepoOp Unit := Repo.locked ((c.script W env).run (Action.op W))

/-- The calls that stage a change. -/
def IsStaging : Call → Prop
  | add _ | patchFields .. | remove _ => True
  | commit .. | branch .. | checkout _ => False

/-- A commit. -/
def IsCommit : Call → Prop
  | commit .. => True
  | _ => False

section Shapes

variable {W} {env}

theorem stages {c : Call} (hc : c.IsStaging) : Repo.Stages (c.script W env) := by
  cases c with
  | add req => exact (Repo.stages_add env req).bind_done
  | patchFields path updates => exact (Repo.stages_patchFields env path updates).bind_done
  | remove path => exact Repo.stages_remove path
  | commit _ _ | branch _ _ | checkout _ => exact hc.elim

/-- **A call writes once**, to the index, to a reference or to `HEAD`, and only a commit goes on
after that, to save the index. -/
theorem writesOnce (c : Call) :
    ∃ R, Script.WritesOnce (Action.Quiet R)
      (fun {β : Type} (x : Action β) => x.SavesIndex ∨ x.MovesRef)
      (fun {β : Type} (x : Action β) => c.IsCommit ∧ x.SavesIndex) (c.script W env) := by
  have hstaging : c.IsStaging → ∃ R, Script.WritesOnce (Action.Quiet R)
      (fun {β : Type} (x : Action β) => x.SavesIndex ∨ x.MovesRef)
      (fun {β : Type} (x : Action β) => c.IsCommit ∧ x.SavesIndex) (c.script W env) :=
    fun hc => ⟨_, (stages hc).mono id .inl False.elim⟩
  cases c with
  | add req => exact hstaging trivial
  | patchFields path updates => exact hstaging trivial
  | remove path => exact hstaging trivial
  | commit message author =>
    exact ⟨_, ((Repo.writesOnce_commit message author).mono id .inr
      fun h => ⟨trivial, h⟩).bind_done⟩
  | branch name start => exact ⟨_, (Repo.writesOnce_branch name start).mono id .inr False.elim⟩
  | checkout expr => exact ⟨_, (Repo.writesOnce_checkout expr).mono id .inr False.elim⟩

end Shapes

end Call

/-- The references and `HEAD` are the same, and no commit has come. -/
def SameRefs (r r' : Repo) : Prop :=
  r'.refs = r.refs ∧ r'.head = r.head ∧ NoNewCommits r.store r'.store

instance : Std.Refl SameRefs := ⟨fun _ => ⟨rfl, rfl, fun _ ho _ => ho⟩⟩

instance : IsTrans Repo SameRefs :=
  ⟨fun _ _ _ h₁ h₂ => ⟨h₂.1.trans h₁.1, h₂.2.1.trans h₁.2.1, IsTrans.trans _ _ _ h₁.2.2 h₂.2.2⟩⟩

section Frames

variable {W}

theorem keeps_of_quiet {α : Type} {x : Action α} (hx : x.Quiet NoNewCommits ∨ x.SavesIndex) :
    (x.op W).Keeps SameRefs := by
  intro r
  cases x with
  | look f => exact Std.Refl.refl r
  | objects x => exact ⟨rfl, rfl, (hx.resolve_right id) r.store⟩
  | loadIndex => exact Std.Refl.refl r
  | lockRefs => exact Std.Refl.refl r
  | writeRef _ _ | writeHead _ => exact (hx.elim id id).elim
  | saveIndex idx => exact ⟨rfl, rfl, fun _ ho _ => ho⟩

/-- A reference or `HEAD` that is not written is left alone, as is everything else. -/
theorem eq_of_movesRef {α : Type} {x : Action α} (hx : x.MovesRef) {r r' : Repo}
    {e : Fault OmpError} (hrun : (x.op W).run r = (.error e, r')) : r' = r := by
  cases x with
  | writeRef name commit =>
    -- the name is refused before anything is written
    cases hpath : refPath W name with
    | error e' =>
      have hrefused : (Repo.writeRef W name commit).run r = (.error (.err e'), r) := by
        refine Op.run_bind_of_error ?_ _
        rw [Op.run_lift, hpath]
        rfl
      cases hrefused.symm.trans hrun
      rfl
    | ok path =>
      have hwritten : (Repo.writeRef W name commit).run r =
          (.ok (), { r with refs := r.refs.insert path commit }) :=
        Op.bind_eq_ok.2 ⟨path, r, Op.lift_eq_ok.2 ⟨hpath, rfl⟩, rfl⟩
      cases hwritten.symm.trans hrun
  | writeHead value => cases hrun
  | look _ | objects _ | loadIndex | lockRefs | saveIndex _ => exact hx.elim

/-- Under the lock, an operation leaves what it leaves, or was refused. -/
theorem Repo.locked_state {α : Type} (x : RepoOp α) (r : Repo) :
    ((Repo.locked x).run r).2 = r ∨
      ∃ p, ((Repo.locked x).run r).2 = { (x.run r).2 with poisoned := p } := by
  rw [Repo.locked]
  dsimp only
  split_ifs
  · exact .inl rfl
  · generalize x.run r = res
    obtain ⟨(_ | _) | _, r'⟩ := res
    · exact .inr ⟨r'.poisoned, rfl⟩
    · exact .inr ⟨true, rfl⟩
    · exact .inr ⟨r'.poisoned, rfl⟩

theorem Call.script_keeps {env : Env} {c : Call} (hc : c.IsStaging) :
    ((c.script W env).run (Action.op W)).Keeps SameRefs :=
  ((Call.stages hc).toWithin (V := fun {β : Type} (x : Action β) =>
    x.Quiet NoNewCommits ∨ x.SavesIndex) .inl .inr fun h => h.elim).keeps keeps_of_quiet

/-- **Staging leaves the references and `HEAD` alone**, and adds no commit. -/
theorem Call.sameRefs_of_staging {env : Env} {c : Call} (hc : c.IsStaging) (r : Repo) :
    SameRefs r ((c.run W env).run r).2 := by
  have hkeeps := @Call.script_keeps W env c hc
  rcases Repo.locked_state ((c.script W env).run (Action.op W)) r with h | ⟨p, h⟩
  · rw [Call.run, h]
    exact Std.Refl.refl r
  · rw [Call.run, h]
    exact hkeeps r

end Frames

/-- A repository to which calls are made, each ending in one way or the other. -/
def Repo.lts : Lts Repo (Env × Call) where
  step r l r' := ((l.2.run W l.1).run r).2 = r'

/-- The repository after calls in the same surroundings. -/
def Repo.after (calls : List Call) (r : Repo) : Repo :=
  calls.foldl (fun r c => ((c.run W env).run r).2) r

theorem Repo.reachable_after {W : World} {env : Env} {P : Repo → Env × Call → Prop}
    (calls : List Call) {r₀ r : Repo} (hr : (Repo.lts W).Reachable P r₀ r)
    (hP : ∀ r, ∀ c ∈ calls, P r (env, c)) : (Repo.lts W).Reachable P r₀ (r.after W env calls) := by
  induction calls generalizing r with
  | nil => exact hr
  | cons c calls ih =>
    obtain ⟨hc, hcalls⟩ : (∀ r, P r (env, c)) ∧ ∀ r, ∀ c ∈ calls, P r (env, c) :=
      ⟨fun r => hP r c List.mem_cons_self, fun r c' hc' => hP r c' (List.mem_cons_of_mem _ hc')⟩
    exact ih (hr.tail (hc r) rfl) hcalls

/-- Surroundings to compute with: a working tree without files, and probes that yield nothing. -/
def demoEnv : Env where
  now := "2024-05-01T10:00:00Z".toList
  runProbe _ _ _ _ _ := .ok .null
  deferReprobe := false
  order idx := idx.toList.map Prod.snd
  order_perm _ := List.Perm.refl _
  workFile _ := none
  schemaDirs := []
  localAuthor := .ok ("omp".toList, "omp@local".toList)
  quotas := .unlimited

end Omp
