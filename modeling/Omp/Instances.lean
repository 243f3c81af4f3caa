import Omp.Branches
import Omp.Heads
import Omp.Lib.Interleave

/-!
# Instances that share a repository

Several instances of the program have one `.omp` directory open.  Each runs its calls under a lock
of its own, so the actions of one instance come in the order of its scripts, and those of different
instances in any order.  A commit holds the lock on the references from the moment it has read the
index; staging takes no lock.

To say what becomes of a staged change, each is stamped when it is staged.  The stamps, and the
commits that were published with the changes they consumed, are not part of the repository: they
only record what the actions did.

## Main definitions

* `Shared`, `Instances.machine` : the repository with the record, and the instances.
* `Shared.Accounted` : what becomes of the changes.
* `Shared.Allows` : the condition on an action.

## Main results

* `extends_of_pass` : what a re-probe pass does to the index.
* `Shared.Inv.publish`, `Shared.Inv.empty`, `Shared.Inv.stage` : what the steps that write do to the
  invariant.
-/

namespace Omp

open Lib RepoScript

variable (W : World)

/-! ### What is recorded -/

/-- A staged change, with its place in the index and a stamp. -/
structure Stamped where
  path : Text
  change : StagedChange
  stamp : Nat
  deriving DecidableEq

/-- The changes of an index that is stamped. -/
def changesOf (m : TextMap Stamped) : Index := m.map fun _ t => t.change

/-- An index whose changes were staged before the record begins. -/
def stampAll (idx : Index) : TextMap Stamped := idx.map fun path change => ⟨path, change, 0⟩

/-- A published commit. -/
structure Published where
  /-- The commit `HEAD` stands for from then on. -/
  head : Option Hash
  /-- The index the commit was made from. -/
  consumed : TextMap Stamped

/-- A commit consumed a change. -/
def Published.Has (e : Published) (t : Stamped) : Prop := e.consumed[t.path]? = some t

/-- What instances share, with the record. -/
structure Shared (ι : Type) where
  repo : Repo
  /-- The instance that holds the lock on the references. -/
  lock : Option ι
  /-- The index file, stamped. -/
  staged : TextMap Stamped
  /-- The index as each instance last loaded it. -/
  seen : ι → TextMap Stamped
  /-- The changes that were staged. -/
  issued : List Stamped
  /-- The changes that were still in the index when another was staged at their path. -/
  replaced : List Stamped
  /-- The commits, the last one first. -/
  log : List Published
  /-- The instance that has published a commit and not yet emptied the index. -/
  publishing : Option ι

/-! ### The instances -/

/-- The path a call stages a change at. -/
def Call.stagedPath : Call → Option Text
  | add req => some req.path
  | patchFields path _ | remove path => some path
  | commit .. | branch .. | checkout _ => none

/-- The calls instances make: staging and commits. -/
abbrev Work := { c : Call // c.IsStaging ∨ c.IsCommit }

/-- Only the lock on the references is waited for. -/
def Action.waits {ι α : Type} (s : Shared ι) : Action α → Bool
  | lockRefs => s.lock.isSome
  | _ => false

namespace Shared

variable {ι : Type}

/-- A repository that instances open. -/
def opened (r : Repo) : Shared ι where
  repo := r
  lock := none
  staged := stampAll r.index
  seen _ := ∅
  issued := (stampAll r.index).toList.map Prod.snd
  replaced := []
  log := []
  publishing := none

/-- The change that is staged at a path of an index. -/
def fresh (s : Shared ι) (path : Text) (idx : Index) : Option Stamped :=
  idx[path]?.map fun change => ⟨path, change, s.issued.length⟩

/-- The index of an instance, with the change it stages. -/
def restamped (s : Shared ι) (i : ι) (path : Text) (idx : Index) : TextMap Stamped :=
  (s.fresh path idx).elim (s.seen i) fun t => (s.seen i).insert path t

/-- Let go of the lock. -/
def unlock [DecidableEq ι] (i : ι) (s : Shared ι) : Shared ι :=
  if s.lock = some i then { s with lock := none } else s

/-- What is recorded of a commit. -/
def publish (s : Shared ι) (i : ι) : Shared ι :=
  { s with
    log := ⟨(s.repo.resolveHead W).toOption.join, s.seen i⟩ :: s.log
    publishing := some i }

/-- What is recorded of an index that is saved. -/
def saved (s : Shared ι) (i : ι) (idx : Index) : Option Text → Shared ι
  | some path => { s with
      staged := s.restamped i path idx
      issued := s.issued ++ (s.fresh path idx).toList
      replaced := s.replaced ++ s.staged[path]?.toList }
  | none => { s with staged := ∅, publishing := none }

/-- What is recorded of an action; whether it succeeded matters for references only. -/
def record [DecidableEq ι] (s : Shared ι) (i : ι) (path : Option Text) (ok : Bool) {α : Type} :
    Action α → Shared ι
  | .look _ | .objects _ => s
  | .loadIndex => { s with seen := Function.update s.seen i s.staged }
  | .lockRefs => { s with lock := some i }
  | .writeRef .. | .writeHead _ => if ok then s.publish W i else s
  | .saveIndex idx => s.saved i idx path

/-- An action of an instance, unless it has to wait. -/
def acts [DecidableEq ι] {α : Type} (i : ι) (path : Option Text) (x : Action α) (s : Shared ι) :
    Option (Except (Fault OmpError) α × Shared ι) :=
  if x.waits s then none
  else
    let (res, r) := (x.op W).run s.repo
    some (res, { s with repo := r }.record W i path res.isOk x)

end Shared

/-- Instances on a shared repository. -/
def Instances.machine (ι : Type) [DecidableEq ι] :
    Machine Action ι (Env × Work) (Shared ι) OmpError where
  script l := l.2.1.script W l.1
  acts i l x s := s.acts W i l.2.1.stagedPath x
  leaves := Shared.unlock

/-! ### What becomes of the changes -/

/-- The tree of a commit, none where there is no commit. -/
def treeOf (s : Store) : Option Hash → Except OmpError (Option Hash)
  | none => .ok none
  | some h => do
    let t ← Repo.commitTree W s h
    .ok (some t)

/-- A tree is that of a commit with all the changes of an index applied, and beyond them only
changes at other paths. -/
def Applied (s : Store) (parent : Option Hash) (consumed : TextMap Stamped) (tree : Hash) : Prop :=
  ∃ base changes s₁ s₂, treeOf W s parent = .ok base ∧
    (buildTree W.toPlatform none base changes).run s₁ = (.ok (some tree), s₂) ∧ s₂ ≤ s ∧
    (∀ (path : Text) (t : Stamped), consumed[path]? = some t → t.change ∈ changes) ∧
    ∀ c ∈ changes, consumed[c.path]? = none ∨
      ∃ (path : Text) (t : Stamped), consumed[path]? = some t ∧ t.change = c

/-- A stored commit on top of another that applies the changes of an index. -/
def Carries (s : Store) (parent : Option Hash) (commit : Hash) (consumed : TextMap Stamped) :
    Prop :=
  ∃ tree author message, Applied W s parent consumed tree ∧
    ⟨.commit, Commit.serialize ⟨tree, parent.toList, author, message⟩⟩ ∈ s.objects ∧
    commit = hashOf W.toPlatform .commit (Commit.serialize ⟨tree, parent.toList, author, message⟩)

/-- The last of a list of commits, or else the commit before them. -/
def tip (start : Option Hash) : List Published → Option Hash
  | [] => start
  | e :: _ => e.head

/-- Each commit is made on top of the one before it. -/
def Chain (s : Store) (start : Option Hash) : List Published → Prop
  | [] => True
  | e :: log => (∃ h, e.head = some h ∧ Carries W s (tip start log) h e.consumed) ∧
      Chain s start log

/-- A file is not one that is staged and would be rebuilt for a schema: its manifest is of another
type, or is at the schema. -/
def SparesFile (idx : Index) (fileType : Text) (hash : Hash) (file : Text × Hash) : Prop :=
  (idx[file.1]?).isSome → ∀ (o : Object) (m : Manifest), o.address W.toPlatform = file.2 →
    Manifest.parse W o.content = .ok m → m.fileType = fileType → m.schemaHash = hash

/-- A re-probe pass, now or when there are more objects, would rebuild no file that is staged. -/
def Repo.Spares (env : Env) (r : Repo) (idx : Index) : Prop :=
  env.deferReprobe = true ∨ ∀ s files, r.store ≤ s →
    ({ r with store := s } : Repo).headManifests W = .ok files →
    ∀ schema ∈ Repo.stagedSchemas (env.order idx), ∀ file ∈ files,
      SparesFile W idx schema.1 schema.2 file

namespace Shared

variable {ι : Type}

/-- **No change is lost, and none is replayed.** -/
structure Accounted (start : Option Hash) (s : Shared ι) : Prop where
  /-- The stamped index is the index. -/
  index : s.repo.index = changesOf s.staged
  /-- A change that was staged is in the index, or in exactly one commit, or another was staged in
  its place. -/
  accounted : ∀ t ∈ s.issued, s.staged[t.path]? = some t ∨ (∃! e, e ∈ s.log ∧ e.Has t) ∨
    t ∈ s.replaced
  /-- What is staged in the place of a change comes later and has its path. -/
  replaced : ∀ t ∈ s.replaced, ∃ t' ∈ s.issued, t'.path = t.path ∧ t.stamp < t'.stamp
  /-- No two commits apply the same change. -/
  once : s.log.Pairwise fun e e' => ∀ t, e.Has t → ¬ e'.Has t
  /-- The commits are made one on top of the other. -/
  chain : Chain W s.repo.store start s.log
  /-- `HEAD` stands for the last of them. -/
  head : ∀ h, s.repo.resolveHead W = .ok h → h = tip start s.log

/-- The condition on an action of an instance.  When it publishes a commit or empties the index, the
index is as the instance loaded it, and so it is when it saves a staged change, but for the path of
that change.  When a commit takes the lock, its pass would rebuild no file that is staged. -/
def Allows (s : Shared ι) (i : ι) (env : Env) (path : Option Text) {α : Type} : Action α → Prop
  | .lockRefs => s.repo.Spares W env (changesOf (s.seen i))
  | .writeRef .. | .writeHead _ => s.staged = s.seen i
  | .saveIndex _ => ∀ q, path ≠ some q → s.staged[q]? = (s.seen i)[q]?
  | .look _ | .objects _ | .loadIndex => True

end Shared

/-! ### The index the pass leaves -/

/-- An index with more changes, each at its path. -/
def Extends (idx idx' : Index) : Prop :=
  (∀ (path : Text) (c : StagedChange), idx[path]? = some c → idx'[path]? = some c) ∧
    ∀ (path : Text) (c : StagedChange), idx'[path]? = some c →
      idx[path]? = some c ∨ idx[path]? = none ∧ c.path = path

namespace Extends

theorem refl (idx : Index) : Extends idx idx := ⟨fun _ _ h => h, fun _ _ h => .inl h⟩

/-- A change at a free path. -/
theorem insert {idx idx' : Index} (h : Extends idx idx') {c : StagedChange}
    (hfree : idx[c.path]? = none) : Extends idx (idx'.insert c.path c) := by
  refine ⟨fun path c' hc' => ?_, fun path c' hc' => ?_⟩
  · rw [TextMap.getElem?_insert, if_neg, h.1 path c' hc']
    rintro rfl
    cases hfree.symm.trans hc'
  · rw [TextMap.getElem?_insert] at hc'
    split_ifs at hc' with hpath
    · cases hc'
      exact .inr ⟨hpath ▸ hfree, hpath⟩
    · exact h.2 path c' hc'

end Extends

section Pass

variable {W} {env : Env} {ctx : PassContext}

/-- A file that is rebuilt is of the type of the schema, and was not at it. -/
theorem rebuilt_of_ok {n : NewSchema} {cache cache' : ProbeOutputCache} {file : Text × Hash}
    {h : Hash} {s s' : Store}
    (hrun : (reprobeFile W ctx n cache file).run s = (.ok (.rebuilt h, cache'), s')) :
    ∃ (o : Object) (m : Manifest), o.address W.toPlatform = file.2 ∧
      Manifest.parse W o.content = .ok m ∧ m.fileType = n.fileType ∧ m.schemaHash ≠ n.hash := by
  obtain ⟨found, s₁, hget, hrun⟩ := Op.bind_eq_ok.1 hrun
  obtain ⟨hget, rfl⟩ := Op.reads_eq_ok.1 hget
  cases hget
  cases ho : s.get W.toPlatform file.2 with
  | none =>
    rw [ho] at hrun
    cases hrun
  | some o =>
    rw [ho] at hrun
    dsimp only at hrun
    cases hm : Manifest.parse W o.content with
    | error e =>
      rw [hm] at hrun
      cases hrun
    | ok m =>
      rw [hm] at hrun
      dsimp only at hrun
      split_ifs at hrun with hskip
      · cases hrun
      · obtain ⟨htype, hschema⟩ := not_or.1 hskip
        exact ⟨o, m, Store.hashOf_of_get ho, hm, not_not.1 htype, hschema⟩

theorem extends_of_reprobeStep {n : NewSchema} {idx : Index} {st st' : PassState}
    {file : Text × Hash} {s s' : Store} (hst : Extends idx st.index)
    (hfile : SparesFile W idx n.fileType n.hash file)
    (hrun : (reprobeStep W ctx n st file).run s = (.ok st', s')) : Extends idx st'.index := by
  obtain ⟨⟨outcome, cache⟩, s₁, hfileRun, hrun⟩ := Op.bind_eq_ok.1 hrun
  dsimp only at hrun
  cases outcome with
  | unrelated =>
    obtain ⟨rfl, -⟩ := Op.pure_eq_ok.1 hrun
    exact hst
  | unreadable reason =>
    obtain ⟨rfl, -⟩ := Op.pure_eq_ok.1 hrun
    exact hst
  | rebuilt h =>
    obtain ⟨o, m, haddr, hm, htype, hne⟩ := rebuilt_of_ok hfileRun
    obtain ⟨rfl, -⟩ := Op.pure_eq_ok.1 hrun
    refine hst.insert (c := ⟨file.1, .upsert, some h⟩) ?_
    by_contra hstaged
    exact hne (hfile (Option.isSome_iff_ne_none.2 hstaged) o m haddr hm htype)
  | failed e =>
    rw [recordOutcome] at hrun
    cases hreason : truncateReason e.display with
    | none =>
      rw [hreason] at hrun
      cases hrun
    | some reason =>
      rw [hreason] at hrun
      obtain ⟨rfl, -⟩ := Op.pure_eq_ok.1 hrun
      exact hst

theorem extends_of_reprobeSchema {heads : TextMap Schema} {files : List (Text × Hash)}
    {idx : Index} {tot tot' : PassTotals} {staged : Text × Hash} {s s' : Store}
    (htot : Extends idx tot.index)
    (hfiles : ∀ file ∈ files, SparesFile W idx staged.1 staged.2 file)
    (hrun : (reprobeSchema W ctx heads files tot staged).run s = (.ok tot', s')) :
    Extends idx tot'.index := by
  obtain ⟨found, s₁, -, hrun⟩ := Op.bind_eq_ok.1 hrun
  cases found with
  | none => cases hrun
  | some o =>
    obtain ⟨schema, s₂, -, hrun⟩ := Op.bind_eq_ok.1 hrun
    dsimp only at hrun
    split_ifs at hrun
    · obtain ⟨rfl, -⟩ := Op.pure_eq_ok.1 hrun
      exact htot
    · obtain ⟨st, s₃, hfold, hrun⟩ := Op.bind_eq_ok.1 hrun
      obtain ⟨rfl, -⟩ := Op.pure_eq_ok.1 hrun
      have hall := Op.foldlM_induction (C := fun _ => True)
        (I := fun rest (st : PassState) _ => Extends idx st.index ∧
          ∀ file ∈ rest, SparesFile W idx staged.1 staged.2 file)
        (fun _ _ _ _ => trivial) ?_ ⟨htot, hfiles⟩ hfold trivial
      · exact hall.1
      · rintro file rest st₁ s₁ st₂ s₂ ⟨hst₁, hrest⟩ hstep -
        exact ⟨extends_of_reprobeStep hst₁ (hrest file List.mem_cons_self) hstep,
          fun f hf => hrest f (List.mem_cons_of_mem _ hf)⟩

/-- **The pass only adds to the index**, if it rebuilds no file that is staged. -/
theorem extends_of_pass {heads : TextMap Schema} {files schemas : List (Text × Hash)} {idx : Index}
    {tot : PassTotals} {s s' : Store}
    (hspares : ∀ schema ∈ schemas, ∀ file ∈ files,
      SparesFile W idx schema.1 schema.2 file)
    (hrun : (schemas.foldlM (reprobeSchema W ctx heads files) ⟨idx, [], []⟩).run s =
      (.ok tot, s')) : Extends idx tot.index := by
  have hall := Op.foldlM_induction (C := fun _ => True)
    (I := fun rest (tot : PassTotals) _ => Extends idx tot.index ∧
      ∀ schema ∈ rest, ∀ file ∈ files, SparesFile W idx schema.1 schema.2 file)
    (fun _ _ _ _ => trivial) ?_ ⟨Extends.refl idx, hspares⟩ hrun trivial
  · exact hall.1
  · rintro schema rest tot₁ s₁ tot₂ s₂ ⟨htot₁, hrest⟩ hstep -
    exact ⟨extends_of_reprobeSchema htot₁ (hrest schema List.mem_cons_self) hstep,
      fun f hf => hrest f (List.mem_cons_of_mem _ hf)⟩

end Pass

/-! ### The invariant -/

section Growth

variable {W} {s s' : Store} {start : Option Hash}

theorem treeOf_mono (hle : s ≤ s') : ∀ {commit : Option Hash} {tree : Option Hash},
    treeOf W s commit = .ok tree → treeOf W s' commit = .ok tree
  | none, _, h => h
  | some _, _, h => by
    obtain ⟨t, ht, h⟩ := except_bind_eq_ok.1 h
    exact except_bind_eq_ok.2 ⟨t, Repo.commitTree_mono hle ht, h⟩

theorem Applied.mono (hle : s ≤ s') {parent : Option Hash} {consumed : TextMap Stamped}
    {tree : Hash} (h : Applied W s parent consumed tree) : Applied W s' parent consumed tree := by
  obtain ⟨base, changes, s₁, s₂, hbase, hbuild, hs₂, hchanges⟩ := h
  exact ⟨base, changes, s₁, s₂, treeOf_mono hle hbase, hbuild, hs₂.trans hle, hchanges⟩

theorem Carries.mono (hle : s ≤ s') {parent : Option Hash} {commit : Hash}
    {consumed : TextMap Stamped} (h : Carries W s parent commit consumed) :
    Carries W s' parent commit consumed := by
  obtain ⟨tree, author, message, happlied, hmem, hcommit⟩ := h
  exact ⟨tree, author, message, happlied.mono hle, Cas.mem_mono hle hmem, hcommit⟩

theorem Chain.mono (hle : s ≤ s') : ∀ {log : List Published}, Chain W s start log →
    Chain W s' start log
  | [], _ => trivial
  | _ :: _, ⟨⟨h, hhead, hcarries⟩, hrest⟩ => ⟨⟨h, hhead, hcarries.mono hle⟩, hrest.mono hle⟩

end Growth

namespace Shared

variable {ι : Type}

/-- What holds of the record between any two actions. -/
structure Inv (start : Option Hash) (s : Shared ι) : Prop where
  index : s.repo.index = changesOf s.staged
  keyed : ∀ (path : Text) (t : Stamped), s.staged[path]? = some t → t.path = path ∧ t ∈ s.issued
  /-- Stamps count what was staged. -/
  stamps : ∀ t ∈ s.issued, t.stamp < s.issued.length
  logged : ∀ e ∈ s.log, ∀ (path : Text) (t : Stamped), e.consumed[path]? = some t → t ∈ s.issued
  accounted : ∀ t ∈ s.issued, s.staged[t.path]? = some t ∨ (∃ e ∈ s.log, e.Has t) ∨ t ∈ s.replaced
  replaced : ∀ t ∈ s.replaced, ∃ t' ∈ s.issued, t'.path = t.path ∧ t.stamp < t'.stamp
  once : s.log.Pairwise fun e e' => ∀ t, e.Has t → ¬ e'.Has t
  /-- While no commit is being published, nothing in the index was consumed. -/
  unspent : s.publishing = none → ∀ e ∈ s.log, ∀ t, e.Has t → s.staged[t.path]? ≠ some t
  /-- Commits are published under the lock. -/
  held : ∀ i, s.publishing = some i → s.lock = some i
  chain : Chain W s.repo.store start s.log
  head : ∀ h, s.repo.resolveHead W = .ok h → h = tip start s.log

/-- What the actions of an instance keep of the rest. -/
structure Guar (i : ι) (s s' : Shared ι) : Prop where
  store : s.repo.store ≤ s'.repo.store
  seen : ∀ j ≠ i, s'.seen j = s.seen j
  lock : ∀ j ≠ i, s.lock = some j → s'.lock = some j
  publishing : ∀ j ≠ i, (s'.publishing = some j ↔ s.publishing = some j)
  /-- While another instance has the lock, references, `HEAD` and commits stay as they are. -/
  refs : ∀ j ≠ i, s.lock = some j →
    s'.repo.refs = s.repo.refs ∧ s'.repo.head = s.repo.head ∧ s'.log = s.log

variable {W} {start : Option Hash} {s s' : Shared ι}

/-- **What the invariant says of the changes.** -/
theorem Inv.toAccounted (hs : s.Inv W start) : s.Accounted W start where
  index := hs.index
  accounted t ht := by
    rcases hs.accounted t ht with hstaged | ⟨e, he, hhas⟩ | hreplaced
    · exact .inl hstaged
    · refine .inr (.inl ⟨e, ⟨he, hhas⟩, ?_⟩)
      rintro e' ⟨he', hhas'⟩
      by_contra hne
      -- two commits would have the change
      have hsymm : Std.Symm fun e e' : Published => ∀ t, e.Has t → ¬ e'.Has t :=
        ⟨fun a b hab t hb ha => hab t ha hb⟩
      exact hs.once.forall he' he hne t hhas' hhas
    · exact .inr (.inr hreplaced)
  replaced := hs.replaced
  once := hs.once
  chain := hs.chain
  head := hs.head

/-! Each kind of step keeps the invariant. -/

theorem Inv.withStore (hs : s.Inv W start) {store : Store} (hle : s.repo.store ≤ store) :
    Inv W start { s with repo := { s.repo with store := store } } :=
  { hs with chain := hs.chain.mono hle }

theorem Inv.load [DecidableEq ι] (hs : s.Inv W start) (i : ι) :
    Inv W start { s with seen := Function.update s.seen i s.staged } := { hs with }

theorem Inv.take (hs : s.Inv W start) (i : ι) (hfree : s.lock = none) :
    Inv W start { s with lock := some i } := by
  refine { hs with held := fun j hj => ?_ }
  cases hfree.symm.trans (hs.held j hj)

theorem Inv.unlock [DecidableEq ι] (hs : s.Inv W start) {i : ι} (hi : s.publishing ≠ some i) :
    Inv W start (s.unlock i) := by
  unfold Shared.unlock
  split_ifs with hlock
  · refine { hs with held := fun j hj => ?_ }
    obtain rfl : i = j := Option.some.inj (hlock.symm.trans (hs.held j hj))
    exact absurd hj hi
  · exact hs

/-- A commit that is published consumes what is in the index. -/
theorem Inv.publish (hs : s.Inv W start) {i : ι} (hlock : s.lock = some i)
    (hi : s.publishing ≠ some i) (hseen : s.staged = s.seen i) {r : Repo} {parent : Option Hash}
    {commit : Hash} (hstore : r.store = s.repo.store) (hindex : r.index = s.repo.index)
    (hparent : s.repo.resolveHead W = .ok parent) (hhead : r.resolveHead W = .ok (some commit))
    (hcarries : Carries W s.repo.store parent commit (s.seen i)) :
    Inv W start ({ s with repo := r }.publish W i) := by
  have hnone : s.publishing = none := by
    by_contra hsome
    obtain ⟨j, hj⟩ := Option.ne_none_iff_exists'.1 hsome
    obtain rfl : i = j := Option.some.inj (hlock.symm.trans (hs.held j hj))
    exact hi hj
  have htip : (r.resolveHead W).toOption.join = some commit := by
    rw [hhead]
    rfl
  refine
    { index := hindex.trans hs.index
      keyed := hs.keyed
      stamps := hs.stamps
      logged := List.forall_mem_cons.2 ⟨fun path t ht => ?_, hs.logged⟩
      accounted := fun t ht => ?_
      replaced := hs.replaced
      once := List.pairwise_cons.2 ⟨fun e he t ht hhas => ?_, hs.once⟩
      unspent := fun hpub => ?_
      held := fun j hj => ?_
      chain := ⟨⟨commit, htip, ?_⟩, ?_⟩
      head := fun g hg => ?_ }
  · rw [← hseen] at ht
    exact (hs.keyed path t ht).2
  · exact (hs.accounted t ht).imp_right (Or.imp_left fun ⟨e, he, hhas⟩ =>
      ⟨e, List.mem_cons_of_mem _ he, hhas⟩)
  · -- what the commit consumes is in the index, and was not consumed before
    rw [Published.Has, ← hseen] at ht
    exact hs.unspent hnone e he t hhas ht
  · cases hpub
  · cases hj
    exact hlock
  · have hprev := hs.head parent hparent
    subst hprev
    change Carries W r.store _ commit (s.seen i)
    rwa [hstore]
  · change Chain W r.store start s.log
    rw [hstore]
    exact hs.chain
  · exact (Except.ok.inj (hg.symm.trans hhead)).trans htip.symm

/-- A commit that is published empties the index of what it consumed. -/
theorem Inv.empty (hs : s.Inv W start) {i : ι}
    (hseen : ∀ q : Text, s.staged[q]? = (s.seen i)[q]?) {e : Published} (he : e ∈ s.log)
    (hconsumed : e.consumed = s.seen i) :
    Inv W start { s with repo := { s.repo with index := ∅ }, staged := ∅, publishing := none } where
  index := rfl
  keyed path t ht := by
    rw [Std.ExtTreeMap.getElem?_empty] at ht
    cases ht
  stamps := hs.stamps
  logged := hs.logged
  accounted t ht := by
    rcases hs.accounted t ht with hstaged | hrest
    · refine .inr (.inl ⟨e, he, ?_⟩)
      rw [Published.Has, hconsumed, ← hseen]
      exact hstaged
    · exact .inr hrest
  replaced := hs.replaced
  once := hs.once
  unspent _ _ _ t _ ht := by
    rw [Std.ExtTreeMap.getElem?_empty] at ht
    cases ht
  held j hj := by cases hj
  chain := hs.chain
  head := hs.head

/-- A change that is staged is new, and takes the place of what is in the index at its path. -/
theorem Inv.stage (hs : s.Inv W start) {i : ι} {path : Text} {c : StagedChange}
    (hseen : ∀ q ≠ path, s.staged[q]? = (s.seen i)[q]?) :
    Inv W start ({ s with repo := { s.repo with
        index := (changesOf (s.seen i)).insert path c } }.saved i
      ((changesOf (s.seen i)).insert path c) (some path)) := by
  generalize htok : (⟨path, c, s.issued.length⟩ : Stamped) = t₀
  have hfresh : s.fresh path ((changesOf (s.seen i)).insert path c) = some t₀ := by
    rw [fresh, TextMap.getElem?_insert, if_pos rfl, Option.map_some, htok]
  have hstaged : s.restamped i path ((changesOf (s.seen i)).insert path c) =
      s.staged.insert path t₀ := by
    rw [restamped, hfresh]
    refine Std.ExtTreeMap.ext_getElem? fun q => ?_
    change ((s.seen i).insert path t₀)[q]? = _
    rw [TextMap.getElem?_insert, TextMap.getElem?_insert]
    split_ifs with hq
    · rfl
    · exact (hseen q (Ne.symm hq)).symm
  have hget : ∀ q : Text, (s.staged.insert path t₀)[q]? = if path = q then some t₀ else s.staged[q]? :=
    fun q => TextMap.getElem?_insert _ _ _ _
  have hpath : t₀.path = path := by rw [← htok]
  have hstamp : t₀.stamp = s.issued.length := by rw [← htok]
  have hnew : ∀ t ∈ s.issued, t ≠ t₀ := by
    rintro t ht rfl
    exact absurd (hs.stamps t ht) (by omega)
  have hissued : s.issued ++ (s.fresh path ((changesOf (s.seen i)).insert path c)).toList =
      s.issued ++ [t₀] := by
    rw [hfresh]
    rfl
  unfold saved
  dsimp only
  change Inv W start { s with
    repo := { s.repo with index := (changesOf (s.seen i)).insert path c }
    staged := s.restamped i path ((changesOf (s.seen i)).insert path c)
    issued := s.issued ++ (s.fresh path ((changesOf (s.seen i)).insert path c)).toList
    replaced := s.replaced ++ s.staged[path]?.toList }
  rw [hstaged, hissued]
  refine
    { index := ?_
      keyed := fun q t ht => ?_
      stamps := fun t ht => ?_
      logged := fun e he q t ht => List.mem_append_left _ (hs.logged e he q t ht)
      accounted := fun t ht => ?_
      replaced := fun t ht => ?_
      once := hs.once
      unspent := fun hpub e he t hhas ht => ?_
      held := hs.held
      chain := hs.chain
      head := hs.head }
  · refine Std.ExtTreeMap.ext_getElem? fun q => ?_
    change ((changesOf (s.seen i)).insert path c)[q]? = (changesOf (s.staged.insert path t₀))[q]?
    rw [TextMap.getElem?_insert, changesOf, changesOf, Std.ExtTreeMap.getElem?_map,
      Std.ExtTreeMap.getElem?_map, hget]
    split_ifs with hq
    · rw [← htok]
      rfl
    · rw [hseen q (Ne.symm hq)]
  · dsimp only at ht ⊢
    rw [hget] at ht
    split_ifs at ht with hq
    · cases ht
      exact ⟨hpath.trans hq, by simp⟩
    · obtain ⟨hkey, hmem⟩ := hs.keyed q t ht
      exact ⟨hkey, List.mem_append_left _ hmem⟩
  · dsimp only at ht ⊢
    rw [List.length_append, List.length_singleton]
    rcases List.mem_append.1 ht with ht | ht
    · exact (hs.stamps t ht).trans (Nat.lt_succ_self _)
    · obtain rfl := List.mem_singleton.1 ht
      omega
  · dsimp only at ht ⊢
    rcases List.mem_append.1 ht with ht | ht
    · rcases hs.accounted t ht with hin | hlog | hrep
      · by_cases hq : path = t.path
        · -- it is replaced
          exact .inr (.inr (List.mem_append_right _ (by rw [hq, hin]; simp)))
        · left
          rw [hget, if_neg hq]
          exact hin
      · exact .inr (.inl hlog)
      · exact .inr (.inr (List.mem_append_left _ hrep))
    · obtain rfl := List.mem_singleton.1 ht
      left
      rw [hget, if_pos hpath.symm]
  · dsimp only at ht ⊢
    rcases List.mem_append.1 ht with ht | ht
    · obtain ⟨t', ht', hrest⟩ := hs.replaced t ht
      exact ⟨t', List.mem_append_left _ ht', hrest⟩
    · obtain ⟨hkey, hmem⟩ := hs.keyed path t (Option.mem_toList.1 ht)
      exact ⟨t₀, by simp, hpath.trans hkey.symm, hstamp ▸ hs.stamps t hmem⟩
  · dsimp only at ht
    rw [hget] at ht
    split_ifs at ht with hq
    · cases ht
      exact hnew _ (hs.logged e he _ _ hhas) rfl
    · exact hs.unspent hpub e he t hhas ht

end Shared

end Omp
