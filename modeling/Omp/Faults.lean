import Omp.Concrete
import Omp.Heads

/-!
# Faults of the disk

Every action of a call may be struck by a fault of the disk, and the call then returns an error.
Objects, references and `HEAD` are written to a file on the side that is then renamed, so a fault
leaves the old file, but for one case: where the renaming fails, the old file is removed and the
renaming tried again.  A file on the side that cannot be written to its end stays, and beside a
reference it is taken for a reference itself.  The index is written in place: the file is cut before
anything is written.

A call that fails leaves the references, `HEAD` and the index as they were
(`Call.unchanged_iff_spared`), except in these three cases and in a fourth: a commit moves HEAD's
branch before it saves the index, so that a fault between leaves the branch moved and the changes
staged.

## Main definitions

* `DiskFault`, `Action.leftBy` : the faults, and what each leaves.
* `Left`, `Unchanged` : what a failed call leaves, and when it is what there was.

## Main results

* `Call.unchanged_iff_spared` : when a failed call leaves everything as it was.
* `Call.commit_struck` : every commit can fail after it has moved HEAD's branch.
-/

namespace Omp

open Lib RepoScript

/-- The faults of the disk. -/
inductive DiskFault where
  /-- A file cannot be read. -/
  | reading
  /-- An object cannot be written. -/
  | writingObjects
  /-- The lock cannot be taken. -/
  | locking
  /-- A reference or `HEAD` cannot be written. -/
  | writing
  /-- A reference cannot be written, and the file on the side stays. -/
  | straying
  /-- A reference or `HEAD` cannot be written, and the old file is gone. -/
  | losing
  /-- The index file cannot be opened. -/
  | saving
  /-- It cannot be written to the end. -/
  | tearing
  deriving DecidableEq

/-- What a failed call leaves: `HEAD` may be gone, and the index file may be torn. -/
structure Left where
  store : Store
  refs : TextMap Hash
  /-- The files on the side that stay among the references. -/
  strays : List Text
  head : Option Text
  index : Option Index

/-- A repository as it is left. -/
def Repo.left (r : Repo) : Left := ⟨r.store, r.refs, [], some r.head, some r.index⟩

variable (W : World) (env : Env)

/-- What an action leaves that is struck by a fault. -/
def Action.leftBy {α : Type} : Action α → Repo → DiskFault → Left → Prop
  | look _, r, .reading, t | loadIndex, r, .reading, t => t = r.left
  | objects x, r, .writingObjects, t =>
    ∃ s, r.store ≤ s ∧ s ≤ (x.run r.store).2 ∧ t = { r with store := s }.left
  | lockRefs, r, .locking, t => t = r.left
  | writeRef _ _, r, .writing, t | writeHead _, r, .writing, t => t = r.left
  | writeRef name _, r, .straying, t =>
    ∃ path stray, refPath W name = .ok path ∧ t = { r.left with strays := [stray] }
  -- there is a file to lose only where the reference exists
  | writeRef name _, r, .losing, t =>
    ∃ path h, refPath W name = .ok path ∧ r.refs[path]? = some h ∧
      t = { r with refs := r.refs.erase path }.left
  | writeHead _, r, .losing, t => t = { r.left with head := none }
  | saveIndex _, r, .saving, t => t = r.left
  | saveIndex _, r, .tearing, t => t = { r.left with index := none }
  | _, _, _, _ => False

/-- A call returns an error and leaves something. -/
def Call.Fails (c : Call) (r : Repo) (f : Option DiskFault) (t : Left) : Prop :=
  Script.Fails (Action.op W) Repo.left (Action.leftBy W) (c.script W env) r f t

/-- What is left is what there was, with objects added at most. -/
structure Unchanged (r : Repo) (t : Left) : Prop where
  refs : t.refs = r.refs
  strays : t.strays = []
  head : t.head = some r.head
  index : t.index = some r.index
  store : r.store ≤ t.store

/-- A fault that leaves a call without effect: it loses no file, leaves none among the references
and does not tear the index, nor does it keep a commit from saving the index. -/
def Call.Spared (c : Call) (f : DiskFault) : Prop :=
  f ≠ .straying ∧ f ≠ .losing ∧ f ≠ .tearing ∧ (c.IsCommit → f ≠ .saving)

/-! ### Calls that are spared -/

/-- The second repository is the first with objects added. -/
def OnlyObjects (r r' : Repo) : Prop :=
  r'.refs = r.refs ∧ r'.head = r.head ∧ r'.index = r.index ∧ r ≤ r'

theorem onlyObjects_refl (r : Repo) : OnlyObjects r r := ⟨rfl, rfl, rfl, le_refl r⟩

variable {W env}

theorem frame_spared (R : Store → Store → Prop) (c : Call) :
    Script.Frame (Action.op W) Repo.left (Action.leftBy W) OnlyObjects c.Spared (Action.Quiet R)
      (fun {β : Type} (x : Action β) => c.IsCommit ∧ x.SavesIndex) where
  trans h₁ h₂ := ⟨h₂.1.trans h₁.1, h₂.2.1.trans h₁.2.1, h₂.2.2.1.trans h₁.2.2.1,
    h₁.2.2.2.trans h₂.2.2.2⟩
  keeps := by
    intro β x hx r
    cases x with
    | look f => exact onlyObjects_refl r
    | objects x => exact ⟨rfl, rfl, rfl, (Repo.onStore x).grows r⟩
    | loadIndex => exact onlyObjects_refl r
    | lockRefs => exact onlyObjects_refl r
    | writeRef _ _ | writeHead _ | saveIndex _ => exact hx.elim
  own := by
    intro β x r r' e h
    cases x with
    | look f =>
      cases congrArg Prod.snd h
      exact onlyObjects_refl r
    | objects x =>
      cases congrArg Prod.snd h
      exact ⟨rfl, rfl, rfl, (Repo.onStore x).grows r⟩
    | loadIndex => cases h
    | lockRefs => cases h
    | writeRef name commit =>
      cases eq_of_movesRef (W := W) (x := .writeRef name commit) trivial h
      exact onlyObjects_refl r
    | writeHead value => cases h
    | saveIndex idx => cases h
  struck := by
    intro β x r f t h hf
    obtain ⟨hstraying, hlosing, htearing, -⟩ := hf
    cases x with
    | objects x =>
      cases f with
      | writingObjects =>
        obtain ⟨s, hs, -, rfl⟩ := h
        exact ⟨{ r with store := s }, ⟨rfl, rfl, rfl, hs⟩, rfl⟩
      | _ => exact h.elim
    | look _ | loadIndex | lockRefs | writeRef _ _ | writeHead _ | saveIndex _ =>
      cases f with
      | straying => exact absurd rfl hstraying
      | losing => exact absurd rfl hlosing
      | tearing => exact absurd rfl htearing
      | _ => first
        | exact h.elim
        | exact ⟨r, onlyObjects_refl r, h⟩
  sure := by
    rintro β x ⟨-, hx⟩ r r' e h
    cases x with
    | saveIndex idx => cases h
    | look _ | objects _ | loadIndex | lockRefs | writeRef _ _ | writeHead _ => exact hx.elim
  safe := by
    rintro β x ⟨hc, hx⟩ r f t h hf
    obtain ⟨-, -, htearing, hsaving⟩ := hf
    cases x with
    | saveIndex idx =>
      cases f with
      | saving => exact hsaving hc rfl
      | tearing => exact htearing rfl
      | _ => exact h.elim
    | look _ | objects _ | loadIndex | lockRefs | writeRef _ _ | writeHead _ => exact hx.elim

/-- **A failed call leaves everything as it was**, unless the disk loses a file, leaves one among
the references or tears the index, or keeps a commit from saving the index. -/
theorem Call.unchanged_of_fails {c : Call} {r : Repo} {f : Option DiskFault} {t : Left}
    (h : c.Fails W env r f t) (hf : ∀ f' ∈ f, c.Spared f') : Unchanged r t := by
  obtain ⟨R, hshape⟩ := @Call.writesOnce W env c
  obtain ⟨r', hsame, rfl⟩ := (frame_spared R c).same_of_fails hshape h hf
  exact ⟨hsame.1, rfl, congrArg some hsame.2.1, congrArg some hsame.2.2.1, hsame.2.2.2⟩

/-! ### Calls that are not spared -/

/-- The next commit of a repository is not the commit that `HEAD` stands for: no commit is its own
parent, as it would hold its own address. -/
def Repo.FreshHead (W : World) (r : Repo) : Prop :=
  ∀ h, r.resolveHead W = .ok (some h) → ∀ c : Commit, c.parents = [h] →
    hashOf W.toPlatform .commit c.serialize ≠ h

theorem not_saving_of_quiet {R : Store → Store → Prop} {α : Type} {x : RepoScript α}
    (hx : Script.Within (Action.Quiet R) x) {r : Repo} {t : Left} :
    ¬ Script.Fails (Action.op W) Repo.left (Action.leftBy W) x r (some .saving) t := by
  intro h
  obtain ⟨β, y, r₁, hleft, hy⟩ := hx.struck h
  cases y with
  | saveIndex idx => exact hy
  | look _ | objects _ | loadIndex | lockRefs | writeRef _ _ | writeHead _ => exact hleft

/-- A commit that is kept from saving the index has moved HEAD's branch, or `HEAD`. -/
theorem publish_moved {root : Option Hash} {author : Author} {message : Text} {r : Repo} {t : Left}
    (h : Script.Fails (Action.op W) Repo.left (Action.leftBy W) (Repo.publish W root author message)
      r (some .saving) t) (hfresh : r.FreshHead W) : ¬ (t.refs = r.refs ∧ t.head = some r.head) := by
  rintro ⟨hrefs, hhead⟩
  cases root with
  | none => exact not_saving_of_quiet (quiet_check (R := fun _ _ => True) _) h
  | some tree =>
    -- no action before the saving is struck by this fault
    cases h with
    | struck h => exact h
    | @later _ _ _ _ _ parent _ _ hread h =>
    obtain ⟨hparent, rfl⟩ := Op.reads_eq_ok.1 hread
    -- a commit that `HEAD` stands for already would be its own parent
    have hnot : parent ≠ some (hashOf W.toPlatform .commit
        (Commit.serialize ⟨tree, parent.toList, author, message⟩)) := fun hown =>
      hfresh _ (hparent.trans (congrArg Except.ok hown)) ⟨tree, parent.toList, author, message⟩
        (congrArg Option.toList hown) rfl
    cases h with
    | struck h => exact h
    | later hput h =>
    obtain ⟨s, hstore, rfl⟩ := Repo.onStore_eq_ok.1 hput
    obtain ⟨rfl, -⟩ := Store.put_eq_ok hstore
    cases h with
    | struck h => exact h
    | @later _ _ _ _ _ head _ _ hread h =>
    obtain ⟨hparse, rfl⟩ := Op.reads_eq_ok.1 hread
    cases head with
    | branch name =>
      cases h with
      | struck h => exact h
      | later hwrite h =>
      obtain ⟨path, r₂, hlift, hmodify⟩ := Op.bind_eq_ok.1 hwrite
      obtain ⟨hpath, rfl⟩ := Op.lift_eq_ok.1 hlift
      cases hmodify
      cases h with
      | later _ h => cases h
      | struck h =>
        cases h
        -- the branch stands for it already
        have hown := congrArg (fun refs : TextMap Hash => refs[path]?) hrefs
        have hresolve : r.resolveHead W = .ok r.refs[path]? :=
          except_bind_eq_ok.2 ⟨_, hparse, except_bind_eq_ok.2 ⟨path, hpath, rfl⟩⟩
        simp only [Repo.left, Std.ExtTreeMap.getElem?_insert_self] at hown
        rw [← hown] at hresolve
        exact hnot (Except.ok.inj (hparent.symm.trans hresolve))
    | detached g =>
      cases h with
      | struck h => exact h
      | later hwrite h =>
      cases hwrite
      cases h with
      | later _ h => cases h
      | struck h =>
        cases h
        -- `HEAD` stands for it already
        have hown := parseHead_hex W.toPlatform
          (hashOf W.toPlatform .commit (Commit.serialize ⟨tree, parent.toList, author, message⟩))
        have hhead : (hashOf W.toPlatform .commit
            (Commit.serialize ⟨tree, parent.toList, author, message⟩)).hex = r.head :=
          Option.some.inj hhead
        rw [hhead] at hown
        have hparse : parseHead W.toPlatform (trim r.head) = .ok (.detached g) := hparse
        rw [hparse] at hown
        have hresolve : r.resolveHead W = .ok (some g) := except_bind_eq_ok.2 ⟨_, hparse, rfl⟩
        cases hown
        exact hnot (Except.ok.inj (hparent.symm.trans hresolve))

/-- A commit that is kept from saving the index has an effect. -/
theorem Call.moved_of_saving {c : Call} (hc : c.IsCommit) {r : Repo} {t : Left}
    (h : c.Fails W env r (some .saving) t) (hfresh : r.FreshHead W) :
    ¬ (t.refs = r.refs ∧ t.head = some r.head) := by
  cases c with
  | commit message author =>
    rcases Script.Fails.of_bind h with h | ⟨_, _, _, h⟩
    · rcases Script.Fails.of_bind h with h | ⟨⟨root, author', summaries⟩, r₁, hbuild, h⟩
      · exact (not_saving_of_quiet (Repo.quiet_buildCommit author) h).elim
      · obtain ⟨-, -, -, s, -, -, -, -, rfl⟩ := Repo.buildCommit_of_ok hbuild
        rcases Script.Fails.of_bind h with h | ⟨_, _, _, h⟩
        · have hmoved := publish_moved h (r := { r with store := s }) hfresh
          exact hmoved
        · cases h
    · cases h
  | add _ | patchFields _ _ | remove _ | branch _ _ | checkout _ => exact hc.elim

/-- A fault that is not spared has an effect. -/
theorem Call.spared_of_unchanged {c : Call} {r : Repo} {f : DiskFault} {t : Left}
    (h : c.Fails W env r (some f) t) (hfresh : r.FreshHead W) (hsame : Unchanged r t) :
    c.Spared f := by
  obtain ⟨R, hshape⟩ := @Call.writesOnce W env c
  obtain ⟨β, x, r₁, hleft, hx⟩ :=
    (frame_spared R c).struck_of_fails onlyObjects_refl hshape h
  refine ⟨?_, ?_, ?_, ?_⟩
  · -- the file on the side is there
    rintro rfl
    cases x with
    | writeRef name commit =>
      obtain ⟨path, stray, -, rfl⟩ := hleft
      cases hsame.strays
    | look _ | objects _ | loadIndex | lockRefs | writeHead _ | saveIndex _ => exact hleft
  · -- the reference is gone, or `HEAD` is
    rintro rfl
    cases x with
    | writeRef name commit =>
      obtain ⟨path, g, -, hsome, rfl⟩ := hleft
      rcases hx with hbefore | ⟨-, hnever⟩
      · have hgone := congrArg (fun refs : TextMap Hash => refs[path]?) hsame.refs
        simp only [Repo.left, Std.ExtTreeMap.getElem?_erase_self] at hgone
        rw [hbefore.1, ← hgone] at hsome
        cases hsome
      · exact hnever
    | writeHead value =>
      cases hleft
      cases hsame.head
    | look _ | objects _ | loadIndex | lockRefs | saveIndex _ => exact hleft
  · -- the index is torn
    rintro rfl
    cases x with
    | saveIndex idx =>
      cases hleft
      cases hsame.index
    | look _ | objects _ | loadIndex | lockRefs | writeRef _ _ | writeHead _ => exact hleft
  · rintro hc rfl
    exact Call.moved_of_saving hc h hfresh ⟨hsame.refs, hsame.head⟩

/-- **A failed call leaves everything as it was exactly when it is spared**: when the disk loses no
file, leaves none among the references, does not tear the index and does not keep a commit from
saving it. -/
theorem Call.unchanged_iff_spared {c : Call} {r : Repo} {f : Option DiskFault} {t : Left}
    (h : c.Fails W env r f t) :
    ((∀ f' ∈ f, c.Spared f') → Unchanged r t) ∧
      (r.FreshHead W → Unchanged r t → ∀ f' ∈ f, c.Spared f') := by
  refine ⟨c.unchanged_of_fails h, fun hfresh hsame f' hf' => ?_⟩
  cases hf'
  exact c.spared_of_unchanged h hfresh hsame

theorem Call.unchanged_iff_spared_demo :
    (∀ f ∈ some DiskFault.saving, (Call.remove "a".toList).Spared f) ∧
      Unchanged Repo.init Repo.init.left := by
  have hpath : Repo.validatePath (demoWorld ⟨[], [], []⟩) "a".toList = .ok () := by rfl
  have hfails : (Call.remove "a".toList).Fails (demoWorld ⟨[], [], []⟩) demoEnv Repo.init
      (some .saving) Repo.init.left :=
    .later (Op.reads_eq_ok.2 ⟨hpath, rfl⟩) (.later (b := ∅) rfl (.struck rfl))
  have hspared : ∀ f ∈ some DiskFault.saving, (Call.remove "a".toList).Spared f := by
    intro f hf
    cases hf
    exact ⟨by decide, by decide, by decide, False.elim⟩
  have hsame := (unchanged_iff_spared hfails).1 hspared
  have hfresh : Repo.init.FreshHead (demoWorld ⟨[], [], []⟩) := fun h hresolve => by
    have hunborn : Repo.init.resolveHead (demoWorld ⟨[], [], []⟩) = .ok none := by decide +kernel
    cases hunborn.symm.trans hresolve
  exact ⟨(unchanged_iff_spared hfails).2 hfresh hsame, hsame⟩

/-! ### A commit that is kept from saving the index -/

/-- The reference or `HEAD` is moved, and the index is not saved. -/
theorem publish_struck {root : Option Hash} {author : Author} {message : Text} {h : Hash}
    {r r' : Repo}
    (hrun : ((Repo.publish W root author message).run (Action.op W)).run r = (.ok h, r')) :
    Script.Fails (Action.op W) Repo.left (Action.leftBy W) (Repo.publish W root author message) r
      (some .saving) { r' with index := r.index }.left := by
  cases root with
  | none =>
    obtain ⟨a, ha, -⟩ := require_eq_ok (k := pure).1 hrun
    cases ha
  | some tree =>
    obtain ⟨parent, hparent, hrun⟩ := check_eq_ok.1 hrun
    refine .later (Op.reads_eq_ok.2 ⟨hparent, rfl⟩) ?_
    rw [put_eq_ok] at hrun
    refine .later (Repo.onStore_eq_ok.2 ⟨_, Store.run_put .., rfl⟩) ?_
    obtain ⟨head, hhead, hrun⟩ := check_eq_ok.1 hrun
    refine .later (Op.reads_eq_ok.2 ⟨hhead, rfl⟩) ?_
    cases head with
    | branch name =>
      obtain ⟨path, hpath, hrun⟩ := writeRef_eq_ok.1 hrun
      obtain ⟨-, rfl⟩ := Op.pure_eq_ok.1 (saveIndex_eq_ok.1 hrun)
      exact .later (Op.bind_eq_ok.2 ⟨path, _, Op.lift_eq_ok.2 ⟨hpath, rfl⟩, rfl⟩) (.struck rfl)
    | detached g =>
      obtain ⟨-, rfl⟩ := Op.pure_eq_ok.1 (saveIndex_eq_ok.1 (writeHead_eq_ok.1 hrun))
      exact .later (b := ()) rfl (.struck rfl)

/-- **Every commit that succeeds can fail after it has moved HEAD's branch**: its changes stay
staged then. -/
theorem Call.commit_struck {message : Text} {author : AuthorOverride} {r r' : Repo}
    (hrun : (((Call.commit message author).script W env).run (Action.op W)).run r = (.ok (), r')) :
    (Call.commit message author).Fails W env r (some .saving) { r' with index := r.index }.left := by
  obtain ⟨res, r₂, hcommit, hrun⟩ := (Script.run_bind_eq_ok _).1 hrun
  obtain ⟨-, rfl⟩ := Op.pure_eq_ok.1 hrun
  obtain ⟨built, r₁, hbuild, hpublish⟩ := Repo.commit_of_ok hcommit
  obtain ⟨-, -, -, s, -, -, -, -, rfl⟩ := Repo.buildCommit_of_ok hbuild
  exact .bind_left (.bind_right hbuild (.bind_left (publish_struck hpublish)))

/-- A repository with a configuration staged. -/
def demoStaged : Repo :=
  Repo.init.after (demoWorld ⟨[], [], []⟩) demoEnv [.add ⟨"omp.toml".toList, [], none, none⟩]

/-- The first commit of a repository. -/
def demoCommitCall : Call := .commit "first".toList ⟨none, none, none⟩

/-- **A failed commit moves a branch and leaves its changes staged.** -/
theorem failed_commit_moves_branch :
    ∃ t, (Repo.lts (demoWorld ⟨[], [], []⟩)).Reachable (fun _ _ => True) Repo.init demoStaged ∧
      demoCommitCall.Fails (demoWorld ⟨[], [], []⟩) demoEnv demoStaged (some .saving) t ∧
      t.index = some demoStaged.index ∧ t.refs ≠ demoStaged.refs := by
  obtain ⟨u, hrun⟩ := Op.exists_of_isOk (r := ((demoCommitCall.script (demoWorld ⟨[], [], []⟩)
    demoEnv).run (Action.op (demoWorld ⟨[], [], []⟩))).run demoStaged) (by decide +kernel)
  refine ⟨_, Repo.reachable_after _ (.refl _) fun _ _ _ => trivial, Call.commit_struck hrun, rfl, ?_⟩
  have hbefore : demoStaged.refs["refs/heads/main".toList]?.isSome = false := by decide +kernel
  have hafter : (((demoCommitCall.script (demoWorld ⟨[], [], []⟩) demoEnv).run
      (Action.op (demoWorld ⟨[], [], []⟩))).run demoStaged).2.refs["refs/heads/main".toList]?.isSome
        = true := by decide +kernel
  intro heq
  rw [← heq] at hbefore
  cases hafter.symm.trans hbefore

end Omp
