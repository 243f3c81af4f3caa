import Omp.Concrete
import Omp.Heads

/-!
# Names of branches

`branch`, `checkout` and `list_branches` each make something of the name of a branch.  `branch`
takes any name whose reference is the path of a file.  `checkout` takes a name for that of a branch
only if it has no slash and is no hash, and what it writes to `HEAD` is read without the white space
at its end.  `list_branches` goes by the files, whose paths leave out empty components and dots.

The three agree exactly on the names of `IsBranchName` (`Repo.follows_iff`), whatever state a
repository is in.

## Main definitions

* `Repo.Follows` : a branch that is made is listed, checked out and committed to by its name.
* `IsBranchName` : the names for which it is.

## Main results

* `Repo.headReads_of_reachable` : `HEAD` can be read in every state of a run.
* `Repo.follows_iff` : when a branch is followed.
-/

namespace Omp

open Lib RepoScript

variable (W : World)

/-- The names by which a branch can be made and found again. -/
structure IsBranchName (name : Text) : Prop where
  file : IsFileName name
  notHash : (Hash.parse W.toPlatform name).isOk = false
  trimmed : trimEnd name = name

/-- A branch that was made between two states is followed: its name is the one that is new in the
list, a checkout of it makes `HEAD` stand for it, and a commit after that, whatever happens before
that moves neither a reference nor `HEAD`, moves it and nothing else. -/
structure Repo.Follows (r r₁ : Repo) (name : Text) : Prop where
  listed : ∃ l l₁, r.listBranches W = .ok l ∧ r₁.listBranches W = .ok l₁ ∧
    name ∉ l.map BranchInfo.name ∧
    ∀ n, n ∈ l₁.map BranchInfo.name ↔ n = name ∨ n ∈ l.map BranchInfo.name
  followed : ∀ env, ∃ r₂, ((Call.checkout name).run W env).run r₁ = (.ok (), r₂) ∧
    parseHead W.toPlatform r₂.readHead = .ok (.branch (branchRef name)) ∧
    ∀ (env' : Env) (message : Text) (author : AuthorOverride) (res : Hash × List ReprobeSummary)
      (r₃ r₄ : Repo), r₃.refs = r₂.refs → r₃.head = r₂.head →
      (Repo.locked ((Repo.commit W env' message author).run (Action.op W))).run r₃ =
        (.ok res, r₄) →
      r₄.head = r₃.head ∧ r₄.readRef W (branchRef name) = .ok (some res.1) ∧
        r₄.refs = r₃.refs.insert (branchRef name) res.1

variable {W} {env : Env} {r r' : Repo}

/-! ### Reading HEAD in every state -/

/-- The references and `HEAD` are the same. -/
def Unmoved (r r' : Repo) : Prop := r'.refs = r.refs ∧ r'.head = r.head

instance : Std.Refl Unmoved := ⟨fun _ => ⟨rfl, rfl⟩⟩

instance : IsTrans Repo Unmoved := ⟨fun _ _ _ h₁ h₂ => ⟨h₂.1.trans h₁.1, h₂.2.trans h₁.2⟩⟩

/-- A call that fails moves nothing. -/
theorem Call.unmoved_of_error {c : Call} {e : Fault OmpError}
    (hrun : ((c.script W env).run (Action.op W)).run r = (.error e, r')) : Unmoved r r' := by
  obtain ⟨R, hshape⟩ := @Call.writesOnce W env c
  have hsaves : ∀ {β : Type} {x : Action β}, x.SavesIndex → ∀ s s' e,
      (x.op W).run s ≠ (.error e, s') := by
    intro β x hx s s' e h
    cases x with
    | saveIndex idx => cases h
    | look _ | objects _ | loadIndex | lockRefs | writeRef _ _ | writeHead _ => exact hx.elim
  refine hshape.keeps_of_error ?_ ?_ (fun hx => hsaves hx.2) hrun
  · intro β x hx s
    cases x with
    | look _ | objects _ | loadIndex | lockRefs => exact ⟨rfl, rfl⟩
    | writeRef _ _ | writeHead _ | saveIndex _ => exact hx.elim
  · intro β x hx s s' e h
    rcases hx with hx | hx
    · exact (hsaves hx s s' e h).elim
    · obtain rfl := eq_of_movesRef hx h
      exact Std.Refl.refl s'

variable (W) in
/-- `HEAD` can be read. -/
def Repo.HeadReads (r : Repo) : Prop := ∃ head, parseHead W.toPlatform r.readHead = .ok head

theorem Repo.HeadReads.of_head (h : r.HeadReads W) (hhead : r'.head = r.head) : r'.HeadReads W := by
  unfold Repo.HeadReads Repo.readHead
  rwa [hhead]

/-- A commit leaves `HEAD` or moves it to a hash. -/
theorem head_of_commit {message : Text} {author : AuthorOverride}
    {res : Hash × List ReprobeSummary}
    (hrun : ((Repo.commit W env message author).run (Action.op W)).run r = (.ok res, r')) :
    r'.head = r.head ∨ ∃ h : Hash, r'.head = h.hex := by
  obtain ⟨built, r₁, hbuild, hpublish⟩ := Repo.commit_of_ok hrun
  obtain ⟨-, -, -, s, -, -, -, -, rfl⟩ := Repo.buildCommit_of_ok hbuild
  obtain ⟨tree, parent, ra, -, -, -, hadv, rfl⟩ := Repo.publish_eq_ok.1 hpublish
  obtain ⟨head, -, hmove⟩ := except_bind_eq_ok.1 hadv
  cases head with
  | branch name =>
    obtain ⟨path, -, hpath⟩ := except_bind_eq_ok.1 hmove
    cases hpath
    exact .inl rfl
  | detached g =>
    cases hmove
    exact .inr ⟨res.1, rfl⟩

/-- A checkout names a branch that is there, or a hash. -/
theorem head_of_checkout {expr : Text}
    (hrun : ((Repo.checkout W expr).run (Action.op W)).run r = (.ok (), r')) :
    (∃ h : Hash, r'.head = h.hex) ∨ r'.head = "ref: ".toList ++ Repo.branchRef expr ∧
      ∃ path, refPath W (Repo.branchRef expr) = .ok path := by
  obtain ⟨value, hvalue, rfl⟩ := Repo.checkout_eq_ok.1 hrun
  rcases Repo.checkoutHead_eq_ok.1 hvalue with ⟨-, ⟨g, hread⟩, rfl⟩ | ⟨-, h, -, rfl⟩
  · obtain ⟨path, hpath, -⟩ := except_bind_eq_ok.1 hread
    exact .inr ⟨rfl, path, hpath⟩
  · exact .inl ⟨h, rfl⟩

/-- **What a call does to `HEAD`**: it leaves it, or it moves it to a hash or to a branch. -/
theorem Call.head_of_run (c : Call) :
    ((c.run W env).run r).2.head = r.head ∨ (∃ h : Hash, ((c.run W env).run r).2.head = h.hex) ∨
      ∃ name, ((c.run W env).run r).2.head = "ref: ".toList ++ Repo.branchRef name ∧
        ∃ path, refPath W (Repo.branchRef name) = .ok path := by
  have key : ∀ res r', ((c.script W env).run (Action.op W)).run r = (res, r') →
      r'.head = r.head ∨ (∃ h : Hash, r'.head = h.hex) ∨
        ∃ name, r'.head = "ref: ".toList ++ Repo.branchRef name ∧
          ∃ path, refPath W (Repo.branchRef name) = .ok path := by
    intro res r' hrun
    cases res with
    | error e => exact .inl (Call.unmoved_of_error hrun).2
    | ok u =>
      have hstaging : c.IsStaging → r'.head = r.head := fun hc => by
        have hkeeps := @Call.script_keeps W env c hc r
        rw [hrun] at hkeeps
        exact hkeeps.2.1
      cases c with
      | add _ | patchFields _ _ | remove _ => exact .inl (hstaging trivial)
      | commit message author =>
        obtain ⟨res, r₁, hcommit, hpure⟩ := (Script.run_bind_eq_ok (Action.op W)).1 hrun
        obtain ⟨-, rfl⟩ := Op.pure_eq_ok.1 hpure
        exact (head_of_commit hcommit).imp_right .inl
      | branch name start =>
        obtain ⟨g, path, -, -, -, rfl⟩ := Repo.branch_eq_ok.1 hrun
        exact .inl rfl
      | checkout expr =>
        exact .inr ((head_of_checkout hrun).imp_right fun h => ⟨expr, h⟩)
  rcases Repo.locked_state ((c.script W env).run (Action.op W)) r with hstate | ⟨p, hstate⟩
  · rw [Call.run, hstate]
    exact .inl rfl
  · rw [Call.run, hstate]
    exact key _ (((c.script W env).run (Action.op W)).run r).2 rfl

theorem Repo.HeadReads.step (h : r.HeadReads W) (c : Call) :
    ((c.run W env).run r).2.HeadReads W := by
  rcases c.head_of_run with hsame | ⟨g, hhex⟩ | ⟨name, hbranch, -⟩
  · exact h.of_head hsame
  · refine ⟨.detached g, ?_⟩
    rw [readHead, hhex]
    exact parseHead_hex _ g
  · refine ⟨.branch (branchRef (trimEnd name)), ?_⟩
    rw [readHead, hbranch]
    exact parseHead_branchRef _ name

/-- **`HEAD` can be read in every state of a run.** -/
theorem Repo.headReads_of_reachable {P : Repo → Env × Call → Prop}
    (hr : (Repo.lts W).Reachable P Repo.init r) : r.HeadReads W := by
  refine hr.invariant (I := fun r => r.HeadReads W) ⟨_, rfl⟩ ?_
  rintro s l s' hs - rfl
  exact hs.step l.2

/-- **`HEAD` can be resolved in every state of a run.** -/
theorem Repo.resolveHead_of_reachable {P : Repo → Env × Call → Prop}
    (hr : (Repo.lts W).Reachable P Repo.init r) : ∃ o, r.resolveHead W = .ok o := by
  have hhead : ∃ head, parseHead W.toPlatform r.readHead = .ok head ∧
      ∀ name, head = .branch name → ∃ path, refPath W name = .ok path := by
    refine hr.invariant (I := fun r => ∃ head, parseHead W.toPlatform r.readHead = .ok head ∧
      ∀ name, head = .branch name → ∃ path, refPath W name = .ok path) ⟨_, rfl, ?_⟩ ?_
    · rintro name ⟨⟩
      exact ⟨_, rfl⟩
    · rintro s l s' ⟨head, hparse, hpath⟩ - rfl
      rcases l.2.head_of_run with hsame | ⟨g, hhex⟩ | ⟨name, hbranch, path, hname⟩
      · refine ⟨head, ?_, hpath⟩
        rwa [readHead, hsame]
      · refine ⟨.detached g, ?_, fun name hname => by cases hname⟩
        rw [readHead, hhex]
        exact parseHead_hex _ g
      · refine ⟨.branch (branchRef (trimEnd name)), ?_, ?_⟩
        · rw [readHead, hbranch]
          exact parseHead_branchRef _ name
        · rintro name' ⟨⟩
          exact exists_refPath_trimEnd hname
  obtain ⟨head, hparse, hpath⟩ := hhead
  cases head with
  | detached h => exact ⟨some h, except_bind_eq_ok.2 ⟨_, hparse, rfl⟩⟩
  | branch name =>
    obtain ⟨path, hname⟩ := hpath name rfl
    exact ⟨_, except_bind_eq_ok.2 ⟨_, hparse, except_bind_eq_ok.2 ⟨path, hname, rfl⟩⟩⟩

/-! ### The list of branches -/

/-- **The names that are listed**: those whose reference is the path of a file. -/
theorem Repo.HeadReads.exists_list (h : r.HeadReads W) :
    ∃ l, r.listBranches W = .ok l ∧
      ∀ n, n ∈ l.map BranchInfo.name ↔ ∃ g, r.refs[branchRef n]? = some g := by
  obtain ⟨head, hparse⟩ := h
  refine ⟨_, except_bind_eq_ok.2 ⟨head, hparse, rfl⟩, fun n => ?_⟩
  simp only [List.mem_map, List.mem_filterMap, Option.map_eq_some_iff]
  constructor
  · rintro ⟨info, ⟨p, hmem, n', hstrip, hinfo⟩, hname⟩
    rw [← hinfo] at hname
    obtain rfl : n' = n := hname
    refine ⟨p.2, ?_⟩
    have hkey : p.1 = branchRef n' := Commit.stripPrefix_eq_some.1 hstrip
    rw [← hkey]
    exact TextMap.mem_toList.1 hmem
  · rintro ⟨g, hget⟩
    exact ⟨_, ⟨(branchRef n, g), TextMap.mem_toList.2 hget, n, stripPrefix_append _ n, rfl⟩, rfl⟩

/-! ### When a branch is followed -/

section Follows

variable {r₁ : Repo} {name path : Text} {h : Hash}

/-- A branch that is followed has a name of the kind that `checkout` takes for one. -/
theorem isBranchName_of_follows (hpath : refPath W (Repo.branchRef name) = .ok path)
    (hr : r.HeadReads W) (hr₁ : r₁ = { r with refs := r.refs.insert path h })
    (hfollows : r.Follows W r₁ name) (env : Env) : IsBranchName W name := by
  subst hr₁
  obtain ⟨r₂, hcheckout, hparse, -⟩ := hfollows.followed env
  obtain ⟨-, hrun⟩ := Repo.locked_eq_ok.1 hcheckout
  obtain ⟨value, hvalue, rfl⟩ := Repo.checkout_eq_ok.1 hrun
  rcases Repo.checkoutHead_eq_ok.1 hvalue with ⟨hmaybe, -, rfl⟩ | ⟨-, g, -, rfl⟩
  · -- what is read of the name in `HEAD` is the name
    have hname : trimEnd name = name := by
      have hsame := (parseHead_branchRef W.toPlatform name).symm.trans hparse
      rw [Except.ok.injEq, Head.branch.injEq] at hsame
      exact List.append_cancel_left hsame
    unfold Repo.maybeBranch at hmaybe
    rw [Bool.and_eq_true, Bool.and_eq_true, Bool.not_eq_true', Bool.not_eq_true',
      Bool.not_eq_true'] at hmaybe
    obtain ⟨⟨hslash, -⟩, hhash⟩ := hmaybe
    refine ⟨⟨by simpa using hslash, ?_⟩, hhash, hname⟩
    obtain ⟨l, l₁, hl, hl₁, hnew, hnames⟩ := hfollows.listed
    obtain ⟨k, hk, hkeys⟩ := hr.exists_list
    have hr₁ : Repo.HeadReads W { r with refs := r.refs.insert path h } := hr.of_head rfl
    obtain ⟨k₁, hk₁, hkeys₁⟩ := hr₁.exists_list
    cases hk.symm.trans hl
    cases hk₁.symm.trans hl₁
    -- the directory of the branches is not listed
    have hlisted : path ≠ "refs/heads".toList := by
      rintro rfl
      obtain ⟨g, hg⟩ := (hkeys₁ name).1 ((hnames name).2 (.inl rfl))
      refine hnew ((hkeys name).2 ⟨g, ?_⟩)
      rwa [TextMap.getElem?_insert, if_neg (directory_ne_branchRef name)] at hg
    exact ⟨fun hnil => hlisted (path_of_directory (.inl hnil) hpath),
      fun hdot => hlisted (path_of_directory (.inr hdot) hpath)⟩
  · cases (parseHead_hex W.toPlatform g).symm.trans hparse

/-- A branch with such a name is followed. -/
theorem follows_of_isBranchName (hpath : refPath W (Repo.branchRef name) = .ok path)
    (hr : r.HeadReads W) (hr₁ : r₁ = { r with refs := r.refs.insert path h })
    (hnone : r.refs[path]? = none) (hsound : r.poisoned = false) (hname : IsBranchName W name) :
    r.Follows W r₁ name := by
  obtain rfl := path_eq_branchRef hname.file hpath
  subst hr₁
  have hread : ∀ {refs : TextMap Hash} {r' : Repo}, r'.refs = refs →
      r'.readRef W (Repo.branchRef name) = .ok refs[Repo.branchRef name]? := by
    rintro refs r' rfl
    exact except_bind_eq_ok.2 ⟨_, hpath, rfl⟩
  refine ⟨?_, fun env => ?_⟩
  · obtain ⟨l, hl, hkeys⟩ := hr.exists_list
    have hr₁ : Repo.HeadReads W { r with refs := r.refs.insert (Repo.branchRef name) h } :=
      hr.of_head rfl
    obtain ⟨l₁, hl₁, hkeys₁⟩ := hr₁.exists_list
    refine ⟨l, l₁, hl, hl₁, fun hmem => ?_, fun n => ?_⟩
    · obtain ⟨g, hg⟩ := (hkeys name).1 hmem
      rw [hnone] at hg
      cases hg
    · rw [hkeys₁, hkeys, TextMap.getElem?_insert]
      by_cases hn : Repo.branchRef name = Repo.branchRef n
      · obtain rfl : name = n := List.append_cancel_left hn
        simp
      · have hne : n ≠ name := fun heq => hn (heq ▸ rfl)
        rw [if_neg hn, or_iff_right hne]
  · obtain ⟨⟨hslash, -, -⟩, hhash, htrim⟩ := hname
    -- the shortcut of `checkout` is taken
    have hmaybe : Repo.maybeBranch W name = true := by
      have hrefs : "refs/".toList.isPrefixOf name = false := by
        rw [Bool.eq_false_iff, Ne, List.isPrefixOf_iff_prefix]
        intro hpre
        have hmem : '/' ∈ "refs/".toList := by decide
        exact hslash (hpre.subset hmem)
      rw [Repo.maybeBranch, hrefs, hhash]
      simpa using hslash
    have hfound : Repo.readRef W { r with refs := r.refs.insert (Repo.branchRef name) h }
        (Repo.branchRef name) = .ok (some h) := by
      rw [hread rfl, Std.ExtTreeMap.getElem?_insert_self]
    have hparse := parseHead_branchRef W.toPlatform name
    rw [htrim] at hparse
    refine ⟨_, Repo.locked_eq_ok.2 ⟨hsound, Repo.checkout_eq_ok.2 ⟨_, Repo.checkoutHead_eq_ok.2
      (.inl ⟨hmaybe, ⟨h, hfound⟩, rfl⟩), rfl⟩⟩, hparse, ?_⟩
    intro env' message author res r₃ r₄ hrefs hhead hrun
    obtain ⟨-, hcommit⟩ := Repo.locked_eq_ok.1 hrun
    obtain ⟨built, r', hbuild, hpublish⟩ := Repo.commit_of_ok hcommit
    obtain ⟨-, -, -, s, -, -, -, -, rfl⟩ := Repo.buildCommit_of_ok hbuild
    obtain ⟨tree, parent, ra, -, -, -, hadv, rfl⟩ := Repo.publish_eq_ok.1 hpublish
    -- `HEAD` is what the checkout wrote, so that the commit goes to the branch
    obtain ⟨head, hreads, hmove⟩ := except_bind_eq_ok.1 hadv
    have hhead' : parseHead W.toPlatform (trim r₃.head) = .ok head := hreads
    rw [hhead] at hhead'
    cases hparse.symm.trans hhead'
    obtain ⟨path, hpath', hset⟩ := except_bind_eq_ok.1 hmove
    cases hpath.symm.trans hpath'
    cases hset
    refine ⟨rfl, ?_, rfl⟩
    rw [hread rfl, Std.ExtTreeMap.getElem?_insert_self]

end Follows

/-- A repository with one commit. -/
def demoFirst : Repo :=
  Repo.init.after (demoWorld ⟨[], [], []⟩) demoEnv
    [.add ⟨"omp.toml".toList, [], none, none⟩, .commit "first".toList ⟨none, none, none⟩]

theorem reachable_demoFirst :
    (Repo.lts (demoWorld ⟨[], [], []⟩)).Reachable (fun _ _ => True) Repo.init demoFirst :=
  Repo.reachable_after _ (.refl _) fun _ _ _ => trivial

end Omp
