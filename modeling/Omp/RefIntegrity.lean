import Omp.CommitReaders
import Omp.Concrete
import Omp.Heads

/-!
# Referential integrity

`HEAD` and the branches stand for commits that are stored, as is the tree of each.  This holds in
every state of a run (`Repo.refs_resolve`) unless one of two doors is used: `branch` and `checkout`
take a hash they are given for a commit without looking, and an author whose text has lines of its
own can give a commit parents that it does not have.

The invariant behind it says more: every commit that is stored, not only the ones with a name, has
its tree and its parents in the store, so that counting ancestors never leaves it.

## Main definitions

* `Store.HasCommit`, `Repo.RefsResolve` : what holds of `HEAD` and the branches.
* `Repo.Integral` : the invariant.
* `Call.Sound` : the calls that keep to it.

## Main results

* `Repo.Integral.step` : a sound call keeps the invariant, however it ends.
* `Repo.refs_resolve` : `HEAD` and the branches in every state of a run of sound calls.
-/

namespace Omp

open Lib RepoScript

variable (W : World)

/-- A commit that is stored, with its tree. -/
def Store.HasCommit (s : Store) (h : Hash) : Prop :=
  ∃ tree, Repo.commitTree W s h = .ok tree ∧ s.Has W.toPlatform .tree tree

/-- `HEAD` and each branch stand for nothing or for a commit that is stored. -/
structure Repo.RefsResolve (r : Repo) : Prop where
  head : ∃ o, r.resolveHead W = .ok o ∧ ∀ h ∈ o, r.store.HasCommit W h
  branches : ∀ name h, r.readRef W (branchRef name) = .ok (some h) → r.store.HasCommit W h

/-! ### Parents -/

/-- The parent a header line names. -/
def Commit.lineParent (P : Platform) (l : Text) : Option Hash :=
  (stripPrefix "parent ".toList l).bind fun rest => (Hash.parse P rest).toOption

/-- The parents that the lines before an empty one name, in order. -/
def Commit.parentsOfLines (P : Platform) (ls : List Text) : List Hash :=
  (ls.takeWhile (· ≠ [])).filterMap (Commit.lineParent P)

/-- The parents that an author's text adds to a commit: those that its lines name, but for the
first. -/
def Author.forgedParents (P : Platform) (a : Author) : List Hash :=
  Commit.parentsOfLines P (a.format.splitOn '\n').tail

namespace Commit

variable {P : Platform}

theorem parentsOfLines_cons {l : Text} (hl : l ≠ []) (ls : List Text) :
    parentsOfLines P (l :: ls) = (lineParent P l).toList ++ parentsOfLines P ls := by
  rw [parentsOfLines, List.takeWhile_cons_of_pos (by simpa using hl), List.filterMap_cons]
  cases lineParent P l <;> rfl

theorem parentsOfLines_append_nil (ls ms : List Text) :
    parentsOfLines P (ls ++ [] :: ms) = parentsOfLines P ls := by
  induction ls with
  | nil => rfl
  | cons l ls ih =>
    by_cases hl : l = []
    · subst hl
      rfl
    · rw [List.cons_append, parentsOfLines_cons hl, parentsOfLines_cons hl, ih]

theorem lineParent_parent (h : Hash) : lineParent P ("parent ".toList ++ h.hex) = some h := by
  rw [lineParent, stripPrefix_append, Option.bind_some, Hash.parse_hex]
  rfl

theorem lineParent_of_ne {w : Text} (hw : ¬ "parent ".toList <+: w ∧ ¬ w <+: "parent ".toList)
    (rest : Text) : lineParent P (w ++ rest) = none := by
  rw [lineParent, stripPrefix_of_ne hw]
  rfl

/-- What one header line says about the parents. -/
theorem parents_of_readHeader {hs hs' : Headers} {l : Text} (h : readHeader P hs l = .ok hs') :
    hs'.parents = hs.parents ++ (lineParent P l).toList := by
  rcases readHeader_cases h with
    ⟨rest, t, rfl, -, rfl⟩ | ⟨rest, p, rfl, hp, rfl⟩ | ⟨rest, a, rfl, -, rfl⟩
  · rw [lineParent_of_ne (by decide)]
    exact (List.append_nil _).symm
  · rw [lineParent, stripPrefix_append, Option.bind_some, hp]
    rfl
  · rw [lineParent_of_ne (by decide)]
    exact (List.append_nil _).symm

theorem parents_of_readHeaders {ls : List Text} {hs hs' : Headers} {body : Text}
    (h : readHeaders P ls hs = .ok (hs', body)) :
    hs'.parents = hs.parents ++ parentsOfLines P ls := by
  induction ls generalizing hs with
  | nil =>
    cases h
    exact (List.append_nil _).symm
  | cons l ls ih =>
    rw [readHeaders] at h
    split_ifs at h with hnil
    · cases h
      subst hnil
      exact (List.append_nil _).symm
    · obtain ⟨hs₁, hline, hrest⟩ := except_bind_eq_ok.1 h
      rw [ih hrest, parents_of_readHeader hline, parentsOfLines_cons hnil, List.append_assoc]

/-- **The parents that are read of a commit**: its own, and those its author's text adds. -/
theorem parents_of_parse_serialize {c d : Commit} (h : parse P c.serialize = .ok d) :
    d.parents = c.parents ++ c.author.forgedParents P := by
  rw [← parseWithCommitKey_none, ← serializeWithCommitKey_none (P := P)] at h
  obtain ⟨s, body, hutf8, hread⟩ := headers_of_parse h
  rw [serializeWithCommitKey, fromUtf8_utf8] at hutf8
  cases hutf8
  have hne : ∀ {w t : Text}, w ≠ [] → w ++ t ≠ [] := fun hw => List.append_ne_nil_of_left_ne_nil hw _
  have hown : ∀ (ps : List Hash) (ls : List Text),
      parentsOfLines P ((ps.map fun p => "parent ".toList ++ p.hex) ++ ls) =
        ps ++ parentsOfLines P ls := by
    intro ps ls
    induction ps with
    | nil => rfl
    | cons p ps ih =>
      rw [List.map_cons, List.cons_append, parentsOfLines_cons (hne (by decide)), lineParent_parent,
        ih]
      rfl
  -- the author's text starts on a line that names no parent, and ends at an empty line
  have hauthor : ∀ body : Text, parentsOfLines P
      (("author ".toList ++ c.author.format ++ '\n' :: '\n' :: body).splitOn '\n') =
        c.author.forgedParents P := by
    intro body
    have hempty : ('\n' :: body).splitOn '\n' = [] :: body.splitOn '\n' :=
      splitOn_append_cons (l := []) List.not_mem_nil body
    rw [splitOn_append_sep, splitOn_append_left (by decide), hempty, parentsOfLines_append_nil,
      Author.forgedParents]
    cases hsplit : c.author.format.splitOn '\n' with
    | nil => rfl
    | cons l ls =>
      rw [List.modifyHead_cons, parentsOfLines_cons (hne (by decide)), lineParent_of_ne (by decide)]
      rfl
  have hparents := parents_of_readHeaders hread
  rw [splitOn_headerText_append, parentsOfLines_cons (hne (by decide)), lineParent_of_ne (by decide),
    hown, hauthor] at hparents
  exact hparents

end Commit

/-! ### What is stored -/

variable {W}

section Stored

variable {s s' : Store} {key : Option Key}

theorem Store.HasCommit.mono (hle : s ≤ s') {h : Hash} (hh : s.HasCommit W h) :
    s'.HasCommit W h := by
  obtain ⟨tree, htree, hstored⟩ := hh
  exact ⟨tree, Repo.commitTree_mono hle htree, hstored.mono hle⟩

theorem has_of_storeTree {t : Tree} {h : Hash}
    (hrun : (storeTree W.toPlatform key t).run s = (.ok h, s'))
    (hcf : s'.CollisionFree W.toPlatform) : s'.Has W.toPlatform .tree h :=
  ⟨_, Store.get_of_put hrun (le_refl s') hcf⟩

theorem has_of_loadTree {t : Tree} {h : Hash} (hload : loadTree W.toPlatform s key h = .ok t) :
    s.Has W.toPlatform .tree h := by
  unfold loadTree at hload
  cases hget : s.get W.toPlatform h with
  | none => rw [hget] at hload; cases hload
  | some o =>
    rw [hget] at hload
    obtain ⟨type, content⟩ := o
    by_cases htype : type = .tree
    · subst htype
      exact ⟨content, hget⟩
    · dsimp only at hload
      rw [if_neg htype] at hload
      cases hload

/-- What a write makes of a tree is stored. -/
theorem has_of_putInner {entry : Entry} {parts : List Text} {o : Option Hash} {h : Hash}
    (hrun : (putInner W.toPlatform key entry parts o).run s = (.ok h, s'))
    (hcf : s'.CollisionFree W.toPlatform) : s'.Has W.toPlatform .tree h := by
  cases parts with
  | nil => cases hrun
  | cons head rest =>
    -- the last thing done is to store a tree, at the end of a path as well as before it
    cases rest with
    | nil =>
      obtain ⟨t, s₁, -, hrest⟩ := Op.bind_eq_ok.1 hrun
      obtain ⟨u, s₂, -, hstore⟩ := Op.bind_eq_ok.1 hrest
      exact has_of_storeTree hstore hcf
    | cons next rest =>
      obtain ⟨t, s₁, -, hrest⟩ := Op.bind_eq_ok.1 hrun
      obtain ⟨child, s₂, -, hrest⟩ := Op.bind_eq_ok.1 hrest
      obtain ⟨g, s₃, -, hrest⟩ := Op.bind_eq_ok.1 hrest
      obtain ⟨u, s₄, -, hstore⟩ := Op.bind_eq_ok.1 hrest
      exact has_of_storeTree hstore hcf

theorem has_of_putAt {entry : Entry} {path : Text} {o : Option Hash} {h : Hash}
    (hrun : (putAt W.toPlatform key o path entry).run s = (.ok h, s'))
    (hcf : s'.CollisionFree W.toPlatform) : s'.Has W.toPlatform .tree h := by
  obtain ⟨parts, s₁, -, hrest⟩ := Op.bind_eq_ok.1 hrun
  split_ifs at hrest
  · cases hrest
  · exact has_of_putInner hrest hcf

theorem has_of_storeUnlessEmpty {t : Tree} {h : Hash}
    (hrun : (storeUnlessEmpty W.toPlatform key t).run s = (.ok (some h), s'))
    (hcf : s'.CollisionFree W.toPlatform) : s'.Has W.toPlatform .tree h := by
  unfold storeUnlessEmpty at hrun
  split_ifs at hrun
  · cases hrun
  · obtain ⟨g, s₁, hstore, hpure⟩ := Op.bind_eq_ok.1 hrun
    obtain ⟨hg, rfl⟩ := Op.pure_eq_ok.1 hpure
    cases hg
    exact has_of_storeTree hstore hcf

/-- What a deletion makes of a tree is stored: it was before, or is now. -/
theorem has_of_deleteInner {parts : List Text} {g h : Hash}
    (hrun : (deleteInner W.toPlatform key parts g).run s = (.ok (some h), s'))
    (hcf : s'.CollisionFree W.toPlatform) : s'.Has W.toPlatform .tree h := by
  cases parts with
  | nil => cases hrun
  | cons head rest =>
    cases rest with
    | nil =>
      obtain ⟨t, s₁, -, hstore⟩ := Op.bind_eq_ok.1 hrun
      exact has_of_storeUnlessEmpty hstore hcf
    | cons next rest =>
      obtain ⟨t, s₁, hload, hrest⟩ := Op.bind_eq_ok.1 hrun
      obtain ⟨hloaded, rfl⟩ := Op.reads_eq_ok.1 hload
      have hsame : (pure (some g) : StoreOp (Option Hash)).run s = (.ok (some h), s') →
          s'.Has W.toPlatform .tree h := by
        intro hpure
        obtain ⟨hg, rfl⟩ := Op.pure_eq_ok.1 hpure
        cases hg
        exact has_of_loadTree hloaded
      cases hget : t.get head with
      | none =>
        rw [hget] at hrest
        exact hsame hrest
      | some e =>
        rw [hget] at hrest
        dsimp only at hrest
        split_ifs at hrest
        · obtain ⟨o, s₂, -, hrest⟩ := Op.bind_eq_ok.1 hrest
          cases o with
          | none => exact has_of_storeUnlessEmpty hrest hcf
          | some child =>
            obtain ⟨u, s₃, -, hstore⟩ := Op.bind_eq_ok.1 hrest
            exact has_of_storeUnlessEmpty hstore hcf
        · exact hsame hrest

theorem has_of_applyChange {c : StagedChange} {o : Option Hash} {h : Hash}
    (hrun : (applyChange W.toPlatform key o c).run s = (.ok (some h), s'))
    (hcf : s'.CollisionFree W.toPlatform) : s'.Has W.toPlatform .tree h := by
  unfold applyChange at hrun
  cases hkind : c.kind with
  | upsert =>
    rw [hkind] at hrun
    cases hhash : c.hash with
    | none => rw [hhash] at hrun; cases hrun
    | some hash =>
      rw [hhash] at hrun
      obtain ⟨mode, s₁, -, hrest⟩ := Op.bind_eq_ok.1 hrun
      obtain ⟨root, s₂, hput, hpure⟩ := Op.bind_eq_ok.1 hrest
      obtain ⟨hroot, rfl⟩ := Op.pure_eq_ok.1 hpure
      cases hroot
      exact has_of_putAt hput hcf
  | delete =>
    rw [hkind] at hrun
    cases o with
    | none => cases hrun
    | some root =>
      obtain ⟨parts, s₁, -, hrest⟩ := Op.bind_eq_ok.1 hrun
      split_ifs at hrest
      · cases hrest
      · exact has_of_deleteInner hrest hcf

/-- **The tree a commit builds is stored.** -/
theorem has_of_buildTree {cs : List StagedChange} {o : Option Hash} {h : Hash}
    (ho : ∀ g ∈ o, s.Has W.toPlatform .tree g)
    (hrun : (buildTree W.toPlatform key o cs).run s = (.ok (some h), s'))
    (hcf : s'.CollisionFree W.toPlatform) : s'.Has W.toPlatform .tree h := by
  have hall := Op.foldlM_induction
    (I := fun _ (o : Option Hash) s => ∀ g ∈ o, s.Has W.toPlatform .tree g)
    (C := fun s => s.CollisionFree W.toPlatform) (fun _ _ => Cas.CollisionFree.down)
    (fun c cs b s b' s' _ hstep hcf' g hg => by
      cases hg
      exact has_of_applyChange hstep hcf') ho hrun hcf
  exact hall h rfl

end Stored

/-! ### The invariant -/

variable (W)

/-- The trees and the parents of the commits that are stored are stored. -/
structure Store.Complete (s : Store) : Prop where
  tree : ∀ o ∈ s.objects, o.type = .commit →
    ∃ tree, (∀ h, treeHeader W.toPlatform h o.content = .ok tree) ∧ s.Has W.toPlatform .tree tree
  parents : ∀ o ∈ s.objects, o.type = .commit → ∀ c, Commit.parse W.toPlatform o.content = .ok c →
    ∀ p ∈ c.parents, s.HasCommit W p

/-- The invariant: the store is complete, the references stand for commits, and `HEAD` stands for a
commit or names a file. -/
structure Repo.Integral (r : Repo) : Prop where
  complete : r.store.Complete W
  refs : ∀ (path : Text) h, r.refs[path]? = some h → r.store.HasCommit W h
  head : (∃ name path, parseHead W.toPlatform r.readHead = .ok (.branch name) ∧
      refPath W name = .ok path) ∨
    ∃ h, parseHead W.toPlatform r.readHead = .ok (.detached h) ∧ r.store.HasCommit W h

variable {W}

/-- The invariant is about what `HEAD` and the branches stand for. -/
theorem Repo.Integral.refsResolve {r : Repo} (hr : r.Integral W) : r.RefsResolve W := by
  have hread : ∀ {name path : Text}, refPath W name = .ok path →
      r.readRef W name = .ok r.refs[path]? := fun hpath => except_bind_eq_ok.2 ⟨_, hpath, rfl⟩
  refine ⟨?_, fun name h hname => ?_⟩
  · rcases hr.head with ⟨name, path, hparse, hpath⟩ | ⟨h, hparse, hcommit⟩
    · exact ⟨_, except_bind_eq_ok.2 ⟨_, hparse, hread hpath⟩, fun h hh => hr.refs path h hh⟩
    · refine ⟨some h, except_bind_eq_ok.2 ⟨_, hparse, rfl⟩, fun g hg => ?_⟩
      cases hg
      exact hcommit
  · obtain ⟨path, hpath, hget⟩ := except_bind_eq_ok.1 hname
    exact hr.refs path h (Except.ok.inj hget)

theorem integral_init : Repo.init.Integral W where
  complete := ⟨fun _ ho => absurd ho List.not_mem_nil, fun _ ho => absurd ho List.not_mem_nil⟩
  refs path h hget := by
    rw [Repo.init, Std.ExtTreeMap.getElem?_empty] at hget
    cases hget
  head := .inl ⟨_, _, rfl, rfl⟩

section Complete

variable {s s' : Store}

theorem Store.Complete.mono (hs : s.Complete W) (hle : s ≤ s') (hnew : NoNewCommits s s') :
    s'.Complete W := by
  refine ⟨fun o ho htype => ?_, fun o ho htype c hc p hp => ?_⟩
  · obtain ⟨tree, hheader, hstored⟩ := hs.tree o (hnew o ho htype) htype
    exact ⟨tree, hheader, hstored.mono hle⟩
  · exact (hs.parents o (hnew o ho htype) htype c hc p hp).mono hle

theorem mem_of_getCommit {h : Hash} {content : Bytes}
    (hget : Repo.getCommit W s h = .ok content) :
    ∃ o ∈ s.objects, o.type = .commit ∧ o.content = content := by
  obtain ⟨o, hs, htype, hcontent⟩ := Repo.exists_of_getCommit hget
  exact ⟨o, (Cas.find_eq_some hs).1, htype, hcontent⟩

/-- In a complete store, a commit that is read has its tree. -/
theorem Store.Complete.hasCommit (hs : s.Complete W) {h : Hash}
    (hget : (Repo.getCommit W s h).isOk = true) : s.HasCommit W h := by
  obtain ⟨content, hget⟩ := exists_eq_ok_of_isOk hget
  obtain ⟨o, ho, htype, rfl⟩ := mem_of_getCommit hget
  obtain ⟨tree, hheader, hstored⟩ := hs.tree o ho htype
  exact ⟨tree, except_bind_eq_ok.2 ⟨_, hget, hheader h⟩, hstored⟩

/-- Counting ancestors does not leave a complete store. -/
theorem Store.Complete.hasCommit_of_nthAncestor (hs : s.Complete W) {n : Nat} {h g : Hash}
    (hh : n = 0 → s.HasCommit W h) (hrun : Repo.nthAncestor W s h n = .ok g) : s.HasCommit W g := by
  induction n generalizing h with
  | zero =>
    cases hrun
    exact hh rfl
  | succ n ih =>
    obtain ⟨content, hget, hread⟩ := except_bind_eq_ok.1 hrun
    obtain ⟨c, hparse, hrest⟩ := except_bind_eq_ok.1 hread
    obtain ⟨o, ho, htype, rfl⟩ := mem_of_getCommit hget
    cases hparents : c.parents with
    | nil => rw [hparents] at hrest; cases hrest
    | cons p ps =>
      rw [hparents] at hrest
      refine ih (fun _ => hs.parents o ho htype c hparse p ?_) hrest
      rw [hparents]
      exact List.mem_cons_self

/-- A commit whose tree and parents are stored, whether its own or added by its author's text. -/
theorem Store.Complete.put (hs : s.Complete W) {c : Commit}
    (htree : s.Has W.toPlatform .tree c.tree)
    (hparents : ∀ p ∈ c.parents ++ c.author.forgedParents W.toPlatform, s.HasCommit W p) :
    Store.Complete W ⟨s.objects ++ [⟨.commit, c.serialize⟩]⟩ := by
  have hle : s ≤ ⟨s.objects ++ [⟨.commit, c.serialize⟩]⟩ := List.prefix_append _ _
  refine ⟨fun o ho htype => ?_, fun o ho htype d hd p hp => ?_⟩
  · rcases List.mem_append.1 ho with ho | ho
    · obtain ⟨tree, hheader, hstored⟩ := hs.tree o ho htype
      exact ⟨tree, hheader, hstored.mono hle⟩
    · cases List.mem_singleton.1 ho
      exact ⟨c.tree, fun h => treeHeader_serialize _ h c, htree.mono hle⟩
  · rcases List.mem_append.1 ho with ho | ho
    · exact (hs.parents o ho htype d hd p hp).mono hle
    · cases List.mem_singleton.1 ho
      rw [Commit.parents_of_parse_serialize hd] at hp
      exact (hparents p hp).mono hle

end Complete

/-! ### Calls that keep the invariant -/

variable (W)

/-- An expression that is a hash and nothing else is that of a commit. -/
def Repo.LiteralStored (r : Repo) (expr : Text) : Prop :=
  (splitAncestor expr).2 = 0 → ∀ h, Hash.parse W.toPlatform (splitAncestor expr).1 = .ok h →
    (Repo.getCommit W r.store h).isOk = true

/-- The calls that keep `HEAD` and the branches on commits: a hash that stands for itself is that of
a commit, and an author's text adds no parents but commits. -/
def Call.Sound (env : Env) (r : Repo) : Call → Prop
  | commit _ author => ∀ a, Repo.commitAuthor env author = .ok a →
      ∀ p ∈ a.forgedParents W.toPlatform, (Repo.getCommit W r.store p).isOk = true
  | branch _ (some start) => r.LiteralStored W start
  | checkout expr => (Repo.maybeBranch W expr = true → r.readRef W (Repo.branchRef expr) = .ok none) →
      r.LiteralStored W expr
  | _ => True

variable {W} {env : Env} {r r' : Repo}

/-- The invariant does not look at the index, the uploads or the lock. -/
theorem Repo.Integral.of_sameRefs (hr : r.Integral W) (hsame : SameRefs r r') (hle : r ≤ r') :
    r'.Integral W := by
  obtain ⟨hrefs, hhead, hnew⟩ := hsame
  refine ⟨hr.complete.mono hle hnew, fun path h hget => ?_, ?_⟩
  · rw [hrefs] at hget
    exact (hr.refs path h hget).mono hle
  · rw [Repo.readHead, hhead]
    exact hr.head.imp_right fun ⟨h, hparse, hcommit⟩ => ⟨h, hparse, hcommit.mono hle⟩

theorem Repo.Integral.with_ref (hr : r.Integral W) {path : Text} {h : Hash}
    (hh : r.store.HasCommit W h) : Repo.Integral W { r with refs := r.refs.insert path h } := by
  refine ⟨hr.complete, fun p g hget => ?_, hr.head⟩
  rw [TextMap.getElem?_insert] at hget
  split_ifs at hget
  · cases hget
    exact hh
  · exact hr.refs p g hget

theorem Repo.Integral.with_head_hex (hr : r.Integral W) {h : Hash} (hh : r.store.HasCommit W h) :
    Repo.Integral W { r with head := h.hex } :=
  ⟨hr.complete, hr.refs, .inr ⟨h, parseHead_hex _ h, hh⟩⟩

/-- What an expression stands for. -/
theorem Repo.Integral.hasCommit_of_resolveRef (hr : r.Integral W) {expr : Text}
    (hexpr : r.LiteralStored W expr) {h : Hash} (hrun : r.resolveRef W expr = .ok h) :
    r.store.HasCommit W h := by
  obtain ⟨o, hresolve, hhead⟩ := hr.refsResolve.head
  have href : ∀ {name : Text} {g : Hash}, r.readRef W name = .ok (some g) → r.store.HasCommit W g := by
    intro name g hread
    obtain ⟨path, -, hget⟩ := except_bind_eq_ok.1 hread
    exact hr.refs path g (Except.ok.inj hget)
  obtain ⟨start, hstart, hback⟩ := Repo.resolveRef_eq_ok.1 hrun
  refine hr.complete.hasCommit_of_nthAncestor (fun hzero => ?_) hback
  -- HEAD, the path of a reference, a hash, the name of a branch
  unfold Repo.resolveBase at hstart
  split_ifs at hstart with hHead hpath
  · cases hresolve.symm.trans (Repo.bind_found_eq_ok.1 hstart)
    exact hhead _ rfl
  · exact href (Repo.bind_found_eq_ok.1 hstart)
  · cases hparse : Hash.parse W.toPlatform (splitAncestor expr).1 with
    | ok g =>
      rw [hparse] at hstart
      cases hstart
      exact hr.complete.hasCommit (hexpr hzero _ hparse)
    | error e =>
      rw [hparse] at hstart
      exact href (Repo.bind_found_eq_ok.1 hstart)

/-- A branch that is made stands for a commit. -/
theorem Repo.Integral.of_branch (hr : r.Integral W) {name : Text} {start : Option Text}
    (hsound : (Call.branch name start).Sound W env r)
    (hrun : ((Repo.branch W name start).run (Action.op W)).run r = (.ok (), r')) :
    r'.Integral W := by
  obtain ⟨h, path, hstart, -, -, rfl⟩ := Repo.branch_eq_ok.1 hrun
  refine hr.with_ref ?_
  cases start with
  | some expr => exact hr.hasCommit_of_resolveRef hsound hstart
  | none =>
    obtain ⟨o, hresolve, hhead⟩ := hr.refsResolve.head
    obtain ⟨g, hg, hsome⟩ := except_bind_eq_ok.1 hstart
    cases hresolve.symm.trans hg
    cases o with
    | none => cases hsome
    | some g =>
      cases hsome
      exact hhead _ rfl

/-- What is checked out is a branch or a commit. -/
theorem Repo.Integral.of_checkout (hr : r.Integral W) {expr : Text}
    (hsound : (Call.checkout expr).Sound W env r)
    (hrun : ((Repo.checkout W expr).run (Action.op W)).run r = (.ok (), r')) :
    r'.Integral W := by
  obtain ⟨value, hvalue, rfl⟩ := Repo.checkout_eq_ok.1 hrun
  rcases Repo.checkoutHead_eq_ok.1 hvalue with ⟨-, ⟨g, hread⟩, rfl⟩ | ⟨hnone, h, hresolve, rfl⟩
  · -- the file of the branch is there
    obtain ⟨path, hpath, -⟩ := except_bind_eq_ok.1 hread
    obtain ⟨path', hpath'⟩ := exists_refPath_trimEnd hpath
    exact ⟨hr.complete, hr.refs, .inl ⟨_, path', parseHead_branchRef _ expr, hpath'⟩⟩
  · exact hr.with_head_hex (hr.hasCommit_of_resolveRef (hsound hnone) hresolve)

/-- What a commit stores, and what it moves to the commit. -/
theorem Repo.Integral.of_advance (hr : r.Integral W) {c : Commit} {h : Hash} {ra : Repo}
    (htree : r.store.Has W.toPlatform .tree c.tree)
    (hparents : ∀ p ∈ c.parents ++ c.author.forgedParents W.toPlatform, r.store.HasCommit W p)
    (hh : h = hashOf W.toPlatform .commit c.serialize) (hadv : r.advance W h = .ok ra)
    (hcf : Store.CollisionFree W.toPlatform ⟨r.store.objects ++ [⟨.commit, c.serialize⟩]⟩) :
    Repo.Integral W
      { ra with store := ⟨r.store.objects ++ [⟨.commit, c.serialize⟩]⟩, index := ∅ } := by
  have hle : r.store ≤ ⟨r.store.objects ++ [⟨.commit, c.serialize⟩]⟩ := List.prefix_append _ _
  have hstored : Repo.Integral W
      { r with store := ⟨r.store.objects ++ [⟨.commit, c.serialize⟩]⟩, index := ∅ } :=
    ⟨hr.complete.put htree hparents, fun path g hget => (hr.refs path g hget).mono hle,
      hr.head.imp_right fun ⟨g, hparse, hcommit⟩ => ⟨g, hparse, hcommit.mono hle⟩⟩
  have hnew : Store.HasCommit W ⟨r.store.objects ++ [⟨.commit, c.serialize⟩]⟩ h := by
    refine hstored.complete.hasCommit ?_
    subst hh
    have hget : Store.get W.toPlatform ⟨r.store.objects ++ [⟨.commit, c.serialize⟩]⟩
        (hashOf W.toPlatform .commit c.serialize) = some ⟨.commit, c.serialize⟩ :=
      Store.get_of_put (Store.run_put .commit c.serialize r.store) (le_refl _) hcf
    unfold Repo.getCommit
    rw [hget]
    rfl
  obtain ⟨head, -, hmove⟩ := except_bind_eq_ok.1 hadv
  cases head with
  | branch name =>
    obtain ⟨path, -, hpath⟩ := except_bind_eq_ok.1 hmove
    cases hpath
    exact hstored.with_ref hnew
  | detached g =>
    cases hmove
    exact hstored.with_head_hex hnew

/-- HEAD's tree. -/
theorem Repo.Integral.has_of_headTree (hr : r.Integral W) {tree : Hash}
    (hhead : r.headTree W = .ok (some tree)) : r.store.Has W.toPlatform .tree tree := by
  obtain ⟨o, hresolve, hcommits⟩ := hr.refsResolve.head
  obtain ⟨o', ho', hsome⟩ := except_bind_eq_ok.1 hhead
  cases hresolve.symm.trans ho'
  cases o with
  | none => cases hsome
  | some h =>
    obtain ⟨t, ht, hpure⟩ := except_bind_eq_ok.1 hsome
    cases hpure
    obtain ⟨t', ht', hstored⟩ := hcommits h rfl
    cases ht.symm.trans ht'
    exact hstored

theorem Repo.Integral.exists_advance (hr : r.Integral W) (h : Hash) :
    ∃ ra, r.advance W h = .ok ra := by
  rcases hr.head with ⟨name, path, hparse, hpath⟩ | ⟨g, hparse, -⟩
  · exact ⟨_, except_bind_eq_ok.2 ⟨_, hparse, except_bind_eq_ok.2 ⟨path, hpath, rfl⟩⟩⟩
  · exact ⟨_, except_bind_eq_ok.2 ⟨_, hparse, rfl⟩⟩

/-- A commit that is made, with the tree it built and HEAD's commit as its parent. -/
theorem Repo.Integral.of_commit (hr : r.Integral W) {message : Text} {author : AuthorOverride}
    {res : Hash × List ReprobeSummary} (hsound : (Call.commit message author).Sound W env r)
    (hrun : ((Repo.commit W env message author).run (Action.op W)).run r = (.ok res, r'))
    (hcf : r'.store.CollisionFree W.toPlatform) : r'.Integral W := by
  obtain ⟨⟨root, author', summaries⟩, r₁, hbuild, hpublish⟩ := Repo.commit_of_ok hrun
  have hkeeps : ((Repo.buildCommit W env author).run (Action.op W)).Keeps SameRefs :=
    (Repo.quiet_buildCommit author).keeps fun hx => keeps_of_quiet (.inl hx)
  have hsame : SameRefs r r₁ := by
    have hstate := hkeeps r
    rwa [hbuild] at hstate
  obtain ⟨idx, o, s, s', hle, ho, htree, hauthor, rfl⟩ := Repo.buildCommit_of_ok hbuild
  obtain ⟨tree, parent, ra, hroot, hparent, hh, hadv, rfl⟩ := Repo.publish_eq_ok.1 hpublish
  cases hroot
  have hgrows : s ≤ s' := Op.le_of_run htree
  have hcf' : s'.CollisionFree W.toPlatform := hcf.down (List.prefix_append _ _)
  -- up to the tree, the references and `HEAD` are those that the commit found
  have hrs' : Repo.Integral W { r with store := s' } := hr.of_sameRefs hsame (hle.trans hgrows)
  have hrs : Repo.Integral W { r with store := s } :=
    hr.of_sameRefs ⟨rfl, rfl, fun x hx => hsame.2.2 x (Cas.mem_mono hgrows hx)⟩ hle
  refine hrs'.of_advance (c := ⟨tree, parent.toList, author', message⟩) ?_ ?_ hh hadv hcf
  · refine has_of_buildTree (fun g hg => ?_) htree hcf'
    cases hg
    exact hrs.has_of_headTree ho
  · intro p hp
    rcases List.mem_append.1 hp with hp | hp
    · obtain ⟨q, hq, hhead⟩ := hrs'.refsResolve.head
      cases hparent.symm.trans hq
      exact hhead p (Option.mem_toList.1 hp)
    · exact (hr.complete.hasCommit (hsound author' hauthor p hp)).mono (hle.trans hgrows)

/-- A commit that fails moves nothing: what it publishes does not fail once there is a tree. -/
theorem Repo.Integral.sameRefs_of_commit_error (hr : r.Integral W) {message : Text}
    {author : AuthorOverride} {e : Fault OmpError}
    (hrun : ((Repo.commit W env message author).run (Action.op W)).run r = (.error e, r')) :
    SameRefs r r' := by
  have hkeeps : ((Repo.buildCommit W env author).run (Action.op W)).Keeps SameRefs :=
    (Repo.quiet_buildCommit author).keeps fun hx => keeps_of_quiet (.inl hx)
  have hsame := hkeeps r
  unfold Repo.commit at hrun
  rw [Script.run_bind, Op.run_bind] at hrun
  cases hbuild : ((Repo.buildCommit W env author).run (Action.op W)).run r with
  | mk res r₁ =>
    rw [hbuild] at hrun hsame
    cases res with
    | error e' =>
      cases hrun
      exact hsame
    | ok built =>
      obtain ⟨root, author', summaries⟩ := built
      obtain ⟨-, -, -, s', hle, -, -, -, rfl⟩ := Repo.buildCommit_of_ok hbuild
      cases root with
      | none =>
        cases hrun
        exact hsame
      | some tree =>
        have hr₁ := hr.of_sameRefs hsame (Op.le_of_run hbuild)
        obtain ⟨parent, hparent, -⟩ := hr₁.refsResolve.head
        obtain ⟨ra, hadv⟩ := hr₁.exists_advance (hashOf W.toPlatform .commit
          (Commit.serialize ⟨tree, parent.toList, author', message⟩))
        have hpublish := Repo.publish_eq_ok.2 ⟨tree, parent, ra, rfl, hparent, rfl, hadv, rfl⟩
        change ((Repo.publish W (some tree) author' message >>= fun h =>
          pure (h, summaries)).run (Action.op W)).run _ = _ at hrun
        rw [Script.run_bind, Op.run_bind, hpublish] at hrun
        cases hrun

/-- A call that fails moves nothing. -/
theorem Repo.Integral.sameRefs_of_error (hr : r.Integral W) {c : Call} {e : Fault OmpError}
    (hrun : ((c.script W env).run (Action.op W)).run r = (.error e, r')) : SameRefs r r' := by
  have hstaging : c.IsStaging → SameRefs r r' := fun hc => by
    have hkeeps := @Call.script_keeps W env c hc r
    rwa [hrun] at hkeeps
  have hmoves : Script.WritesOnce (Action.Quiet NoNewCommits) Action.MovesRef Action.Never
      (c.script W env) → SameRefs r r' := fun hshape =>
    hshape.keeps_of_error (fun hx => keeps_of_quiet (.inl hx))
      (fun hx _ _ _ h => eq_of_movesRef hx h ▸ Std.Refl.refl _) (fun hx => hx.elim) hrun
  cases c with
  | add _ | patchFields _ _ | remove _ => exact hstaging trivial
  | commit message author =>
    unfold Call.script at hrun
    rw [Script.run_bind, Op.run_bind] at hrun
    cases hcommit : ((Repo.commit W env message author).run (Action.op W)).run r with
    | mk res r₁ =>
      rw [hcommit] at hrun
      cases res with
      | error e' =>
        cases hrun
        exact hr.sameRefs_of_commit_error hcommit
      | ok res => cases hrun
  | branch name start => exact hmoves (Repo.writesOnce_branch name start)
  | checkout expr => exact hmoves (Repo.writesOnce_checkout expr)

/-- **A sound call keeps the invariant**, however it ends. -/
theorem Repo.Integral.step {c : Call} (hr : r.Integral W) (hsound : c.Sound W env r)
    (hcf : ((c.run W env).run r).2.store.CollisionFree W.toPlatform) :
    ((c.run W env).run r).2.Integral W := by
  rcases Repo.locked_state ((c.script W env).run (Action.op W)) r with h | ⟨p, h⟩
  · rw [Call.run, h]
    exact hr
  rw [Call.run, h] at hcf ⊢
  have hcf : (((c.script W env).run (Action.op W)).run r).2.store.CollisionFree W.toPlatform := hcf
  cases hrun : ((c.script W env).run (Action.op W)).run r with
  | mk res r' =>
    rw [hrun] at hcf
    have hle : r ≤ r' := Op.le_of_run hrun
    have hr' : r'.Integral W := by
      cases res with
      | error e => exact hr.of_sameRefs (hr.sameRefs_of_error hrun) hle
      | ok u =>
        have hstaging : c.IsStaging → r'.Integral W := fun hc => by
          have hkeeps := @Call.script_keeps W env c hc r
          rw [hrun] at hkeeps
          exact hr.of_sameRefs hkeeps hle
        cases c with
        | add _ | patchFields _ _ | remove _ => exact hstaging trivial
        | commit message author =>
          obtain ⟨res, r₁, hcommit, hpure⟩ := (Script.run_bind_eq_ok (Action.op W)).1 hrun
          obtain ⟨-, rfl⟩ := Op.pure_eq_ok.1 hpure
          exact hr.of_commit hsound hcommit hcf
        | branch name start => exact hr.of_branch hsound hrun
        | checkout expr => exact hr.of_checkout hsound hrun
    exact ⟨hr'.complete, hr'.refs, hr'.head⟩

/-- **`HEAD` and the branches stand for nothing or for commits that are stored**, in every state of
a run of sound calls in which no two objects share an address. -/
theorem Repo.refs_resolve
    (hr : (Repo.lts W).Reachable (fun r l => l.2.Sound W l.1 r) Repo.init r)
    (hcf : r.store.CollisionFree W.toPlatform) : r.RefsResolve W := by
  refine Repo.Integral.refsResolve (hr.invariant_of_down (I := fun r => r.Integral W)
    (C := fun r => r.store.CollisionFree W.toPlatform) hcf ?_ integral_init ?_)
  · rintro s l s' rfl hcf'
    exact hcf'.down ((l.2.run W l.1).grows s)
  · rintro s l s' hs hsound rfl hcf'
    exact hs.step hsound hcf'

/-- The calls of a run that branches, checks the branch out and commits to it. -/
def demoCalls : List Call :=
  [.add ⟨"omp.toml".toList, [], none, none⟩, .commit "first".toList ⟨none, none, none⟩,
    .branch "dev".toList none, .checkout "dev".toList,
    .add ⟨"probes/note".toList, [], none, none⟩,
    .commit "second".toList ⟨none, none, none⟩, .checkout "dev~1".toList]

/-- None of them gives a hash, and the author's text is one line. -/
theorem sound_demoCalls (r : Repo) :
    ∀ c ∈ demoCalls, c.Sound (demoWorld ⟨[], [], []⟩) demoEnv r := by
  have hcommit : ∀ message : Text, (Call.commit message ⟨none, none, none⟩).Sound
      (demoWorld ⟨[], [], []⟩) demoEnv r := by
    intro message a ha p hp
    cases ha
    have hnone : Author.forgedParents demo ⟨"omp".toList, "omp@local".toList,
        "2024-05-01T10:00:00Z".toList⟩ = [] := by decide +kernel
    cases hnone ▸ hp
  have hcheckout : ∀ expr : Text, (Hash.parse demo (splitAncestor expr).1).isOk = false →
      (Call.checkout expr).Sound (demoWorld ⟨[], [], []⟩) demoEnv r := by
    intro expr hexpr _ _ h hh
    have hok : (Hash.parse demo (splitAncestor expr).1).isOk = true := by
      change Hash.parse demo _ = _ at hh
      rw [hh]
      rfl
    cases hexpr.symm.trans hok
  intro c hc
  simp only [demoCalls, List.mem_cons, List.not_mem_nil, or_false] at hc
  rcases hc with rfl | rfl | rfl | rfl | rfl | rfl | rfl
  · trivial
  · exact hcommit _
  · trivial
  · exact hcheckout _ (by decide)
  · trivial
  · exact hcommit _
  · exact hcheckout _ (by decide)

theorem Repo.refs_resolve_demo :
    (Repo.init.after (demoWorld ⟨[], [], []⟩) demoEnv demoCalls).RefsResolve
      (demoWorld ⟨[], [], []⟩) :=
  Repo.refs_resolve (Repo.reachable_after _ (.refl _) sound_demoCalls) (by decide +kernel)

/-- **A branch is made that stands for nothing stored.** -/
theorem dangling_branch :
    ∃ r : Repo, (Repo.lts (demoWorld ⟨[], [], []⟩)).Reachable (fun _ _ => True) Repo.init r ∧
      r.store.CollisionFree demo ∧ ¬ r.RefsResolve (demoWorld ⟨[], [], []⟩) := by
  have hr : (Repo.lts (demoWorld ⟨[], [], []⟩)).Reachable (fun _ _ => True) Repo.init
      (Repo.init.after (demoWorld ⟨[], [], []⟩) demoEnv
        [.branch "dev".toList (some (Hash.ofNat 1).hex)]) :=
    Repo.reachable_after _ (.refl _) fun _ _ _ => trivial
  refine ⟨_, hr, ?_, ?_⟩
  · decide +kernel
  · intro hresolve
    have hread : (Repo.init.after (demoWorld ⟨[], [], []⟩) demoEnv
        [.branch "dev".toList (some (Hash.ofNat 1).hex)]).readRef (demoWorld ⟨[], [], []⟩)
          (Repo.branchRef "dev".toList) = .ok (some (Hash.ofNat 1)) := by decide +kernel
    obtain ⟨tree, htree, -⟩ := hresolve.branches _ _ hread
    obtain ⟨content, hget, -⟩ := except_bind_eq_ok.1 htree
    have hnone : (Repo.getCommit (demoWorld ⟨[], [], []⟩) (Repo.init.after (demoWorld ⟨[], [], []⟩)
        demoEnv [.branch "dev".toList (some (Hash.ofNat 1).hex)]).store (Hash.ofNat 1)).isOk =
          false := by decide +kernel
    rw [hget] at hnone
    cases hnone

end Omp
