import Omp.Commit
import Omp.Tree

/-!
# Walking the working tree

The walk goes through the directories below the root, leaves out what patterns match unless its path
is tracked, and classifies the files that it comes to.  It does not go into a directory that is left
out, whatever is tracked below it; and a pattern that ends in a slash is tested on files as well.

The model has no symbolic links, so that no directory is met twice, and everything can be read.

## Main definitions

* `Dir` : the entries of a directory.
* `walkRepo` : the walk.
* `Matches` : the patterns as they are meant, by which those with a slash at the end match
  directories only.

## Main results

* `mem_walkInner_iff` : what the walk comes to.
* `ignores_iff` : when the walk respects the patterns and the tracked paths.
-/

namespace Omp

namespace Walker

open Lib

/-! ### The working tree -/

/-- The entries of a directory, in the order of their names, as they are sorted: files,
directories, and others, which are no regular files. -/
inductive Dir where
  | empty
  | file (name : Text) (rest : Dir)
  | dir (name : Text) (children rest : Dir)
  | other (name : Text) (rest : Dir)

/-- There is a regular file at a path. -/
inductive HasFile : Dir → List Text → Prop
  | here (name : Text) (rest : Dir) : HasFile (.file name rest) [name]
  | inside {children : Dir} {p : List Text} (name : Text) (rest : Dir) (h : HasFile children p) :
      HasFile (.dir name children rest) (name :: p)
  | file {rest : Dir} {p : List Text} (name : Text) (h : HasFile rest p) :
      HasFile (.file name rest) p
  | dir {rest : Dir} {p : List Text} (name : Text) (children : Dir) (h : HasFile rest p) :
      HasFile (.dir name children rest) p
  | other {rest : Dir} {p : List Text} (name : Text) (h : HasFile rest p) :
      HasFile (.other name rest) p

/-! ### Patterns -/

/-- `glob_inner`, from positions in the pattern and in the text on. -/
def globMatch : Text → Text → Bool
  | [], text => text.isEmpty
  | c :: pattern, text =>
    if c = '*' then text.tails.any fun t => globMatch pattern t
    else match text with
      | [] => false
      | a :: t => (c = '?' || a = c) && globMatch pattern t

/-- `path_descends_from`. -/
def pathDescendsFrom (path pre : Text) : Bool :=
  path = pre || (pre ++ ['/']).isPrefixOf path || (path.splitOn '/').any (· = pre)

/-- `str::trim_end_matches('/')`. -/
def trimSlashes (pat : Text) : Text := pat.rdropWhile (· == '/')

/-- The pattern, from the root on. -/
def anchored (pat : Text) : Text := (stripPrefix ['/'] pat).getD pat

/-- `one_ignore_matches`. -/
def oneIgnoreMatches (pattern path : Text) (isDir : Bool) : Bool :=
  let pat := trim pattern
  if pat = [] ∨ pat.head? = some '#' then false
  else
    let dirOnly : Bool := pat.getLast? = some '/'
    let pat := trimSlashes pat
    if '/' ∈ pat then
      globMatch (anchored pat) path &&
        (!dirOnly || isDir || pathDescendsFrom path (anchored pat))
    else
      (path.splitOn '/').any fun component =>
        globMatch pat component && (!dirOnly || isDir || pathDescendsFrom path component)

/-- `ignore_matches`. -/
def ignoreMatches (patterns : List Text) (path : Text) (isDir : Bool) : Bool :=
  patterns.any fun p => oneIgnoreMatches p path isDir

/-! ### The walk -/

/-- `WalkEntry`, with the path on disk from the root on. -/
structure WalkEntry where
  repoPath : Text
  fsPath : List Text
  mode : Mode

/-- `WalkOptions`. -/
structure WalkOptions where
  ignorePatterns : List Text
  tracked : List Text

/-- `to_slash`. -/
def toSlash (rel : List Text) : Text := (joinWith '/' rel).map fun c => if c = '\\' then '/' else c

/-- `classify_path`. -/
def classifyPath (rel : List Text) : Mode :=
  let s := toSlash rel
  if s = "omp.toml".toList then .blob
  else if "schemas/".toList <+: s ∨ "probes/".toList <+: s then .blob
  else .manifest

/-- A path at or below `.omp`, which is never entered. -/
def inOmp (path : Text) : Bool := path = ".omp".toList || ".omp/".toList.isPrefixOf path

/-- The walk does not leave out a path. -/
def passes (opts : WalkOptions) (rel : List Text) (isDir : Bool) : Bool :=
  !inOmp (toSlash rel) &&
    (toSlash rel ∈ opts.tracked || !ignoreMatches opts.ignorePatterns (toSlash rel) isDir)

/-- What is pushed for a file. -/
def entry (rel : List Text) : WalkEntry := ⟨toSlash rel, rel, classifyPath rel⟩

/-- `walk_inner`, in the directory at `at_`. -/
def walkInner (opts : WalkOptions) (at_ : List Text) : Dir → List WalkEntry
  | .empty => []
  | .file name rest =>
    (if passes opts (at_ ++ [name]) false then [entry (at_ ++ [name])] else []) ++
      walkInner opts at_ rest
  | .dir name children rest =>
    (if passes opts (at_ ++ [name]) true then walkInner opts (at_ ++ [name]) children else []) ++
      walkInner opts at_ rest
  | .other _ rest => walkInner opts at_ rest

/-- `walk_repo`. -/
def walkRepo (opts : WalkOptions) (root : Dir) : List WalkEntry :=
  (walkInner opts [] root).mergeSort fun a b => (compare a.repoPath b.repoPath).isLE

/-! ### What the walk comes to -/

/-- The directories above a path. -/
structure Ancestor (q p : List Text) : Prop where
  ne_nil : q ≠ []
  ne : q ≠ p
  isPrefix : q <+: p

theorem HasFile.ne_nil {d : Dir} {p : List Text} (h : HasFile d p) : p ≠ [] := by
  induction h with
  | here | inside => exact List.cons_ne_nil _ _
  | file _ _ ih | dir _ _ _ ih | other _ _ ih => exact ih

/-- The directories above a path below a directory are that one, and those below it. -/
theorem ancestor_cons_iff {name : Text} {p q : List Text} (hp : p ≠ []) :
    Ancestor q (name :: p) ↔ q = [name] ∨ ∃ q', Ancestor q' p ∧ q = name :: q' := by
  constructor
  · rintro ⟨hnil, hne, hpre⟩
    cases q with
    | nil => exact absurd rfl hnil
    | cons a q =>
      obtain ⟨rfl, hq⟩ := List.cons_prefix_cons.1 hpre
      rcases eq_or_ne q [] with rfl | hq'
      · exact .inl rfl
      · exact .inr ⟨q, ⟨hq', fun h => hne (h ▸ rfl), hq⟩, rfl⟩
  · rintro (rfl | ⟨q', ⟨hnil, hne, hpre⟩, rfl⟩)
    · exact ⟨List.cons_ne_nil _ _, fun h => hp (List.cons.inj h).2.symm,
        List.cons_prefix_cons.2 ⟨rfl, List.nil_prefix⟩⟩
    · exact ⟨List.cons_ne_nil _ _, fun h => hne (List.cons.inj h).2,
        List.cons_prefix_cons.2 ⟨rfl, hpre⟩⟩

/-- The walk comes to a file if it leaves out neither the file nor a directory above it. -/
structure Comes (opts : WalkOptions) (at_ p : List Text) : Prop where
  file : passes opts (at_ ++ p) false = true
  above : ∀ q, Ancestor q p → passes opts (at_ ++ q) true = true

theorem comes_cons_iff {opts : WalkOptions} {at_ p : List Text} {name : Text} (hp : p ≠ []) :
    Comes opts at_ (name :: p) ↔
      passes opts (at_ ++ [name]) true = true ∧ Comes opts (at_ ++ [name]) p := by
  have happ : ∀ l : List Text, at_ ++ [name] ++ l = at_ ++ name :: l := fun l => by simp
  constructor
  · rintro ⟨hfile, habove⟩
    refine ⟨habove _ ((ancestor_cons_iff hp).2 (.inl rfl)), ?_, fun q hq => ?_⟩
    · rwa [happ]
    · rw [happ]
      exact habove _ ((ancestor_cons_iff hp).2 (.inr ⟨q, hq, rfl⟩))
  · rintro ⟨hname, hfile, habove⟩
    refine ⟨happ p ▸ hfile, fun q hq => ?_⟩
    obtain rfl | ⟨q', hq', rfl⟩ := (ancestor_cons_iff hp).1 hq
    · exact hname
    · rw [← happ]
      exact habove q' hq'

theorem comes_singleton_iff {opts : WalkOptions} {at_ : List Text} {name : Text} :
    Comes opts at_ [name] ↔ passes opts (at_ ++ [name]) false = true := by
  refine ⟨Comes.file, fun h => ⟨h, fun q hq => ?_⟩⟩
  obtain ⟨hnil, hne, hpre⟩ := hq
  obtain rfl | ⟨t, rfl, ht⟩ := List.prefix_cons_iff.1 hpre
  · exact absurd rfl hnil
  · exact absurd (by rw [List.prefix_nil.1 ht]) hne

/-- **What the walk comes to.** -/
theorem mem_walkInner_iff {opts : WalkOptions} {d : Dir} {at_ : List Text} {e : WalkEntry} :
    e ∈ walkInner opts at_ d ↔
      ∃ p, HasFile d p ∧ e = entry (at_ ++ p) ∧ Comes opts at_ p := by
  induction d generalizing at_ with
  | empty =>
    simp only [walkInner, List.not_mem_nil, false_iff]
    rintro ⟨p, hp, -⟩
    cases hp
  | file name rest ih =>
    rw [walkInner, List.mem_append, ih]
    constructor
    · rintro (hhere | ⟨p, hp, hrest⟩)
      · split_ifs at hhere with hpass
        · exact ⟨[name], .here name rest, List.mem_singleton.1 hhere, comes_singleton_iff.2 hpass⟩
        · cases hhere
      · exact ⟨p, hp.file name, hrest⟩
    · rintro ⟨p, hp, rfl, hcomes⟩
      cases hp with
      | here =>
        rw [if_pos (comes_singleton_iff.1 hcomes)]
        exact .inl (List.mem_singleton_self _)
      | file _ hp => exact .inr ⟨p, hp, rfl, hcomes⟩
  | dir name children rest ihc ih =>
    rw [walkInner, List.mem_append, ih]
    constructor
    · rintro (hbelow | ⟨p, hp, hrest⟩)
      · split_ifs at hbelow with hpass
        · obtain ⟨p, hp, rfl, hcomes⟩ := ihc.1 hbelow
          exact ⟨name :: p, hp.inside name rest, by simp,
            (comes_cons_iff hp.ne_nil).2 ⟨hpass, hcomes⟩⟩
        · cases hbelow
      · exact ⟨p, hp.dir name children, hrest⟩
    · rintro ⟨p, hp, rfl, hcomes⟩
      cases hp with
      | inside _ _ hp =>
        obtain ⟨hpass, hcomes⟩ := (comes_cons_iff hp.ne_nil).1 hcomes
        rw [if_pos hpass]
        exact .inl (ihc.2 ⟨_, hp, by simp, hcomes⟩)
      | dir _ _ hp => exact .inr ⟨p, hp, rfl, hcomes⟩
  | other name rest ih =>
    rw [walkInner, ih]
    constructor
    · rintro ⟨p, hp, hrest⟩
      exact ⟨p, hp.other name, hrest⟩
    · rintro ⟨p, hp, hrest⟩
      cases hp with
      | other _ hp => exact ⟨p, hp, hrest⟩

/-- The walk returns the file at a path. -/
def Returns (opts : WalkOptions) (root : Dir) (p : List Text) : Prop :=
  ∃ e ∈ walkRepo opts root, e.fsPath = p

theorem returns_iff {opts : WalkOptions} {root : Dir} {p : List Text} (hp : HasFile root p) :
    Returns opts root p ↔ Comes opts [] p := by
  unfold Returns walkRepo
  simp only [List.mem_mergeSort, mem_walkInner_iff]
  constructor
  · rintro ⟨e, ⟨q, -, rfl, hcomes⟩, rfl⟩
    exact hcomes
  · exact fun hcomes => ⟨_, ⟨p, hp, rfl, hcomes⟩, rfl⟩

/-! ### Patterns as they are meant -/

/-- A glob with a slash matches a path from the root on, and another one matches a component. -/
def Globs (pat path : Text) : Prop :=
  if '/' ∈ pat then globMatch (anchored pat) path = true
  else ∃ component ∈ path.splitOn '/', globMatch pat component = true

/-- A pattern is no comment, and its glob matches a path. -/
structure Applies (pattern path : Text) : Prop where
  ne_nil : trim pattern ≠ []
  not_comment : (trim pattern).head? ≠ some '#'
  globs : Globs (trimSlashes (trim pattern)) path

/-- A pattern ends in a slash. -/
def DirOnly (pattern : Text) : Prop := (trim pattern).getLast? = some '/'

/-- A pattern matches a path; if it ends in a slash it matches directories only. -/
structure Matches (pattern path : Text) (isDir : Bool) : Prop extends Applies pattern path where
  isDir_of_dirOnly : DirOnly pattern → isDir = true

/-- A pattern for directories is applied to a file. -/
structure TakenForDir (pattern path : Text) : Prop extends Applies pattern path where
  dirOnly : DirOnly pattern
  descends : '/' ∈ trimSlashes (trim pattern) →
    pathDescendsFrom path (anchored (trimSlashes (trim pattern))) = true

/-- Every component of a path passes for one above it. -/
theorem pathDescendsFrom_of_mem {path component : Text} (h : component ∈ path.splitOn '/') :
    pathDescendsFrom path component = true := by
  have hany : (path.splitOn '/').any (· = component) = true :=
    List.any_eq_true.2 ⟨component, h, decide_eq_true rfl⟩
  rw [pathDescendsFrom, hany, Bool.or_true]

/-- How the code applies a pattern. -/
theorem oneIgnoreMatches_iff {pattern path : Text} {isDir : Bool} :
    oneIgnoreMatches pattern path isDir = true ↔
      Applies pattern path ∧ (DirOnly pattern → isDir = true ∨
        ('/' ∈ trimSlashes (trim pattern) →
          pathDescendsFrom path (anchored (trimSlashes (trim pattern))) = true)) := by
  unfold oneIgnoreMatches
  dsimp only
  split_ifs with hnone hslash
  · refine iff_of_false (by simp) fun h => ?_
    exact hnone.elim h.1.ne_nil h.1.not_comment
  · obtain ⟨hne, hcomment⟩ := not_or.1 hnone
    have hglobs : Globs (trimSlashes (trim pattern)) path ↔
        globMatch (anchored (trimSlashes (trim pattern))) path = true := by
      rw [Globs, if_pos hslash]
    simp only [Bool.and_eq_true, Bool.or_eq_true, Bool.not_eq_true', decide_eq_false_iff_not]
    constructor
    · rintro ⟨hg, hdir⟩
      exact ⟨⟨hne, hcomment, hglobs.2 hg⟩, fun hd => by
        obtain (hnot | hdir) | hdesc := hdir
        · exact absurd hd hnot
        · exact .inl hdir
        · exact .inr fun _ => hdesc⟩
    · rintro ⟨⟨-, -, hg⟩, hdir⟩
      refine ⟨hglobs.1 hg, ?_⟩
      by_cases hd : DirOnly pattern
      · exact (hdir hd).elim (fun h => .inl (.inr h)) fun h => .inr (h hslash)
      · exact .inl (.inl hd)
  · obtain ⟨hne, hcomment⟩ := not_or.1 hnone
    have hglobs : Globs (trimSlashes (trim pattern)) path ↔
        ∃ component ∈ path.splitOn '/',
          globMatch (trimSlashes (trim pattern)) component = true := by
      rw [Globs, if_neg hslash]
    simp only [List.any_eq_true, Bool.and_eq_true]
    constructor
    · rintro ⟨component, hmem, hg, -⟩
      exact ⟨⟨hne, hcomment, hglobs.2 ⟨component, hmem, hg⟩⟩,
        fun _ => .inr fun h => absurd h hslash⟩
    · rintro ⟨⟨-, -, hg⟩, -⟩
      obtain ⟨component, hmem, hg⟩ := hglobs.1 hg
      refine ⟨component, hmem, hg, ?_⟩
      rw [pathDescendsFrom_of_mem hmem, Bool.or_true]

/-- **Directories** are matched as the patterns are meant. -/
theorem oneIgnoreMatches_dir {pattern path : Text} :
    oneIgnoreMatches pattern path true = true ↔ Matches pattern path true := by
  rw [oneIgnoreMatches_iff]
  exact ⟨fun h => ⟨h.1, fun _ => rfl⟩, fun h => ⟨h.toApplies, fun _ => .inl rfl⟩⟩

/-- **Files** are matched by some patterns for directories too. -/
theorem oneIgnoreMatches_file {pattern path : Text} :
    oneIgnoreMatches pattern path false = true ↔
      Matches pattern path false ∨ TakenForDir pattern path := by
  rw [oneIgnoreMatches_iff]
  constructor
  · rintro ⟨happ, hdir⟩
    by_cases hd : DirOnly pattern
    · exact .inr ⟨happ, hd, (hdir hd).resolve_left (by simp)⟩
    · exact .inl ⟨happ, fun h => absurd h hd⟩
  · rintro (⟨happ, hdir⟩ | ⟨happ, hd, hdesc⟩)
    · exact ⟨happ, fun hd => .inl (hdir hd)⟩
    · exact ⟨happ, fun _ => .inr hdesc⟩

/-! ### What the walk should return -/

/-- No pattern matches a path. -/
def Free (opts : WalkOptions) (p : List Text) (isDir : Bool) : Prop :=
  ∀ pattern ∈ opts.ignorePatterns, ¬ Matches pattern (toSlash p) isDir

/-- No pattern for directories is applied to the path of a file. -/
def NotTaken (opts : WalkOptions) (p : List Text) : Prop :=
  ∀ pattern ∈ opts.ignorePatterns, ¬ TakenForDir pattern (toSlash p)

/-- A path is tracked. -/
def Tracked (opts : WalkOptions) (p : List Text) : Prop := toSlash p ∈ opts.tracked

/-- There is a regular file at a path outside of `.omp`. -/
structure FileOutside (root : Dir) (p : List Text) : Prop where
  hasFile : HasFile root p
  outside : inOmp (toSlash p) = false

/-- Tracked files are returned, and others if no pattern matches them or a directory above. -/
def Respects (opts : WalkOptions) (root : Dir) : Prop :=
  ∀ p, FileOutside root p →
    (Tracked opts p → Returns opts root p) ∧
    (¬ Tracked opts p →
      (Returns opts root p ↔ Free opts p false ∧ ∀ q, Ancestor q p → Free opts q true))

theorem passes_dir_iff {opts : WalkOptions} {p : List Text} (h : inOmp (toSlash p) = false) :
    passes opts p true = true ↔ Tracked opts p ∨ Free opts p true := by
  have hfree : ignoreMatches opts.ignorePatterns (toSlash p) true = false ↔ Free opts p true := by
    simp only [ignoreMatches, List.any_eq_false, oneIgnoreMatches_dir, Free]
  rw [passes, h, ← hfree]
  simp [Tracked]

theorem passes_file_iff {opts : WalkOptions} {p : List Text} (h : inOmp (toSlash p) = false) :
    passes opts p false = true ↔ Tracked opts p ∨ Free opts p false ∧ NotTaken opts p := by
  have hfree : ignoreMatches opts.ignorePatterns (toSlash p) false = false ↔
      Free opts p false ∧ NotTaken opts p := by
    simp only [ignoreMatches, List.any_eq_false, oneIgnoreMatches_file, not_or, Free, NotTaken]
    exact ⟨fun h => ⟨fun x hx => (h x hx).1, fun x hx => (h x hx).2⟩,
      fun h x hx => ⟨h.1 x hx, h.2 x hx⟩⟩
  rw [passes, h, ← hfree]
  simp [Tracked]

/-- What is above a path outside of `.omp` is outside as well. -/
theorem inOmp_of_ancestor {p q : List Text} (hq : Ancestor q p) (h : inOmp (toSlash p) = false) :
    inOmp (toSlash q) = false := by
  obtain ⟨r, rfl⟩ := hq.isPrefix
  have hr : r ≠ [] := by
    rintro rfl
    exact hq.ne (List.append_nil q).symm
  have hslash : toSlash (q ++ r) = toSlash q ++ '/' :: toSlash r := by
    rw [toSlash, joinWith_append hq.ne_nil hr, List.map_append]
    rfl
  rw [← Bool.not_eq_true, inOmp, Bool.or_eq_true, decide_eq_true_eq,
    List.isPrefixOf_iff_prefix] at h ⊢
  rintro (heq | hpre)
  · refine h (.inr ?_)
    rw [hslash, heq]
    exact ⟨toSlash r, rfl⟩
  · refine h (.inr (hpre.trans ?_))
    rw [hslash]
    exact List.prefix_append _ _

/-- What the walk comes to, by the patterns and the tracked paths. -/
theorem returns_iff_free {opts : WalkOptions} {root : Dir} {p : List Text}
    (hp : FileOutside root p) :
    Returns opts root p ↔ (Tracked opts p ∨ Free opts p false ∧ NotTaken opts p) ∧
      ∀ q, Ancestor q p → Tracked opts q ∨ Free opts q true := by
  rw [returns_iff hp.hasFile, ← passes_file_iff hp.outside]
  constructor
  · rintro ⟨hfile, habove⟩
    exact ⟨hfile, fun q hq => (passes_dir_iff (inOmp_of_ancestor hq hp.outside)).1 (habove q hq)⟩
  · rintro ⟨hfile, habove⟩
    exact ⟨hfile, fun q hq => (passes_dir_iff (inOmp_of_ancestor hq hp.outside)).2 (habove q hq)⟩

/-- The condition on the patterns and the tracked paths. -/
structure Apart (opts : WalkOptions) (root : Dir) : Prop where
  /-- No tracked file lies below a directory that is not tracked and that a pattern matches. -/
  tracked : ∀ p, FileOutside root p → Tracked opts p →
    ∀ q, Ancestor q p → Tracked opts q ∨ Free opts q true
  /-- No file that is not tracked, and that no pattern is applied to, lies below directories that
  patterns match and that are all tracked themselves. -/
  untracked : ∀ p, FileOutside root p → ¬ Tracked opts p → Free opts p false → NotTaken opts p →
    (∀ q, Ancestor q p → Tracked opts q ∨ Free opts q true) → ∀ q, Ancestor q p → Free opts q true
  /-- No pattern for directories is applied to a file that is not tracked, and that no pattern
  matches, nor a directory above it. -/
  taken : ∀ p, FileOutside root p → ¬ Tracked opts p → Free opts p false →
    (∀ q, Ancestor q p → Free opts q true) → NotTaken opts p

/-- **Ignore rules never hide tracked files**, and hide the others as they are meant, if and only if
the patterns and the tracked paths are apart. -/
theorem ignores_iff (opts : WalkOptions) (root : Dir) : Respects opts root ↔ Apart opts root := by
  constructor
  · intro h
    refine ⟨fun p hp htracked => ?_, fun p hp hnot hfree htaken habove => ?_,
      fun p hp hnot hfree habove => ?_⟩
    · exact ((returns_iff_free hp).1 ((h p hp).1 htracked)).2
    · exact (((h p hp).2 hnot).1 ((returns_iff_free hp).2 ⟨.inr ⟨hfree, htaken⟩, habove⟩)).2
    · obtain ⟨hfile, -⟩ := (returns_iff_free hp).1 (((h p hp).2 hnot).2 ⟨hfree, habove⟩)
      exact (hfile.resolve_left hnot).2
  · intro h p hp
    refine ⟨fun htracked => (returns_iff_free hp).2 ⟨.inl htracked, h.tracked p hp htracked⟩,
      fun hnot => ⟨fun hreturns => ?_, fun ⟨hfree, habove⟩ => ?_⟩⟩
    · obtain ⟨hfile, habove⟩ := (returns_iff_free hp).1 hreturns
      obtain ⟨hfree, htaken⟩ := hfile.resolve_left hnot
      exact ⟨hfree, h.untracked p hp hnot hfree htaken habove⟩
    · exact (returns_iff_free hp).2
        ⟨.inr ⟨hfree, h.taken p hp hnot hfree habove⟩, fun q hq => .inr (habove q hq)⟩

/-- A tracked file in an ignored directory. -/
def demoRoot : Dir := .dir "foo".toList (.file "a".toList .empty) .empty

/-- A tracked file is not returned; and a file is left out by a pattern for directories. -/
theorem tracked_hidden :
    ¬ Respects ⟨["foo".toList], ["foo/a".toList]⟩ demoRoot ∧
      ¬ Respects ⟨["foo/".toList], []⟩ (.file "foo".toList .empty) := by
  constructor
  · intro h
    have hfile : FileOutside demoRoot ["foo".toList, "a".toList] :=
      ⟨.inside _ _ (.here _ _), by decide⟩
    have hreturns := (h _ hfile).1 (show toSlash _ ∈ _ by decide)
    have hpass := ((returns_iff hfile.hasFile).1 hreturns).above ["foo".toList]
      ⟨by decide, by decide, ⟨_, rfl⟩⟩
    revert hpass
    decide
  · intro h
    have hfile : FileOutside (.file "foo".toList .empty) ["foo".toList] := ⟨.here _ _, by decide⟩
    have hfree : Free ⟨["foo/".toList], []⟩ ["foo".toList] false := by
      intro pattern hpattern hmatches
      obtain rfl := List.mem_singleton.1 hpattern
      cases hmatches.isDir_of_dirOnly (show _ = _ by decide)
    have habove : ∀ q, Ancestor q ["foo".toList] → Free ⟨["foo/".toList], []⟩ q true := by
      intro q hq
      obtain rfl | ⟨t, rfl, ht⟩ := List.prefix_cons_iff.1 hq.isPrefix
      · exact absurd rfl hq.ne_nil
      · exact absurd (by rw [List.prefix_nil.1 ht]) hq.ne
    have hreturns := ((h _ hfile).2 List.not_mem_nil).2 ⟨hfree, habove⟩
    have hpass := ((returns_iff hfile.hasFile).1 hreturns).file
    revert hpass
    decide

end Walker

end Omp
