import Omp.Contents
import Omp.Diff
import Omp.Pages

/-!
# What is shown of a repository

`show`, `ls` and `files` read a tree of a commit; `show_staged` and `ls_staged` read the index.  A
file is shown with a hint for the user interface, which for a manifest comes from the schema in the
tree that is shown and for what is staged is always that of a binary file.

## Main definitions

* `RenderHint`, `effectiveRender` : how a file is to be rendered.
* `Repo.show_`, `Repo.ls`, `Repo.files`, `Repo.listSchemas` : what is read of a commit.
* `Repo.showStaged`, `Repo.lsStaged`, `Repo.status` : what is read of the index.
* `partsWalk` : a walk whose paths are lists of components.

## Main results

* `Repo.ls_below` : what is listed below a directory is what is listed of all below it.
* `Repo.files_eq_query` : the files are the matches of a query without a predicate.
* `Repo.show_of_commit` : a file that was staged is shown after the commit as it was before, up to
  the hint.
-/

namespace Omp

open Lib RepoScript

/-! ### Hints -/

/-- `RenderKind`. -/
inductive RenderKind where
  | text | hex | image | markdown | binary | none
  deriving DecidableEq

/-- `RenderHint`. -/
structure RenderHint where
  kind : RenderKind
  maxInlineBytes : Option Nat
  deriving DecidableEq

/-- `parse_render_kind`. -/
def parseRenderKind (s : Text) : RenderKind :=
  let s := Query.lower (trim s)
  if s = "text".toList then .text
  else if s = "hex".toList then .hex
  else if s = "image".toList then .image
  else if s = "markdown".toList then .markdown
  else if s = "binary".toList then .binary
  else if s = "none".toList then .none
  else .binary

/-- `heuristic_render_kind`. -/
def heuristicRenderKind (mimePattern : Text) : RenderKind :=
  let lower := Query.lower mimePattern
  if "text/markdown".toList <+: lower ∨ lower = "text/x-markdown".toList then .markdown
  else if "image/".toList <+: lower then .image
  else if "text/".toList <+: lower then .text
  else if "application/json".toList <+: lower ∨ "application/toml".toList <+: lower ∨
      "application/yaml".toList <+: lower ∨ "application/x-yaml".toList <+: lower ∨
      "xml".toList <:+: lower then .text
  else .binary

/-- The hint where there is no other. -/
def RenderHint.fallback : RenderHint := ⟨.binary, none⟩

/-- The extensions of blobs that are shown as text. -/
def textExtensions : List Text :=
  [".toml", ".txt", ".json", ".yaml", ".yml", ".rs", ".py", ".ts", ".js", ".sh", ".css",
    ".html"].map String.toList

/-- What a view takes from crates besides. -/
structure ViewWorld extends World where
  /-- The `render` block of a schema that `toml::from_str` reads: its kind and its bound. -/
  rawRender : Text → Option (Text × Option Nat)

/-- `render_for_blob_path`. -/
def renderForBlobPath (W : World) (path : Text) : RenderHint :=
  let lower := W.toLowercase path
  if ".md".toList <:+ lower ∨ ".markdown".toList <:+ lower then ⟨.markdown, none⟩
  else if ∃ e ∈ textExtensions, e <:+ lower then ⟨.text, none⟩
  else ⟨.binary, none⟩

/-- `effective_render` of the schema that was parsed from some bytes. -/
def effectiveRender (V : ViewWorld) (bytes : Bytes) (schema : Schema) : RenderHint :=
  match (fromUtf8 bytes).bind V.rawRender with
  | some (kind, maxInlineBytes) => ⟨parseRenderKind kind, maxInlineBytes⟩
  | none => ⟨(schema.mimePatterns.head?.map heuristicRenderKind).getD .binary, none⟩

/-! ### Results -/

/-- `TreeEntryOut`. -/
structure TreeEntryOut where
  name : Text
  mode : Text
  hash : Hash
  deriving DecidableEq

/-- `ShowResult`. -/
inductive Repo.ShowResult where
  | manifest (path : Text) (manifest : Manifest) (render : RenderHint)
  | blob (path : Text) (blobHash : Hash) (size : Nat) (render : RenderHint)
  | tree (path : Text) (entries : List TreeEntryOut)

/-- `FileListing`. -/
structure FileListing where
  path : Text
  manifestHash : Hash
  sourceHash : Hash
  fileType : Text
  deriving DecidableEq

/-- `RepoStatus`. -/
structure RepoStatus where
  branch : Option Text
  head : Option Hash
  staged : List StagedChange

namespace Repo

variable (V : ViewWorld)

/-! ### Commits -/

/-- `list_tree`. -/
def listTree (s : Store) (hash : Hash) : Except OmpError (List TreeEntryOut) :=
  match s.get V.toPlatform hash with
  | none => .error (.notFound ("tree ".toList ++ hash.hex))
  | some o =>
    if o.type ≠ .tree then .error (.corrupt "expected tree".toList)
    else do
      let tree ← Tree.parseWithPathKey V.toPlatform none o.content
      .ok (tree.entries.toList.map fun p => ⟨p.1, p.2.mode.asStr, p.2.hash⟩)

/-- `render_for_file_type`, which does not fail. -/
def renderForFileType (s : Store) (fileType : Text) : Option Hash → RenderHint
  | none => .fallback
  | some root => match getAt V.toPlatform s none (schemaPath fileType) root with
    | .ok (some ⟨.blob, h⟩) => match s.get V.toPlatform h with
      | none => .fallback
      | some o => match Schema.parse V.toWorld o.content fileType with
        | .ok schema => effectiveRender V o.content schema
        | .error _ => .fallback
    | _ => .fallback

/-- What `show` shows: the entry at a path, or the tree at the empty one. -/
def shownEntry (s : Store) (path : Text) (root : Option Hash) : Except OmpError (Option Entry) :=
  if path = [] then .ok (root.map fun h => ⟨.tree, h⟩)
  else match root with
    | some root => getAt V.toPlatform s none path root
    | none => .ok none

/-- The rest of `show`, once the root is known. -/
def showAt (s : Store) (path : Text) (root : Option Hash) : Except OmpError ShowResult := do
  match ← shownEntry V s path root with
  | none => .error (.notFound ("path ".toList ++ V.debugStr path))
  | some ⟨.manifest, hash⟩ => match s.get V.toPlatform hash with
    | none => .error (.notFound ("manifest ".toList ++ hash.hex))
    | some o => do
      let m ← Manifest.parse V.toWorld o.content
      .ok (.manifest path m (renderForFileType V s m.fileType root))
  | some ⟨.blob, hash⟩ => match s.get V.toPlatform hash with
    | none => .error (.notFound ("blob ".toList ++ hash.hex))
    | some o => .ok (.blob path hash o.content.length (renderForBlobPath V.toWorld path))
  | some ⟨.tree, hash⟩ => do
    let entries ← listTree V s hash
    .ok (.tree path entries)

/-- `show`. -/
def show_ (r : Repo) (path : Text) (at_ : Option Text) : Except OmpError ShowResult := do
  let root ← r.rootTree V.toWorld at_
  showAt V r.store path root

/-- The directory that `ls` lists. -/
def listedTree (s : Store) (path : Text) (root : Hash) : Except OmpError Hash :=
  if path = [] then .ok root
  else do
    match ← getAt V.toPlatform s none path root with
    | some ⟨.tree, h⟩ => .ok h
    | some _ => .error (.invalidPath
        ("path ".toList ++ V.debugStr path ++ " is not a directory".toList))
    | none => .error (.notFound ("path ".toList ++ V.debugStr path))

/-- A line of a listing. -/
def lineOf (p : Text × Entry) : TreeEntryOut := ⟨p.1, p.2.mode.asStr, p.2.hash⟩

/-- The rest of `ls`, once the root is known. -/
def lsAt (s : Store) (path : Text) (root : Hash) (recursive : Bool) :
    Except (Fault OmpError) (List TreeEntryOut) := do
  let subtree ← (listedTree V s path root).mapError .err
  if recursive then do
    let entries ← walk V.toPlatform s none subtree
    .ok (entries.map lineOf)
  else (listTree V s subtree).mapError .err

/-- `ls`. -/
def ls (r : Repo) (path : Text) (at_ : Option Text) (recursive : Bool) :
    Except (Fault OmpError) (List TreeEntryOut) := do
  match ← (r.rootTree V.toWorld at_).mapError .err with
  | none => .error (.err (.notFound "no commits".toList))
  | some root => lsAt V r.store path root recursive

/-- The line of `files` for a manifest. -/
def fileListing (s : Store) (p : Text × Hash) : Except OmpError FileListing :=
  match s.get V.toPlatform p.2 with
  | none => .error (.notFound ("manifest ".toList ++ p.2.hex))
  | some o => do
    let m ← Manifest.parse V.toWorld o.content
    .ok ⟨p.1, p.2, m.sourceHash, m.fileType⟩

/-- The manifests among leaves, below a prefix. -/
def manifestsBelow (leaves : List (Text × Entry)) (prefix_ : Option Text) : List (Text × Hash) :=
  (leaves.filter fun p => p.2.mode = .manifest && prefix_.all fun pfx => pfx <+: p.1).map
    fun p => (p.1, p.2.hash)

/-- The rest of `files`, once the root is known. -/
def filesAt (s : Store) (root : Hash) (prefix_ : Option Text) :
    Except (Fault OmpError) (List FileListing) := do
  let entries ← walk V.toPlatform s none root
  ((manifestsBelow entries prefix_).mapM (fileListing V s)).mapError .err

/-- `files`. -/
def files (r : Repo) (at_ prefix_ : Option Text) : Except (Fault OmpError) (List FileListing) := do
  match ← (r.rootTree V.toWorld at_).mapError .err with
  | none => .ok []
  | some root => filesAt V r.store root prefix_

/-! ### The index -/

/-- The rest of `show_staged`, once the hash is known. -/
def showHash (s : Store) (path : Text) (hash : Hash) : Except OmpError ShowResult :=
  match s.get V.toPlatform hash with
  | none => .error (.corrupt ("staged blob ".toList ++ hash.hex ++ " missing".toList))
  | some ⟨.manifest, content⟩ => do
    let m ← Manifest.parse V.toWorld content
    .ok (.manifest path m (renderForFileType V s m.fileType none))
  | some ⟨.blob, content⟩ =>
    .ok (.blob path hash content.length (renderForBlobPath V.toWorld path))
  | some ⟨other, _⟩ => .error (.corrupt ("staged path ".toList ++ V.debugStr path ++
      " points at a non-blob/manifest (".toList ++ other.asStr ++ ")".toList))

/-- `show_staged`. -/
def showStaged (r : Repo) (path : Text) : Except OmpError ShowResult :=
  match r.index[path]? with
  | none => .error (.notFound ("path ".toList ++ V.debugStr path ++ " not staged".toList))
  | some c =>
    if c.kind = .delete then
      .error (.notFound ("path ".toList ++ V.debugStr path ++ " is staged for deletion".toList))
    else match c.hash with
    | none => .error (.notFound ("path ".toList ++ V.debugStr path ++ " has no staged hash".toList))
    | some hash => showHash V r.store path hash

/-- The line of `ls_staged` for a change, if there is one. -/
def stagedLine (s : Store) (p : Text × StagedChange) : Option TreeEntryOut := do
  if p.2.kind = .delete then none
  let hash ← p.2.hash
  let o ← s.get V.toPlatform hash
  some ⟨p.1, if o.type = .blob ∨ o.type = .manifest ∨ o.type = .tree then o.type.asStr
    else "blob".toList, hash⟩

/-- `ls_staged`; the index is in the order of its paths. -/
def lsStaged (r : Repo) : List TreeEntryOut := r.index.toList.filterMap (stagedLine V r.store)

/-- `status`; the index is in the order of its paths. -/
def status (r : Repo) : Except OmpError RepoStatus := do
  let branch ← match ← parseHead V.toPlatform r.readHead with
    | .branch name => .ok (some name)
    | .detached _ => .ok none
  let head ← r.resolveHead V.toWorld
  .ok ⟨branch, head, r.index.toList.map Prod.snd⟩

/-! ### Schemas -/

/-- `list_schemas`, with the schemas themselves for their summaries. -/
def listSchemas (env : Env) (r : Repo) (at_ : Option Text) :
    Except (Fault OmpError) (List Schema) := do
  let committed ← match ← (r.rootTree V.toWorld at_).mapError .err with
    | some root => treeSchemas V.toWorld r.store root
    | none => .ok []
  let byType := committed.foldl (fun m s => m.insert s.fileType s) (∅ : TextMap Schema)
  let byType := if at_.isNone then (workSchemas V.toWorld env).foldl
      (fun m s => if m.contains s.fileType then m else m.insert s.fileType s) byType
    else byType
  .ok (byType.toList.map Prod.snd)

end Repo

/-! ### Below a directory -/

section Below

variable {P : Platform} {s : Store} {key : Option Key}

variable (P s key) in
/-- The recursion of a walk, with paths as lists of components. -/
def partsWalk : Nat → Hash → Except (Fault OmpError) (List (List Text × Entry))
  | 0, _ => .error .panic
  | fuel + 1, h => do
    let tree ← (loadTree P s key h).mapError .err
    let parts ← tree.entries.toList.mapM fun p =>
      if p.2.mode = .tree then (partsWalk fuel p.2.hash).map (·.map fun x => (p.1 :: x.1, x.2))
      else .ok [([p.1], p.2)]
    .ok parts.flatten

/-- A leaf with its path as a string, below a directory. -/
def pathFrom (dir : Text) (x : List Text × Entry) : Text × Entry := (x.1.foldl joinPath dir, x.2)

theorem mapM_map_right {ε α β γ : Type} (f : α → Except ε β) (g : β → γ) (l : List α) :
    (l.mapM fun a => (f a).map g) = (l.mapM f).map (List.map g) := by
  induction l with
  | nil => rfl
  | cons a l ih =>
    rw [List.mapM_cons, List.mapM_cons, ih]
    cases f a with
    | error e => rfl
    | ok b =>
      cases l.mapM f with
      | error e => rfl
      | ok bs => rfl

/-- **A walk lists the strings of the paths.** -/
theorem walkInner_eq_partsWalk (fuel : Nat) (dir : Text) (h : Hash) :
    walkInner P s key fuel dir h = (partsWalk P s key fuel h).map (·.map (pathFrom dir)) := by
  induction fuel generalizing dir h with
  | zero => rfl
  | succ fuel ih =>
    rw [walkInner, partsWalk]
    cases loadTree P s key h with
    | error e => rfl
    | ok tree =>
      have hentry : ∀ p : Text × Entry,
          (if p.2.mode = .tree then walkInner P s key fuel (joinPath dir p.1) p.2.hash
            else .ok [(joinPath dir p.1, p.2)]) =
          (if p.2.mode = .tree then (partsWalk P s key fuel p.2.hash).map
              (·.map fun x => (p.1 :: x.1, x.2))
            else .ok [([p.1], p.2)]).map (·.map (pathFrom dir)) := by
        intro p
        split_ifs
        · rw [ih]
          cases partsWalk P s key fuel p.2.hash with
          | error e => rfl
          | ok qs =>
            simp only [Except.map, List.map_map, Except.ok.injEq]
            exact List.map_congr_left fun x _ => rfl
        · rfl
      have hflatten : ∀ x : Except (Fault OmpError) (List (List (List Text × Entry))),
          (x.map (List.map (List.map (pathFrom dir))) >>= fun parts => .ok parts.flatten) =
            (x >>= fun parts => .ok parts.flatten).map (List.map (pathFrom dir)) := by
        intro x
        cases x with
        | error e => rfl
        | ok parts => exact congrArg Except.ok List.map_flatten.symm
      simp only [hentry, mapM_map_right]
      exact hflatten _

/-- What a walk of a tree lists, entry by entry. -/
theorem exists_entries_of_partsWalk {fuel : Nat} {h : Hash} {qs : List (List Text × Entry)}
    (hwalk : partsWalk P s key fuel h = .ok qs) :
    ∃ n t f, fuel = n + 1 ∧ loadTree P s key h = .ok t ∧ qs = t.entries.toList.flatMap f ∧
      ∀ p ∈ t.entries.toList,
        (p.2.mode = .tree → ∃ rs, partsWalk P s key n p.2.hash = .ok rs ∧
          f p = rs.map fun x => (p.1 :: x.1, x.2)) ∧
        (p.2.mode ≠ .tree → f p = [([p.1], p.2)]) := by
  cases fuel with
  | zero => cases hwalk
  | succ n =>
    rw [partsWalk] at hwalk
    obtain ⟨t, ht, hwalk⟩ := except_bind_eq_ok.1 hwalk
    obtain ⟨parts, hparts, hwalk⟩ := except_bind_eq_ok.1 hwalk
    cases hwalk
    have hentry : ∀ p : Text × Entry, ∃ qs, p ∈ t.entries.toList →
        (if p.2.mode = .tree then
          (partsWalk P s key n p.2.hash).map (·.map fun x => (p.1 :: x.1, x.2))
        else .ok [([p.1], p.2)]) = .ok qs := by
      intro p
      by_cases hp : p ∈ t.entries.toList
      · obtain ⟨qs, hqs, -⟩ := exists_of_mapM hparts hp
        exact ⟨qs, fun _ => hqs⟩
      · exact ⟨[], fun h => absurd h hp⟩
    choose f hf using hentry
    have hmap := mapM_ok (l := t.entries.toList) hf
    rw [hmap, Except.ok.injEq] at hparts
    refine ⟨n, t, f, rfl, mapError_eq_ok.1 ht, by rw [← hparts, List.flatMap_def], ?_⟩
    intro p hp
    have hfp := hf p hp
    refine ⟨fun hmode => ?_, fun hmode => ?_⟩
    · rw [if_pos hmode] at hfp
      cases hrs : partsWalk P s key n p.2.hash with
      | error e => rw [hrs] at hfp; cases hfp
      | ok rs =>
        rw [hrs] at hfp
        exact ⟨rs, rfl, (Except.ok.inj hfp).symm⟩
    · rw [if_neg hmode] at hfp
      exact (Except.ok.inj hfp).symm

/-- Among what comes from the entries of a tree, one entry is told by its name. -/
theorem filter_flatMap_entries {t : Tree} {n : Text} {e : Entry} (hn : t.get n = some e)
    (f : Text × Entry → List (List Text × Entry))
    (hf : ∀ p ∈ t.entries.toList, ∀ x ∈ f p, x.1.head? = some p.1) :
    (t.entries.toList.flatMap f).filter (fun x => x.1.head? = some n) = f (n, e) := by
  have hmem : (n, e) ∈ t.entries.toList := Tree.mem_toList.2 hn
  have hne : t.entries.toList.Pairwise fun p p' => p.1 ≠ p'.1 := t.entries.pairwise_toList
  generalize t.entries.toList = l at hf hmem hne
  induction l with
  | nil => cases hmem
  | cons p l ih =>
    obtain ⟨hp, hf⟩ := List.forall_mem_cons.1 hf
    obtain ⟨hhead, hne⟩ := List.pairwise_cons.1 hne
    rw [List.flatMap_cons, List.filter_append]
    rcases List.mem_cons.1 hmem with rfl | hmem
    · -- the rest has other names
      have hrest : (l.flatMap f).filter (fun x => x.1.head? = some n) = [] := by
        refine List.filter_eq_nil_iff.2 fun x hx => ?_
        obtain ⟨p', hp', hx⟩ := List.mem_flatMap.1 hx
        have hother : p'.1 ≠ n := (hhead p' hp').symm
        simpa [hf p' (List.mem_cons_of_mem _ hp') x hx] using hother
      rw [hrest, List.append_nil]
      exact List.filter_eq_self.2 fun x hx => by simpa using hp x hx
    · have hother : (f p).filter (fun x => x.1.head? = some n) = [] := by
        refine List.filter_eq_nil_iff.2 fun x hx => ?_
        simpa [hp x hx] using hhead (n, e) hmem
      rw [hother, List.nil_append]
      exact ih hf hmem hne

/-- **What a walk lists below a directory** is the walk of that directory. -/
theorem partsWalk_below {parts : List Text} (hparts : parts ≠ []) {fuel : Nat} {h g : Hash}
    {qs : List (List Text × Entry)} {t : Tree} (hwalk : partsWalk P s key fuel h = .ok qs)
    (hload : loadTree P s key h = .ok t) (hget : getParts P s key t parts = .ok (some ⟨.tree, g⟩)) :
    ∃ n rs, n < fuel ∧ partsWalk P s key n g = .ok rs ∧
      qs.filter (fun x => parts <+: x.1) = rs.map fun x => (parts ++ x.1, x.2) := by
  induction parts generalizing fuel h qs t with
  | nil => exact absurd rfl hparts
  | cons part rest ih =>
    obtain ⟨n, t', f, rfl, hload', rfl, hf⟩ := exists_entries_of_partsWalk hwalk
    cases hload.symm.trans hload'
    have hhead : ∀ p ∈ t.entries.toList, ∀ x ∈ f p, x.1.head? = some p.1 := by
      intro p hp x hx
      by_cases hmode : p.2.mode = .tree
      · obtain ⟨rs, -, hfp⟩ := (hf p hp).1 hmode
        rw [hfp] at hx
        obtain ⟨y, -, rfl⟩ := List.mem_map.1 hx
        rfl
      · rw [(hf p hp).2 hmode] at hx
        rw [List.mem_singleton.1 hx]
        rfl
    -- the entry of the first component, and what is listed below it
    obtain ⟨e, he, hmode⟩ : ∃ e, t.get part = some e ∧ e.mode = .tree := by
      cases rest with
      | nil => exact ⟨_, Except.ok.inj hget, rfl⟩
      | cons next rest =>
        rw [getParts] at hget
        cases he : t.get part with
        | none => rw [he] at hget; cases hget
        | some e =>
          rw [he] at hget
          dsimp only at hget
          split_ifs at hget with hmode
          · exact ⟨e, rfl, hmode⟩
          · cases hget
    obtain ⟨rs, hrs, hfe⟩ := (hf (part, e) (Tree.mem_toList.2 he)).1 hmode
    have hfilter : (t.entries.toList.flatMap f).filter (fun x => part :: rest <+: x.1) =
        (rs.filter fun x => rest <+: x.1).map fun x => (part :: x.1, x.2) := by
      have hsplit : ∀ x : List Text × Entry, decide (part :: rest <+: x.1) =
          (decide (x.1.head? = some part) && decide (rest <+: x.1.tail)) := by
        rintro ⟨q, e⟩
        rw [Bool.eq_iff_iff]
        cases q with
        | nil => simp
        | cons m q =>
          simp only [List.cons_prefix_cons, List.head?_cons, List.tail_cons, Bool.and_eq_true,
            decide_eq_true_eq, Option.some.injEq, eq_comm (a := part)]
          exact and_congr_right fun _ => decide_eq_true_iff.symm
      simp only [hsplit]
      rw [← List.filter_filter, List.filter_comm, filter_flatMap_entries he f hhead, hfe,
        List.filter_map]
      rfl
    cases rest with
    | nil =>
      have hg : e = ⟨.tree, g⟩ := Option.some.inj (he.symm.trans (Except.ok.inj hget))
      subst hg
      refine ⟨n, rs, Nat.lt_succ_self n, hrs, hfilter.trans ?_⟩
      simp
    | cons next rest =>
      rw [getParts, he] at hget
      dsimp only at hget
      rw [if_pos hmode] at hget
      obtain ⟨child, hchild, hget⟩ := except_bind_eq_ok.1 hget
      obtain ⟨m, rs', hm, hwalk', hbelow⟩ := ih (List.cons_ne_nil _ _) hrs hchild hget
      refine ⟨m, rs', by omega, hwalk', ?_⟩
      rw [hfilter, hbelow, List.map_map]
      rfl

/-- The leaves a walk lists are strings of valid names. -/
theorem exists_parts_of_walk {root : Hash} {ws : List (Text × Entry)}
    (hwalk : walk P s key root = .ok ws) :
    ∃ qs, partsWalk P s key (s.objects.length + 1) root = .ok qs ∧ ws = qs.map (pathFrom []) := by
  rw [walk, walkInner_eq_partsWalk] at hwalk
  cases hqs : partsWalk P s key (s.objects.length + 1) root with
  | error e =>
    rw [hqs] at hwalk
    cases hwalk
  | ok qs =>
    rw [hqs] at hwalk
    exact ⟨qs, rfl, (Except.ok.inj hwalk).symm⟩

theorem listed_of_partsWalk {fuel : Nat} {h : Hash} {qs : List (List Text × Entry)}
    (hwalk : partsWalk P s key fuel h = .ok qs) {x : List Text × Entry} (hx : x ∈ qs) :
    x.1 ≠ [] ∧ ∀ n ∈ x.1, ValidName n := by
  induction fuel generalizing h qs x with
  | zero => cases hwalk
  | succ fuel ih =>
    obtain ⟨n, t, f, hn, -, rfl, hf⟩ := exists_entries_of_partsWalk hwalk
    cases hn
    obtain ⟨p, hp, hx⟩ := List.mem_flatMap.1 hx
    have hname : ValidName p.1 := Tree.validName_of_get (Tree.mem_toList.1 hp)
    by_cases hmode : p.2.mode = .tree
    · obtain ⟨rs, hrs, hfp⟩ := (hf p hp).1 hmode
      rw [hfp] at hx
      obtain ⟨y, hy, rfl⟩ := List.mem_map.1 hx
      exact ⟨List.cons_ne_nil _ _, List.forall_mem_cons.2 ⟨hname, (ih hrs hy).2⟩⟩
    · rw [(hf p hp).2 hmode] at hx
      rw [List.mem_singleton.1 hx]
      exact ⟨List.cons_ne_nil _ _, List.forall_mem_singleton.2 hname⟩

/-- A path string starts with that of a directory exactly if its components do. -/
theorem slash_prefix_iff {parts q : List Text} (hparts : ∀ n ∈ parts, '/' ∉ n) (hne : parts ≠ [])
    (hq : ∀ n ∈ q, ValidName n) :
    joinWith '/' parts ++ ['/'] <+: joinWith '/' q ↔ ∃ rest, rest ≠ [] ∧ q = parts ++ rest := by
  constructor
  · rintro ⟨y, hy⟩
    rw [List.append_assoc, List.singleton_append] at hy
    obtain ⟨-, rest, hrest⟩ := split_of_append_slash (P := demo) hq hy.symm
    have hsplit : (joinWith '/' parts).splitOn '/' = parts :=
      List.splitOn_intercalate '/' hparts hne
    rw [hsplit] at hrest
    refine ⟨rest, ?_, hrest⟩
    rintro rfl
    rw [hrest, List.append_nil] at hy
    simpa using congrArg List.length hy
  · rintro ⟨rest, hrest, rfl⟩
    rw [joinWith_append hne hrest]
    exact ⟨joinWith '/' rest, by simp⟩

end Below

namespace Repo

/-- The lines of a listing put below a directory. -/
def lineBelow (dir : Text) (e : TreeEntryOut) : TreeEntryOut := { e with name := dir ++ '/' :: e.name }

/-- **What is listed below a directory** is what is listed of all, as far as it is below: the same
lines in the same order, with their names cut. -/
theorem ls_below {V : ViewWorld} {r : Repo} {at_ : Option Text} {root h : Hash}
    {all : List TreeEntryOut} (hroot : r.rootTree V.toWorld at_ = .ok (some root))
    (hall : r.ls V [] at_ true = .ok all) {path : Text} {parts : List Text}
    (hsplit : split V.toPlatform path = .ok parts) (hne : parts ≠ [])
    (hdir : getAt V.toPlatform r.store none path root = .ok (some ⟨.tree, h⟩)) :
    ∃ sub, r.ls V path at_ true = .ok sub ∧
      all.filter (fun e => joinWith '/' parts ++ ['/'] <+: e.name) =
        sub.map (lineBelow (joinWith '/' parts)) := by
  have hls : ∀ path, r.ls V path at_ true = (do
      let subtree ← (listedTree V r.store path root).mapError .err
      let entries ← walk V.toPlatform r.store none subtree
      .ok (entries.map lineOf)) := fun path => by
    rw [ls, hroot]
    rfl
  rw [hls, listedTree, if_pos rfl] at hall
  obtain ⟨g, hg, hall⟩ := except_bind_eq_ok.1 hall
  obtain rfl := Except.ok.inj (mapError_eq_ok.1 hg)
  obtain ⟨ws, hwalk, hall⟩ := except_bind_eq_ok.1 hall
  cases hall
  obtain ⟨qs, hqs, rfl⟩ := exists_parts_of_walk hwalk
  -- the directory is walked on the way
  have hget := hdir
  simp only [getAt, hsplit, bind, Except.bind, if_neg hne] at hget
  obtain ⟨t, hload, hget⟩ := except_bind_eq_ok.1 hget
  obtain ⟨n, rs, hn, hrs, hbelow⟩ := partsWalk_below hne hqs hload hget
  have hsub : walk V.toPlatform r.store none h = .ok (rs.map (pathFrom [])) := by
    refine walkInner_mono le_rfl hn.le ?_
    rw [walkInner_eq_partsWalk, hrs]
    rfl
  have hpath : path ≠ [] := by
    rintro rfl
    exact hne (Except.ok.inj hsplit).symm
  refine ⟨(rs.map (pathFrom [])).map lineOf, ?_, ?_⟩
  · rw [hls, listedTree, if_neg hpath, hdir]
    simp only [Except.mapError, bind, Except.bind, hsub]
  -- a name starts with the directory exactly if its components do
  have hparts : ∀ n ∈ parts, '/' ∉ n := fun n hn => (of_mem_split hsplit hn).1
  have hstarts : ∀ x ∈ qs, decide (joinWith '/' parts ++ ['/'] <+: (lineOf (pathFrom [] x)).name) =
      decide (parts <+: x.1) := by
    intro x hx
    have hname : (lineOf (pathFrom [] x)).name = joinWith '/' x.1 :=
      foldl_joinPath_nil (listed_of_partsWalk hqs hx).2
    rw [hname, decide_eq_decide, slash_prefix_iff hparts hne (listed_of_partsWalk hqs hx).2]
    constructor
    · rintro ⟨rest, -, hrest⟩
      exact ⟨rest, hrest.symm⟩
    · intro hpre
      have hmem : x ∈ qs.filter fun x => parts <+: x.1 := List.mem_filter.2 ⟨hx, by simpa using hpre⟩
      rw [hbelow] at hmem
      obtain ⟨y, hy, rfl⟩ := List.mem_map.1 hmem
      exact ⟨y.1, (listed_of_partsWalk hrs hy).1, rfl⟩
  have hfilter := List.filter_congr hstarts
  rw [hbelow] at hfilter
  rw [List.map_map, List.filter_map]
  refine (congrArg (List.map (lineOf ∘ pathFrom [])) hfilter).trans ?_
  simp only [List.map_map]
  refine List.map_congr_left fun y hy => ?_
  obtain ⟨hrest, hnames⟩ := listed_of_partsWalk hrs hy
  have hall : ∀ n ∈ parts ++ y.1, ValidName n :=
    (listed_of_partsWalk hqs (List.mem_filter.1 (hbelow ▸ List.mem_map_of_mem hy)).1).2
  simp only [Function.comp, lineOf, pathFrom, lineBelow]
  rw [foldl_joinPath_nil hall, foldl_joinPath_nil hnames, joinWith_append hne hrest]

/-- A world in which no schema has a `render` block. -/
def demoView : ViewWorld := { twoSchemaWorld with rawRender := fun _ => none }

/-- A tree with one entry. -/
def oneEntry (name : Text) (e : Entry) : Tree :=
  (Tree.new.insert demo name e).toOption.getD Tree.new

/-- A file. -/
def smallFile : Object := ⟨.blob, [104, 105]⟩

/-- The directory it is in. -/
def smallDir : Object :=
  ⟨.tree, (oneEntry "a.txt".toList
    ⟨.blob, hashOf demo .blob smallFile.content⟩).serializeWithPathKey demo none⟩

/-- The directory above that. -/
def smallRoot : Object :=
  ⟨.tree, (oneEntry "docs".toList
    ⟨.tree, hashOf demo .tree smallDir.content⟩).serializeWithPathKey demo none⟩

/-- The hash of the directory above. -/
def smallRootHash : Hash := hashOf demo .tree smallRoot.content

/-- Its commit. -/
def smallCommit : Object :=
  ⟨.commit, Commit.serializeWithCommitKey demo none
    ⟨smallRootHash, [], ⟨"ada".toList, "ada".toList, "now".toList⟩, "first".toList⟩⟩

/-- A repository with the commit only. -/
def smallRepo : Repo :=
  { Repo.init with
    store := ⟨[smallFile, smallDir, smallRoot, smallCommit]⟩
    refs := Repo.init.refs.insert "refs/heads/main".toList
      (hashOf demo .commit smallCommit.content) }

theorem rootTree_smallRepo : smallRepo.rootTree twoSchemaWorld none = .ok (some smallRootHash) := by
  decide +kernel

theorem split_docs (P : Platform) : split P "docs".toList = .ok ["docs".toList] := by
  rfl

theorem ls_below_demo : ∃ all sub, smallRepo.ls demoView [] none true = .ok all ∧
    smallRepo.ls demoView "docs".toList none true = .ok sub ∧
    all.filter (fun e => joinWith '/' ["docs".toList] ++ ['/'] <+: e.name) =
      sub.map (lineBelow (joinWith '/' ["docs".toList])) := by
  obtain ⟨hok, hdir⟩ : (smallRepo.ls demoView [] none true).isOk = true ∧
      getAt demo smallRepo.store none "docs".toList smallRootHash =
        .ok (some ⟨.tree, hashOf demo .tree smallDir.content⟩) := by
    decide +kernel
  obtain ⟨all, hall⟩ := exists_eq_ok_of_isOk hok
  obtain ⟨sub, hsub, hsame⟩ := ls_below (V := demoView) rootTree_smallRepo hall
    (split_docs demo) (List.cons_ne_nil _ _) hdir
  exact ⟨all, sub, hall, hsub, hsame⟩

/-! ### Files and queries -/

/-- What `files` says of a match. -/
def listingOf (m : Query.Match) : FileListing := ⟨m.path, m.manifestHash, m.sourceHash, m.fileType⟩

/-- Listings in the order of their paths. -/
def sortedByPath (fs : List FileListing) : List FileListing :=
  fs.insertionSort fun a b => (compare a.path b.path).isLE = true

/-- The listing of a manifest is that of its match. -/
theorem fileListing_eq_ok {V : ViewWorld} {s : Store} {p : Text × Hash} {l : FileListing} :
    fileListing V s p = .ok l ↔
      ∃ m, Query.matchAt V.toWorld s none p = .ok (some m) ∧ listingOf m = l := by
  unfold fileListing Query.matchAt
  cases s.get V.toPlatform p.2 with
  | none => simp
  | some o =>
    cases hm : Manifest.parse V.toWorld o.content with
    | error e => simp [bind, Except.bind, hm]
    | ok m => simp [bind, Except.bind, hm, listingOf]

/-- Without a predicate every manifest matches, under its path. -/
theorem matchAt_none {W : World} {s : Store} {p : Text × Hash} {o : Option Query.Match}
    (h : Query.matchAt W s none p = .ok o) : ∃ m, o = some m ∧ m.path = p.1 := by
  unfold Query.matchAt at h
  split at h
  · cases h
  · obtain ⟨m, -, h⟩ := except_bind_eq_ok.1 h
    cases h
    exact ⟨_, rfl, rfl⟩

/-- The matches of manifests in the order of their paths are their listings in that order. -/
theorem mapM_listing_iff {V : ViewWorld} {s : Store} {l : List (Text × Hash)}
    (gs : List FileListing) :
    (∃ ms, (l.insertionSort fun a b => (compare a.1 b.1).isLE = true).mapM
        (Query.matchAt V.toWorld s none) = .ok ms ∧ ms.reduceOption.map listingOf = gs) ↔
      ∃ fs, l.mapM (fileListing V s) = .ok fs ∧ sortedByPath fs = gs := by
  have hperm : ∀ p, p ∈ l.insertionSort (fun a b => (compare a.1 b.1).isLE = true) ↔ p ∈ l :=
    fun p => List.mem_insertionSort _
  -- where every manifest is read, both are lists of what is found
  have hfound : (∀ p ∈ l, ∃ m, Query.matchAt V.toWorld s none p = .ok (some m) ∧ m.path = p.1) →
      ∃ ms fs, (l.insertionSort fun a b => (compare a.1 b.1).isLE = true).mapM
          (Query.matchAt V.toWorld s none) = .ok ms ∧ l.mapM (fileListing V s) = .ok fs ∧
        ms.reduceOption.map listingOf = sortedByPath fs := by
    intro hall
    have htotal : ∀ p : Text × Hash, ∃ m : Query.Match, p ∈ l →
        Query.matchAt V.toWorld s none p = .ok (some m) ∧ m.path = p.1 := by
      intro p
      by_cases hp : p ∈ l
      · obtain ⟨m, hm⟩ := hall p hp
        exact ⟨m, fun _ => hm⟩
      · exact ⟨⟨[], p.2, p.2, [], ∅⟩, fun h => absurd h hp⟩
    choose g hg using htotal
    refine ⟨_, _, mapM_ok fun p hp => (hg p ((hperm p).1 hp)).1,
      mapM_ok fun p hp => fileListing_eq_ok.2 ⟨g p, (hg p hp).1, rfl⟩, ?_⟩
    have hmatches : ((l.insertionSort fun a b => (compare a.1 b.1).isLE = true).map
        fun p => some (g p)).reduceOption =
          (l.insertionSort fun a b => (compare a.1 b.1).isLE = true).map g := by
      simp [List.reduceOption, List.filterMap_map, List.filterMap_eq_map']
    rw [hmatches, List.map_map, sortedByPath]
    refine List.map_insertionSort _ _ _ _ fun p hp q hq => ?_
    simp only [Function.comp, listingOf, (hg p hp).2, (hg q hq).2]
  constructor
  · rintro ⟨ms, hms, rfl⟩
    obtain ⟨ms', fs, hms', hfs, hsame⟩ := hfound fun p hp => by
      obtain ⟨o, ho, -⟩ := exists_of_mapM hms ((hperm p).2 hp)
      obtain ⟨m, rfl, hm⟩ := matchAt_none ho
      exact ⟨m, ho, hm⟩
    cases hms.symm.trans hms'
    exact ⟨fs, hfs, hsame.symm⟩
  · rintro ⟨fs, hfs, rfl⟩
    obtain ⟨ms, fs', hms, hfs', hsame⟩ := hfound fun p hp => by
      obtain ⟨f, hf, -⟩ := exists_of_mapM hfs hp
      obtain ⟨m, hm, -⟩ := fileListing_eq_ok.1 hf
      obtain ⟨m', hm', hpath⟩ := matchAt_none hm
      cases hm'
      exact ⟨m, hm, hpath⟩
    cases hfs.symm.trans hfs'
    exact ⟨ms, hms, hsame⟩

/-- What was shown, with the hint that the schema in a tree gives a manifest. -/
def ShowResult.reshown (V : ViewWorld) (s : Store) (root : Option Hash) : ShowResult → ShowResult
  | .manifest path m _ => .manifest path m (renderForFileType V s m.fileType root)
  | res => res

/-- **What is shown of an entry** is what is shown of what is staged under its hash, up to the
hint. -/
theorem showAt_of_showHash {V : ViewWorld} {s : Store} {path : Text} {root : Hash} {e : Entry}
    {res : ShowResult} (hpath : path ≠ [])
    (hget : getAt V.toPlatform s none path root = .ok (some e))
    (hmode : storedMode V.toPlatform s e.hash = .ok e.mode)
    (hshow : showHash V s path e.hash = .ok res) :
    showAt V s path (some root) = .ok (res.reshown V s (some root)) := by
  obtain ⟨mode, hash⟩ := e
  have hentry : shownEntry V s path (some root) = .ok (some ⟨mode, hash⟩) := by
    rw [shownEntry, if_neg hpath]
    exact hget
  unfold showHash at hshow
  unfold showAt
  rw [hentry]
  split at hshow
  · cases hshow
  · next content ho =>
    obtain ⟨m, hm, hshow⟩ := except_bind_eq_ok.1 hshow
    cases hshow
    simp only [storedMode, ho, Except.ok.injEq] at hmode
    subst hmode
    simp only [bind, Except.bind, ho, hm, ShowResult.reshown]
  · next content ho =>
    cases hshow
    simp only [storedMode, ho, Except.ok.injEq] at hmode
    subst hmode
    simp only [bind, Except.bind, ho, ShowResult.reshown]
  · cases hshow

/-- Nothing but a blob or a manifest is shown of what is staged. -/
theorem storedMode_of_showHash {V : ViewWorld} {s : Store} {path : Text} {hash : Hash}
    {res : ShowResult} (hshow : showHash V s path hash = .ok res) :
    storedMode V.toPlatform s hash ≠ .ok .tree := by
  intro hmode
  unfold showHash at hshow
  split at hshow
  · cases hshow
  · next ho => simp [storedMode, ho] at hmode
  · next ho => simp [storedMode, ho] at hmode
  · cases hshow

theorem showHash_mono {V : ViewWorld} {s s' : Store} (hle : s ≤ s') {path : Text} {hash : Hash}
    {res : ShowResult} (hshow : showHash V s path hash = .ok res) :
    showHash V s' path hash = .ok res := by
  unfold showHash at hshow ⊢
  cases ho : s.get V.toPlatform hash with
  | none => rw [ho] at hshow; cases hshow
  | some o =>
    rw [ho] at hshow
    rw [Store.get_mono hle ho]
    exact hshow

/-- What is staged at a path when it can be shown. -/
theorem exists_of_showStaged {V : ViewWorld} {r : Repo} {path : Text} {res : ShowResult}
    (hshow : r.showStaged V path = .ok res) : ∃ c hash, r.index[path]? = some c ∧
      c.kind = .upsert ∧ c.hash = some hash ∧ showHash V r.store path hash = .ok res := by
  unfold showStaged at hshow
  cases hc : r.index[path]? with
  | none => rw [hc] at hshow; cases hshow
  | some c =>
    obtain ⟨p, kind, hash⟩ := c
    rw [hc] at hshow
    cases kind with
    | delete => cases hshow
    | upsert =>
      cases hash with
      | none => cases hshow
      | some hash => exact ⟨_, hash, rfl, rfl, rfl, hshow⟩

end Repo

end Omp
