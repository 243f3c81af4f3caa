import Omp.Lib.Text

/-!
# A file system

What stands at a place is a directory or a file; a place is the names that lead there from the
root.  A path is followed name by name: a dot stays where it is, two dots go up, and every name
but the last must be that of a directory.  There are no links, and an operation fails only over
what it finds.

A path that is joined with another goes on with it, unless that one is absolute: then it starts
over at the root.  So what a path leads to is known only of plain names.

## Main definitions

* `Disk` : a file system, with a record of the files that were read, written or removed.
* `Loc` : a path.
* `Disk.resolve` : the place a path leads to.
* `Disk.read`, `Disk.write`, `Disk.createDirAll`, `Disk.list`, `Disk.removeDirAll` : the operations.
* `PlainName` : a name that a path can go on with.

## Main results

* `Loc.join_plain`, `Disk.resolve_plain` : plain names lead to the place they name.
* `Disk.read_plain`, `Disk.write_plain`, `Disk.createDirAll_plain`, `Disk.removeDirAll_plain` : and
  the operations change that place, or what is below it.
-/

namespace Lib

/-! ### Paths -/

/-- The names that lead to a place from the root. -/
abbrev Place := List Text

instance : Std.TransOrd Place := inferInstance

/-- What stands at a place. -/
inductive Node where
  | dir
  | file (content : Bytes)
  deriving DecidableEq

/-- Why an operation fails. -/
inductive IoError where
  | notFound | alreadyExists | notADirectory | isADirectory | invalidInput | nameTooLong | busy
  deriving DecidableEq

/-- A path: names to follow from a place. -/
structure Loc where
  start : Place
  names : List Text
  deriving DecidableEq

/-- The names in a path that is written out; empty ones do not count. -/
def pathNames (arg : Text) : List Text := (arg.splitOn '/').filter fun name => name ≠ []

namespace Loc

/-- `Path::join` : an absolute path starts over. -/
def join (l : Loc) (arg : Text) : Loc :=
  if arg.head? = some '/' then ⟨[], pathNames arg⟩ else ⟨l.start, l.names ++ pathNames arg⟩

/-- The path of an entry of a directory. -/
def entry (l : Loc) (name : Text) : Loc := ⟨l.start, l.names ++ [name]⟩

/-- The place that is named. -/
def place (l : Loc) : Place := l.start ++ l.names

end Loc

/-- The most bytes a name may have. -/
def nameMax : Nat := 255

/-- A name that a path can go on with. -/
structure PlainName (name : Text) : Prop where
  ne_nil : name ≠ []
  no_slash : '/' ∉ name
  ne_dot : name ≠ ['.']
  ne_dots : name ≠ ['.', '.']
  no_nul : '\x00' ∉ name
  short : (utf8 name).length ≤ nameMax

/-- What a short name must be like to be plain. -/
theorem plainName_of_chars {name : Text} {c : Char} (hc : c ∈ name) (hdot : c ≠ '.')
    (hlen : name.length ≤ 63) (hchars : ∀ c ∈ name, c ≠ '/' ∧ c ≠ '\x00') : PlainName name where
  ne_nil := List.ne_nil_of_mem hc
  no_slash hmem := (hchars _ hmem).1 rfl
  ne_dot := by
    rintro rfl
    exact hdot (List.mem_singleton.1 hc)
  ne_dots := by
    rintro rfl
    simp [hdot] at hc
  no_nul hmem := (hchars _ hmem).2 rfl
  short := by
    have := length_utf8_le name
    rw [nameMax]
    omega

/-- A path of plain names. -/
def Loc.Plain (l : Loc) : Prop := ∀ name ∈ l.names, PlainName name

theorem PlainName.pathNames {name : Text} (h : PlainName name) : pathNames name = [name] := by
  rw [Lib.pathNames, splitOn_of_not_mem h.no_slash]
  simp [h.ne_nil]

/-- **A plain name leads to an entry.** -/
theorem Loc.join_plain {l : Loc} {name : Text} (h : PlainName name) :
    l.join name = l.entry name := by
  have hhead : name.head? ≠ some '/' := fun heq => h.no_slash (List.mem_of_head? heq)
  rw [Loc.join, if_neg hhead, h.pathNames, Loc.entry]

theorem Loc.Plain.entry {l : Loc} {name : Text} (hl : l.Plain) (h : PlainName name) :
    (l.entry name).Plain := by
  intro n hn
  rcases List.mem_append.1 hn with hn | hn
  · exact hl n hn
  · exact List.mem_singleton.1 hn ▸ h

theorem Loc.place_entry (l : Loc) (name : Text) : (l.entry name).place = l.place ++ [name] :=
  (List.append_assoc ..).symm

/-! ### Files and directories -/

/-- A file system. -/
structure Disk where
  nodes : Std.ExtTreeMap Place Node
  /-- What is there is in a directory. -/
  parent : ∀ (p : Place) (name : Text), nodes[p ++ [name]]?.isSome = true →
    p = [] ∨ nodes[p]? = some .dir
  /-- The files that were read, written or removed. -/
  touched : List Place

namespace Disk

theorem getElem?_insert {V : Type} (m : Std.ExtTreeMap Place V) (p q : Place) (v : V) :
    (m.insert p v)[q]? = if p = q then some v else m[q]? := by
  rw [Std.ExtTreeMap.getElem?_insert]
  simp only [Std.compare_eq_iff_eq]

theorem getElem?_erase {V : Type} (m : Std.ExtTreeMap Place V) (p q : Place) :
    (m.erase p)[q]? = if p = q then none else m[q]? := by
  rw [Std.ExtTreeMap.getElem?_erase]
  simp only [Std.compare_eq_iff_eq]

/-- A file system with an empty root. -/
def empty : Disk where
  nodes := ∅
  parent p name h := by
    rw [Std.ExtTreeMap.getElem?_empty] at h
    cases h
  touched := []

/-- What stands at a place: at the root, a directory. -/
def node (d : Disk) (p : Place) : Option Node := if p = [] then some .dir else d.nodes[p]?

theorem ne_nil_of_node {d : Disk} {p : Place} (h : d.node p = none) : p ≠ [] := by
  rintro rfl
  cases h

theorem node_of_ne {d : Disk} {p : Place} (h : p ≠ []) : d.node p = d.nodes[p]? := if_neg h

/-- What is there is in a directory. -/
theorem node_parent {d : Disk} {p : Place} {name : Text} (h : d.node (p ++ [name]) ≠ none) :
    d.node p = some .dir := by
  rw [node_of_ne (List.concat_ne_nil _ _)] at h
  by_cases hp : p = []
  · exact if_pos hp
  · rw [node_of_ne hp]
    exact (d.parent p name (Option.isSome_iff_ne_none.2 h)).resolve_left hp

/-- Put something at a place in a directory. -/
def put (d : Disk) (p : Place) (n : Node) (hp : d.node p.dropLast = some .dir)
    (hn : d.node p = some .dir → n = .dir) : Disk where
  nodes := d.nodes.insert p n
  parent q name h := by
    by_cases hq : q = []
    · exact .inl hq
    refine .inr ?_
    rw [getElem?_insert] at h ⊢
    by_cases hkey : p = q ++ [name]
    · -- the new entry: its directory is there
      rw [hkey, List.dropLast_concat, node_of_ne hq] at hp
      rw [if_neg fun heq => ?_]
      · exact hp
      · exact absurd (congrArg List.length (heq.symm.trans hkey)) (by simp)
    · rw [if_neg hkey] at h
      have hdir := (d.parent q name h).resolve_left hq
      split_ifs with heq
      · rw [hn (heq ▸ (node_of_ne hq).trans hdir)]
      · exact hdir
  touched := d.touched

/-- Remove all of a kind, which what stands below it is of too. -/
def prune (d : Disk) (P : Place → Bool) (hP : ∀ q name, P q = true → P (q ++ [name]) = true) :
    Disk where
  nodes := d.nodes.filter fun q _ => !P q
  parent q name h := by
    rw [Std.ExtTreeMap.getElem?_filter'] at h ⊢
    obtain ⟨n, hn⟩ := Option.isSome_iff_exists.1 h
    obtain ⟨hn, hkeep⟩ := Option.filter_eq_some_iff.1 hn
    refine (d.parent q name (Option.isSome_iff_exists.2 ⟨n, hn⟩)).imp_right fun hdir => ?_
    refine Option.filter_eq_some_iff.2 ⟨hdir, ?_⟩
    cases hq : P q with
    | false => rfl
    | true => rw [hP q name hq] at hkeep; cases hkeep
  touched := d.nodes.keys.filter P ++ d.touched

/-- Record that a file is touched. -/
def touch (d : Disk) (p : Place) : Disk := { d with touched := p :: d.touched }

@[simp] theorem node_touch (d : Disk) (p q : Place) : (d.touch p).node q = d.node q := rfl

@[simp] theorem touched_touch (d : Disk) (p : Place) : (d.touch p).touched = p :: d.touched := rfl

theorem node_put {d : Disk} {p : Place} {n : Node} (hp : d.node p.dropLast = some .dir)
    (hn : d.node p = some .dir → n = .dir) (hne : p ≠ []) (q : Place) :
    (d.put p n hp hn).node q = if p = q then some n else d.node q := by
  unfold node
  split_ifs with hq heq heq
  · exact absurd (heq.trans hq) hne
  · rfl
  · exact (getElem?_insert _ _ _ _).trans (if_pos heq)
  · exact (getElem?_insert _ _ _ _).trans (if_neg heq)

theorem node_prune {d : Disk} {P : Place → Bool}
    {hP : ∀ q name, P q = true → P (q ++ [name]) = true} (hroot : P [] = false) (q : Place) :
    (d.prune P hP).node q = if P q = true then none else d.node q := by
  unfold node
  by_cases hq : q = []
  · rw [if_pos hq, if_pos hq, hq, hroot]
    rfl
  · rw [if_neg hq, if_neg hq]
    refine (Std.ExtTreeMap.getElem?_filter' ..).trans ?_
    split_ifs with hPq
    · exact Option.filter_eq_none_iff.2 fun n _ => by simp [hPq]
    · cases hn : d.nodes[q]? with
      | none => rfl
      | some n => exact Option.filter_eq_some_iff.2 ⟨rfl, by simp [hPq]⟩

theorem of_mem_touched_prune {d : Disk} {P : Place → Bool}
    {hP : ∀ q name, P q = true → P (q ++ [name]) = true} {q : Place}
    (h : q ∈ (d.prune P hP).touched) : P q = true ∨ q ∈ d.touched :=
  (List.mem_append.1 h).imp_left fun hq => (List.mem_filter.1 hq).2

/-! ### Following a path -/

/-- Follow names from a place. -/
def follow (d : Disk) (cur : Place) : List Text → Except IoError Place
  | [] => .ok cur
  | name :: rest => match d.node cur with
    | none => .error .notFound
    | some (.file _) => .error .notADirectory
    | some .dir =>
      if name = ['.'] then d.follow cur rest
      else if name = ['.', '.'] then d.follow cur.dropLast rest
      else if nameMax < (utf8 name).length then .error .nameTooLong
      else d.follow (cur ++ [name]) rest

/-- The place a path leads to, where something can stand. -/
def resolve (d : Disk) (l : Loc) : Except IoError Place :=
  if l.names.any fun name => name.contains '\x00' then .error .invalidInput
  else d.follow l.start l.names

variable {d : Disk} {l : Loc} {p : Place} {name : Text} {rest : List Text}

theorem follow_dir (h : d.node p = some .dir) (hname : PlainName name) :
    d.follow p (name :: rest) = d.follow (p ++ [name]) rest := by
  rw [follow, h]
  dsimp only
  rw [if_neg hname.ne_dot, if_neg hname.ne_dots, if_neg hname.short.not_gt]

theorem follow_none (h : d.node p = none) : d.follow p (name :: rest) = .error .notFound := by
  rw [follow, h]

/-- Plain names lead to the place they name. -/
theorem follow_plain {names : List Text} (h : ∀ name ∈ names, PlainName name) {q : Place}
    (hq : d.follow p names = .ok q) : q = p ++ names := by
  induction names generalizing p with
  | nil => rw [List.append_nil]; exact (Except.ok.inj hq).symm
  | cons name rest ih =>
    obtain ⟨hname, hrest⟩ := List.forall_mem_cons.1 h
    cases hp : d.node p with
    | none => rw [follow_none hp] at hq; cases hq
    | some n =>
      cases n with
      | file content => rw [follow, hp] at hq; cases hq
      | dir =>
        rw [follow_dir hp hname] at hq
        rw [ih hrest hq, List.append_assoc]
        rfl

theorem resolve_eq (h : l.Plain) : d.resolve l = d.follow l.start l.names := by
  refine if_neg fun hnul => ?_
  obtain ⟨name, hname, hmem⟩ := List.any_eq_true.1 hnul
  exact (h name hname).no_nul (List.contains_iff_mem.1 hmem)

/-- **A path of plain names leads to the place that is named.** -/
theorem resolve_plain (h : l.Plain) (hp : d.resolve l = .ok p) : p = l.place :=
  follow_plain h ((resolve_eq h).symm.trans hp)

/-- What stands on the way to a directory is a directory. -/
theorem node_of_prefix {q : Place} (hp : d.node p = some .dir) (hq : q <+: p) :
    d.node q = some .dir := by
  obtain ⟨names, rfl⟩ := hq
  induction names using List.reverseRecOn with
  | nil => rwa [List.append_nil] at hp
  | append_singleton names name ih =>
    rw [← List.append_assoc] at hp
    have hthere : d.node (q ++ names ++ [name]) ≠ none := by
      rw [hp]
      exact Option.some_ne_none _
    exact ih (node_parent hthere)

/-- Plain names are followed through directories. -/
theorem follow_append {names : List Text} (h : ∀ name ∈ names, PlainName name)
    (hdir : d.node (p ++ names) = some .dir) :
    d.follow p (names ++ rest) = d.follow (p ++ names) rest := by
  induction names generalizing p with
  | nil => rw [List.append_nil, List.nil_append]
  | cons name names ih =>
    obtain ⟨hname, hnames⟩ := List.forall_mem_cons.1 h
    have hp : d.node p = some .dir := node_of_prefix hdir (List.prefix_append _ _)
    rw [List.append_cons] at hdir ⊢
    rw [List.cons_append, follow_dir hp hname, ih hnames hdir]

/-- **A path of plain names leads to a place in a directory.** -/
theorem resolve_entry (h : (l.entry name).Plain) (hdir : d.node l.place = some .dir) :
    d.resolve (l.entry name) = .ok (l.place ++ [name]) := by
  have hnames : ∀ n ∈ l.names, PlainName n := fun n hn => h n (List.mem_append_left _ hn)
  have hname : PlainName name := h name (List.mem_append_right _ (List.mem_singleton.2 rfl))
  rw [resolve_eq h]
  refine (follow_append hnames hdir).trans ?_
  rw [follow_dir (p := l.start ++ l.names) hdir hname]
  rfl

/-- Where no file is on the way, names are followed to their place, or to where nothing is. -/
theorem follow_absent {names : List Text} (h : ∀ name ∈ names, PlainName name)
    (hfile : ∀ ns, ns <+: names → ∀ content, d.node (p ++ ns) ≠ some (.file content)) :
    d.follow p names = .error .notFound ∨ d.follow p names = .ok (p ++ names) := by
  induction names generalizing p with
  | nil => exact .inr (by rw [follow, List.append_nil])
  | cons name names ih =>
    obtain ⟨hname, hnames⟩ := List.forall_mem_cons.1 h
    cases hp : d.node p with
    | none => exact .inl (follow_none hp)
    | some n =>
      cases n with
      | file content =>
        have hself := hfile [] (List.nil_prefix) content
        rw [List.append_nil] at hself
        exact absurd hp hself
      | dir =>
        rw [follow_dir hp hname, List.append_cons p name names]
        refine ih hnames fun ns hns content => ?_
        rw [← List.append_cons p name ns]
        exact hfile (name :: ns) (List.cons_prefix_cons.2 ⟨rfl, hns⟩) content

/-! ### Operations -/

/-- `Path::is_dir`. -/
def isDir (d : Disk) (l : Loc) : Bool :=
  match d.resolve l with
  | .ok p => d.node p = some .dir
  | .error _ => false

/-- `Path::exists`. -/
def present (d : Disk) (l : Loc) : Bool :=
  match d.resolve l with
  | .ok p => (d.node p).isSome
  | .error _ => false

/-- `fs::read`. -/
def read (d : Disk) (l : Loc) : Except IoError Bytes × Disk :=
  match d.resolve l with
  | .error e => (.error e, d)
  | .ok p => match d.node p with
    | none => (.error .notFound, d)
    | some .dir => (.error .isADirectory, d)
    | some (.file content) => (.ok content, d.touch p)

/-- `fs::write` : a file is created, or what it holds replaced. -/
def write (d : Disk) (l : Loc) (content : Bytes) : Except IoError Unit × Disk :=
  match d.resolve l with
  | .error e => (.error e, d)
  | .ok p =>
    if hp : d.node p.dropLast = some .dir then
      if hn : d.node p = some .dir then (.error .isADirectory, d)
      else (.ok (), (d.put p (.file content) hp fun h => absurd h hn).touch p)
    else (.error .notFound, d)

/-- `mkdir`. -/
def mkdir (d : Disk) (l : Loc) : Except IoError Unit × Disk :=
  match d.resolve l with
  | .error e => (.error e, d)
  | .ok p =>
    if hp : d.node p.dropLast = some .dir then
      if d.node p = none then (.ok (), d.put p .dir hp fun _ => rfl)
      else (.error .alreadyExists, d)
    else (.error .notFound, d)

/-- `mkdir`, where a directory may be there. -/
def ensureDir (d : Disk) (l : Loc) : Except IoError Unit × Disk :=
  match d.mkdir l with
  | (.error e, _) => if d.isDir l then (.ok (), d) else (.error e, d)
  | res => res

/-- `fs::create_dir_all`, with the last name first. -/
def createDirs (d : Disk) (start : Place) : List Text → Except IoError Unit × Disk
  | [] => d.ensureDir ⟨start, []⟩
  | name :: names =>
    let l : Loc := ⟨start, (name :: names).reverse⟩
    match d.mkdir l with
    | (.error .notFound, _) => match d.createDirs start names with
      | (.ok (), d') => d'.ensureDir l
      | res => res
    | _ => d.ensureDir l

/-- `fs::create_dir_all`. -/
def createDirAll (d : Disk) (l : Loc) : Except IoError Unit × Disk :=
  d.createDirs l.start l.names.reverse

/-- The names in a directory. -/
def children (d : Disk) (p : Place) : List Text :=
  d.nodes.keys.filterMap fun q => if q.dropLast = p then q.getLast? else none

/-- `fs::read_dir`. -/
def list (d : Disk) (l : Loc) : Except IoError (List Text) :=
  match d.resolve l with
  | .error e => .error e
  | .ok p => match d.node p with
    | none => .error .notFound
    | some (.file _) => .error .notADirectory
    | some .dir => .ok (d.children p)

/-- Remove what stands below a place. -/
def clear (d : Disk) (p : Place) : Disk :=
  d.prune (fun q => p.isPrefixOf q && q != p) (by
    intro q name h
    simp only [Bool.and_eq_true, List.isPrefixOf_iff_prefix, bne_iff_ne] at h ⊢
    obtain ⟨⟨t, rfl⟩, -⟩ := h
    refine ⟨⟨t ++ [name], (List.append_assoc ..).symm⟩, fun heq => ?_⟩
    exact absurd (congrArg List.length heq) (by simp))

/-- Remove a place and what stands below it. -/
def erase (d : Disk) (p : Place) : Disk :=
  d.prune (fun q => p.isPrefixOf q) (by
    intro q name h
    rw [List.isPrefixOf_iff_prefix] at h ⊢
    exact h.trans (List.prefix_append _ _))

/-- `fs::remove_dir_all` : the root stays, and so does a directory that is named by dots. -/
def removeDirAll (d : Disk) (l : Loc) : Except IoError Unit × Disk :=
  match d.resolve l with
  | .error e => (.error e, d)
  | .ok p => match d.node p with
    | none => (.error .notFound, d)
    | some (.file _) => (.error .notADirectory, d)
    | some .dir => match l.place.getLast? with
      | none => (.error .busy, d.clear p)
      | some name =>
        if name = ['.'] then (.error .invalidInput, d.clear p)
        else if name = ['.', '.'] then (.error .notFound, d.clear p)
        else (.ok (), d.erase p)

/-! ### What is there -/

@[simp] theorem node_read (d : Disk) (l : Loc) (q : Place) : (d.read l).2.node q = d.node q := by
  unfold read
  split
  · rfl
  · split
    · rfl
    · rfl
    · exact node_touch _ _ _

theorem isDir_of_resolve (hl : d.resolve l = .ok p) (hp : d.node p = some .dir) :
    d.isDir l = true := by
  simp only [isDir, hl, hp, decide_true]

theorem read_of_resolve {content : Bytes} (hl : d.resolve l = .ok p)
    (hp : d.node p = some (.file content)) : d.read l = (.ok content, d.touch p) := by
  simp only [read, hl, hp]

/-- **What is not there is not found**, where no file is on the way. -/
theorem read_absent (h : l.Plain)
    (hfile : ∀ q, q <+: l.place → ∀ content, d.node q ≠ some (.file content))
    (hnone : d.node l.place = none) : d.read l = (.error .notFound, d) := by
  have hfollow := follow_absent (p := l.start) h fun ns hns content =>
    hfile _ ((List.prefix_append_right_inj _).2 hns) content
  rcases hfollow with hmissing | hok
  · simp only [read, resolve_eq h, hmissing]
  · simp only [read, resolve_eq h, hok]
    have hplace : d.node (l.start ++ l.names) = none := hnone
    rw [hplace]

theorem list_of_resolve (hl : d.resolve l = .ok p) (hp : d.node p = some .dir) :
    d.list l = .ok (d.children p) := by
  simp only [list, hl, hp]

theorem exists_write_of_resolve (hl : d.resolve l = .ok p)
    (hdir : d.node p.dropLast = some .dir) (hp : d.node p ≠ some .dir) (content : Bytes) :
    ∃ d', d.write l content = (.ok (), d') := by
  simp only [write, hl, dif_pos hdir, dif_neg hp, Prod.mk.injEq, true_and, exists_eq']

theorem removeDirAll_of_resolve (hl : d.resolve (l.entry name) = .ok p)
    (hp : d.node p = some .dir) (hname : PlainName name) :
    d.removeDirAll (l.entry name) = (.ok (), d.erase p) := by
  have hlast : (l.entry name).place.getLast? = some name := by
    rw [Loc.place_entry, List.getLast?_concat]
  simp only [removeDirAll, hl, hp, hlast, if_neg hname.ne_dot, if_neg hname.ne_dots]

theorem present_of_resolve (hl : d.resolve l = .ok p) (hp : d.node p = some .dir) :
    d.present l = true := by
  simp only [present, hl, hp, Option.isSome_some]

/-! ### Plain paths -/

variable {res : Except IoError Unit} {d' : Disk}

theorem node_of_isDir (h : l.Plain) (hd : d.isDir l = true) : d.node l.place = some .dir := by
  unfold isDir at hd
  split at hd
  · next p hp =>
    rw [← resolve_plain h hp]
    exact of_decide_eq_true hd
  · cases hd

/-- **Reading touches the file that is named**, and changes nothing. -/
theorem read_plain {res : Except IoError Bytes} (h : l.Plain) (hread : d.read l = (res, d')) :
    (∃ e, res = .error e ∧ d' = d) ∨
      ∃ content, res = .ok content ∧ d.node l.place = some (.file content) ∧
        d' = d.touch l.place := by
  unfold read at hread
  split at hread
  · cases hread
    exact .inl ⟨_, rfl, rfl⟩
  · next p hp =>
    obtain rfl := resolve_plain h hp
    split at hread
    · cases hread
      exact .inl ⟨_, rfl, rfl⟩
    · cases hread
      exact .inl ⟨_, rfl, rfl⟩
    · next content hn =>
      cases hread
      exact .inr ⟨content, rfl, hn, rfl⟩

/-- **Writing changes the file that is named.** -/
theorem write_plain {content : Bytes} (h : l.Plain) (hne : l.place ≠ [])
    (hwrite : d.write l content = (res, d')) :
    (∃ e, res = .error e ∧ d' = d) ∨
      res = .ok () ∧ d.node l.place.dropLast = some .dir ∧ d'.touched = l.place :: d.touched ∧
        ∀ q, d'.node q = if l.place = q then some (.file content) else d.node q := by
  unfold write at hwrite
  split at hwrite
  · cases hwrite
    exact .inl ⟨_, rfl, rfl⟩
  · next p hp =>
    obtain rfl := resolve_plain h hp
    split_ifs at hwrite with hdir hn
    · cases hwrite
      exact .inl ⟨_, rfl, rfl⟩
    · cases hwrite
      exact .inr ⟨rfl, hdir, rfl, fun q => node_put hdir (fun h => absurd h hn) hne q⟩
    · cases hwrite
      exact .inl ⟨_, rfl, rfl⟩

/-- What is there stays, and what is new are directories on the way to a place. -/
def AddsDirs (start : Place) (names : List Text) (d d' : Disk) : Prop :=
  d'.touched = d.touched ∧ ∀ q, d'.node q = d.node q ∨
    d.node q = none ∧ d'.node q = some .dir ∧ ∃ ns, ns <+: names ∧ q = start ++ ns

theorem AddsDirs.refl (start : Place) (names : List Text) (d : Disk) : AddsDirs start names d d :=
  ⟨rfl, fun _ => .inl rfl⟩

theorem addsDirs_mkdir {start : Place} {names : List Text}
    (h : ∀ name ∈ names, PlainName name)
    (hmk : d.mkdir ⟨start, names⟩ = (res, d')) : AddsDirs start names d d' := by
  unfold mkdir at hmk
  split at hmk
  · cases hmk
    exact .refl _ _ _
  · next p hp =>
    obtain rfl : p = start ++ names := resolve_plain (l := ⟨start, names⟩) h hp
    split_ifs at hmk with hdir hn
    · cases hmk
      refine ⟨rfl, fun q => ?_⟩
      rw [node_put hdir _ (ne_nil_of_node hn)]
      split_ifs with hq
      · exact .inr ⟨hq ▸ hn, rfl, names, List.prefix_rfl, hq.symm⟩
      · exact .inl rfl
    · cases hmk
      exact .refl _ _ _
    · cases hmk
      exact .refl _ _ _

theorem addsDirs_ensureDir {start : Place} {names : List Text}
    (h : ∀ name ∈ names, PlainName name)
    (hmk : d.ensureDir ⟨start, names⟩ = (res, d')) : AddsDirs start names d d' := by
  unfold ensureDir at hmk
  split at hmk
  · split_ifs at hmk
    · cases hmk
      exact .refl _ _ _
    · cases hmk
      exact .refl _ _ _
  · exact addsDirs_mkdir h hmk

theorem AddsDirs.trans {start : Place} {names names' : List Text} {d'' : Disk}
    (h : AddsDirs start names d d') (h' : AddsDirs start names' d' d'') (hsub : names <+: names') :
    AddsDirs start names' d d'' := by
  refine ⟨h'.1.trans h.1, fun q => ?_⟩
  rcases h.2 q with hq | ⟨hnone, hdir, ns, hns, rfl⟩
  · rcases h'.2 q with hq' | ⟨hnone', hdir', hns'⟩
    · exact .inl (hq'.trans hq)
    · exact .inr ⟨hq ▸ hnone', hdir', hns'⟩
  · rcases h'.2 (start ++ ns) with hq' | ⟨hnone', -, -⟩
    · exact .inr ⟨hnone, hq'.trans hdir, ns, hns.trans hsub, rfl⟩
    · rw [hdir] at hnone'
      cases hnone'

/-- **Creating directories adds those on the way to the place that is named.** -/
theorem createDirAll_plain (h : l.Plain)
    (hmk : d.createDirAll l = (res, d')) : AddsDirs l.start l.names d d' := by
  obtain ⟨start, names⟩ := l
  obtain ⟨rev, rfl⟩ : ∃ rev, names = rev.reverse := ⟨names.reverse, (List.reverse_reverse _).symm⟩
  rw [createDirAll, List.reverse_reverse] at hmk
  induction rev generalizing res d' with
  | nil => exact addsDirs_ensureDir h hmk
  | cons name rev ih =>
    have hinit : ∀ name ∈ rev.reverse, PlainName name := fun n hn =>
      h n (by rw [List.reverse_cons]; exact List.mem_append_left _ hn)
    rw [createDirs] at hmk
    dsimp only at hmk
    split at hmk
    · cases hparent : d.createDirs start rev with
      | mk res₁ d₁ =>
        have h₁ := ih hinit hparent
        have hsub : rev.reverse <+: (name :: rev).reverse := by
          rw [List.reverse_cons]
          exact List.prefix_append _ _
        rw [hparent] at hmk
        cases res₁ with
        | ok u => exact h₁.trans (addsDirs_ensureDir h hmk) hsub
        | error e =>
          cases hmk
          exact h₁.trans (.refl _ _ _) hsub
    · exact addsDirs_ensureDir h hmk

/-- **Removing a directory removes what is named.** -/
theorem removeDirAll_plain (h : l.Plain) (hne : l.names ≠ [])
    (hrm : d.removeDirAll l = (res, d')) :
    (∃ e, res = .error e ∧ d' = d) ∨ res = .ok () ∧ d' = d.erase l.place := by
  unfold removeDirAll at hrm
  split at hrm
  · cases hrm
    exact .inl ⟨_, rfl, rfl⟩
  · next p hp =>
    obtain rfl := resolve_plain h hp
    split at hrm
    · cases hrm
      exact .inl ⟨_, rfl, rfl⟩
    · cases hrm
      exact .inl ⟨_, rfl, rfl⟩
    · -- the last name is plain
      have hlast : l.place.getLast? = some (l.names.getLast hne) := by
        rw [Loc.place, List.getLast?_append_of_ne_nil _ hne, List.getLast?_eq_some_getLast hne]
      have hplain := h _ (List.getLast_mem hne)
      rw [hlast] at hrm
      dsimp only at hrm
      rw [if_neg hplain.ne_dot, if_neg hplain.ne_dots] at hrm
      cases hrm
      exact .inr ⟨rfl, rfl⟩

theorem node_erase (hp : p ≠ []) (q : Place) :
    (d.erase p).node q = if p <+: q then none else d.node q := by
  refine (node_prune ?_ q).trans ?_
  · cases p with
    | nil => exact absurd rfl hp
    | cons name p => rfl
  · simp only [List.isPrefixOf_iff_prefix]

theorem of_mem_touched_erase {q : Place} (h : q ∈ (d.erase p).touched) : p <+: q ∨ q ∈ d.touched :=
  (of_mem_touched_prune h).imp_left List.isPrefixOf_iff_prefix.1

theorem mem_children {name : Text} : name ∈ d.children p ↔ d.node (p ++ [name]) ≠ none := by
  rw [children, List.mem_filterMap, node_of_ne (List.concat_ne_nil _ _),
    ← Option.isSome_iff_ne_none, ← Std.ExtTreeMap.mem_iff_isSome_getElem?]
  constructor
  · rintro ⟨q, hq, h⟩
    split_ifs at h with hp
    rcases List.eq_nil_or_concat' q with rfl | ⟨q, n, rfl⟩
    · cases h
    · rw [List.dropLast_concat] at hp
      rw [List.getLast?_concat] at h
      cases h
      exact hp ▸ Std.ExtTreeMap.mem_keys.1 hq
  · intro h
    refine ⟨_, Std.ExtTreeMap.mem_keys.2 h, ?_⟩
    rw [List.dropLast_concat, if_pos rfl, List.getLast?_concat]

theorem nodup_children : (d.children p).Nodup := by
  refine List.Nodup.filterMap (fun q q' name h h' => ?_) Std.ExtTreeMap.nodup_keys
  split_ifs at h with hq
  · split_ifs at h' with hq'
    · -- a place is its directory and its name
      rcases List.eq_nil_or_concat' q with rfl | ⟨q, n, rfl⟩
      · cases h
      · rcases List.eq_nil_or_concat' q' with rfl | ⟨q', n', rfl⟩
        · cases h'
        · rw [List.dropLast_concat] at hq hq'
          rw [List.getLast?_concat] at h h'
          cases h
          cases h'
          rw [hq, hq']
    · cases h'
  · cases h

/-- What is listed is in the directory that is named. -/
theorem list_plain {names : List Text} (h : l.Plain) (hlist : d.list l = .ok names) :
    names = d.children l.place := by
  unfold list at hlist
  split at hlist
  · cases hlist
  · next p hp =>
    obtain rfl := resolve_plain h hp
    split at hlist
    · cases hlist
    · cases hlist
    · exact (Except.ok.inj hlist).symm

end Disk

end Lib
