import Omp.Tree

/-!
# Paths through nested trees

A path is a slash-separated list of names that is walked from a root tree down.  Reading
(`getAt`) only loads tree objects; writing (`putAt`) and deleting (`deleteAt`) load the trees
on the way down, store new ones on the way up and return the address of the new root.  Trees
are never changed in place, so an operation is described by what it adds to the store and by
the root it returns.

A missing root is the empty tree: `putAt` starts one, and `deleteAt` returns none when the last
entry is gone.

## Main definitions

* `split` : the names of a path.
* `getAt`, `putAt`, `deleteAt`, `walk` : the operations, in the key-aware form.
-/

namespace Omp

open Lib

variable (P : Platform)

/-! ### Path strings -/

/-- A component `split` rejects. -/
def BadComponent (part : Text) : Prop := part = [] ∨ part = ".".toList ∨ part = "..".toList

instance (part : Text) : Decidable (BadComponent part) :=
  inferInstanceAs (Decidable (_ ∨ _ ∨ _))

/-- `paths::split` : the components of a path, without slashes at either end. -/
def split (path : Text) : Except OmpError (List Text) :=
  if trimMatches '/' path = [] then .ok []
  else
    let parts := (trimMatches '/' path).splitOn '/'
    if ∃ p ∈ parts, BadComponent p then
      .error (.invalidPath ("bad path: ".toList ++ P.debugStr path))
    else .ok parts

variable {P}

/-- What the components of a path are like. -/
theorem of_mem_split {path : Text} {parts : List Text} (h : split P path = .ok parts) {n : Text}
    (hn : n ∈ parts) : '/' ∉ n ∧ ¬ BadComponent n ∧ ∀ c ∈ n, c ∈ path := by
  simp only [split] at h
  split_ifs at h with hempty hbad
  · rw [Except.ok.injEq] at h
    subst h
    cases hn
  · rw [Except.ok.injEq] at h
    subst h
    refine ⟨not_mem_of_mem_splitOn hn, fun hb => hbad ⟨n, hn, hb⟩, fun c hc => ?_⟩
    exact mem_of_mem_trimMatches (mem_of_mem_splitOn hn hc)

/-- A component is a valid name unless it holds a NUL character. -/
theorem validName_of_mem_split {path : Text} {parts : List Text}
    (h : split P path = .ok parts) {n : Text} (hn : n ∈ parts) (hnul : Char.ofNat 0 ∉ n) :
    ValidName n := by
  obtain ⟨hslash, hbad, -⟩ := of_mem_split h hn
  simp only [BadComponent, not_or] at hbad
  exact ⟨hbad.1, hslash, hnul, hbad.2.1, hbad.2.2⟩

/-- **Every list of valid names is the component list of some path.** -/
theorem split_joinWith {parts : List Text} (hv : ∀ n ∈ parts, ValidName n) :
    split P (joinWith '/' parts) = .ok parts := by
  by_cases hne : parts = []
  · subst hne
    rfl
  have hparts : (trimMatches '/' (joinWith '/' parts)).splitOn '/' = parts :=
    splitOn_joinWith hne fun n hn => ⟨(hv n hn).1, (hv n hn).2.1⟩
  have hempty : trimMatches '/' (joinWith '/' parts) ≠ [] := by
    intro h
    rw [h, List.splitOn_nil] at hparts
    exact (hv [] (by simp [← hparts])).1 rfl
  have hgood : ¬ ∃ p ∈ (trimMatches '/' (joinWith '/' parts)).splitOn '/', BadComponent p := by
    rw [hparts]
    rintro ⟨p, hp, hbad⟩
    obtain ⟨h₁, -, -, h₂, h₃⟩ := hv p hp
    rcases hbad with h | h | h
    exacts [h₁ h, h₂ h, h₃ h]
  rw [split, if_neg hempty, if_neg hgood, hparts]

theorem split_schemas (P : Platform) : split P "schemas".toList = .ok ["schemas".toList] := by
  rw [← joinWith_singleton '/' "schemas".toList]
  exact split_joinWith (List.forall_mem_singleton.2 (by decide +kernel))

variable (P)

/-! ### Loading and storing trees -/

/-- `load_tree_with_key`. -/
def loadTree (s : Store) (key : Option Key) (h : Hash) : Except OmpError Tree :=
  match s.get P h with
  | none => .error (.notFound ("tree object ".toList ++ h.hex))
  | some o =>
    if o.type = .tree then Tree.parseWithPathKey P key o.content
    else .error (.corrupt ("expected tree, got ".toList ++ o.type.asStr ++ " at ".toList ++ h.hex))

/-- `store_tree_with_key`. -/
def storeTree (key : Option Key) (t : Tree) : StoreOp Hash :=
  Store.put P .tree (t.serializeWithPathKey P key)

/-! ### Reading -/

/-- The loop of `get_at_with_key`, with the current tree and the components left. -/
def getParts (s : Store) (key : Option Key) : Tree → List Text → Except OmpError (Option Entry)
  | _, [] => .ok none
  | current, [part] => .ok (current.get part)
  | current, part :: next :: rest =>
    match current.get part with
    | none => .ok none
    | some e =>
      if e.mode = .tree then do
        let child ← loadTree P s key e.hash
        getParts s key child (next :: rest)
      else .ok none

/-- `get_at_with_key` : the entry at a path; the empty path denotes the root tree. -/
def getAt (s : Store) (key : Option Key) (path : Text) (root : Hash) :
    Except OmpError (Option Entry) := do
  let parts ← split P path
  if parts = [] then .ok (some ⟨.tree, root⟩)
  else
    let current ← loadTree P s key root
    getParts P s key current parts

/-! ### Writing -/

/-- The tree a recursion works on: that of a given address, or a new one. -/
def loadOrNew (key : Option Key) : Option Hash → StoreOp Tree
  | some h => Op.reads fun s => loadTree P s key h
  | none => pure Tree.new

/-- The subtree `put_inner` goes on in below the entry of a name, if any. -/
def childDir (head : Text) : Option Entry → Except OmpError (Option Hash)
  | none => .ok none
  | some e =>
    if e.mode = .tree then .ok (some e.hash)
    else .error (.conflict ("segment ".toList ++ P.debugStr head ++ " is not a directory".toList))

/-- `put_inner`; the caller has checked that there are components. -/
def putInner (key : Option Key) (entry : Entry) : List Text → Option Hash → StoreOp Hash
  | [], _ => Op.panic
  | [head], current => do
    let tree ← loadOrNew P key current
    let tree ← Op.lift (tree.insert P head entry)
    storeTree P key tree
  | head :: next :: rest, current => do
    let tree ← loadOrNew P key current
    let child ← Op.lift (childDir P head (tree.get head))
    let newChild ← putInner key entry (next :: rest) child
    let tree ← Op.lift (tree.insert P head ⟨.tree, newChild⟩)
    storeTree P key tree

/-- `put_at_with_key` : insert or replace the entry at a path. -/
def putAt (key : Option Key) (root : Option Hash) (path : Text) (entry : Entry) :
    StoreOp Hash := do
  let parts ← Op.lift (split P path)
  if parts = [] then Op.throw (.invalidPath "cannot put at empty path".toList)
  else putInner P key entry parts root

/-! ### Deleting -/

/-- Store a tree unless it is empty. -/
def storeUnlessEmpty (key : Option Key) (t : Tree) : StoreOp (Option Hash) :=
  if t.isEmpty then pure none
  else do
    let h ← storeTree P key t
    pure (some h)

/-- `delete_inner`; the caller has checked that there are components. -/
def deleteInner (key : Option Key) : List Text → Hash → StoreOp (Option Hash)
  | [], _ => Op.panic
  | [head], current => do
    let tree ← Op.reads fun s => loadTree P s key current
    storeUnlessEmpty P key (tree.remove head)
  | head :: next :: rest, current => do
    let tree ← Op.reads fun s => loadTree P s key current
    match tree.get head with
    | none => pure (some current)
    | some e =>
      if e.mode = .tree then do
        match ← deleteInner key (next :: rest) e.hash with
        | some newChild => do
          let tree ← Op.lift (tree.insert P head ⟨.tree, newChild⟩)
          storeUnlessEmpty P key tree
        | none => storeUnlessEmpty P key (tree.remove head)
      else pure (some current)

/-- `delete_at_with_key` : remove the entry at a path and prune empty directories. -/
def deleteAt (key : Option Key) (root : Hash) (path : Text) : StoreOp (Option Hash) := do
  let parts ← Op.lift (split P path)
  if parts = [] then Op.throw (.invalidPath "cannot delete root tree".toList)
  else deleteInner P key parts root

/-! ### Walking -/

/-- Join a directory prefix and a name. -/
def joinPath (dir name : Text) : Text := if dir = [] then name else dir ++ '/' :: name

/-- `walk_inner` : the leaves below a tree, in order, with their paths.  The recursion follows
the addresses of subtrees.  A chain of them longer than the number of objects of the store
comes back to an address it has passed, and then the recursion does not end before the stack
does; `fuel` counts the length of the chain. -/
def walkInner (s : Store) (key : Option Key) :
    Nat → Text → Hash → Except (Fault OmpError) (List (Text × Entry))
  | 0, _, _ => .error .panic
  | fuel + 1, dir, h => do
    let tree ← (loadTree P s key h).mapError .err
    let parts ← tree.entries.toList.mapM fun p =>
      if p.2.mode = .tree then walkInner s key fuel (joinPath dir p.1) p.2.hash
      else .ok [(joinPath dir p.1, p.2)]
    .ok parts.flatten

/-- `walk_with_key`. -/
def walk (s : Store) (key : Option Key) (root : Hash) :
    Except (Fault OmpError) (List (Text × Entry)) :=
  walkInner P s key (s.objects.length + 1) [] root

end Omp
