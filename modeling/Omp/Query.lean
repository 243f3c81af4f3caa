import Omp.Lib.Base64
import Omp.Manifest
import Omp.Repo

/-!
# Queries

A query walks the tree of a commit and lists the manifests that match a predicate, in the order of
their paths, one page at a time.  A page that is not the last one comes with a cursor, which is the
expression the commit was named by and the place where the next page begins, encoded in base64.

## Main definitions

* `Query.Expr`, `Query.evaluate` : predicates, and whether a manifest matches.
* `Query.encodeCursor`, `Query.decodeCursor` : cursors.
* `Repo.query` : one page.
-/

namespace Omp

open Lib

namespace Query

/-! ### Predicates -/

/-- Comparison operators. -/
inductive Op where
  | eq | ne | lt | le | gt | ge | contains | startsWith
  deriving DecidableEq

/-- Literals. -/
inductive Literal where
  | string (s : Text)
  | int (i : Int64)
  | float (x : F64)
  | bool (b : Bool)
  | null
  deriving DecidableEq

/-- The names on the way to a field. -/
abbrev FieldPath := List Text

/-- What is asked of one field. -/
inductive Atom where
  | compare (path : FieldPath) (op : Op) (value : Literal)
  | exists (path : FieldPath)
  deriving DecidableEq

/-- Predicates. -/
inductive Expr where
  | and (a b : Expr)
  | or (a b : Expr)
  | not (a : Expr)
  | atom (a : Atom)
  deriving DecidableEq

/-- `to_ascii_lowercase`. -/
def lower (s : Text) : Text := s.map Char.toLower

/-- `get_ci` : the entry with a name, or else the first one whose name differs in case only. -/
def getCi (entries : List (Text × FieldValue)) (needle : Text) : Option FieldValue :=
  ((entries.find? fun p => p.1 = needle).or
    (entries.find? fun p => lower p.1 = lower needle)).map Prod.snd

/-- The rest of the way, through objects. -/
def descend : FieldValue → FieldPath → Option FieldValue
  | cur, [] => some cur
  | .object entries, seg :: rest => do
    let value ← getCi entries (lower seg)
    descend value rest
  | _, _ :: _ => none

/-- `descend_fields`. -/
def descendFields (fields : Fields) : FieldPath → Option FieldValue
  | [] => none
  | head :: rest => do
    let value ← getCi fields.toList (lower head)
    descend value rest

/-- The fields of a manifest that are not among its `fields`. -/
def topLevel (m : Manifest) (name : Text) : Option FieldValue :=
  if name = "file_type".toList then some (.string m.fileType)
  else if name = "source_hash".toList then some (.string m.sourceHash.hex)
  else if name = "schema_hash".toList then some (.string m.schemaHash.hex)
  else if name = "ingested_at".toList then some (.string m.ingestedAt)
  else if name = "ingester_version".toList then some (.string m.ingesterVersion)
  else none

/-- `resolve_path`. -/
def resolvePath (m : Manifest) : FieldPath → Option FieldValue
  | [] => none
  | head :: rest =>
    if lower head = "fields".toList then descendFields m.fields rest
    else match topLevel m (lower head) with
      | some value => if rest = [] then some value else none
      | none => descendFields m.fields (head :: rest)

/-- The operators on texts. -/
def cmpText (s t : Text) : Op → Bool
  | .eq => s = t
  | .ne => s ≠ t
  | .lt => compare s t = .lt
  | .le => compare s t ≠ .gt
  | .gt => compare s t = .gt
  | .ge => compare s t ≠ .lt
  | .contains => t <:+: s
  | .startsWith => t <+: s

/-- `cmp_num`. -/
def cmpNum (a b : F64) : Op → Bool
  | .eq => a.near b
  | .ne => a.apart b
  | .lt => a.lt b
  | .le => a.le b
  | .gt => b.lt a
  | .ge => b.le a
  | .contains | .startsWith => false

/-- Whether an item of a list is a literal. -/
def isItem : FieldValue → Literal → Bool
  | .string s, .string t => s = t
  | .int n, .int m => n = m
  | .float n, .float m => n.near m
  | .int n, .float m => (F64.ofInt n.toInt).near m
  | .float n, .int m => n.near (F64.ofInt m.toInt)
  | .bool b, .bool c => b = c
  | _, _ => false

/-- `compare`. -/
def compareField (field : FieldValue) (op : Op) (lit : Literal) : Bool :=
  match field, lit with
  | .string s, .string t => cmpText s t op
  | .int n, .int m => cmpNum (F64.ofInt n.toInt) (F64.ofInt m.toInt) op
  | .float n, .float m => cmpNum n m op
  | .int n, .float m => cmpNum (F64.ofInt n.toInt) m op
  | .float n, .int m => cmpNum n (F64.ofInt m.toInt) op
  | .bool b, .bool c => match op with
    | .eq => b = c
    | .ne => b ≠ c
    | _ => false
  | .list items, lit => op = .contains && items.any fun item => isItem item lit
  | .datetime s, .string t => cmpText s t op
  | .null, .null => op = .eq
  | .null, _ => op = .ne
  | _, _ => false

/-- `evaluate`. -/
def evaluate (m : Manifest) : Expr → Bool
  | .and a b => evaluate m a && evaluate m b
  | .or a b => evaluate m a || evaluate m b
  | .not a => !evaluate m a
  | .atom (.exists path) => (resolvePath m path).isSome
  | .atom (.compare path op value) => match resolvePath m path with
    | some field => compareField field op value
    | none => false

/-! ### Cursors -/

/-- The texts of errors of the base64 decoder and of the standard library. -/
structure CursorErrors where
  decode : Text → Text
  utf8 : Bytes → Text
  parseInt : Text → Text

/-- `encode_cursor`. -/
def encodeCursor (commit : Option Text) (offset : Nat) : Text :=
  Base64.encode (utf8 (commit.getD [] ++ '|' :: decimal offset))

/-- `decode_cursor`. -/
def decodeCursor (E : CursorErrors) (s : Text) : Except OmpError (Option Text × Nat) :=
  match Base64.decode s with
  | none => .error (.invalidPath ("bad cursor: ".toList ++ E.decode s))
  | some raw => match fromUtf8 raw with
    | none => .error (.invalidPath ("bad cursor utf8: ".toList ++ E.utf8 raw))
    | some s => match splitOnce '|' s with
      | none => .error (.invalidPath "malformed cursor".toList)
      | some (commit, offsetStr) => match parseUsize offsetStr with
        | none =>
          .error (.invalidPath ("bad cursor offset: ".toList ++ E.parseInt offsetStr))
        | some offset => .ok (if commit = [] then none else some commit, offset)

/-! ### Pages -/

/-- A manifest that matches. -/
structure Match where
  path : Text
  manifestHash : Hash
  sourceHash : Hash
  fileType : Text
  fields : Fields
  deriving DecidableEq

/-- A page. -/
structure Result where
  matches_ : List Match
  nextCursor : Option Text
  deriving DecidableEq

/-- What is asked for, on every page alike. -/
structure Request where
  at_ : Option Text
  prefix_ : Option Text
  predicate : Option Expr
  limit : Nat

/-- The number of matches of a page. -/
def Request.clampedLimit (q : Request) : Nat := max 1 (min q.limit 1000)

/-- A vector, unless it is longer than vectors can be. -/
def collectVec {α : Type} (l : List α) : Except (Fault OmpError) (List α) :=
  if l.length < 2 ^ 63 then .ok l else .error .panic

variable (W : World)

/-- The manifests of a tree below a prefix, in the order of their paths. -/
def sortedManifests (s : Store) (root : Hash) (prefix_ : Option Text) :
    Except (Fault OmpError) (List (Text × Hash)) := do
  let entries ← walk W.toPlatform s none root
  let entries ← collectVec entries
  let kept := entries.filter fun p => p.2.mode = .manifest && prefix_.all fun pfx => pfx <+: p.1
  .ok ((kept.map fun p => (p.1, p.2.hash)).insertionSort fun a b => (compare a.1 b.1).isLE = true)

/-- The manifest at one place, if it matches. -/
def matchAt (s : Store) (predicate : Option Expr) (entry : Text × Hash) :
    Except OmpError (Option Match) :=
  match s.get W.toPlatform entry.2 with
  | none => .error (.notFound ("manifest ".toList ++ entry.2.hex))
  | some o => do
    let m ← Manifest.parse W o.content
    .ok (if predicate.all (evaluate m) then
      some ⟨entry.1, entry.2, m.sourceHash, m.fileType, m.fields⟩ else none)

/-- The loop over the manifests from a place on, with the matches so far; `len` is their number. -/
def scan (s : Store) (predicate : Option Expr) (limit len : Nat) :
    Nat → List (Text × Hash) → List Match → Except OmpError (List Match × Option Nat)
  | _, [], found => .ok (found, none)
  | idx, entry :: rest, found => do
    match ← matchAt W s predicate entry with
    | none => scan s predicate limit len (idx + 1) rest found
    | some m =>
      if limit ≤ (found ++ [m]).length then
        .ok (found ++ [m], if idx + 1 < len then some (idx + 1) else none)
      else scan s predicate limit len (idx + 1) rest (found ++ [m])

end Query

namespace Repo

open Query

variable (W : World) (E : CursorErrors)

/-- `resolve_at`, which leaves an expression as it is. -/
def resolveAt (r : Repo) : Option Text → Except OmpError (Option Text)
  | some expr => .ok (some expr)
  | none => do
    let head ← r.resolveHead W
    .ok (head.map Hash.hex)

/-- The part of `query` from the commit on: a page of the tree of an expression. -/
def page (r : Repo) (q : Request) (effectiveAt : Option Text) (startOffset : Nat) :
    Except (Fault OmpError) Result := do
  match ← (r.rootTree W effectiveAt).mapError .err with
  | none => .ok ⟨[], none⟩
  | some root => do
    let sorted ← sortedManifests W r.store root q.prefix_
    let (found, nextOffset) ← (scan W r.store q.predicate q.clampedLimit sorted.length startOffset
      (sorted.drop startOffset) []).mapError .err
    .ok ⟨found, nextOffset.map (encodeCursor effectiveAt)⟩

/-- `query`. -/
def query (r : Repo) (q : Request) (cursor : Option Text) : Except (Fault OmpError) Result := do
  let resolvedAt ← (r.resolveAt W q.at_).mapError .err
  match cursor with
  | none => r.page W q resolvedAt 0
  | some c => do
    let (cursorCommit, startOffset) ← (decodeCursor E c).mapError .err
    r.page W q (cursorCommit.or resolvedAt) startOffset

end Repo

end Omp
