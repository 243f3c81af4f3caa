import Omp.Store

/-!
# Commits and references

A commit names a tree, its parents, its author and a message.  `HEAD` names a branch or a
commit, and a reference expression names a commit by branch, by hash or by counting ancestors.
Sealed messages, which only the encrypted mode writes, are refused here as the program refuses
them without a key.

## Main definitions

* `Commit.serialize`, `Commit.parse`, `treeHeader` : the stored form and its two readers.
* `parseHead`, `splitAncestor` : the two kinds of expressions.

## Main results

* `treeHeader_serialize` : the tree of a commit is read back from its header.
-/

namespace Omp

open Lib

variable (P : Platform)

/-! ### Scanning -/

/-- `char::is_whitespace`. -/
def isWhitespace (c : Char) : Bool :=
  (9 ≤ c.toNat && c.toNat ≤ 13) || c.toNat == 0x20 || c.toNat == 0x85 || c.toNat == 0xA0 ||
    c.toNat == 0x1680 || (0x2000 ≤ c.toNat && c.toNat ≤ 0x200A) || c.toNat == 0x2028 ||
    c.toNat == 0x2029 || c.toNat == 0x202F || c.toNat == 0x205F || c.toNat == 0x3000

/-- `str::trim_end`. -/
def trimEnd (s : Text) : Text := s.rdropWhile isWhitespace

/-- `str::trim`. -/
def trim (s : Text) : Text := trimEnd (s.dropWhile isWhitespace)

/-- Split at the last occurrence of a character, dropping it. -/
def rsplitOnce (c : Char) (s : Text) : Option (Text × Text) :=
  (splitOnce c s.reverse).map fun p => (p.2.reverse, p.1.reverse)

/-- The number of characters before the last occurrence of a character. -/
def rfind (c : Char) (s : Text) : Option Nat := (rsplitOnce c s).map fun p => p.1.length

/-- The text after a prefix. -/
def stripPrefix (p s : Text) : Option Text :=
  if p <+: s then some (s.drop p.length) else none

/-- The text before a suffix. -/
def stripSuffix (p s : Text) : Option Text :=
  if p <:+ s then some (s.take (s.length - p.length)) else none

theorem stripPrefix_append (p s : Text) : stripPrefix p (p ++ s) = some s := by
  rw [stripPrefix, if_pos (List.prefix_append p s), List.drop_left]

/-! ### Authors -/

/-- The author of a commit. -/
structure Author where
  name : Text
  email : Text
  timestamp : Text
  deriving DecidableEq

namespace Author

/-- `format`. -/
def format (a : Author) : Text :=
  a.name ++ " <".toList ++ a.email ++ "> ".toList ++ a.timestamp

/-- `parse`, which reads from the right. -/
def parse (s : Text) : Except OmpError Author :=
  match rsplitOnce ' ' (trim s) with
  | none => .error (.corrupt "commit author: missing timestamp".toList)
  | some (rest, timestamp) =>
    let rest := trimEnd rest
    match rfind '<' rest, rfind '>' rest with
    | none, _ => .error (.corrupt "commit author: missing '<'".toList)
    | _, none => .error (.corrupt "commit author: missing '>'".toList)
    | some emailStart, some emailEnd =>
      if emailEnd < emailStart then
        .error (.corrupt "commit author: unbalanced '<>'".toList)
      else .ok ⟨trimEnd (rest.take emailStart),
        (rest.take emailEnd).drop (emailStart + 1), timestamp⟩

end Author

/-! ### Commits -/

/-- A commit. -/
structure Commit where
  tree : Hash
  parents : List Hash
  author : Author
  message : Text

namespace Commit

/-- The prefix of a sealed message. -/
def encryptedMessagePrefix : Text := "!encrypted-message v1 ".toList

/-- The text of a commit. -/
def text (c : Commit) : Text :=
  ("tree ".toList ++ c.tree.hex) ++ '\n' ::
    ((c.parents.flatMap fun p => "parent ".toList ++ p.hex ++ ['\n']) ++
      ("author ".toList ++ c.author.format ++ '\n' :: '\n' ::
        (c.message.rdropWhile (· == '\n') ++ ['\n'])))

/-- `serialize`. -/
def serialize (c : Commit) : Bytes := utf8 c.text

/-- What the headers of a commit have given so far. -/
structure Headers where
  tree : Option Hash
  parents : List Hash
  author : Option Author

/-- Read one header line. -/
def readHeader (hs : Headers) (l : Text) : Except OmpError Headers :=
  match stripPrefix "tree ".toList l with
  | some rest => match Hash.parse P rest with
    | .ok h => .ok { hs with tree := some h }
    | .error e => .error (.corrupt ("commit tree: ".toList ++ e))
  | none => match stripPrefix "parent ".toList l with
    | some rest => match Hash.parse P rest with
      | .ok h => .ok { hs with parents := hs.parents ++ [h] }
      | .error e => .error (.corrupt ("commit parent: ".toList ++ e))
    | none => match stripPrefix "author ".toList l with
      | some rest => (Author.parse rest).map fun a => { hs with author := some a }
      | none => .error (.corrupt ("commit: unknown header line: ".toList ++ P.debugStr l))

/-- Read header lines up to an empty one; what is left is the body. -/
def readHeaders : List Text → Headers → Except OmpError (Headers × Text)
  | [], hs => .ok (hs, [])
  | l :: ls, hs =>
    if l = [] then .ok (hs, joinWith '\n' ls)
    else do
      let hs ← readHeader P hs l
      readHeaders ls hs

/-- `parse`. -/
def parse (bytes : Bytes) : Except OmpError Commit :=
  match fromUtf8 bytes with
  | none => .error (.corrupt "commit is not UTF-8".toList)
  | some s => do
    let (hs, body) ← readHeaders P (s.splitOn '\n') ⟨none, [], none⟩
    let body := body.rdropWhile (· == '\n')
    if (stripPrefix encryptedMessagePrefix body).isSome then
      .error (.unauthorized "commit message is encrypted but no commit_key supplied".toList)
    else match hs.tree, hs.author with
      | none, _ => .error (.corrupt "commit: missing tree".toList)
      | _, none => .error (.corrupt "commit: missing author".toList)
      | some tree, some author => .ok ⟨tree, hs.parents, author, body⟩

end Commit

/-- The loop of `commit_tree` over the lines of a commit: the first tree header before an empty
line. -/
def treeHeaderLines (commit : Hash) : List Text → Except OmpError Hash
  | [] => .error (.corrupt ("commit ".toList ++ commit.hex ++ " missing tree header".toList))
  | l :: ls =>
    if l = [] then
      .error (.corrupt ("commit ".toList ++ commit.hex ++ " missing tree header".toList))
    else match stripPrefix "tree ".toList l with
      | some rest => (Hash.parse P rest).mapError fun e =>
          .corrupt ("commit tree: ".toList ++ e)
      | none => treeHeaderLines commit ls

/-- The tree of a commit, read from its header only. -/
def treeHeader (commit : Hash) (content : Bytes) : Except OmpError Hash :=
  match fromUtf8 content with
  | none => .error (.corrupt "commit is not UTF-8".toList)
  | some s => treeHeaderLines P commit (lines s)

variable {P}

theorem treeHeaderLines_cons {commit : Hash} {l rest : Text} (hne : l ≠ [])
    (hl : stripPrefix "tree ".toList l = some rest) (ls : List Text) :
    treeHeaderLines P commit (l :: ls) =
      (Hash.parse P rest).mapError fun e => .corrupt ("commit tree: ".toList ++ e) := by
  simp only [treeHeaderLines, if_neg hne, hl]

theorem treeHeader_of_fromUtf8 {commit : Hash} {content : Bytes} {s : Text}
    (h : fromUtf8 content = some s) :
    treeHeader P commit content = treeHeaderLines P commit (lines s) := by
  rw [treeHeader, h]

variable (P)

/-- **The tree of a commit is read back from its header.** -/
theorem treeHeader_serialize (commit : Hash) (c : Commit) :
    treeHeader P commit c.serialize = .ok c.tree := by
  have hlf : '\n' ∉ "tree ".toList ++ c.tree.hex := by
    rw [List.mem_append, not_or]
    exact ⟨by decide, Hash.not_mem_hex (by decide)⟩
  have hcr : ("tree ".toList ++ c.tree.hex).getLast? ≠ some '\r' := fun h => by
    rcases List.mem_append.1 (List.mem_of_getLast? h) with h | h
    · revert h
      decide
    · exact Hash.not_mem_hex (by decide) h
  have hne : "tree ".toList ++ c.tree.hex ≠ [] := List.append_ne_nil_of_left_ne_nil (by decide) _
  rw [Commit.serialize, treeHeader_of_fromUtf8 (fromUtf8_utf8 _)]
  unfold Commit.text
  rw [lines_cons_lf hlf, stripCr_of_ne hcr, treeHeaderLines_cons hne (stripPrefix_append _ _),
    Hash.parse_hex]
  rfl

/-! ### Expressions -/

/-- What `HEAD` points at. -/
inductive Head where
  | branch (name : Text)
  | detached (commit : Hash)
  deriving DecidableEq

/-- `parse_head`. -/
def parseHead (raw : Text) : Except OmpError Head :=
  let s := trim raw
  match stripPrefix "ref: ".toList s with
  | some name => .ok (.branch (trim name))
  | none => match Hash.parse P s with
    | .ok h => .ok (.detached h)
    | .error e => .error (.corrupt ("HEAD: ".toList ++ e))

/-- `str::parse::<usize>`, with a plus sign allowed. -/
def parseUsize (s : Text) : Option Nat :=
  let digits := match s with
    | '+' :: ds => ds
    | ds => ds
  if digits ≠ [] ∧ digits.all Char.isDigit then
    let n := digits.foldl (fun n c => 10 * n + (c.toNat - '0'.toNat)) 0
    if n < 2 ^ 64 then some n else none
  else none

/-- Digits are read as the number they are, if the machine has it. -/
theorem parseUsize_of_digits {digits : Text} (hne : digits ≠ [])
    (hall : digits.all Char.isDigit = true) :
    parseUsize digits = if Nat.ofDigitChars 10 digits 0 < 2 ^ 64 then
      some (Nat.ofDigitChars 10 digits 0) else none := by
  have hplus : ∀ ds, digits ≠ '+' :: ds := by
    rintro ds rfl
    exact absurd (List.all_eq_true.1 hall '+' List.mem_cons_self) (by decide)
  rw [parseUsize]
  · dsimp only
    rw [if_pos ⟨hne, hall⟩]
    rfl
  · exact fun ds heq => hplus ds heq

/-- **A number that was printed is read back**, with zeros before it or without. -/
theorem parseUsize_padded {n : Nat} (h : n < 2 ^ 64) (k : Nat) :
    parseUsize (List.replicate k '0' ++ decimal n) = some n := by
  have hall : (List.replicate k '0' ++ Nat.toDigits 10 n).all Char.isDigit = true := by
    refine List.all_eq_true.2 fun c hc => ?_
    rcases List.mem_append.1 hc with hc | hc
    · rw [List.eq_of_mem_replicate hc]
      decide
    · exact Nat.isDigit_of_mem_toDigits (by omega) (by omega) hc
  have hvalue : Nat.ofDigitChars 10 (List.replicate k '0' ++ Nat.toDigits 10 n) 0 = n := by
    rw [Nat.ofDigitChars_append, Nat.ofDigitChars_replicate_zero, Nat.mul_zero,
      Nat.ofDigitChars_ten_toDigits]
  have hne : List.replicate k '0' ++ Nat.toDigits 10 n ≠ [] := by simp [Nat.toDigits_ne_nil]
  rw [decimal, parseUsize_of_digits hne hall, hvalue, if_pos h]

theorem parseUsize_decimal {n : Nat} (h : n < 2 ^ 64) : parseUsize (decimal n) = some n :=
  parseUsize_padded h 0

/-- `split_ancestor` : the base, and how many commits to go back. -/
def splitAncestor (expr : Text) : Text × Nat :=
  match splitOnce '~' expr with
  | some (base, tail) => (base, (parseUsize tail).getD 1)
  | none => (expr, 0)

end Omp
