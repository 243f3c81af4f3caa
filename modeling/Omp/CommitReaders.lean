import Omp.CommitCodec

/-!
# The three readers of a commit

Three functions read the header of a stored commit: `Commit::parse`, the header reader behind
`ls`, `show` and `query`, and the one of the garbage collector.  The first refuses lines it does
not know, keeps the last tree header and splits at line feeds; the second stops at the first tree
header; the third reads like the first, or, when the message is sealed, passes over what it does
not know and splits with `str::lines`.

On a commit that parses, the collector always agrees with the parser.  The second reader agrees
exactly when the first tree header of the commit names the tree of the last one.

## Main definitions

* `Commit.parseCommitHeaders` : the reader of the garbage collector.
* `Commit.headerTrees` : the trees a header names, in order.

## Main results

* `Commit.readers_agree_iff` : when the readers agree.
-/

namespace Omp

open Lib

namespace Commit

variable (P : Platform)

/-- One line of the loop of `parse_commit_headers`, which passes over lines it does not know. -/
def readKnownHeader (hs : Headers) (l : Text) : Except OmpError Headers :=
  match stripPrefix "tree ".toList l with
  | some rest => match Hash.parse P rest with
    | .ok h => .ok { hs with tree := some h }
    | .error e => .error (.corrupt ("commit tree: ".toList ++ e))
  | none => match stripPrefix "parent ".toList l with
    | some rest => match Hash.parse P rest with
      | .ok h => .ok { hs with parents := hs.parents ++ [h] }
      | .error e => .error (.corrupt ("commit parent: ".toList ++ e))
    | none => match stripPrefix "author ".toList l with
      | some rest => (Author.parse rest).map fun a => { hs with author := some a }
      | none => .ok hs

/-- The loop of `parse_commit_headers`. -/
def readHeaderLines : List Text → Headers → Except OmpError Headers
  | [], hs => .ok hs
  | l :: ls, hs =>
    if l = [] then .ok hs
    else do
      let hs ← readKnownHeader P hs l
      readHeaderLines ls hs

/-- `parse_commit_headers` : a sealed message is left out. -/
def parseCommitHeaders (bytes : Bytes) : Except OmpError Commit :=
  match parseWithCommitKey P none bytes with
  | .error (.unauthorized _) =>
    match fromUtf8 bytes with
    | none => .error (.corrupt "commit is not UTF-8".toList)
    | some s => do
      let hs ← readHeaderLines P (lines s) ⟨none, [], none⟩
      match hs.tree, hs.author with
      | none, _ => .error (.corrupt "commit: missing tree".toList)
      | _, none => .error (.corrupt "commit: missing author".toList)
      | some tree, some author => .ok ⟨tree, hs.parents, author, []⟩
  | r => r

/-- The tree a header line names. -/
def lineTree (l : Text) : Option Hash :=
  (stripPrefix "tree ".toList l).bind fun rest => (Hash.parse P rest).toOption

/-- The trees that the lines before an empty one name, in order. -/
def treesOfLines (ls : List Text) : List Hash := (ls.takeWhile (· ≠ [])).filterMap (lineTree P)

/-- The trees that the header of a commit names, in order. -/
def headerTrees (bytes : Bytes) : List Hash :=
  match fromUtf8 bytes with
  | none => []
  | some s => treesOfLines P (lines s)

variable {P}

/-! ### Lines -/

/-- The lines of joined pieces: all but the last lose a carriage return. -/
theorem lines_joinWith_cons {l : Text} (hl : '\n' ∉ l) (m : Text) (ls : List Text) :
    lines (joinWith '\n' (l :: m :: ls)) = stripCr l :: lines (joinWith '\n' (m :: ls)) := by
  rw [joinWith_cons_cons, lines_cons_lf hl]

theorem lines_of_not_mem {l : Text} (hl : '\n' ∉ l) (hne : l ≠ []) : lines l = [l] := by
  have key : ∀ (l acc : Text), '\n' ∉ l → acc.reverse ++ l ≠ [] →
      linesAux acc l = [acc.reverse ++ l] := by
    intro l
    induction l with
    | nil =>
      intro acc _ hne
      rw [linesAux, if_neg (by simpa using hne), List.append_nil]
    | cons c l ih =>
      intro acc hl _
      obtain ⟨hc, hl⟩ := not_or.1 (mt List.mem_cons.2 hl)
      rw [linesAux, if_neg (Ne.symm hc), ih _ hl (by simp)]
      simp
  exact key l [] hl hne

/-- Hexadecimal digits are no carriage returns. -/
theorem cr_not_mem_of_parse {t : Text} {h : Hash} (ht : Hash.parse P t = .ok h) : '\r' ∉ t := by
  unfold Hash.parse at ht
  split_ifs at ht with hlen
  cases hdec : hexDecode (utf8 t) with
  | error b => simp only [hdec] at ht; cases ht
  | ok bs =>
    intro hmem
    have hbyte : (13 : UInt8) ∈ utf8 t := List.mem_flatMap.2 ⟨'\r', hmem, by decide⟩
    have := nibble_ne_none_of_hexDecode hdec (by omega) 13 hbyte
    exact this (by decide)

theorem trim_stripCr (t : Text) : trim (stripCr t) = trim t := by
  by_cases h : stripCr t = t
  · rw [h]
  · rw [eq_append_of_stripCr_ne h, stripCr_append_cr, trim, trim, List.dropWhile_append]
    -- either everything is white space, or the carriage return is what the end loses first
    split_ifs with hempty
    · rw [List.isEmpty_iff.1 hempty]
      rfl
    · rw [trimEnd, trimEnd, List.rdropWhile_concat_pos _ _ _ (by decide)]

/-- A header line means the same without a carriage return at its end. -/
theorem readHeader_stripCr {hs hs' : Headers} {l : Text} (h : readHeader P hs l = .ok hs') :
    readHeader P hs (stripCr l) = .ok hs' ∧ stripCr l ≠ [] := by
  have hkeep : ∀ {w rest : Text}, w ≠ [] → '\r' ∉ w → '\r' ∉ rest → l = w ++ rest →
      readHeader P hs (stripCr l) = .ok hs' ∧ stripCr l ≠ [] := by
    rintro w rest hne hw hrest rfl
    have hcr : (w ++ rest).getLast? ≠ some '\r' := fun hlast =>
      (List.mem_append.1 (List.mem_of_getLast? hlast)).elim hw hrest
    rw [stripCr_of_ne hcr]
    exact ⟨h, List.append_ne_nil_of_left_ne_nil hne _⟩
  rcases readHeader_cases h with
    ⟨rest, g, hl, hg, -⟩ | ⟨rest, g, hl, hg, -⟩ | ⟨rest, a, rfl, ha, rfl⟩
  · exact hkeep (by decide) (by decide) (cr_not_mem_of_parse hg) hl
  · exact hkeep (by decide) (by decide) (cr_not_mem_of_parse hg) hl
  · have hrest : rest ≠ [] := by
      rintro rfl
      cases ha
    have hparse : Author.parse (stripCr rest) = .ok a := by
      rw [← ha, Author.parse, Author.parse, trim_stripCr]
    rw [stripCr_append _ hrest, readHeader_author, hparse]
    exact ⟨rfl, List.append_ne_nil_of_left_ne_nil (by decide) _⟩

theorem readKnownHeader_of_readHeader {hs hs' : Headers} {l : Text}
    (h : readHeader P hs l = .ok hs') : readKnownHeader P hs l = .ok hs' := by
  unfold readHeader at h
  unfold readKnownHeader
  cases htree : stripPrefix "tree ".toList l with
  | some rest => rwa [htree] at h
  | none =>
    rw [htree] at h
    cases hparent : stripPrefix "parent ".toList l with
    | some rest => rwa [hparent] at h
    | none =>
      rw [hparent] at h
      cases hauthor : stripPrefix "author ".toList l with
      | some rest => rwa [hauthor] at h
      | none => rw [hauthor] at h; cases h

/-- The parser reads the same headers from the lines that `str::lines` makes. -/
theorem readHeaders_lines {ls : List Text} (hls : ∀ l ∈ ls, '\n' ∉ l) {hs hs' : Headers}
    {body : Text} (h : readHeaders P ls hs = .ok (hs', body)) :
    ∃ body', readHeaders P (lines (joinWith '\n' ls)) hs = .ok (hs', body') := by
  induction ls generalizing hs with
  | nil =>
    cases h
    exact ⟨[], rfl⟩
  | cons l ls ih =>
    obtain ⟨hl, hls⟩ := List.forall_mem_cons.1 hls
    rw [readHeaders] at h
    cases ls with
    | nil =>
      -- the last line keeps its carriage return, and does not count when it is empty
      rw [joinWith_singleton]
      split_ifs at h with hnil
      · cases h
        exact ⟨[], by rw [hnil]; rfl⟩
      · obtain ⟨hs₁, hline, h⟩ := except_bind_eq_ok.1 h
        exact ⟨body, by rw [lines_of_not_mem hl hnil, readHeaders_cons hnil hline, h]⟩
    | cons m ls =>
      rw [lines_joinWith_cons hl]
      split_ifs at h with hnil
      · cases h
        rw [hnil]
        exact ⟨_, readHeaders_nil⟩
      · obtain ⟨hs₁, hline, h⟩ := except_bind_eq_ok.1 h
        obtain ⟨hstrip, hne⟩ := readHeader_stripCr hline
        rw [readHeaders_cons hne hstrip]
        exact ih hls h

/-- The collector's loop reads what the parser reads. -/
theorem readHeaderLines_of_readHeaders {ls : List Text} {hs hs' : Headers} {body : Text}
    (h : readHeaders P ls hs = .ok (hs', body)) : readHeaderLines P ls hs = .ok hs' := by
  induction ls generalizing hs with
  | nil =>
    cases h
    rfl
  | cons l ls ih =>
    rw [readHeaders] at h
    rw [readHeaderLines]
    split_ifs at h ⊢
    · cases h
      rfl
    · obtain ⟨hs₁, hline, h⟩ := except_bind_eq_ok.1 h
      rw [readKnownHeader_of_readHeader hline]
      exact ih h

/-! ### Trees -/

/-- The tree the second reader finds among the trees of a header. -/
def firstTree (commit : Hash) (trees : List Hash) : Except OmpError Hash :=
  match trees with
  | [] => .error (.corrupt ("commit ".toList ++ commit.hex ++ " missing tree header".toList))
  | t :: _ => .ok t

/-- What one header line says about the tree. -/
theorem lineTree_cases {hs hs' : Headers} {l : Text} (h : readHeader P hs l = .ok hs') :
    (∃ rest t, stripPrefix "tree ".toList l = some rest ∧ Hash.parse P rest = .ok t ∧
      lineTree P l = some t ∧ hs'.tree = some t) ∨
    (stripPrefix "tree ".toList l = none ∧ lineTree P l = none ∧ hs'.tree = hs.tree) := by
  rcases readHeader_cases h with
    ⟨rest, t, rfl, ht, rfl⟩ | ⟨rest, t, rfl, ht, rfl⟩ | ⟨rest, a, rfl, ha, rfl⟩
  · refine .inl ⟨rest, t, stripPrefix_append _ _, ht, ?_, rfl⟩
    rw [lineTree, stripPrefix_append, Option.bind_some, ht]
    rfl
  · have hnone : stripPrefix "tree ".toList ("parent ".toList ++ rest) = none :=
      stripPrefix_of_ne (by decide) rest
    exact .inr ⟨hnone, by rw [lineTree, hnone]; rfl, rfl⟩
  · have hnone : stripPrefix "tree ".toList ("author ".toList ++ rest) = none :=
      stripPrefix_of_ne (by decide) rest
    exact .inr ⟨hnone, by rw [lineTree, hnone]; rfl, rfl⟩

/-- **What the header lines of a commit say about its tree**: the parser keeps the last tree,
the second reader takes the first. -/
theorem trees_of_readHeaders {ls : List Text} {hs hs' : Headers} {body : Text}
    (h : readHeaders P ls hs = .ok (hs', body)) (commit : Hash) :
    hs'.tree = (treesOfLines P ls).getLast?.or hs.tree ∧
      treeHeaderLines P commit ls = firstTree commit (treesOfLines P ls) := by
  induction ls generalizing hs with
  | nil =>
    cases h
    exact ⟨rfl, rfl⟩
  | cons l ls ih =>
    rw [readHeaders] at h
    split_ifs at h with hnil
    · cases h
      subst hnil
      exact ⟨rfl, by rw [treeHeaderLines, if_pos rfl]; rfl⟩
    · obtain ⟨hs₁, hline, h⟩ := except_bind_eq_ok.1 h
      obtain ⟨hlast, hfirst⟩ := ih h
      have htrees : treesOfLines P (l :: ls) = (lineTree P l).toList ++ treesOfLines P ls := by
        rw [treesOfLines, List.takeWhile_cons_of_pos (by simpa using hnil), List.filterMap_cons]
        cases lineTree P l <;> rfl
      rcases lineTree_cases hline with ⟨rest, t, hpre, ht, hlt, htree⟩ | ⟨hpre, hlt, htree⟩
      · rw [htrees, hlt, treeHeaderLines_cons hnil hpre, ht, hlast, htree]
        refine ⟨?_, rfl⟩
        rw [Option.toList_some, List.singleton_append, List.getLast?_cons]
        cases (treesOfLines P ls).getLast? <;> rfl
      · rw [htrees, hlt, hlast, htree, treeHeaderLines, if_neg hnil]
        simp only [hpre, hfirst]
        exact ⟨rfl, rfl⟩

/-- What is known of a commit that parses. -/
theorem headers_of_parse {key : Option Key} {bytes : Bytes} {c : Commit}
    (h : parseWithCommitKey P key bytes = .ok c) :
    ∃ s body, fromUtf8 bytes = some s ∧
      readHeaders P (s.splitOn '\n') ⟨none, [], none⟩ =
        .ok (⟨some c.tree, c.parents, some c.author⟩, body) := by
  unfold parseWithCommitKey at h
  cases hs : fromUtf8 bytes with
  | none => rw [hs] at h; cases h
  | some s =>
    rw [hs] at h
    obtain ⟨⟨hds, body⟩, hread, h⟩ := except_bind_eq_ok.1 h
    obtain ⟨message, -, h⟩ := except_bind_eq_ok.1 h
    refine ⟨s, body, rfl, ?_⟩
    obtain ⟨tree, parents, author⟩ := hds
    cases tree with
    | none => cases h
    | some tree =>
      cases author with
      | none => cases h
      | some author =>
        cases h
        exact hread

/-- **The collector reads what the parser reads.** -/
theorem parseCommitHeaders_of_parse {key : Option Key} {bytes : Bytes} {c : Commit}
    (h : parseWithCommitKey P key bytes = .ok c) :
    ∃ d, parseCommitHeaders P bytes = .ok d ∧ d.tree = c.tree ∧ d.parents = c.parents := by
  obtain ⟨s, body, hutf8, hread⟩ := headers_of_parse h
  rw [parseCommitHeaders, parseWithCommitKey, hutf8]
  simp only [hread, bind, Except.bind]
  -- without a key the parser stops only at a sealed message
  cases hopen : openMessage P none (body.rdropWhile (· == '\n')) with
  | ok message => exact ⟨_, rfl, rfl, rfl⟩
  | error e =>
    have hsealed : e =
        .unauthorized "commit message is encrypted but no commit_key supplied".toList := by
      unfold openMessage at hopen
      cases hpre : stripPrefix encryptedMessagePrefix (body.rdropWhile (· == '\n')) with
      | none => rw [hpre] at hopen; cases hopen
      | some m => rw [hpre] at hopen; cases hopen; rfl
    obtain ⟨body', hlines⟩ := readHeaders_lines (fun _ => not_mem_of_mem_splitOn) hread
    rw [joinWith_splitOn] at hlines
    subst hsealed
    simp only [readHeaderLines_of_readHeaders hlines]
    exact ⟨_, rfl, rfl, rfl⟩

/-- **When the three readers agree**: on a commit that parses, exactly when the first tree of its
header is the last one. -/
theorem readers_agree_iff {key : Option Key} {bytes : Bytes} {c : Commit}
    (h : parseWithCommitKey P key bytes = .ok c) (commit : Hash) :
    (treeHeader P commit bytes = .ok c.tree ∧
      ∃ d, parseCommitHeaders P bytes = .ok d ∧ d.tree = c.tree ∧ d.parents = c.parents) ↔
      (headerTrees P bytes).head? = (headerTrees P bytes).getLast? := by
  obtain ⟨s, body, hutf8, hread⟩ := headers_of_parse h
  obtain ⟨body', hlines⟩ := readHeaders_lines (fun _ => not_mem_of_mem_splitOn) hread
  rw [joinWith_splitOn] at hlines
  obtain ⟨hlast, hfirst⟩ := trees_of_readHeaders hlines commit
  rw [and_iff_left (parseCommitHeaders_of_parse h), treeHeader_of_fromUtf8 hutf8, hfirst,
    headerTrees, hutf8]
  dsimp only at hlast ⊢
  rw [Option.or_none] at hlast
  generalize treesOfLines P (lines s) = trees at hlast ⊢
  cases trees with
  | nil => cases hlast
  | cons t ts => rw [← hlast, List.head?_cons, firstTree, Except.ok.injEq, Option.some.injEq]

theorem readers_agree_iff_demo :
    ∃ c, parseWithCommitKey demo none ((demoCommit "eve".toList).serialize) = .ok c ∧
      treeHeader demo (Hash.ofNat 9) ((demoCommit "eve".toList).serialize) = .ok c.tree := by
  obtain ⟨c, hc⟩ := exists_eq_ok_of_isOk
    (r := parseWithCommitKey demo none ((demoCommit "eve".toList).serialize)) (by decide +kernel)
  exact ⟨c, hc, ((readers_agree_iff hc (Hash.ofNat 9)).2 (by decide +kernel)).1⟩

/-- A name that ends the author line and goes on with a second tree. -/
def forgedTree : Text :=
  "eve <eve> t\ntree ".toList ++ (Hash.ofNat 2).hex ++ "\nauthor eve".toList

/-- **A commit of which one reader sees one tree and one the other.** -/
theorem readers_disagree :
    ∃ c, parseWithCommitKey demo none ((demoCommit forgedTree).serialize) = .ok c ∧
      c.tree = Hash.ofNat 2 ∧
      treeHeader demo (Hash.ofNat 9) ((demoCommit forgedTree).serialize) =
        .ok (Hash.ofNat 1) := by
  have htree : (parseWithCommitKey demo none ((demoCommit forgedTree).serialize)).toOption.map
      tree = some (Hash.ofNat 2) := by decide +kernel
  have hfirst : (treeHeader demo (Hash.ofNat 9)
      ((demoCommit forgedTree).serialize)).toOption = some (Hash.ofNat 1) := by decide +kernel
  cases hc : parseWithCommitKey demo none ((demoCommit forgedTree).serialize) with
  | error e => rw [hc] at htree; cases htree
  | ok c =>
    rw [hc] at htree
    refine ⟨c, rfl, Option.some.inj htree, ?_⟩
    cases ht : treeHeader demo (Hash.ofNat 9) ((demoCommit forgedTree).serialize) with
    | error e => rw [ht] at hfirst; cases hfirst
    | ok t =>
      rw [ht] at hfirst
      rw [Option.some.inj hfirst]

end Commit

end Omp
