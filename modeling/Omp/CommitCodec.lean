import Omp.Commit
import Omp.Tree

/-!
# The codec of commits

A commit is written as header lines, an empty line and the message, which is sealed and written in
hexadecimal under a commit key.  Author fields and messages are written as the caller gave them,
so the reader gets back what was written only for some of them: `Author.Kept` says for which
authors, and a message in plain must not start like a sealed one.

## Main definitions

* `Commit.serializeWithCommitKey`, `Commit.parseWithCommitKey` : the codec.
* `Author.Kept` : the authors whose line is read back.

## Main results

* `Author.parse_format`, `Author.kept_of_parse` : an author is read back exactly when it is kept.
* `Commit.commit_round_trip_iff` : when a commit is read back as it was.
-/

namespace Omp

open Lib

/-! ### Trimming -/

theorem trimEnd_eq_self_iff {s : Text} :
    trimEnd s = s ↔ ∀ c, s.getLast? = some c → isWhitespace c = false := by
  rw [trimEnd, List.rdropWhile_eq_self_iff]
  constructor
  · intro h c hc
    have hne : s ≠ [] := by rintro rfl; cases hc
    rw [List.getLast?_eq_some_getLast hne, Option.some.injEq] at hc
    rw [← hc]
    exact Bool.eq_false_iff.2 (h hne)
  · intro h hne
    exact Bool.eq_false_iff.1 (h _ (List.getLast?_eq_some_getLast hne))

theorem getLast?_trimEnd {s : Text} {c : Char} (h : (trimEnd s).getLast? = some c) :
    isWhitespace c = false := by
  have hidem : trimEnd (trimEnd s) = trimEnd s := List.rdropWhile_idempotent _ s
  exact trimEnd_eq_self_iff.1 hidem c h

theorem trimEnd_append {s t : Text} (ht : t ≠ []) (h : trimEnd t = t) : trimEnd (s ++ t) = s ++ t := by
  rw [trimEnd_eq_self_iff, List.getLast?_append_of_ne_nil _ ht]
  exact trimEnd_eq_self_iff.1 h

theorem dropWhile_eq_self {p : Char → Bool} {s : Text} (h : ∀ c, s.head? = some c → p c = false) :
    s.dropWhile p = s := by
  cases s with
  | nil => rfl
  | cons c s => simp [h c rfl]

theorem head?_dropWhile {p : Char → Bool} {s : Text} {c : Char} (h : (s.dropWhile p).head? = some c) :
    p c = false := by
  have := List.head?_dropWhile_not p s
  rw [h] at this
  simpa using this

theorem trim_eq_self_iff {s : Text} :
    trim s = s ↔ trimEnd s = s ∧ s.dropWhile isWhitespace = s := by
  refine ⟨fun h => ?_, fun h => by rw [trim, h.2, h.1]⟩
  -- neither of the two steps can shorten the text
  have hdrop : s.dropWhile isWhitespace = s := by
    have hsuffix := List.dropWhile_suffix isWhitespace (l := s)
    refine hsuffix.eq_of_length (le_antisymm hsuffix.length_le ?_)
    have hle := (List.rdropWhile_prefix isWhitespace (s.dropWhile isWhitespace)).length_le
    rwa [← trimEnd, ← trim, h] at hle
  exact ⟨by rwa [trim, hdrop] at h, hdrop⟩

theorem head?_of_isPrefix {s t : Text} {c : Char} (h : s <+: t) (hc : s.head? = some c) :
    t.head? = some c := by
  obtain ⟨r, rfl⟩ := h
  rw [List.head?_append, hc]
  rfl

theorem rsplitOnce_append {c : Char} {r : Text} (h : c ∉ r) (l : Text) :
    rsplitOnce c (l ++ c :: r) = some (l, r) := by
  have hr : (l ++ c :: r).reverse = r.reverse ++ c :: l.reverse := by simp
  rw [rsplitOnce, hr, splitOnce_append (by rwa [List.mem_reverse])]
  simp

theorem rsplitOnce_eq_some {c : Char} {s l r : Text} (h : rsplitOnce c s = some (l, r)) :
    s = l ++ c :: r ∧ c ∉ r := by
  rw [rsplitOnce, Option.map_eq_some_iff] at h
  obtain ⟨⟨a, b⟩, hsplit, heq⟩ := h
  cases heq
  obtain ⟨hs, hc⟩ := splitOnce_eq_some hsplit
  refine ⟨?_, by rwa [List.mem_reverse]⟩
  rw [← List.reverse_reverse s, hs]
  simp

theorem rfind_append {c : Char} {r : Text} (h : c ∉ r) (l : Text) :
    rfind c (l ++ c :: r) = some l.length := by
  rw [rfind, rsplitOnce_append h]
  rfl

/-! ### Authors -/

/-- An author whose header line is read back. -/
structure Author.Kept (a : Author) : Prop where
  /-- The name has no white space at its ends. -/
  name : trim a.name = a.name
  /-- The address has no opening bracket. -/
  email : '<' ∉ a.email
  /-- There is a time, -/
  timestamp_ne : a.timestamp ≠ []
  /-- without a space -/
  space : ' ' ∉ a.timestamp
  /-- or white space at its end. -/
  timestamp : trimEnd a.timestamp = a.timestamp
  /-- All of them fit on a line. -/
  line : '\n' ∉ a.name ∧ '\n' ∉ a.email ∧ '\n' ∉ a.timestamp

namespace Author

/-- **An author that is kept is read back.** -/
theorem parse_format {a : Author} (h : a.Kept) : parse a.format = .ok a := by
  obtain ⟨name, email, timestamp⟩ := a
  obtain ⟨hname, hemail, hne, hspace, htime, -⟩ := h
  dsimp only at hname hemail hne hspace htime
  have hname' := trim_eq_self_iff.1 hname
  -- what stands before the address
  let pre : Text := if name = [] then [] else name ++ [' ']
  have hpre : trimEnd pre = name := by
    by_cases hnil : name = []
    · simp [pre, hnil, trimEnd]
    · simp only [pre, if_neg hnil]
      rw [trimEnd, List.rdropWhile_concat_pos _ _ _ (by decide)]
      exact hname'.1
  have htrim : trim (format ⟨name, email, timestamp⟩) =
      (pre ++ '<' :: email ++ ['>']) ++ ' ' :: timestamp := by
    have hend : ∀ s : Text, trimEnd (s ++ timestamp) = s ++ timestamp := fun s =>
      trimEnd_append hne htime
    have hdrop : (format ⟨name, email, timestamp⟩).dropWhile isWhitespace =
        (pre ++ '<' :: email ++ ['>', ' ']) ++ timestamp := by
      by_cases hnil : name = []
      · have hfmt : format ⟨name, email, timestamp⟩ =
            ' ' :: '<' :: (email ++ ['>', ' '] ++ timestamp) := by
          simp [format, hnil]
        rw [hfmt, List.dropWhile_cons_of_pos (by decide), List.dropWhile_cons_of_neg (by decide)]
        simp [pre, hnil]
      · have hfmt : format ⟨name, email, timestamp⟩ =
            name ++ ' ' :: '<' :: (email ++ ['>', ' '] ++ timestamp) := by
          simp [format]
        have hhead : ∀ c, (name ++ ' ' :: '<' :: (email ++ ['>', ' '] ++ timestamp)).head? = some c →
            isWhitespace c = false := by
          intro c hc
          rw [List.head?_append_of_ne_nil _ hnil, ← hname'.2] at hc
          exact head?_dropWhile hc
        rw [hfmt, dropWhile_eq_self hhead]
        simp [pre, hnil]
    rw [trim, hdrop, hend]
    simp
  have hrest : trimEnd (pre ++ '<' :: email ++ ['>']) = pre ++ '<' :: email ++ ['>'] :=
    trimEnd_append (by simp) (by decide)
  have hlt : rfind '<' (pre ++ '<' :: email ++ ['>']) = some pre.length := by
    rw [List.append_assoc, List.cons_append]
    refine rfind_append ?_ pre
    rw [List.mem_append, not_or]
    exact ⟨hemail, by decide⟩
  have hgt : rfind '>' (pre ++ '<' :: email ++ ['>']) = some (pre ++ '<' :: email).length :=
    rfind_append List.not_mem_nil _
  rw [parse, htrim, rsplitOnce_append hspace]
  simp only [hrest, hlt, hgt]
  rw [if_neg (by simp), List.take_left]
  simp [hpre]

/-- **An author that was read from a line is kept.** -/
theorem kept_of_parse {s : Text} {a : Author} (h : parse s = .ok a) (hlf : '\n' ∉ s) : a.Kept := by
  unfold parse at h
  cases hsp : rsplitOnce ' ' (trim s) with
  | none => rw [hsp] at h; cases h
  | some p =>
    obtain ⟨rest, timestamp⟩ := p
    simp only [hsp] at h
    cases hlt : rsplitOnce '<' (trimEnd rest) with
    | none => simp only [rfind, hlt] at h; cases h
    | some q =>
      obtain ⟨pre, post⟩ := q
      cases hgt : rsplitOnce '>' (trimEnd rest) with
      | none => simp only [rfind, hlt, hgt] at h; cases h
      | some r =>
        obtain ⟨upto, after⟩ := r
        simp only [rfind, hlt, hgt, Option.map_some] at h
        split_ifs at h
        cases h
        obtain ⟨htrim, hspace⟩ := rsplitOnce_eq_some hsp
        obtain ⟨hpre, hpost⟩ := rsplitOnce_eq_some hlt
        have htake : (trimEnd rest).take pre.length = pre := by rw [hpre, List.take_left]
        have hlast : ∀ c, (trim s).getLast? = some c → isWhitespace c = false :=
          fun c => getLast?_trimEnd
        -- everything that is read stands in the trimmed line, the name at its beginning
        have hprefix : trimEnd pre <+: s.dropWhile isWhitespace :=
          (((List.rdropWhile_prefix _ _).trans (hpre ▸ List.prefix_append pre _)).trans
            (List.rdropWhile_prefix _ _)).trans
            ((htrim ▸ List.prefix_append rest _ : rest <+: trim s).trans
              (List.rdropWhile_prefix _ _))
        have hsub : ∀ {t : Text}, t ⊆ trim s → '\n' ∉ t := fun ht hmem =>
          hlf ((List.dropWhile_sublist _).subset ((List.rdropWhile_prefix _ _).subset (ht hmem)))
        have hrest : trimEnd rest ⊆ trim s := htrim ▸ List.Subset.trans
          (List.rdropWhile_prefix _ _).subset (List.subset_append_left _ _)
        refine ⟨?_, ?_, ?_, hspace, ?_, ?_, ?_, ?_⟩
        · rw [htake, trim_eq_self_iff]
          refine ⟨List.rdropWhile_idempotent _ _, dropWhile_eq_self fun c hc => ?_⟩
          exact head?_dropWhile (head?_of_isPrefix hprefix hc)
        · refine fun hmem => hpost ?_
          have hdrop : (trimEnd rest).drop (pre.length + 1) = post := by simp [hpre]
          rw [List.drop_take, hdrop] at hmem
          exact List.take_subset _ _ hmem
        · rintro rfl
          have := hlast ' ' (by rw [htrim, List.getLast?_concat])
          revert this
          decide
        · refine trimEnd_eq_self_iff.2 fun c hc => hlast c ?_
          rw [htrim, List.getLast?_append, List.getLast?_cons, hc]
          rfl
        · refine hsub (List.Subset.trans ?_ hrest)
          rw [htake, hpre]
          exact List.Subset.trans (List.rdropWhile_prefix _ _).subset (List.subset_append_left _ _)
        · exact hsub (List.Subset.trans (List.drop_subset _ _)
            (List.Subset.trans (List.take_subset _ _) hrest))
        · refine hsub ?_
          rw [htrim]
          exact List.Subset.trans (List.subset_cons_self _ _) (List.subset_append_right _ _)

end Author

/-! ### Messages -/

namespace Commit

variable (P : Platform)

/-- The associated data of a sealed message, `COMMIT_MSG_AAD`. -/
def commitMsgAad : Bytes := utf8 "omp-commit-message".toList

/-- A message as it stands in a commit: in plain, or sealed and in hexadecimal. -/
def messageField (key : Option Key) (message : Text) : Text :=
  let msg := message.rdropWhile (· == '\n')
  match key with
  | none => msg
  | some key =>
    let nonce := deriveNonce P key (utf8 "commit-msg".toList) (utf8 msg)
    encryptedMessagePrefix ++ hexEncode (aeadSeal P key nonce commitMsgAad (utf8 msg))

/-- The message of a body whose last line feeds are gone. -/
def openMessage (key : Option Key) (body : Text) : Except OmpError Text :=
  match stripPrefix encryptedMessagePrefix body with
  | none => .ok body
  | some hexSealed =>
    match key with
    | none =>
      .error (.unauthorized "commit message is encrypted but no commit_key supplied".toList)
    | some key => do
      let sealed ← hexDecodeField P hexSealed
      match aeadOpen P key commitMsgAad sealed with
      | .error _ => .error (.unauthorized
          "commit message did not open (wrong commit_key or tampered)".toList)
      | .ok opened => match fromUtf8 opened with
        | none => .error (.corrupt "decrypted commit message is not UTF-8".toList)
        | some message => .ok message

/-! ### Commits -/

/-- The header lines of a commit and the empty line after them. -/
def headerText (c : Commit) : Text :=
  ("tree ".toList ++ c.tree.hex) ++ '\n' ::
    ((c.parents.flatMap fun p => "parent ".toList ++ p.hex ++ ['\n']) ++
      ("author ".toList ++ c.author.format ++ ['\n', '\n']))

/-- `serialize_with_commit_key`. -/
def serializeWithCommitKey (key : Option Key) (c : Commit) : Bytes :=
  utf8 (c.headerText ++ (messageField P key c.message ++ ['\n']))

/-- `parse_with_commit_key`. -/
def parseWithCommitKey (key : Option Key) (bytes : Bytes) : Except OmpError Commit :=
  match fromUtf8 bytes with
  | none => .error (.corrupt "commit is not UTF-8".toList)
  | some s => do
    let (hs, body) ← readHeaders P (s.splitOn '\n') ⟨none, [], none⟩
    let message ← openMessage P key (body.rdropWhile (· == '\n'))
    match hs.tree, hs.author with
    | none, _ => .error (.corrupt "commit: missing tree".toList)
    | _, none => .error (.corrupt "commit: missing author".toList)
    | some tree, some author => .ok ⟨tree, hs.parents, author, message⟩

variable {P}

theorem parseWithCommitKey_utf8 (key : Option Key) (s : Text) :
    parseWithCommitKey P key (utf8 s) = (do
      let (hs, body) ← readHeaders P (s.splitOn '\n') ⟨none, [], none⟩
      let message ← openMessage P key (body.rdropWhile (· == '\n'))
      match hs.tree, hs.author with
      | none, _ => .error (.corrupt "commit: missing tree".toList)
      | _, none => .error (.corrupt "commit: missing author".toList)
      | some tree, some author => .ok ⟨tree, hs.parents, author, message⟩) := by
  rw [parseWithCommitKey, fromUtf8_utf8]

theorem headerText_append (c : Commit) (body : Text) :
    c.headerText ++ body = ("tree ".toList ++ c.tree.hex) ++ '\n' ::
      ((c.parents.flatMap fun p => "parent ".toList ++ p.hex ++ ['\n']) ++
        (("author ".toList ++ c.author.format) ++ '\n' :: ([] ++ '\n' :: body))) := by
  have hassoc : ∀ t ps a m : Text, (t ++ '\n' :: (ps ++ (a ++ ['\n', '\n']))) ++ m =
      t ++ '\n' :: (ps ++ (a ++ '\n' :: ([] ++ '\n' :: m))) := by
    intro t ps a m
    simp
  exact hassoc _ _ _ _

/-- Without a key the codec is the one of plaintext repositories. -/
theorem serializeWithCommitKey_none (c : Commit) :
    c.serializeWithCommitKey P none = c.serialize :=
  congrArg utf8 (headerText_append c _)

theorem parseWithCommitKey_none (bytes : Bytes) :
    parseWithCommitKey P none bytes = parse P bytes := by
  unfold parseWithCommitKey parse openMessage
  cases fromUtf8 bytes with
  | none => rfl
  | some s =>
    dsimp only
    refine congrArg _ (funext fun p => ?_)
    obtain ⟨hs, body⟩ := p
    cases stripPrefix encryptedMessagePrefix (body.rdropWhile (· == '\n')) with
    | none => rfl
    | some m => rfl

/-! ### Reading headers -/

section Headers

variable {hs hs' : Headers} {l body : Text} {ls : List Text}

theorem readHeaders_nil : readHeaders P ([] :: ls) hs = .ok (hs, joinWith '\n' ls) := by
  rw [readHeaders, if_pos rfl]

theorem readHeaders_cons (hl : l ≠ []) (h : readHeader P hs l = .ok hs') :
    readHeaders P (l :: ls) hs = readHeaders P ls hs' := by
  rw [readHeaders, if_neg hl, h]
  rfl

theorem readHeader_tree (h : Hash) :
    readHeader P hs ("tree ".toList ++ h.hex) = .ok { hs with tree := some h } := by
  rw [readHeader, stripPrefix_append]
  dsimp only
  rw [Hash.parse_hex]

/-- Lines with different first words. -/
theorem stripPrefix_of_ne {p q : Text} (hlen : ¬ p <+: q ∧ ¬ q <+: p) (r : Text) :
    stripPrefix p (q ++ r) = none := by
  rw [stripPrefix, if_neg]
  intro h
  rcases List.prefix_or_prefix_of_prefix h (List.prefix_append q r) with hp | hp
  · exact hlen.1 hp
  · exact hlen.2 hp

theorem readHeader_parent (h : Hash) :
    readHeader P hs ("parent ".toList ++ h.hex) = .ok { hs with parents := hs.parents ++ [h] } := by
  rw [readHeader, stripPrefix_of_ne (by decide), stripPrefix_append]
  dsimp only
  rw [Hash.parse_hex]

theorem readHeader_author (t : Text) :
    readHeader P hs ("author ".toList ++ t) =
      (Author.parse t).map fun a => { hs with author := some a } := by
  rw [readHeader, stripPrefix_of_ne (by decide)]
  simp only [stripPrefix_of_ne (show ¬ "parent ".toList <+: "author ".toList ∧
    ¬ "author ".toList <+: "parent ".toList by decide), stripPrefix_append]

theorem stripPrefix_eq_some {p t r : Text} : stripPrefix p t = some r ↔ t = p ++ r := by
  rw [stripPrefix]
  split_ifs with h
  · obtain ⟨u, rfl⟩ := h
    simp
  · constructor
    · intro hnone
      cases hnone
    · rintro rfl
      exact absurd (List.prefix_append p r) h

/-- What a header line can be, and what it gives. -/
theorem readHeader_cases (h : readHeader P hs l = .ok hs') :
    (∃ rest h, l = "tree ".toList ++ rest ∧ Hash.parse P rest = .ok h ∧
      hs' = { hs with tree := some h }) ∨
    (∃ rest h, l = "parent ".toList ++ rest ∧ Hash.parse P rest = .ok h ∧
      hs' = { hs with parents := hs.parents ++ [h] }) ∨
    ∃ rest a, l = "author ".toList ++ rest ∧ Author.parse rest = .ok a ∧
      hs' = { hs with author := some a } := by
  unfold readHeader at h
  cases ht : stripPrefix "tree ".toList l with
  | some rest =>
    rw [ht] at h
    cases hp : Hash.parse P rest with
    | error e => simp only [hp] at h; cases h
    | ok g =>
      simp only [hp, Except.ok.injEq] at h
      exact .inl ⟨rest, g, stripPrefix_eq_some.1 ht, hp, h.symm⟩
  | none =>
    rw [ht] at h
    cases hpar : stripPrefix "parent ".toList l with
    | some rest =>
      simp only [hpar] at h
      cases hp : Hash.parse P rest with
      | error e => simp only [hp] at h; cases h
      | ok g =>
        simp only [hp, Except.ok.injEq] at h
        exact .inr (.inl ⟨rest, g, stripPrefix_eq_some.1 hpar, hp, h.symm⟩)
    | none =>
      simp only [hpar] at h
      cases hau : stripPrefix "author ".toList l with
      | none => simp only [hau] at h; cases h
      | some rest =>
        simp only [hau] at h
        cases hp : Author.parse rest with
        | error e => rw [hp] at h; cases h
        | ok a =>
          rw [hp] at h
          cases h
          exact .inr (.inr ⟨rest, a, stripPrefix_eq_some.1 hau, hp, rfl⟩)

/-- Parent lines give their hashes in order. -/
theorem readHeaders_parents (parents : List Hash) :
    readHeaders P ((parents.map fun p => "parent ".toList ++ p.hex) ++ ls) hs =
      readHeaders P ls { hs with parents := hs.parents ++ parents } := by
  induction parents generalizing hs with
  | nil => simp
  | cons p parents ih =>
    rw [List.map_cons, List.cons_append,
      readHeaders_cons (List.append_ne_nil_of_left_ne_nil (by decide) _) (readHeader_parent p), ih]
    simp

/-- The authors that were read from header lines are kept. -/
theorem kept_of_readHeaders (hls : ∀ l ∈ ls, '\n' ∉ l) (hkept : ∀ a, hs.author = some a → a.Kept)
    (h : readHeaders P ls hs = .ok (hs', body)) : ∀ a, hs'.author = some a → a.Kept := by
  induction ls generalizing hs with
  | nil =>
    cases h
    exact hkept
  | cons l ls ih =>
    obtain ⟨hl, hls⟩ := List.forall_mem_cons.1 hls
    rw [readHeaders] at h
    split_ifs at h
    · cases h
      exact hkept
    · obtain ⟨hs₁, hline, h⟩ := except_bind_eq_ok.1 h
      refine ih hls (fun a ha => ?_) h
      rcases readHeader_cases hline with ⟨_, _, -, -, rfl⟩ | ⟨_, _, -, -, rfl⟩ | ⟨rest, b, rfl, hb, rfl⟩
      · exact hkept a ha
      · exact hkept a ha
      · cases ha
        exact Author.kept_of_parse hb fun hmem => hl (List.mem_append_right _ hmem)

end Headers

/-! ### The round trip -/

/-- The lines of a serialized commit before that of its author. -/
theorem splitOn_headerText_append (c : Commit) (body : Text) :
    (c.headerText ++ body).splitOn '\n' =
      ("tree ".toList ++ c.tree.hex) :: ((c.parents.map fun p => "parent ".toList ++ p.hex) ++
        ("author ".toList ++ c.author.format ++ '\n' :: '\n' :: body).splitOn '\n') := by
  have hline : ∀ {w : Text} (h : Hash), '\n' ∉ w → '\n' ∉ w ++ h.hex := fun h hw => by
    rw [List.mem_append, not_or]
    exact ⟨hw, Hash.not_mem_hex (by decide)⟩
  have hparents : ∀ (ps : List Hash) (r : Text),
      ((ps.flatMap fun p => "parent ".toList ++ p.hex ++ ['\n']) ++ r).splitOn '\n' =
        (ps.map fun p => "parent ".toList ++ p.hex) ++ r.splitOn '\n' := by
    intro ps r
    induction ps with
    | nil => rfl
    | cons p ps ih =>
      rw [List.flatMap_cons, List.append_assoc, List.append_assoc, List.singleton_append,
        splitOn_append_cons (hline p (by decide)), ih]
      rfl
  rw [headerText_append, splitOn_append_cons (hline _ (by decide)), hparents]
  rfl

/-- The lines of a serialized commit. -/
theorem splitOn_headerText {c : Commit} (hlf : '\n' ∉ c.author.format) (body : Text) :
    (c.headerText ++ body).splitOn '\n' =
      ("tree ".toList ++ c.tree.hex) :: ((c.parents.map fun p => "parent ".toList ++ p.hex) ++
        ("author ".toList ++ c.author.format) :: [] :: body.splitOn '\n') := by
  have hauthor : '\n' ∉ "author ".toList ++ c.author.format := by
    rw [List.mem_append, not_or]
    exact ⟨by decide, hlf⟩
  have hempty : ('\n' :: body).splitOn '\n' = [] :: body.splitOn '\n' :=
    splitOn_append_cons (l := []) List.not_mem_nil body
  rw [splitOn_headerText_append, splitOn_append_cons hauthor, hempty]

/-- **The headers of a serialized commit**, when its author is kept. -/
theorem readHeaders_serialize {c : Commit} (h : c.author.Kept) (body : Text) :
    readHeaders P ((c.headerText ++ body).splitOn '\n') ⟨none, [], none⟩ =
      .ok (⟨some c.tree, c.parents, some c.author⟩, body) := by
  have hlf : '\n' ∉ c.author.format := by
    obtain ⟨hname, hemail, htime⟩ := h.line
    simp only [Author.format, List.mem_append, not_or]
    exact ⟨⟨⟨⟨hname, by decide⟩, hemail⟩, by decide⟩, htime⟩
  have hne : ∀ {w t : Text}, w ≠ [] → w ++ t ≠ [] := fun hw => List.append_ne_nil_of_left_ne_nil hw _
  have hauthor : readHeader P ⟨some c.tree, c.parents, none⟩ ("author ".toList ++ c.author.format) =
      .ok ⟨some c.tree, c.parents, some c.author⟩ := by
    rw [readHeader_author, Author.parse_format h]
    rfl
  rw [splitOn_headerText hlf, readHeaders_cons (hne (by decide)) (readHeader_tree c.tree),
    readHeaders_parents, List.nil_append, readHeaders_cons (hne (by decide)) hauthor,
    readHeaders_nil, joinWith_splitOn]

/-- A sealed message does not end in a line feed. -/
theorem rdropWhile_messageField (key : Key) (message : Text) :
    (messageField P (some key) message ++ ['\n']).rdropWhile (· == '\n') =
      messageField P (some key) message := by
  rw [List.rdropWhile_concat_pos _ _ _ (by decide), List.rdropWhile_eq_self_iff]
  intro hne
  have hmem := List.getLast_mem hne
  rw [beq_iff_eq]
  intro heq
  rw [heq] at hmem
  rcases List.mem_append.1 hmem with h | h
  · revert h
    decide
  · cases hexDigit_mem h

/-- A message is read back from its field, unless it passes for a sealed one. -/
theorem openMessage_messageField {key : Option Key} (hP : key ≠ none → P.AeadLawful)
    (message : Text) :
    openMessage P key ((messageField P key message ++ ['\n']).rdropWhile (· == '\n')) =
      if key = none ∧ encryptedMessagePrefix <+: message then
        .error (.unauthorized "commit message is encrypted but no commit_key supplied".toList)
      else .ok (message.rdropWhile (· == '\n')) := by
  cases key with
  | none =>
    have hpre : encryptedMessagePrefix <+: message.rdropWhile (· == '\n') ↔
        encryptedMessagePrefix <+: message := by
      have hlast : encryptedMessagePrefix = "!encrypted-message v1".toList ++ [' '] := by decide
      rw [hlast]
      exact prefix_rdropWhile_iff (by decide)
    have hfield : (messageField P none message).rdropWhile (· == '\n') =
        message.rdropWhile (· == '\n') := List.rdropWhile_idempotent _ _
    rw [List.rdropWhile_concat_pos _ _ _ (by decide), hfield, openMessage, stripPrefix]
    simp only [hpre, true_and]
    split_ifs <;> rfl
  | some key =>
    rw [rdropWhile_messageField, messageField]
    generalize deriveNonce P key _ _ = nonce
    generalize message.rdropWhile (· == '\n') = msg
    rw [openMessage, stripPrefix_append]
    simp only [hexDecodeField_hexEncode, bind, Except.bind, aeadOpen_aeadSeal (hP (by simp)),
      fromUtf8_utf8]
    simp

/-- **When a commit is read back as it was**, up to line feeds at the end of its message: its author
is kept, and a message in plain does not start like a sealed one. -/
theorem commit_round_trip_iff {key : Option Key} (hP : key ≠ none → P.AeadLawful) (c : Commit) :
    parseWithCommitKey P key (c.serializeWithCommitKey P key) =
        .ok { c with message := c.message.rdropWhile (· == '\n') } ↔
      c.author.Kept ∧ ¬ (key = none ∧ encryptedMessagePrefix <+: c.message) := by
  rw [serializeWithCommitKey, parseWithCommitKey_utf8]
  constructor
  · intro h
    obtain ⟨⟨hs, body⟩, hheaders, h⟩ := except_bind_eq_ok.1 h
    obtain ⟨message, hmessage, h⟩ := except_bind_eq_ok.1 h
    have hauthor : hs.author = some c.author := by
      split at h
      · cases h
      · cases h
      · next ha =>
        rw [Except.ok.injEq, mk.injEq] at h
        rw [ha, h.2.2.1]
    have hkept : c.author.Kept := kept_of_readHeaders (fun _ => not_mem_of_mem_splitOn)
      (fun _ h => by cases h) hheaders c.author hauthor
    refine ⟨hkept, fun hsealed => ?_⟩
    rw [readHeaders_serialize hkept] at hheaders
    cases hheaders
    rw [openMessage_messageField hP, if_pos hsealed] at hmessage
    cases hmessage
  · rintro ⟨hkept, hplain⟩
    rw [readHeaders_serialize hkept]
    simp only [bind, Except.bind, openMessage_messageField hP, if_neg hplain]

/-- A first commit by the given author. -/
def demoCommit (name : Text) : Commit :=
  ⟨Hash.ofNat 1, [], ⟨name, "eve@local".toList, "2026-04-22T00:00:00Z".toList⟩, "add a".toList⟩

theorem commit_round_trip_iff_demo :
    parseWithCommitKey demo none ((demoCommit "eve".toList).serializeWithCommitKey demo none) =
      .ok (demoCommit "eve".toList) :=
  (commit_round_trip_iff (fun h => absurd rfl h) (demoCommit "eve".toList)).2
    ⟨⟨by decide +kernel, by decide +kernel, by decide +kernel, by decide +kernel,
      by decide +kernel, by decide +kernel⟩, by decide +kernel⟩

/-- A name that ends the author line and goes on with a line for a parent. -/
def forgedAuthor : Text :=
  "eve <eve> t\nparent ".toList ++ (Hash.ofNat 2).hex ++ "\nauthor eve".toList

/-- **An author name adds a parent.** -/
theorem forged_parent :
    ∃ d, parseWithCommitKey demo none
        ((demoCommit forgedAuthor).serializeWithCommitKey demo none) = .ok d ∧
      d.parents = [Hash.ofNat 2] ∧ (demoCommit forgedAuthor).parents = [] := by
  have hparents : (parseWithCommitKey demo none
      ((demoCommit forgedAuthor).serializeWithCommitKey demo none)).toOption.map parents =
        some [Hash.ofNat 2] := by decide +kernel
  cases hd : parseWithCommitKey demo none
      ((demoCommit forgedAuthor).serializeWithCommitKey demo none) with
  | error e => rw [hd] at hparents; cases hparents
  | ok d =>
    rw [hd] at hparents
    exact ⟨d, rfl, Option.some.inj hparents, rfl⟩

end Commit

end Omp
