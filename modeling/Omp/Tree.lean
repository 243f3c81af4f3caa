import Omp.Store

/-!
# Tree objects

A tree object is an ordered map from names to entries, stored as one line per entry:
`<mode> <hash>\t<name>\n`.  With a path key the body starts with a marker line and the names
are sealed with the AEAD under that key and written in hexadecimal.

The body is read back with `str::lines`, which also drops a carriage return before a line
feed.  Nothing stops a name from holding a line feed or from ending in a carriage return, so
the plaintext form does not round-trip on every tree (`CleanName` says on which names it does).

## Main definitions

* `Mode`, `Entry`, `Tree` : the in-memory tree, whose names are all valid.
* `Tree.serializeWithPathKey`, `Tree.parseWithPathKey` : the codec.

## Main results

* `Tree.parse_serialize` : reading a tree back gives it, for clean names in the plaintext form
  and for all names in the sealed form.
* `Tree.serialize_injective` : such trees with the same body are equal.
-/

namespace Omp

open Lib

/-! ### Modes and entries -/

/-- What a tree entry points at. -/
inductive Mode where
  | blob | manifest | tree
  deriving DecidableEq

namespace Mode

/-- The spelling of a mode in a tree body. -/
def asStr : Mode → Text
  | blob => "blob".toList
  | manifest => "manifest".toList
  | tree => "tree".toList

/-- `Mode::parse`. -/
def parse (s : Text) : Except OmpError Mode :=
  if s = "blob".toList then .ok blob
  else if s = "manifest".toList then .ok manifest
  else if s = "tree".toList then .ok tree
  else .error (.corrupt ("unknown tree mode: ".toList ++ s))

@[simp] theorem parse_asStr (m : Mode) : parse m.asStr = .ok m := by
  cases m <;> decide

theorem not_mem_asStr {m : Mode} {c : Char} (hc : c.isAlpha = false) : c ∉ m.asStr := by
  have key : ∀ c ∈ m.asStr, c.isAlpha = true :=
    List.all_eq_true.1 (by cases m <;> decide)
  intro hmem
  rw [key c hmem] at hc
  cases hc

theorem asStr_ne_nil (m : Mode) : m.asStr ≠ [] := by
  cases m <;> decide

end Mode

/-- An entry of a tree. -/
structure Entry where
  /-- What kind of object it points at. -/
  mode : Mode
  /-- The address of that object. -/
  hash : Hash
  deriving DecidableEq

/-! ### Names -/

/-- A name `validate_name` accepts. -/
def ValidName (name : Text) : Prop :=
  name ≠ [] ∧ '/' ∉ name ∧ Char.ofNat 0 ∉ name ∧ name ≠ ".".toList ∧ name ≠ "..".toList

instance (name : Text) : Decidable (ValidName name) :=
  inferInstanceAs (Decidable (_ ∧ _ ∧ _ ∧ _ ∧ _))

/-- A name that survives the plaintext form: no line feed, and no carriage return at the end. -/
def CleanName (name : Text) : Prop := '\n' ∉ name ∧ name.getLast? ≠ some '\r'

instance (name : Text) : Decidable (CleanName name) :=
  inferInstanceAs (Decidable (_ ∧ _))

variable (P : Platform)

/-- The error of `validate_name` on a name it rejects. -/
def nameError (name : Text) : OmpError :=
  if name = [] then .invalidPath "empty tree entry name".toList
  else .invalidPath ("invalid tree entry name: ".toList ++ P.debugStr name)

/-! ### Trees -/

/-- An in-memory tree object. -/
structure Tree where
  /-- The entries by name. -/
  entries : TextMap Entry
  /-- Every name was validated. -/
  valid : ∀ name ∈ entries, ValidName name

namespace Tree

/-- `Tree::new`. -/
def new : Tree := ⟨∅, fun _ h => absurd h Std.ExtTreeMap.not_mem_empty⟩

/-- `Tree::is_empty`. -/
def isEmpty (t : Tree) : Bool := t.entries.isEmpty

/-- `Tree::get`. -/
def get (t : Tree) (name : Text) : Option Entry := t.entries[name]?

/-- `Tree::insert`. -/
def insert (t : Tree) (name : Text) (entry : Entry) : Except OmpError Tree :=
  if h : ValidName name then
    .ok ⟨t.entries.insert name entry, fun n hn => by
      rcases Std.ExtTreeMap.mem_insert.1 hn with heq | hmem
      · rwa [← Std.compare_eq_iff_eq.1 heq]
      · exact t.valid n hmem⟩
  else .error (nameError P name)

/-- `Tree::remove`. -/
def remove (t : Tree) (name : Text) : Tree :=
  ⟨t.entries.erase name, fun n hn => t.valid n (Std.ExtTreeMap.mem_of_mem_erase hn)⟩

variable {P}

@[ext] theorem ext {t u : Tree} (h : ∀ name, t.get name = u.get name) : t = u := by
  obtain ⟨m, hm⟩ := t
  obtain ⟨n, hn⟩ := u
  obtain rfl : m = n := Std.ExtTreeMap.ext_getElem? h
  rfl

@[simp] theorem get_new (name : Text) : new.get name = none := by
  simp [get, new]

theorem validName_of_get {t : Tree} {name : Text} {e : Entry} (h : t.get name = some e) :
    ValidName name := by
  refine t.valid name ?_
  rw [Std.ExtTreeMap.mem_iff_isSome_getElem?]
  simp only [get] at h
  simp [h]

theorem insert_eq_ok {t u : Tree} {name : Text} {e : Entry} (h : t.insert P name e = .ok u) :
    ValidName name ∧ ∀ n, u.get n = if name = n then some e else t.get n := by
  unfold insert at h
  split_ifs at h with hv
  rw [Except.ok.injEq] at h
  subst h
  exact ⟨hv, fun n => TextMap.getElem?_insert _ _ _ _⟩

theorem insert_of_valid {name : Text} (h : ValidName name) (t : Tree) (e : Entry) :
    ∃ u, t.insert P name e = .ok u ∧
      ∀ n, u.get n = if name = n then some e else t.get n := by
  refine ⟨_, dif_pos h, fun n => TextMap.getElem?_insert _ _ _ _⟩

theorem insert_of_not_valid {name : Text} (h : ¬ ValidName name) (t : Tree) (e : Entry) :
    t.insert P name e = .error (nameError P name) := dif_neg h

theorem get_remove (t : Tree) (name n : Text) :
    (t.remove name).get n = if name = n then none else t.get n :=
  TextMap.getElem?_erase _ _ _

theorem mem_toList {t : Tree} {name : Text} {e : Entry} :
    (name, e) ∈ t.entries.toList ↔ t.get name = some e := TextMap.mem_toList

theorem isEmpty_iff {t : Tree} : t.isEmpty = true ↔ ∀ name, t.get name = none := by
  rw [isEmpty, Std.ExtTreeMap.isEmpty_iff]
  refine ⟨fun h name => by simp [get, h], fun h => ?_⟩
  exact Std.ExtTreeMap.ext_getElem? fun name => by simpa [get] using h name

theorem exists_get_of_not_isEmpty {t : Tree} (h : t.isEmpty = false) :
    ∃ name e, t.get name = some e := by
  by_contra hcon
  push Not at hcon
  have : t.isEmpty = true := isEmpty_iff.2 fun name => by
    cases hg : t.get name with
    | none => rfl
    | some e => exact absurd hg (hcon name e)
  rw [h] at this
  cases this

end Tree

/-! ### Sealed names -/

/-- `aead::seal` : algorithm byte, nonce, ciphertext and tag. -/
def aeadSeal (key : Key) (nonce : { bs : Bytes // bs.length = 12 }) (aad plaintext : Bytes) :
    Bytes :=
  1 :: (nonce.1 ++ P.encrypt key nonce aad plaintext)

/-- `aead::open`; errors are the `Display` texts of `CryptoError`. -/
def aeadOpen (key : Key) (aad sealed : Bytes) : Except Text Bytes :=
  if sealed.length < 29 then
    .error ("invalid input: sealed blob too short: ".toList ++ decimal sealed.length ++
      " bytes".toList)
  else if sealed.head? ≠ some 1 then
    .error ("invalid input: unknown algorithm tag: 0x".toList ++ hexEncode (sealed.take 1))
  else match P.decrypt key ((sealed.drop 1).take 12) aad (sealed.drop 13) with
    | some plaintext => .ok plaintext
    | none => .error "AEAD error: decrypt: aead::Error".toList

/-- The cipher opens what it sealed, and appends a tag of sixteen bytes. -/
def Platform.AeadLawful : Prop :=
  ∀ key nonce aad plaintext,
    P.decrypt key nonce aad (P.encrypt key nonce aad plaintext) = some plaintext ∧
      (P.encrypt key nonce aad plaintext).length = plaintext.length + 16

variable {P} in
/-- What the cipher opens again is opened in its frame. -/
theorem aeadOpen_of_decrypt {key : Key} {nonce : { bs : Bytes // bs.length = 12 }}
    {aad plaintext : Bytes}
    (hdec : P.decrypt key nonce aad (P.encrypt key nonce aad plaintext) = some plaintext)
    (hlen : (P.encrypt key nonce aad plaintext).length = plaintext.length + 16) :
    aeadOpen P key aad (aeadSeal P key nonce aad plaintext) = .ok plaintext := by
  have hn := nonce.2
  have hlong : ¬ (aeadSeal P key nonce aad plaintext).length < 29 := by
    rw [aeadSeal, List.length_cons, List.length_append]
    omega
  have hnonce : ((aeadSeal P key nonce aad plaintext).drop 1).take 12 = nonce.1 := by
    simp [aeadSeal, ← hn]
  have hct : (aeadSeal P key nonce aad plaintext).drop 13 = P.encrypt key nonce aad plaintext := by
    simp [aeadSeal, ← hn]
  rw [aeadOpen, if_neg hlong, if_neg (by simp [aeadSeal]), hnonce, hct, hdec]

variable {P} in
theorem aeadOpen_aeadSeal (hP : P.AeadLawful) (key : Key)
    (nonce : { bs : Bytes // bs.length = 12 }) (aad plaintext : Bytes) :
    aeadOpen P key aad (aeadSeal P key nonce aad plaintext) = .ok plaintext :=
  aeadOpen_of_decrypt (hP key nonce aad plaintext).1 (hP key nonce aad plaintext).2

variable {P} in
/-- Only what the cipher opens is opened in its frame. -/
theorem decrypt_of_aeadOpen {key : Key} {aad sealed plaintext : Bytes}
    (h : aeadOpen P key aad sealed = .ok plaintext) :
    ∃ nonce ciphertext, P.decrypt key nonce aad ciphertext = some plaintext := by
  unfold aeadOpen at h
  split_ifs at h
  cases hdec : P.decrypt key ((sealed.drop 1).take 12) aad (sealed.drop 13) with
  | none =>
    rw [hdec] at h
    cases h
  | some opened =>
    rw [hdec] at h
    cases h
    exact ⟨_, _, hdec⟩

/-- The associated data of a sealed name, `TREE_NAME_AAD`. -/
def treeNameAad : Bytes := utf8 "omp-tree-name".toList

/-- `derive_nonce` : twelve bytes of HKDF over a label and the data. -/
def deriveNonce (key : Key) (label data : Bytes) : { bs : Bytes // bs.length = 12 } :=
  P.hkdf12 key (label ++ data)

/-- A name as it stands in a tree body: in plain, or sealed and in hexadecimal. -/
def nameField (key : Option Key) (name : Text) : Text :=
  match key with
  | none => name
  | some key =>
    let nonce := deriveNonce P key (utf8 "tree-name".toList) (utf8 name)
    hexEncode (aeadSeal P key nonce treeNameAad (utf8 name))

/-- `hex::decode`. -/
def hexDecodeField (s : Text) : Except OmpError Bytes :=
  if (utf8 s).length % 2 ≠ 0 then
    .error (.corrupt ("hex string has odd length: ".toList ++ decimal (utf8 s).length))
  else match hexDecode (utf8 s) with
    | .ok bs => .ok bs
    | .error b =>
      .error (.corrupt ("invalid hex char: ".toList ++ P.debugChar (Char.ofNat b.toNat)))

variable {P} in
theorem hexDecodeField_hexEncode (bs : Bytes) : hexDecodeField P (hexEncode bs) = .ok bs := by
  have hlen := length_utf8_hexEncode bs
  rw [hexDecodeField, if_neg (by omega), hexDecode_hexEncode]

/-- The start of the errors about one line of a tree body. -/
def treeLine (line : Nat) : Text := "tree line ".toList ++ decimal line ++ ": ".toList

/-- Read a name field back; `key` is given when the names of the body are sealed. -/
def readNameField (key : Option Key) (line : Nat) (field : Text) : Except OmpError Text :=
  match key with
  | none => .ok field
  | some key =>
    match hexDecodeField P field with
    | .error e => .error e
    | .ok sealed =>
      match aeadOpen P key treeNameAad sealed with
      | .error _ => .error (.unauthorized (treeLine line ++
          "sealed name did not open (wrong path_key or tampered)".toList))
      | .ok opened =>
        match fromUtf8 opened with
        | none => .error (.corrupt (treeLine line ++ "decrypted name is not UTF-8".toList))
        | some name => .ok name

/-! ### The codec -/

namespace Tree

/-- One line of a tree body. -/
def line (e : Entry) (field : Text) : Text :=
  e.mode.asStr ++ ' ' :: (e.hash.hex ++ '\t' :: (field ++ ['\n']))

/-- `ENCRYPTED_TREE_MARKER`. -/
def marker : Text := "!encrypted-path v1".toList

/-- The lines of the entries, in order. -/
def bodyLines (key : Option Key) (entries : List (Text × Entry)) : Text :=
  entries.flatMap fun p => line p.2 (nameField P key p.1)

/-- `Tree::serialize_with_path_key`. -/
def serializeWithPathKey (key : Option Key) (t : Tree) : Bytes :=
  let body := bodyLines P key t.entries.toList
  utf8 (if key.isSome then marker ++ '\n' :: body else body)

/-- Read one line of a tree body. -/
def parseLine (key : Option Key) (n : Nat) (l : Text) : Except OmpError (Text × Entry) :=
  match splitOnce '\t' l with
  | none => .error (.corrupt (treeLine n ++ "missing tab".toList))
  | some (head, field) =>
    match splitOnce ' ' head with
    | none => .error (.corrupt (treeLine n ++ "missing space".toList))
    | some (modeStr, hashStr) => do
      let mode ← Mode.parse modeStr
      let hash ← (Hash.parse P hashStr).mapError fun e =>
        .corrupt (treeLine n ++ "bad hash: ".toList ++ e)
      let name ← readNameField P key n field
      .ok (name, ⟨mode, hash⟩)

/-- Read the lines of a tree body, of which the first has number `n`; empty lines count. -/
def parseLines (key : Option Key) : Nat → List Text → Tree → Except OmpError Tree
  | _, [], out => .ok out
  | n, l :: ls, out =>
    if l = [] then parseLines key (n + 1) ls out
    else do
      let (name, e) ← parseLine P key n l
      let out ← out.insert P name e
      parseLines key (n + 1) ls out

/-- `Tree::parse_with_path_key`. -/
def parseWithPathKey (key : Option Key) (bytes : Bytes) : Except OmpError Tree :=
  match fromUtf8 bytes with
  | none => .error (.corrupt "tree is not UTF-8".toList)
  | some s =>
    if (lines s).head? = some marker then
      match key with
      | none =>
        .error (.unauthorized "tree has encrypted names but no path_key supplied".toList)
      | some key => parseLines P (some key) 2 (lines s).tail new
    else parseLines P none 1 (lines s) new

/-! ### The round trip -/

variable {P}

/-- A name the codec keeps: any under a key, a clean one in the plaintext form. -/
def NameKept (key : Option Key) (name : Text) : Prop := key = none → CleanName name

instance (key : Option Key) (name : Text) : Decidable (NameKept key name) :=
  inferInstanceAs (Decidable (_ → _))

theorem readNameField_nameField {key : Option Key} (hP : key ≠ none → P.AeadLawful)
    (name : Text) (n : Nat) : readNameField P key n (nameField P key name) = .ok name := by
  cases key with
  | none => rfl
  | some key =>
    rw [nameField, readNameField]
    generalize deriveNonce P key _ _ = nonce
    simp only [hexDecodeField_hexEncode, aeadOpen_aeadSeal (hP (by simp)), fromUtf8_utf8]

theorem cleanName_nameField {key : Option Key} {name : Text} (hname : NameKept key name) :
    CleanName (nameField P key name) := by
  cases key with
  | none => exact hname rfl
  | some key =>
    refine ⟨fun hmem => ?_, fun hlast => ?_⟩
    · cases hexDigit_mem hmem
    · cases hexDigit_mem (List.mem_of_getLast? hlast)

/-- The characters of an entry's line up to the name field. -/
def lineHead (e : Entry) : Text := e.mode.asStr ++ ' ' :: e.hash.hex

theorem line_eq (e : Entry) (field : Text) :
    line e field = (lineHead e ++ '\t' :: field) ++ '\n' :: [] := by
  simp [line, lineHead]

theorem not_mem_lineHead {e : Entry} {c : Char} (hc : c.isAlphanum = false) (hs : c ≠ ' ') :
    c ∉ lineHead e := by
  simp only [lineHead, List.mem_append, List.mem_cons, not_or]
  refine ⟨Mode.not_mem_asStr ?_, hs, Hash.not_mem_hex hc⟩
  simp only [Char.isAlphanum, Bool.or_eq_false_iff] at hc
  exact hc.1

/-- A line holds no line feed, apart from the one it ends with. -/
theorem lf_not_mem_line {e : Entry} {field : Text} (h : CleanName field) :
    '\n' ∉ lineHead e ++ '\t' :: field := by
  simp only [List.mem_append, List.mem_cons, not_or]
  exact ⟨not_mem_lineHead rfl (by decide), by decide, h.1⟩

theorem stripCr_line {e : Entry} {field : Text} (h : CleanName field) :
    stripCr (lineHead e ++ '\t' :: field) = lineHead e ++ '\t' :: field := by
  refine stripCr_of_ne ?_
  rw [List.getLast?_append]
  cases field with
  | nil => simp
  | cons c cs =>
    rw [List.getLast?_cons_cons]
    cases hl : (c :: cs).getLast? with
    | none => simp at hl
    | some d =>
      have := h.2
      rw [hl] at this
      simpa using this

/-- The lines of a body: that of its first entry, then the others. -/
theorem lines_bodyLines_cons {key : Option Key} {name : Text} (hname : NameKept key name)
    (e : Entry) (l : List (Text × Entry)) :
    lines (bodyLines P key ((name, e) :: l)) =
      (lineHead e ++ '\t' :: nameField P key name) :: lines (bodyLines P key l) := by
  have hclean : CleanName (nameField P key name) := cleanName_nameField hname
  rw [bodyLines, List.flatMap_cons, line_eq, List.append_assoc, List.cons_append,
    List.nil_append, lines_cons_lf (lf_not_mem_line hclean), stripCr_line hclean]
  rfl

theorem parseLine_line {key : Option Key} (hP : key ≠ none → P.AeadLawful) (name : Text)
    (e : Entry) (n : Nat) :
    parseLine P key n (lineHead e ++ '\t' :: nameField P key name) = .ok (name, e) := by
  have hspace : ' ' ∉ e.mode.asStr := Mode.not_mem_asStr rfl
  have hhead : splitOnce ' ' (lineHead e) = some (e.mode.asStr, e.hash.hex) :=
    splitOnce_append hspace _
  rw [parseLine, splitOnce_append (not_mem_lineHead rfl (by decide))]
  simp only [hhead, Mode.parse_asStr, Hash.parse_hex, readNameField_nameField hP]
  rfl

/-- Reading the lines of a body inserts its entries one after the other. -/
theorem parseLines_bodyLines {key : Option Key} (hP : key ≠ none → P.AeadLawful)
    {l : List (Text × Entry)} (hl : ∀ p ∈ l, ValidName p.1 ∧ NameKept key p.1) (n : Nat)
    (out : Tree) :
    ∃ u, parseLines P key n (lines (bodyLines P key l)) out = .ok u ∧
      u.entries = l.foldl (fun m p => m.insert p.1 p.2) out.entries := by
  induction l generalizing n out with
  | nil => exact ⟨out, rfl, rfl⟩
  | cons p l ih =>
    obtain ⟨name, e⟩ := p
    obtain ⟨hvalid, hkept⟩ := hl _ List.mem_cons_self
    obtain ⟨u, hu, hentries⟩ := ih (fun q hq => hl q (List.mem_cons_of_mem _ hq)) (n + 1)
      ⟨out.entries.insert name e, fun m hm => by
        rcases Std.ExtTreeMap.mem_insert.1 hm with heq | hmem
        · rwa [← Std.compare_eq_iff_eq.1 heq]
        · exact out.valid m hmem⟩
    refine ⟨u, ?_, hentries⟩
    rw [lines_bodyLines_cons hkept, parseLines, if_neg (by simp), parseLine_line hP]
    simp only [bind, Except.bind, insert, dif_pos hvalid]
    exact hu

/-- The first line of a plaintext body is not the marker. -/
theorem head_lines_bodyLines {l : List (Text × Entry)} (hl : ∀ p ∈ l, CleanName p.1) :
    (lines (bodyLines P none l)).head? ≠ some marker := by
  cases l with
  | nil => exact nofun
  | cons p l =>
    obtain ⟨name, e⟩ := p
    rw [lines_bodyLines_cons fun _ => hl _ List.mem_cons_self, List.head?_cons]
    intro heq
    have hmark : marker.head? = some '!' := by decide +kernel
    obtain ⟨c, cs, hc⟩ := List.exists_cons_of_ne_nil (Mode.asStr_ne_nil e.mode)
    rw [← Option.some.inj heq, lineHead, hc] at hmark
    obtain rfl : c = '!' := by simpa using hmark
    exact Mode.not_mem_asStr (m := e.mode) (c := '!') rfl (hc ▸ List.mem_cons_self)

/-- **Reading a tree back gives it**, with any key under which all its names are kept. -/
theorem parse_serialize {key : Option Key} (hP : key ≠ none → P.AeadLawful) {t : Tree}
    (hname : ∀ name e, t.get name = some e → NameKept key name) :
    parseWithPathKey P key (t.serializeWithPathKey P key) = .ok t := by
  have hl : ∀ p ∈ t.entries.toList, ValidName p.1 ∧ NameKept key p.1 := by
    rintro ⟨name, e⟩ hp
    have hget : t.get name = some e := TextMap.mem_toList.1 hp
    exact ⟨validName_of_get hget, hname name e hget⟩
  have hdone : ∀ n : Nat,
      parseLines P key n (lines (bodyLines P key t.entries.toList)) new = .ok t := by
    intro n
    obtain ⟨u, hu, hentries⟩ := parseLines_bodyLines hP hl n new
    have hut : u = t := by
      refine ext fun name => ?_
      simp only [get, hentries, new]
      rw [← TextMap.collect, TextMap.collect_toList]
    rw [hu, hut]
  rw [parseWithPathKey, serializeWithPathKey, fromUtf8_utf8]
  cases key with
  | none =>
    have hhead := head_lines_bodyLines (P := P) fun p hp => (hl p hp).2 rfl
    simp only [Option.isSome_none, Bool.false_eq_true, if_false, if_neg hhead]
    exact hdone 1
  | some key =>
    have hlines : ∀ body, lines (marker ++ '\n' :: body) = marker :: lines body := fun body => by
      have hcr : stripCr marker = marker := by decide +kernel
      rw [lines_cons_lf (by decide +kernel), hcr]
    simp only [Option.isSome_some, if_true, hlines, List.head?_cons, List.tail_cons]
    exact hdone 2

/-- **Trees with the same body are equal**, when their names are kept. -/
theorem serialize_injective {key : Option Key} (hP : key ≠ none → P.AeadLawful) {t u : Tree}
    (h : t.serializeWithPathKey P key = u.serializeWithPathKey P key)
    (htn : ∀ name e, t.get name = some e → NameKept key name)
    (hun : ∀ name e, u.get name = some e → NameKept key name) : t = u := by
  have ht := parse_serialize hP htn
  rw [h, parse_serialize hP hun, Except.ok.injEq] at ht
  exact ht.symm

end Tree

end Omp
