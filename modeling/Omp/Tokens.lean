import Omp.Lib.Encodings
import Omp.Query

/-!
# The tokens of queries

Two scanners cut queries into tokens: that of the server, which reads octets, and that of the
browser, which reads 16-bit units.  They are meant to accept the same.

They do not: the browser skips more spaces, reads numbers of any size and with any number of points,
and takes two words from what every object has.  The server reads each octet of a string as a
character.

## Main definitions

* `Query.tokenize` : the scanner of the server.
* `QueryLang.tokenize` : the scanner of the browser.
* `QueryLang.Agree` : the two accept a text with the same tokens, or both reject it.
* `QueryLang.Common` : the pieces of a text that both read alike.

## Main results

* `QueryLang.tokenizers_agree` : the two agree on a text exactly when it is not cut into pieces, or
  when these are read alike.
-/

namespace Omp

open Lib Scan

/-! ### The server -/

namespace Query

/-- Tokens. -/
inductive Tok where
  | ident (s : Text)
  | str (s : Text)
  | int (n : Int64)
  | float (x : F64)
  | bool (b : Bool)
  | null | and | or | not | exists
  | op (o : Op)
  | lparen | rparen | dot | comma
  deriving DecidableEq

/-- A token, with the octet it begins at. -/
structure Token where
  kind : Tok
  bytePos : Nat
  deriving DecidableEq

/-- What the parser wants. -/
inductive Wanted where
  | token (t : Tok)
  | operator | fieldPath | identAfterDot | literal
  deriving DecidableEq

/-- What is wrong with a query. -/
inductive Problem where
  | expectedNe
  | unterminatedString
  | badFloat (num : Text)
  | badInt (num : Text)
  | unexpectedCharacter (c : Char)
  /-- Another token than is wanted, or the end of the input. -/
  | expected (want : Wanted) (got : Option Tok)
  | unexpectedToken (t : Tok)
  deriving DecidableEq

/-- `QueryError::Parse`. -/
structure QueryError where
  pos : Nat
  msg : Problem
  deriving DecidableEq

/-- The sign of a number, and what follows. -/
def splitSign : Text → Bool × Text
  | '-' :: ds => (true, ds)
  | '+' :: ds => (false, ds)
  | ds => (false, ds)

/-- The integer that is spelled by digits with a sign. -/
def intOf (num : Text) : Int :=
  let (minus, ds) := splitSign num
  if minus then -(Nat.ofDigitChars 10 ds 0 : Int) else Nat.ofDigitChars 10 ds 0

/-- `str::parse::<i64>`. -/
def parseI64 (num : Text) : Option Int64 :=
  let ds := (splitSign num).2
  if ds = [] ∨ ds.all Char.isDigit = false then none
  else if -2 ^ 63 ≤ intOf num ∧ intOf num < 2 ^ 63 then some (Int64.ofInt (intOf num))
  else none

/-- `str::parse::<f64>`, of digits with a point. -/
def parseF64 (num : Text) : Option F64 :=
  let (minus, ds) := splitSign num
  match splitOnce '.' ds with
  | none => none
  | some (whole, frac) =>
    let digits := whole ++ frac
    if digits = [] ∨ digits.all Char.isDigit = false then none
    else
      let x := F64.ofRatio (Nat.ofDigitChars 10 digits 0) (10 ^ frac.length)
      some (if minus then x.neg else x)

/-- An octet `as char`. -/
def asChar (b : UInt8) : Char := Char.ofNat b.toNat

/-- The words that are not identifiers. -/
def keywords : List (Text × Tok) :=
  [("and".toList, .and), ("or".toList, .or), ("not".toList, .not), ("exists".toList, .exists),
    ("true".toList, .bool true), ("false".toList, .bool false), ("null".toList, .null),
    ("contains".toList, .op .contains), ("starts_with".toList, .op .startsWith)]

/-- The token of a word. -/
def wordTok (word : Text) : Tok :=
  match keywords.find? fun k => k.1 = lower word with
  | some k => k.2
  | none => .ident word

/-- The token of a symbol. -/
def symbolTok : Symbol → Tok
  | .lparen => .lparen | .rparen => .rparen | .dot => .dot | .comma => .comma
  | .eq => .op .eq | .ne => .op .ne | .lt => .op .lt | .le => .op .le | .gt => .op .gt
  | .ge => .op .ge

/-- The token of a number. -/
def numberTok (pos : Nat) (num : Text) (sawDot : Bool) : Except QueryError Tok :=
  if sawDot then
    match parseF64 num with
    | some x => .ok (.float x)
    | none => .error ⟨pos, .badFloat num⟩
  else
    match parseI64 num with
    | some n => .ok (.int n)
    | none => .error ⟨pos, .badInt num⟩

/-- `is_ascii_whitespace`. -/
def isSpace (n : Nat) : Bool := n == 0x20 || n == 0x09 || n == 0x0A || n == 0x0C || n == 0x0D

/-- What the server does with lexemes. -/
def scanner : Scanner UInt8 Tok QueryError where
  code := UInt8.toNat
  space b := isSpace b.toNat
  token pos
    | .symbol s => .ok (symbolTok s)
    -- each octet is pushed `as char`
    | .string content => .ok (.str (content.map asChar))
    | .number text point => numberTok pos ((fromUtf8 text).getD []) point
    | .word text => .ok (wordTok ((fromUtf8 text).getD []))
  fault pos b
    | .bang => ⟨pos, .expectedNe⟩
    | .unterminated => ⟨pos + 1, .unterminatedString⟩
    | .unexpected => ⟨pos, .unexpectedCharacter (asChar b)⟩

/-- `tokenize`. -/
def tokenize (input : Text) : Except QueryError (List Token) :=
  (scanner.scan (utf8 input)).map fun ts => ts.map fun t => ⟨t.tok, t.start⟩

end Query

/-! ### The browser -/

namespace QueryLang

/-- Kinds of tokens. -/
inductive TokenKind where
  | lparen | rparen | dot | comma
  | op
  | string | int | float | bool | null
  | and | or | not | exists
  | ident
  /-- Not a kind: what every object has under a name. -/
  | inherited (name : Text)
  deriving DecidableEq

/-- A token, with the units it begins at and ends before. -/
structure Token where
  kind : TokenKind
  pos : Nat
  stop : Nat
  value : JsString
  deriving DecidableEq

/-- What is wrong with a text. -/
inductive Problem where
  | expectedNe
  | unterminatedString
  | unexpectedCharacter (c : UInt16)
  deriving DecidableEq

/-- `TokenizeError`. -/
structure TokenizeError where
  pos : Nat
  msg : Problem
  deriving DecidableEq

/-- `KEYWORD_MAP`. -/
def keywordMap : List (Text × TokenKind) :=
  [("and".toList, .and), ("or".toList, .or), ("not".toList, .not), ("exists".toList, .exists),
    ("true".toList, .bool), ("false".toList, .bool), ("null".toList, .null),
    ("contains".toList, .op), ("starts_with".toList, .op)]

/-- The names that every object has a member for. -/
def prototypeNames : List Text :=
  ["constructor".toList, "__proto__".toList, "__defineGetter__".toList, "__defineSetter__".toList,
    "__lookupGetter__".toList, "__lookupSetter__".toList, "hasOwnProperty".toList,
    "isPrototypeOf".toList, "propertyIsEnumerable".toList, "toLocaleString".toList,
    "toString".toList, "valueOf".toList]

/-- `KEYWORD_MAP[name] ?? 'ident'` : a plain object has members of its own, and those of its
prototype. -/
def keywordKind (name : JsString) : TokenKind :=
  match keywordMap.find? fun k => utf16 k.1 = name with
  | some k => k.2
  | none => ((prototypeNames.find? fun n => utf16 n = name).map .inherited).getD .ident

/-- `toLowerCase`, of units of ASCII. -/
def toLowerCase (s : JsString) : JsString :=
  s.map fun u => if 0x41 ≤ u ∧ u ≤ 0x5A then u + 0x20 else u

/-- The kind and the value of a word. -/
def wordToken (word : JsString) : TokenKind × JsString :=
  let kind := keywordKind (toLowerCase word)
  (kind, if kind = .op ∨ kind = .bool then toLowerCase word else word)

/-- The kind of a symbol. -/
def symbolKind : Symbol → TokenKind
  | .lparen => .lparen | .rparen => .rparen | .dot => .dot | .comma => .comma
  | .eq | .ne | .lt | .le | .gt | .ge => .op

/-- White space, as `\s` and `trim` have it. -/
def isSpace (n : Nat) : Bool :=
  0x09 ≤ n && n ≤ 0x0D || n == 0x20 || n == 0xA0 || n == 0x1680 || 0x2000 ≤ n && n ≤ 0x200A ||
    n == 0x2028 || n == 0x2029 || n == 0x202F || n == 0x205F || n == 0x3000 || n == 0xFEFF

/-- What the browser does with lexemes. -/
def scanner : Scanner UInt16 (TokenKind × JsString) TokenizeError where
  code := UInt16.toNat
  space u := isSpace u.toNat
  token pos
    | .symbol s => .ok (symbolKind s, utf16 s.text)
    | .string content => .ok (.string, content)
    -- a bare `-` is not a number
    | .number text point =>
      if text = [0x2D] then .error ⟨pos, .unexpectedCharacter 0x2D⟩
      else .ok (if point then .float else .int, text)
    | .word text => .ok (wordToken text)
  fault pos u
    | .bang => ⟨pos, .expectedNe⟩
    | .unterminated => ⟨pos, .unterminatedString⟩
    | .unexpected => ⟨pos, .unexpectedCharacter u⟩

/-- `tokenize`. -/
def tokenize (input : JsString) : Except TokenizeError (List Token) :=
  (scanner.scan input).map fun ts => ts.map fun t => ⟨t.tok.1, t.start, t.stop, t.tok.2⟩

/-! ### Agreement -/

/-- The symbol of an operator. -/
def opText : Query.Op → Text
  | .eq => "=".toList | .ne => "!=".toList | .lt => "<".toList | .le => "<=".toList
  | .gt => ">".toList | .ge => ">=".toList
  | .contains => "contains".toList | .startsWith => "starts_with".toList

/-- Two tokens are the same, up to how the languages represent values: numbers are kept as they are
spelled by the browser. -/
def Same : Query.Tok → TokenKind → JsString → Prop
  | .ident s, kind, value => kind = .ident ∧ value = utf16 s
  | .str s, kind, value => kind = .string ∧ value = utf16 s
  | .int n, kind, value => kind = .int ∧ ∃ num, value = utf16 num ∧ Query.parseI64 num = some n
  | .float x, kind, value => kind = .float ∧ ∃ num, value = utf16 num ∧ Query.parseF64 num = some x
  | .bool b, kind, value => kind = .bool ∧ value = utf16 (if b then "true" else "false").toList
  | .op o, kind, value => kind = .op ∧ value = utf16 (opText o)
  | .null, kind, _ => kind = .null
  | .and, kind, _ => kind = .and
  | .or, kind, _ => kind = .or
  | .not, kind, _ => kind = .not
  | .exists, kind, _ => kind = .exists
  | .lparen, kind, _ => kind = .lparen
  | .rparen, kind, _ => kind = .rparen
  | .dot, kind, _ => kind = .dot
  | .comma, kind, _ => kind = .comma

/-- The same token at the same place. -/
def SameToken (t : Query.Token) (u : Token) : Prop := t.bytePos = u.pos ∧ Same t.kind u.kind u.value

/-- **The two scanners agree** on a text: both reject it, or both accept it with the same tokens. -/
def Agree (s : Text) : Prop :=
  match Query.tokenize s, tokenize (utf16 s) with
  | .ok ts, .ok us => List.Forall₂ SameToken ts us
  | .error _, .error _ => True
  | _, _ => False

/-- A `-` alone. -/
def bareMinus : Lexeme Char := .number ['-'] false

/-- A lexeme that is read alike: a string of ASCII, a number with one point, an integer of 64 bits,
a word that no object has a member for. -/
def CommonLexeme : Lexeme Char → Prop
  | .symbol _ => True
  | .string content => IsAscii content
  | .number text true => text.count '.' ≤ 1
  | .number text false => -2 ^ 63 ≤ Query.intOf text ∧ Query.intOf text < 2 ^ 63
  | .word text => Query.lower text ∉ prototypeNames

/-! ### Lexemes that are read alike -/

theorem isDigit_toNat (c : Char) : isDigit c.toNat = c.isDigit := by
  simp only [isDigit, Char.isDigit, UInt32.le_iff_toNat_le, ge_iff_le]
  rfl

/-- The characters of digits with points. -/
theorem digit_or_dot {t : Text} {p : Bool} (h : Digits t p) :
    (∀ c ∈ t, c.isDigit = true ∨ c = '.') ∧
    if p then '.' ∈ t ∧ 2 ≤ t.length else ∀ c ∈ t, c.isDigit = true := by
  induction h with
  | nil => exact ⟨nofun, nofun⟩
  | @digit c t p hc h ih =>
    rw [isDigit_toNat] at hc
    refine ⟨List.forall_mem_cons.2 ⟨.inl hc, ih.1⟩, ?_⟩
    cases p with
    | false => exact List.forall_mem_cons.2 ⟨hc, ih.2⟩
    | true => exact ⟨List.mem_cons_of_mem _ ih.2.1, ih.2.2.trans (Nat.le_succ _)⟩
  | @point c t p hc h ih =>
    exact ⟨List.forall_mem_cons.2 ⟨.inr rfl, ih.1⟩, List.mem_cons_self,
      Nat.succ_le_succ (Nat.succ_le_succ (Nat.zero_le _))⟩

/-- What begins with a digit has no sign. -/
theorem splitSign_digit {c : Char} (hc : isDigit c.toNat = true) (cs : Text) :
    Query.splitSign (c :: cs) = (false, c :: cs) := by
  have hminus : c ≠ '-' := by rintro rfl; revert hc; decide
  have hplus : c ≠ '+' := by rintro rfl; revert hc; decide
  unfold Query.splitSign
  split
  · exact absurd (List.cons.inj ‹_›).1 hminus
  · exact absurd (List.cons.inj ‹_›).1 hplus
  · rfl

/-- A number is a sign with digits and points. -/
theorem exists_sign {text t : Text} {p : Bool} (h : Spelled (.number text p) t) :
    ∃ minus ds, Query.splitSign text = (minus, ds) ∧ Digits ds p ∧
      text = (if minus then ['-'] else []) ++ ds ∧ (minus = false → ds ≠ []) := by
  cases h with
  | @number c cs p hc h =>
    exact ⟨false, c :: cs, splitSign_digit hc cs, h, rfl, fun _ => nofun⟩
  | minus h => exact ⟨true, _, rfl, h, rfl, nofun⟩

theorem isAscii_number {text t : Text} {p : Bool} (h : Spelled (.number text p) t) :
    IsAscii text := by
  obtain ⟨minus, ds, -, hdigits, rfl, -⟩ := exists_sign h
  have hds : IsAscii ds := fun c hc => by
    rcases (digit_or_dot hdigits).1 c hc with hd | rfl
    · rw [← isDigit_toNat] at hd
      exact lt_of_isDigit hd
    · decide
  cases minus with
  | false => exact hds
  | true => exact List.forall_mem_cons.2 ⟨by decide, hds⟩

/-- **An integer is read by the server** if it is one of 64 bits. -/
theorem parseI64_isSome {text t : Text} (h : Spelled (.number text false) t)
    (hbare : text ≠ ['-']) : (Query.parseI64 text).isSome = true ↔
      -2 ^ 63 ≤ Query.intOf text ∧ Query.intOf text < 2 ^ 63 := by
  obtain ⟨minus, ds, hsign, hdigits, heq, hne⟩ := exists_sign h
  have hds : ds ≠ [] := by
    rintro rfl
    cases minus with
    | false => exact hne rfl rfl
    | true => exact hbare heq
  have hok : ¬(ds = [] ∨ ds.all Char.isDigit = false) := by
    rw [List.all_eq_true.2 (digit_or_dot hdigits).2]
    exact not_or.2 ⟨hds, nofun⟩
  simp only [Query.parseI64, hsign]
  rw [if_neg hok]
  split_ifs with hrange
  · exact iff_of_true rfl hrange
  · exact iff_of_false nofun hrange

/-- **A number with a point is read by the server** if there is one only. -/
theorem parseF64_isSome {text t : Text} (h : Spelled (.number text true) t) :
    (Query.parseF64 text).isSome = true ↔ text.count '.' ≤ 1 := by
  obtain ⟨minus, ds, hsign, hdigits, heq, -⟩ := exists_sign h
  obtain ⟨hchars, hdot, hlen⟩ := digit_or_dot hdigits
  have hcount : text.count '.' = ds.count '.' := by
    rw [heq, List.count_append]
    cases minus <;> exact Nat.zero_add _
  simp only [hcount, Query.parseF64, hsign]
  cases hsplit : splitOnce '.' ds with
  | none => exact absurd hdot (splitOnce_eq_none.1 hsplit)
  | some q =>
    obtain ⟨whole, frac⟩ := q
    obtain ⟨rfl, hwhole⟩ := splitOnce_eq_some hsplit
    rw [List.count_append, List.count_cons_self, List.count_eq_zero_of_not_mem hwhole, Nat.zero_add]
    dsimp only
    have hnonempty : whole ++ frac ≠ [] := by
      intro hnil
      obtain ⟨rfl, rfl⟩ := List.append_eq_nil_iff.1 hnil
      exact absurd hlen (by decide)
    by_cases hfrac : '.' ∈ frac
    · have hbad : (whole ++ frac).all Char.isDigit = false :=
        List.all_eq_false.2 ⟨'.', List.mem_append_right _ hfrac, by decide⟩
      have hpos := List.count_pos_iff.2 hfrac
      rw [if_pos (.inr hbad)]
      exact iff_of_false nofun (by omega)
    · -- all but the point are digits
      have hgood : (whole ++ frac).all Char.isDigit = true := by
        refine List.all_eq_true.2 fun c hc => ?_
        have hne : c ≠ '.' := by
          rintro rfl
          exact (List.mem_append.1 hc).elim hwhole hfrac
        refine (hchars c ?_).resolve_right hne
        exact (List.mem_append.1 hc).elim (List.mem_append_left _)
          fun h => List.mem_append_right _ (List.mem_cons_of_mem _ h)
      rw [hgood, if_neg (not_or.2 ⟨hnonempty, nofun⟩), List.count_eq_zero_of_not_mem hfrac]
      exact iff_of_true rfl le_rfl

/-- A number is the same token where it is common. -/
theorem same_number {text t : Text} {p : Bool} (h : Spelled (.number text p) t)
    (hbare : text ≠ ['-']) (pos : Nat) :
    (∃ tok, Query.numberTok pos text p = .ok tok ∧
      Same tok (if p then .float else .int) (utf16 text)) ↔ CommonLexeme (.number text p) := by
  cases p with
  | false =>
    rw [CommonLexeme, ← parseI64_isSome h hbare, Query.numberTok]
    cases hparse : Query.parseI64 text with
    | none => exact iff_of_false nofun nofun
    | some n => exact iff_of_true ⟨_, rfl, rfl, text, rfl, hparse⟩ rfl
  | true =>
    rw [CommonLexeme, ← parseF64_isSome h, Query.numberTok]
    cases hparse : Query.parseF64 text with
    | none => exact iff_of_false nofun nofun
    | some n => exact iff_of_true ⟨_, rfl, rfl, text, rfl, hparse⟩ rfl

theorem toNat_asChar (b : UInt8) : (Query.asChar b).toNat = b.toNat := by
  have hlt := b.toNat_lt
  have hvalid : b.toNat.isValidChar := .inl (by omega)
  rw [Query.asChar, Char.ofNat, dif_pos hvalid]
  rfl

theorem length_asChar (bs : Bytes) : (utf16 (bs.map Query.asChar)).length = bs.length := by
  induction bs with
  | nil => rfl
  | cons b bs ih =>
    have hlt := b.toNat_lt
    have hunit : utf16EncodeChar (Query.asChar b) = [UInt16.ofNat (Query.asChar b).toNat] :=
      if_pos (by rw [toNat_asChar]; omega)
    rw [List.map_cons, utf16, List.flatMap_cons, hunit]
    exact congrArg Nat.succ ih

/-- The octets of ASCII are its characters. -/
theorem map_asChar {t : Text} (h : IsAscii t) : (utf8 t).map Query.asChar = t := by
  induction t with
  | nil => rfl
  | cons c t ih =>
    have hc := h c List.mem_cons_self
    rw [utf8_cons, utf8EncodeChar_ascii hc, List.singleton_append, List.map_cons,
      ih fun d hd => h d (List.mem_cons_of_mem _ hd)]
    refine congrArg (· :: t) (Char.toNat_inj.1 ?_)
    rw [toNat_asChar, UInt8.toNat_ofNat']
    omega

/-- A string has the same value if it is of ASCII. -/
theorem same_string (content : Text) :
    Same (.str ((utf8 content).map Query.asChar)) .string (utf16 content) ↔ IsAscii content := by
  constructor
  · rintro ⟨-, heq⟩
    by_contra hascii
    have hlt := length_utf16_lt hascii
    rw [heq, length_asChar] at hlt
    exact lt_irrefl _ hlt
  · intro h
    exact ⟨rfl, congrArg utf16 (map_asChar h).symm⟩

/-- What is checked for each character of ASCII. -/
theorem forall_ascii {P : Char → Prop} (h : ∀ n < 128, P (Char.ofNat n)) {c : Char}
    (hc : c.toNat < 128) : P c := Char.ofNat_toNat c ▸ h c.toNat hc

theorem isAscii_lower {t : Text} (h : IsAscii t) : IsAscii (Query.lower t) := by
  intro c hc
  obtain ⟨d, hd, rfl⟩ := List.mem_map.1 hc
  exact forall_ascii (P := fun d => d.toLower.toNat < 128) (by decide +kernel) (h d hd)

/-- Units and characters of ASCII have the same lower case. -/
theorem toLowerCase_utf16 {t : Text} (h : IsAscii t) :
    toLowerCase (utf16 t) = utf16 (Query.lower t) := by
  induction t with
  | nil => rfl
  | cons c t ih =>
    have hc : toLowerCase (utf16EncodeChar c) = utf16EncodeChar c.toLower :=
      forall_ascii (P := fun c => toLowerCase (utf16EncodeChar c) = utf16EncodeChar c.toLower)
        (by decide +kernel) (h c List.mem_cons_self)
    have ht := ih fun d hd => h d (List.mem_cons_of_mem _ hd)
    rw [Query.lower, List.map_cons, utf16, utf16, List.flatMap_cons, List.flatMap_cons, ← hc]
    exact (List.map_append ..).trans (congrArg _ ht)

/-- The keywords of the two scanners are the same words. -/
theorem keys_eq : keywordMap.map Prod.fst = Query.keywords.map Prod.fst := rfl

theorem isAscii_names : (∀ k ∈ keywordMap, IsAscii k.1) ∧ ∀ n ∈ prototypeNames, IsAscii n := by
  decide +kernel

/-- A word that is a keyword. -/
theorem same_keyword {t : Text} (h : IsAscii t) {k : Text × Query.Tok} (hk : k ∈ Query.keywords)
    (hword : Query.lower t = k.1) :
    Same (Query.wordTok t) (wordToken (utf16 t)).1 (wordToken (utf16 t)).2 ∧
      CommonLexeme (.word t) := by
  have htoken : wordToken (utf16 t) = (keywordKind (utf16 k.1),
      if keywordKind (utf16 k.1) = .op ∨ keywordKind (utf16 k.1) = .bool then utf16 k.1
      else utf16 t) := by
    rw [wordToken, toLowerCase_utf16 h, hword]
  rw [Query.wordTok, htoken, CommonLexeme, hword]
  simp only [Query.keywords, List.mem_cons, List.not_mem_nil, or_false] at hk
  rcases hk with rfl | rfl | rfl | rfl | rfl | rfl | rfl | rfl | rfl <;>
    refine ⟨?_, by decide +kernel⟩
  · exact rfl
  · exact rfl
  · exact rfl
  · exact rfl
  · exact ⟨rfl, rfl⟩
  · exact ⟨rfl, rfl⟩
  · exact rfl
  · exact ⟨rfl, rfl⟩
  · exact ⟨rfl, rfl⟩

/-- **A word is the same token** unless every object has a member of its name. -/
theorem same_word {t : Text} (h : IsAscii t) :
    Same (Query.wordTok t) (wordToken (utf16 t)).1 (wordToken (utf16 t)).2 ↔
      CommonLexeme (.word t) := by
  have hlower := isAscii_lower h
  by_cases hkey : ∃ k ∈ Query.keywords, Query.lower t = k.1
  · obtain ⟨k, hk, hword⟩ := hkey
    obtain ⟨hsame, hcommon⟩ := same_keyword h hk hword
    exact iff_of_true hsame hcommon
  · have hrust : Query.wordTok t = .ident t := by
      rw [Query.wordTok, List.find?_eq_none.2]
      exact fun k hk heq => hkey ⟨k, hk, (of_decide_eq_true heq).symm⟩
    have hmap : keywordMap.find? (fun k => utf16 k.1 = utf16 (Query.lower t)) = none := by
      refine List.find?_eq_none.2 fun k hk heq => hkey ?_
      have hkt := (Encoding.text_inj (E := .utf16) (isAscii_names.1 k hk) hlower).1
        (of_decide_eq_true heq)
      have hmem : k.1 ∈ Query.keywords.map Prod.fst := keys_eq ▸ List.mem_map_of_mem hk
      obtain ⟨k', hk', heq'⟩ := List.mem_map.1 hmem
      exact ⟨k', hk', hkt.symm.trans heq'.symm⟩
    rw [hrust, wordToken, toLowerCase_utf16 h, keywordKind, hmap]
    cases hname : prototypeNames.find? fun n => utf16 n = utf16 (Query.lower t) with
    | none =>
      refine iff_of_true ⟨rfl, rfl⟩ fun hmem => ?_
      exact List.find?_eq_none.1 hname _ hmem (decide_eq_true rfl)
    | some n =>
      refine iff_of_false (fun hsame => nomatch hsame.1) fun hcommon => hcommon ?_
      have hn := List.mem_of_find?_eq_some hname
      have heq : utf16 n = utf16 (Query.lower t) := by simpa using List.find?_some hname
      exact (Encoding.text_inj (E := .utf16) (isAscii_names.2 n hn) hlower).1 heq ▸ hn

theorem isAscii_word {text t : Text} (h : Spelled (.word text) t) : IsAscii text := by
  cases h with
  | word hc hcs =>
    refine List.forall_mem_cons.2 ⟨lt_of_isWordPart ?_, fun d hd => lt_of_isWordPart (hcs d hd)⟩
    rw [isWordPart, hc, Bool.true_or]

theorem text_ne_minus {text t : Text} {p : Bool} (h : Spelled (.number text p) t)
    (hbare : Lexeme.number text p ≠ bareMinus) : text ≠ ['-'] := by
  rintro rfl
  cases p with
  | false => exact hbare rfl
  | true =>
    cases h with
    | number hc => cases hc
    | minus h => cases h

/-- **A lexeme is the same token** if it is common. -/
theorem same_lexeme {l : Lexeme Char} {t : Text} (h : Spelled l t) (hbare : l ≠ bareMinus)
    (pos pos' : Nat) : (∃ tok k, Query.scanner.token pos (l.encode .utf8) = .ok tok ∧
      scanner.token pos' (l.encode .utf16) = .ok k ∧ Same tok k.1 k.2) ↔ CommonLexeme l := by
  cases l with
  | symbol s =>
    refine iff_of_true ⟨_, _, rfl, rfl, ?_⟩ trivial
    cases s <;> first | rfl | exact ⟨rfl, rfl⟩
  | string content =>
    rw [CommonLexeme, ← same_string]
    constructor
    · rintro ⟨tok, k, htok, hk, hsame⟩
      cases htok
      cases hk
      exact hsame
    · intro hsame
      exact ⟨_, _, rfl, rfl, hsame⟩
  | number text p =>
    have htext := text_ne_minus h hbare
    have hunits : Encoding.utf16.text text ≠ [0x2D] := fun heq => htext
      ((Encoding.text_inj (E := .utf16) (isAscii_number h) (by decide)).1 heq)
    have hrust : Query.scanner.token pos (Lexeme.encode .utf8 (.number text p)) =
        Query.numberTok pos text p := by
      change Query.numberTok pos ((fromUtf8 (utf8 text)).getD []) p = _
      rw [fromUtf8_utf8]
      rfl
    have hbrowser : scanner.token pos' (Lexeme.encode .utf16 (.number text p)) =
        .ok (if p then .float else .int, utf16 text) := if_neg hunits
    rw [hrust, hbrowser, ← same_number h htext pos]
    constructor
    · rintro ⟨tok, k, htok, hk, hsame⟩
      cases hk
      exact ⟨tok, htok, hsame⟩
    · rintro ⟨tok, htok, hsame⟩
      exact ⟨tok, _, htok, rfl, hsame⟩
  | word text =>
    have hascii : IsAscii text := isAscii_word h
    have hrust : Query.scanner.token pos (Lexeme.encode .utf8 (.word text)) =
        .ok (Query.wordTok text) := by
      change Except.ok (Query.wordTok ((fromUtf8 (utf8 text)).getD [])) = _
      rw [fromUtf8_utf8]
      rfl
    rw [hrust, ← same_word hascii]
    constructor
    · rintro ⟨tok, k, htok, hk, hsame⟩
      cases htok
      cases hk
      exact hsame
    · intro hsame
      exact ⟨_, _, rfl, rfl, hsame⟩

theorem isAscii_quoted {q : Char} {body content : Text} (h : Quoted q body content)
    (hcontent : IsAscii content) : IsAscii body := by
  induction h with
  | nil => exact hcontent
  | plain _ _ _ ih =>
    obtain ⟨hc, hrest⟩ := List.forall_mem_cons.1 hcontent
    exact List.forall_mem_cons.2 ⟨hc, ih hrest⟩
  | escape c _ ih =>
    obtain ⟨hc, hrest⟩ := List.forall_mem_cons.1 hcontent
    exact List.forall_mem_cons.2 ⟨by decide, List.forall_mem_cons.2 ⟨hc, ih hrest⟩⟩

/-- A common lexeme is spelled in ASCII. -/
theorem isAscii_spelled {l : Lexeme Char} {t : Text} (h : Spelled l t) (hl : CommonLexeme l) :
    IsAscii t := by
  cases h with
  | symbol s => cases s <;> decide
  | @string q body content hq h =>
    have hbody : IsAscii body := isAscii_quoted h hl
    have hquote : q.toNat < 128 := by rcases hq with rfl | rfl <;> decide
    refine List.forall_mem_cons.2 ⟨hquote, fun c hc => ?_⟩
    rcases List.mem_append.1 hc with hc | hc
    · exact hbody c hc
    · exact List.mem_singleton.1 hc ▸ hquote
  | number hc h => exact isAscii_number (.number hc h)
  | minus h => exact isAscii_number (.minus h)
  | word hc hcs => exact isAscii_word (.word hc hcs)

/-! ### Texts -/

/-- A piece that is read alike. -/
def CommonPiece : Piece → Prop
  | .space c => Query.isSpace c.toNat = true
  | .lexeme l _ => CommonLexeme l

/-- **A text that both scanners read alike**: if it is cut into pieces, and none is a bare `-`, then
all are common. -/
def Common (s : Text) : Prop :=
  ∀ ps, Lexed (fun c => isSpace c.toNat) s ps → (∀ t, .lexeme bareMinus t ∉ ps) →
    ∀ p ∈ ps, CommonPiece p

theorem isSpace_ascii {n : Nat} (h : Query.isSpace n = true) : n < 128 ∧ isSpace n = true := by
  simp [Query.isSpace] at h
  obtain rfl | rfl | rfl | rfl | rfl :
      n = 0x20 ∨ n = 0x09 ∨ n = 0x0A ∨ n = 0x0C ∨ n = 0x0D := by omega
  all_goals decide

/-- A unit of the second half of the plane or a surrogate is no space. -/
theorem isSpace_le {n : Nat} (h : isSpace n = true) : n < 0xD800 ∨ n = 0xFEFF := by
  simp [isSpace] at h
  omega

theorem kind_space {n : Nat} (h : isSpace n = true) : kind n = .other := by
  rcases Nat.lt_or_ge n 128 with hn | hn
  · have hlow : (0x09 ≤ n ∧ n ≤ 0x0D) ∨ n = 0x20 := by
      simp [isSpace] at h
      omega
    obtain rfl | rfl | rfl | rfl | rfl | rfl :
        n = 0x09 ∨ n = 0x0A ∨ n = 0x0B ∨ n = 0x0C ∨ n = 0x0D ∨ n = 0x20 := by omega
    all_goals rfl
  · exact kind_beyond hn

theorem spaces_server :
    Spaces Encoding.utf8 Query.scanner.space fun c => Query.isSpace c.toNat where
  of_space c hc := by
    obtain ⟨u, henc, hcode⟩ := Encoding.utf8.ascii c (isSpace_ascii hc).1
    exact ⟨u, henc, (congrArg Query.isSpace hcode).trans hc⟩
  of_not c u us hc henc := by
    obtain ⟨v, -, hcode, henc', -⟩ | ⟨v, vs, -, hv, -, henc', -⟩ :=
      Encoding.utf8.text_cons_cases c []
    · cases henc.symm.trans henc'
      exact (congrArg Query.isSpace hcode).trans hc
    · cases henc.symm.trans henc'
      exact Bool.eq_false_iff.2 fun h => absurd (isSpace_ascii h).1 (Nat.not_lt.2 hv)
  apart c hc := kind_space (isSpace_ascii hc).2

theorem spaces_browser : Spaces Encoding.utf16 scanner.space fun c => isSpace c.toNat where
  of_space c hc := by
    have hle := isSpace_le hc
    refine ⟨UInt16.ofNat c.toNat, if_pos (by omega), ?_⟩
    change isSpace (UInt16.ofNat c.toNat).toNat = true
    rw [UInt16.toNat_ofNat', Nat.mod_eq_of_lt (by omega)]
    exact hc
  of_not c u us hc henc := by
    have hlt := toNat_lt c
    change isSpace u.toNat = false
    change utf16EncodeChar c = u :: us at henc
    unfold utf16EncodeChar at henc
    split_ifs at henc <;> cases henc
    · rw [UInt16.toNat_ofNat', Nat.mod_eq_of_lt (by omega)]
      exact hc
    · refine Bool.eq_false_iff.2 fun h => ?_
      have hle := isSpace_le h
      rw [UInt16.toNat_ofNat'] at hle
      omega
  apart c hc := kind_space hc

/-- What the server accepts is cut into pieces. -/
theorem tokenize_server {s : Text} {ts : List Query.Token} : Query.tokenize s = .ok ts ↔
    ∃ ps, Lexed (fun c => Query.isSpace c.toNat) s ps ∧ ∃ out,
      Query.scanner.emit .utf8 0 ps = .ok out ∧ out.map (fun t => ⟨t.tok, t.start⟩) = ts := by
  rw [Query.tokenize, map_eq_ok]
  change (∃ out, Query.scanner.scan (Encoding.utf8.text s) = .ok out ∧ _) ↔ _
  simp only [Scanner.scan_eq_ok rfl spaces_server]
  exact ⟨fun ⟨out, ⟨ps, h, hout⟩, hts⟩ => ⟨ps, h, out, hout, hts⟩,
    fun ⟨ps, h, out, hout, hts⟩ => ⟨out, ⟨ps, h, hout⟩, hts⟩⟩

/-- What the browser accepts is cut into pieces. -/
theorem tokenize_browser {s : Text} {us : List Token} : tokenize (utf16 s) = .ok us ↔
    ∃ ps, Lexed (fun c => isSpace c.toNat) s ps ∧ ∃ out,
      scanner.emit .utf16 0 ps = .ok out ∧
        out.map (fun t => ⟨t.tok.1, t.start, t.stop, t.tok.2⟩) = us := by
  rw [tokenize, map_eq_ok]
  change (∃ out, scanner.scan (Encoding.utf16.text s) = .ok out ∧ _) ↔ _
  simp only [Scanner.scan_eq_ok rfl spaces_browser]
  exact ⟨fun ⟨out, ⟨ps, h, hout⟩, hus⟩ => ⟨ps, h, out, hout, hus⟩,
    fun ⟨ps, h, out, hout, hus⟩ => ⟨out, ⟨ps, h, hout⟩, hus⟩⟩

/-- The tokens of the two scanners, one by one. -/
def SameSpan (t : Spanned Query.Tok) (u : Spanned (TokenKind × JsString)) : Prop :=
  t.start = u.start ∧ Same t.tok u.tok.1 u.tok.2

variable {ps : List Piece} {pos pos' : Nat}

/-- **Common pieces** are the same tokens at the same places. -/
theorem exists_same_emit {s : Text} {isSp : Char → Bool} (h : Lexed isSp s ps)
    (hbare : ∀ t, .lexeme bareMinus t ∉ ps) (hcommon : ∀ p ∈ ps, CommonPiece p) (pos : Nat) :
    ∃ ts us, Query.scanner.emit .utf8 pos ps = .ok ts ∧ scanner.emit .utf16 pos ps = .ok us ∧
      List.Forall₂ SameSpan ts us := by
  induction h generalizing pos with
  | nil => exact ⟨[], [], rfl, rfl, .nil⟩
  | @space c s ps hc _ ih =>
    obtain ⟨hp, hps⟩ := List.forall_mem_cons.1 hcommon
    have hascii : IsAscii [c] := List.forall_mem_cons.2 ⟨(isSpace_ascii hp).1, nofun⟩
    obtain ⟨ts, us, hts, hus, hsame⟩ :=
      ih (fun t ht => hbare t (List.mem_cons_of_mem _ ht)) hps (pos + 1)
    refine ⟨ts, us, ?_, ?_, hsame⟩
    · rw [Scanner.emit, Encoding.length_text hascii]
      exact hts
    · rw [Scanner.emit, Encoding.length_text hascii]
      exact hus
  | @lexeme l t s ps hl _ _ ih =>
    obtain ⟨hp, hps⟩ := List.forall_mem_cons.1 hcommon
    have hascii := isAscii_spelled hl hp
    have hne : l ≠ bareMinus := fun heq => hbare t (heq ▸ List.mem_cons_self)
    obtain ⟨tok, k, htok, hk, hsametok⟩ := (same_lexeme hl hne pos pos).2 hp
    obtain ⟨ts, us, hts, hus, hsame⟩ :=
      ih (fun t ht => hbare t (List.mem_cons_of_mem _ ht)) hps (pos + t.length)
    refine ⟨⟨tok, pos, pos + t.length⟩ :: ts, ⟨k, pos, pos + t.length⟩ :: us, ?_, ?_,
      .cons ⟨rfl, hsametok⟩ hsame⟩
    · rw [Scanner.emit, Encoding.length_text hascii, htok]
      simp only [except_bind_eq_ok]
      exact ⟨tok, rfl, ts, hts, rfl⟩
    · rw [Scanner.emit, Encoding.length_text hascii, hk]
      simp only [except_bind_eq_ok]
      exact ⟨k, rfl, us, hus, rfl⟩

/-- The same tokens come of common lexemes. -/
theorem common_of_same {s : Text} {isSp : Char → Bool} (h : Lexed isSp s ps)
    (hbare : ∀ t, .lexeme bareMinus t ∉ ps) {ts : List (Spanned Query.Tok)}
    {us : List (Spanned (TokenKind × JsString))}
    (hts : Query.scanner.emit .utf8 pos ps = .ok ts) (hus : scanner.emit .utf16 pos' ps = .ok us)
    (hsame : List.Forall₂ SameSpan ts us) : ∀ l t, .lexeme l t ∈ ps → CommonLexeme l := by
  induction h generalizing pos pos' ts us with
  | nil => exact nofun
  | space _ _ ih =>
    intro l t hl
    exact ih (fun t ht => hbare t (List.mem_cons_of_mem _ ht)) hts hus hsame l t
      ((List.mem_cons.1 hl).resolve_left nofun)
  | @lexeme l t s ps hl _ _ ih =>
    simp only [Scanner.emit, except_bind_eq_ok] at hts hus
    obtain ⟨tok, htok, ts', hts', heq⟩ := hts
    obtain ⟨k, hk, us', hus', heq'⟩ := hus
    cases heq
    cases heq'
    obtain ⟨⟨-, hsametok⟩, hrest⟩ := List.forall₂_cons.1 hsame
    have hne : l ≠ bareMinus := fun heq => hbare t (heq ▸ List.mem_cons_self)
    intro l' t' hmem
    rcases List.mem_cons.1 hmem with heq | hmem
    · cases heq
      exact (same_lexeme hl hne _ _).1 ⟨tok, k, htok, hk, hsametok⟩
    · exact ih (fun t ht => hbare t (List.mem_cons_of_mem _ ht)) hts' hus' hrest l' t' hmem

/-- The browser accepts all lexemes but a bare `-`. -/
theorem token_browser {l : Lexeme Char} {t : Text} (h : Spelled l t) :
    (∃ k, scanner.token pos (l.encode .utf16) = .ok k) ↔ l ≠ bareMinus := by
  cases l with
  | symbol s => exact iff_of_true ⟨_, rfl⟩ nofun
  | string content => exact iff_of_true ⟨_, rfl⟩ nofun
  | word text => exact iff_of_true ⟨_, rfl⟩ nofun
  | number text p =>
    by_cases hbare : Lexeme.number text p = bareMinus
    · rw [hbare]
      exact iff_of_false nofun fun h => h rfl
    · refine iff_of_true ⟨_, if_neg fun heq => ?_⟩ hbare
      exact text_ne_minus h hbare
        ((Encoding.text_inj (E := .utf16) (isAscii_number h) (by decide)).1 heq)

theorem emit_browser {s : Text} {isSp : Char → Bool} (h : Lexed isSp s ps) :
    (∃ us, scanner.emit .utf16 pos ps = .ok us) ↔ ∀ t, .lexeme bareMinus t ∉ ps := by
  induction h generalizing pos with
  | nil => exact iff_of_true ⟨[], rfl⟩ fun _ => List.not_mem_nil
  | space _ _ ih =>
    rw [Scanner.emit, ih]
    exact forall_congr' fun t => not_congr ⟨List.mem_cons_of_mem _, fun h =>
      (List.mem_cons.1 h).resolve_left (by simp)⟩
  | @lexeme l t s ps hl _ _ ih =>
    simp only [Scanner.emit, except_bind_eq_ok]
    constructor
    · rintro ⟨us, k, hk, us', hus', -⟩ t' hmem
      rcases List.mem_cons.1 hmem with heq | hmem
      · cases heq
        exact (token_browser hl).1 ⟨k, hk⟩ rfl
      · exact ih.1 ⟨us', hus'⟩ t' hmem
    · intro hbare
      have hne : l ≠ bareMinus := fun heq => hbare t (heq ▸ List.mem_cons_self)
      obtain ⟨k, hk⟩ : ∃ k, scanner.token pos (l.encode .utf16) = .ok k :=
        (token_browser hl).2 hne
      obtain ⟨us', hus'⟩ := ih.2 fun t ht => hbare t (List.mem_cons_of_mem _ ht)
      exact ⟨_, k, hk, us', hus', rfl⟩

/-- The server does not accept a bare `-`. -/
theorem emit_server {ts : List (Spanned Query.Tok)}
    (hts : Query.scanner.emit .utf8 pos ps = .ok ts) (t : Text) : .lexeme bareMinus t ∉ ps := by
  induction ps generalizing pos ts with
  | nil => exact List.not_mem_nil
  | cons p ps ih =>
    cases p with
    | space c => exact fun hmem => ih hts ((List.mem_cons.1 hmem).resolve_left nofun)
    | lexeme l t' =>
      simp only [Scanner.emit, except_bind_eq_ok] at hts
      obtain ⟨tok, htok, ts', hts', -⟩ := hts
      intro hmem
      rcases List.mem_cons.1 hmem with heq | hmem
      · cases heq
        cases htok
      · exact ih hts' hmem

/-- **The tokenizers agree exactly on the texts that are read alike.** -/
theorem tokenizers_agree (s : Text) : Agree s ↔ Common s := by
  constructor
  · intro h ps hps hbare
    obtain ⟨out, hout⟩ : ∃ out, scanner.emit .utf16 0 ps = .ok out :=
      (emit_browser hps).2 hbare
    have hbrowser := tokenize_browser.2 ⟨ps, hps, out, hout, rfl⟩
    unfold Agree at h
    rw [hbrowser] at h
    cases hserver : Query.tokenize s with
    | error e =>
      rw [hserver] at h
      exact h.elim
    | ok ts =>
      rw [hserver] at h
      obtain ⟨qs, hqs, out', hout', rfl⟩ := tokenize_server.1 hserver
      -- the pieces are those that the browser sees
      have hqs' : Lexed (fun c => isSpace c.toNat) s qs := hqs.of_spaces
        fun c hc => (isSpace_ascii (hqs.isSpace_of_mem hc)).2
      obtain rfl := hps.unique spaces_browser hqs'
      have hsame : List.Forall₂ SameSpan out' out := by
        dsimp only at h
        rw [List.forall₂_map_left_iff, List.forall₂_map_right_iff] at h
        exact h
      intro p hp
      cases p with
      | space c => exact hqs.isSpace_of_mem hp
      | lexeme l t => exact common_of_same hps hbare hout' hout hsame l t hp
  · intro h
    unfold Agree
    cases hbrowser : tokenize (utf16 s) with
    | ok us =>
      obtain ⟨ps, hps, out, hout, rfl⟩ := tokenize_browser.1 hbrowser
      have hbare := (emit_browser hps).1 ⟨out, hout⟩
      have hcommon := h ps hps hbare
      obtain ⟨ts, us, hts, hus, hsame⟩ := exists_same_emit hps hbare hcommon 0
      obtain rfl := Except.ok.inj (hout.symm.trans hus)
      have hps' : Lexed (fun c => Query.isSpace c.toNat) s ps := hps.of_spaces
        fun c hc => hcommon _ hc
      rw [tokenize_server.2 ⟨ps, hps', ts, hts, rfl⟩]
      dsimp only
      rw [List.forall₂_map_left_iff, List.forall₂_map_right_iff]
      exact hsame
    | error e =>
      cases hserver : Query.tokenize s with
      | error e' => trivial
      | ok ts =>
        -- what the server accepts the browser accepts
        obtain ⟨qs, hqs, out, hout, -⟩ := tokenize_server.1 hserver
        have hqs' : Lexed (fun c => isSpace c.toNat) s qs := hqs.of_spaces
          fun c hc => (isSpace_ascii (hqs.isSpace_of_mem hc)).2
        obtain ⟨out', hout'⟩ : ∃ out', scanner.emit .utf16 0 qs = .ok out' :=
          (emit_browser hqs').2 (emit_server hout)
        cases hbrowser.symm.trans (tokenize_browser.2 ⟨qs, hqs', out', hout', rfl⟩)

/-- The browser reads a number with two points, which the server does not. -/
theorem two_points : ¬∀ s, Agree s := by
  intro h
  have hs := h "a = 1.2.3".toList
  unfold Agree at hs
  have hserver : Query.tokenize "a = 1.2.3".toList =
      .error ⟨4, .badFloat "1.2.3".toList⟩ := by rfl
  have hbrowser : (tokenize (utf16 "a = 1.2.3".toList)).isOk = true := by rfl
  obtain ⟨us, hus⟩ := exists_eq_ok_of_isOk hbrowser
  rw [hserver, hus] at hs
  exact hs

end QueryLang

end Omp
