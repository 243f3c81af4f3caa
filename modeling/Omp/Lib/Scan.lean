import Omp.Lib.Op
import Omp.Lib.Text

/-!
# Scanners of a small query language

A scanner cuts a text into spaces and lexemes: symbols, quoted strings, numbers and words.  It reads
the units of an encoding, octets or 16-bit units, which agree on the characters of ASCII, and looks
at most two units ahead.

What a scanner accepts is said about characters: a text is cut into pieces, each spelled as its kind
asks, and each as long as it can be.

## Main definitions

* `Lexeme`, `lexeme` : the next lexeme.
* `Scanner`, `Scanner.scan` : the loop, with what a language does with spaces and lexemes.
* `Encoding`, `Spaces` : how characters are encoded, and which are spaces.
* `Spelled`, `Stops`, `Lexed` : how a text is cut into pieces.

## Main results

* `lexeme_eq_ok` : the next lexeme is the one that is spelled there and stops there.
* `Lexed.unique` : a text is cut in one way.
* `Scanner.scan_eq_ok` : what is scanned are the tokens of the pieces.
-/

namespace Lib.Scan

/-! ### Lexemes -/

/-- Symbols. -/
inductive Symbol where
  | lparen | rparen | dot | comma | eq | ne | lt | le | gt | ge
  deriving DecidableEq

/-- Lexemes: a string with its content, a number and a word as they are spelled. -/
inductive Lexeme (α : Type) where
  | symbol (s : Symbol)
  | string (content : List α)
  | number (text : List α) (point : Bool)
  | word (text : List α)
  deriving DecidableEq

/-- What is wrong with a text. -/
inductive Fault where
  /-- A `!` without `=`. -/
  | bang
  /-- A string without an end. -/
  | unterminated
  /-- No lexeme begins so. -/
  | unexpected
  deriving DecidableEq

/-- A digit. -/
def isDigit (n : Nat) : Bool := '0'.toNat ≤ n && n ≤ '9'.toNat

/-- What a word begins with. -/
def isWordStart (n : Nat) : Bool :=
  ('a'.toNat ≤ n && n ≤ 'z'.toNat) || ('A'.toNat ≤ n && n ≤ 'Z'.toNat) || n == '_'.toNat

/-- What a word goes on with. -/
def isWordPart (n : Nat) : Bool := isWordStart n || isDigit n

/-- What a unit begins. -/
inductive Kind where
  | symbol (s : Symbol)
  /-- A symbol with `=`, and the symbol without, if there is one. -/
  | pair (long : Symbol) (short : Option Symbol)
  | quote
  | digit
  | minus
  | word
  | other

/-- The characters that begin a lexeme by themselves. -/
def marks : List (Char × Kind) :=
  [('(', .symbol .lparen), (')', .symbol .rparen), ('.', .symbol .dot), (',', .symbol .comma),
    ('=', .symbol .eq), ('!', .pair .ne none), ('<', .pair .le (some .lt)),
    ('>', .pair .ge (some .gt)), ('"', .quote), ('\'', .quote), ('-', .minus)]

/-- What a unit with a code begins. -/
def kind (n : Nat) : Kind :=
  match marks.find? fun m => m.1.toNat = n with
  | some m => m.2
  | none => if isDigit n then .digit else if isWordStart n then .word else .other

section Lexeme

variable {α : Type} (code : α → Nat)

/-- Take a unit, if it comes next. -/
def eat (n : Nat) : List α → Option (List α)
  | [] => none
  | c :: cs => if code c = n then some cs else none

/-- The content of a string up to its end, and what follows.  A backslash stands before a unit that
is content whatever it is. -/
def scanString (quote : Nat) : List α → Option (List α × List α)
  | [] => none
  | c :: cs =>
    if code c = quote then some ([], cs)
    else if code c = '\\'.toNat then
      match cs with
      | [] => none
      | d :: ds => (scanString quote ds).map (Prod.map (d :: ·) id)
    else (scanString quote cs).map (Prod.map (c :: ·) id)

/-- Whether a unit belongs to a number, with what follows: a digit, or a point before a digit. -/
def inNumber (c : α) (cs : List α) : Bool :=
  isDigit (code c) || code c == '.'.toNat && cs.head?.any fun d => isDigit (code d)

/-- The digits of a number with its points, whether there is a point, and what follows. -/
def scanNumber : List α → (List α × Bool) × List α
  | [] => (([], false), [])
  | c :: cs =>
    if inNumber code c cs then
      let ((text, point), rest) := scanNumber cs
      ((c :: text, code c == '.'.toNat || point), rest)
    else (([], false), c :: cs)

/-- **The next lexeme**, and what follows. -/
def lexeme (c : α) (cs : List α) : Except Fault (Lexeme α × List α) :=
  match kind (code c) with
  | .symbol s => .ok (.symbol s, cs)
  | .pair long short => match eat code '='.toNat cs, short with
    | some rest, _ => .ok (.symbol long, rest)
    | none, some s => .ok (.symbol s, cs)
    | none, none => .error .bang
  | .quote => match scanString code (code c) cs with
    | some (content, rest) => .ok (.string content, rest)
    | none => .error .unterminated
  | .digit =>
    let ((text, point), rest) := scanNumber code (c :: cs)
    .ok (.number text point, rest)
  | .minus =>
    let ((text, point), rest) := scanNumber code cs
    .ok (.number (c :: text) point, rest)
  | .word => .ok (.word (c :: cs.takeWhile fun d => isWordPart (code d)),
      cs.dropWhile fun d => isWordPart (code d))
  | .other => .error .unexpected

end Lexeme

/-! ### The loop -/

/-- A token with the positions where it begins and ends. -/
structure Spanned (τ : Type) where
  tok : τ
  start : Nat
  stop : Nat
  deriving DecidableEq

/-- What a language does with spaces, with lexemes and with what is wrong. -/
structure Scanner (α τ ε : Type) where
  code : α → Nat
  space : α → Bool
  /-- The token of a lexeme at a position. -/
  token : Nat → Lexeme α → Except ε τ
  /-- The error at a position and a unit. -/
  fault : Nat → α → Fault → ε

namespace Scanner

variable {α τ ε : Type} (S : Scanner α τ ε)

/-- The loop from a position on.  A turn takes a unit at least. -/
def loop : Nat → Nat → List α → Except ε (List (Spanned τ))
  | 0, _, _ => .ok []
  | _ + 1, _, [] => .ok []
  | fuel + 1, pos, c :: cs =>
    if S.space c then loop fuel (pos + 1) cs
    else match lexeme S.code c cs with
      | .error e => .error (S.fault pos c e)
      | .ok (l, rest) => do
        let stop := pos + ((c :: cs).length - rest.length)
        let tok ← S.token pos l
        let toks ← loop fuel stop rest
        .ok (⟨tok, pos, stop⟩ :: toks)

/-- **The tokens of a text.** -/
def scan (cs : List α) : Except ε (List (Spanned τ)) := S.loop cs.length 0 cs

end Scanner

/-! ### Encodings -/

/-- How characters are encoded by units.  A character of ASCII is one unit with its code; the units
of others have codes beyond ASCII. -/
structure Encoding (α : Type) where
  encode : Char → List α
  code : α → Nat
  ascii : ∀ c, c.toNat < 128 → ∃ u, encode c = [u] ∧ code u = c.toNat
  other : ∀ c, 128 ≤ c.toNat → encode c ≠ [] ∧ ∀ u ∈ encode c, 128 ≤ code u

variable {α : Type} {E : Encoding α}

/-- The units of a text. -/
def Encoding.text (E : Encoding α) (t : Text) : List α := t.flatMap E.encode

/-- The lexeme over units. -/
def Lexeme.encode (E : Encoding α) : Lexeme Char → Lexeme α
  | symbol s => symbol s
  | string content => string (E.text content)
  | number text point => number (E.text text) point
  | word text => word (E.text text)

@[simp] theorem Encoding.text_nil : E.text [] = [] := rfl

theorem Encoding.text_cons (c : Char) (cs : Text) :
    E.text (c :: cs) = E.encode c ++ E.text cs := rfl

@[simp] theorem Encoding.text_append (s t : Text) : E.text (s ++ t) = E.text s ++ E.text t :=
  List.flatMap_append

theorem Encoding.length_le_text (t : Text) : t.length ≤ (E.text t).length := by
  induction t with
  | nil => exact le_rfl
  | cons c t ih =>
    have hpos : 0 < (E.encode c).length := by
      rcases Nat.lt_or_ge c.toNat 128 with hc | hc
      · obtain ⟨u, hu, -⟩ := E.ascii c hc
        rw [hu]
        exact Nat.zero_lt_one
      · exact List.length_pos_of_ne_nil (E.other c hc).1
    rw [Encoding.text_cons, List.length_append, List.length_cons]
    omega

/-- The units of a text that begins with a character: its code, or codes beyond ASCII. -/
theorem Encoding.text_cons_cases (E : Encoding α) (c : Char) (cs : Text) :
    (∃ u, c.toNat < 128 ∧ E.code u = c.toNat ∧ E.encode c = [u] ∧
      E.text (c :: cs) = u :: E.text cs) ∨
    ∃ u us, 128 ≤ c.toNat ∧ 128 ≤ E.code u ∧ (∀ v ∈ us, 128 ≤ E.code v) ∧
      E.encode c = u :: us ∧ E.text (c :: cs) = u :: (us ++ E.text cs) := by
  rcases Nat.lt_or_ge c.toNat 128 with hc | hc
  · obtain ⟨u, hu, hcode⟩ := E.ascii c hc
    exact .inl ⟨u, hc, hcode, hu, by rw [Encoding.text_cons, hu]; rfl⟩
  · obtain ⟨hne, hcodes⟩ := E.other c hc
    obtain ⟨u, us, hu⟩ := List.exists_cons_of_ne_nil hne
    rw [hu] at hcodes
    exact .inr ⟨u, us, hc, hcodes u List.mem_cons_self,
      fun v hv => hcodes v (List.mem_cons_of_mem _ hv), hu, by rw [Encoding.text_cons, hu]; rfl⟩

/-! ### Reading units and reading characters -/

theorem lt_of_isDigit {n : Nat} (h : isDigit n = true) : n < 128 := by
  simp [isDigit] at h
  omega

theorem lt_of_isWordPart {n : Nat} (h : isWordPart n = true) : n < 128 := by
  simp [isWordPart, isWordStart, isDigit] at h
  omega

theorem eat_text {n : Nat} (hn : n < 128) (cs : Text) :
    eat E.code n (E.text cs) = (eat Char.toNat n cs).map E.text := by
  cases cs with
  | nil => rfl
  | cons c cs =>
    obtain ⟨u, -, hcode, -, htext⟩ | ⟨u, us, hc, hcode, -, -, htext⟩ := E.text_cons_cases c cs
    · rw [htext, eat, eat, hcode]
      split_ifs <;> rfl
    · rw [htext, eat, eat, if_neg (by omega), if_neg (by omega)]
      rfl

section

variable {code : α → Nat} {quote : Nat} {c : α}

theorem scanString_quote (hc : code c = quote) (cs : List α) :
    scanString code quote (c :: cs) = some ([], cs) := by
  rw [scanString.eq_def]
  exact if_pos hc

theorem scanString_escape (hne : code c ≠ quote) (hc : code c = '\\'.toNat) (d : α) (ds : List α) :
    scanString code quote (c :: d :: ds) =
      (scanString code quote ds).map (Prod.map (d :: ·) id) := by
  rw [scanString.eq_def]
  exact (if_neg hne).trans (if_pos hc)

theorem scanString_plain (hne : code c ≠ quote) (hc : code c ≠ '\\'.toNat) (cs : List α) :
    scanString code quote (c :: cs) = (scanString code quote cs).map (Prod.map (c :: ·) id) := by
  rw [scanString.eq_def]
  exact (if_neg hne).trans (if_neg hc)

/-- Units beyond ASCII are content. -/
theorem scanString_append (hquote : quote < 128) {us : List α} (hus : ∀ u ∈ us, 128 ≤ code u)
    (rest : List α) : scanString code quote (us ++ rest) =
      (scanString code quote rest).map (Prod.map (us ++ ·) id) := by
  induction us with
  | nil => rw [List.nil_append]; cases scanString code quote rest <;> rfl
  | cons u us ih =>
    have hu : 128 ≤ code u := hus u List.mem_cons_self
    have hbackslash : '\\'.toNat < 128 := by decide
    rw [List.cons_append, scanString_plain (by omega) (by omega),
      ih fun v hv => hus v (List.mem_cons_of_mem _ hv)]
    cases scanString code quote rest <;> rfl

end

/-- More content, of characters and of units. -/
theorem map_content {f : Text → Text} {g : List α → List α} (h : ∀ t, E.text (f t) = g (E.text t))
    (o : Option (Text × Text)) : (o.map (Prod.map E.text E.text)).map (Prod.map g id) =
      (o.map (Prod.map f id)).map (Prod.map E.text E.text) := by
  cases o with
  | none => rfl
  | some p => exact congrArg some (Prod.ext (h p.1).symm rfl)

theorem scanString_text {quote : Nat} (hquote : quote < 128) (cs : Text) :
    scanString E.code quote (E.text cs) =
      (scanString Char.toNat quote cs).map (Prod.map E.text E.text) := by
  have hbackslash : '\\'.toNat < 128 := by decide
  fun_induction scanString Char.toNat quote cs with
  | case1 => rfl
  | case2 c cs hc =>
    obtain ⟨u, -, hcode, -, htext⟩ | ⟨u, us, hc', -⟩ := E.text_cons_cases c cs
    · rw [htext, scanString_quote (hcode.trans hc)]
      rfl
    · omega
  | case3 c hne hc =>
    obtain ⟨u, -, hcode, -, htext⟩ | ⟨u, us, hc', -⟩ := E.text_cons_cases c []
    · rw [htext, scanString.eq_def]
      exact (if_neg (hcode ▸ hne)).trans (if_pos (hcode.trans hc))
    · omega
  | case4 c hne hc d ds ih =>
    obtain ⟨u, -, hcode, -, htext⟩ | ⟨u, us, hc', -⟩ := E.text_cons_cases c (d :: ds)
    · obtain ⟨v, -, -, hd, hds⟩ | ⟨v, vs, -, -, hvs, hd, hds⟩ := E.text_cons_cases d ds
      · rw [htext, hds, scanString_escape (hcode ▸ hne) (hcode.trans hc), ih]
        exact map_content (fun t => by rw [E.text_cons, hd]; rfl) _
      · -- the escape takes the first unit of the character, and the others are content anyhow
        rw [htext, hds, scanString_escape (hcode ▸ hne) (hcode.trans hc),
          scanString_append hquote hvs, ih, Option.map_map]
        exact map_content (g := (v :: vs ++ ·)) (fun t => by rw [E.text_cons, hd]) _
    · omega
  | case5 c cs hne hc ih =>
    obtain ⟨u, -, hcode, hc', htext⟩ | ⟨u, us, hlarge, hu, hus, hc', htext⟩ :=
      E.text_cons_cases c cs
    · rw [htext, scanString_plain (hcode ▸ hne) (hcode ▸ hc), ih]
      exact map_content (fun t => by rw [E.text_cons, hc']; rfl) _
    · rw [htext, ← List.cons_append, scanString_append hquote, ih]
      · exact map_content (fun t => by rw [E.text_cons, hc']) _
      · exact List.forall_mem_cons.2 ⟨hu, hus⟩

theorem head?_text (p : Nat → Bool) (hp : ∀ n, p n = true → n < 128) (cs : Text) :
    ((E.text cs).head?.any fun u => p (E.code u)) = cs.head?.any fun c => p c.toNat := by
  cases cs with
  | nil => rfl
  | cons c cs =>
    obtain ⟨u, -, hcode, -, htext⟩ | ⟨u, us, hc, hu, -, -, htext⟩ := E.text_cons_cases c cs
    · rw [htext]
      exact congrArg p hcode
    · rw [htext]
      have hbeyond : ∀ n, 128 ≤ n → p n = false := fun n hn =>
        Bool.eq_false_iff.2 fun h => absurd (hp n h) (by omega)
      exact (hbeyond _ hu).trans (hbeyond _ hc).symm

theorem scanNumber_text (cs : Text) : scanNumber E.code (E.text cs) =
    (scanNumber Char.toNat cs).map (Prod.map E.text id) E.text := by
  induction cs with
  | nil => rfl
  | cons c cs ih =>
    obtain ⟨u, -, hcode, hc, htext⟩ | ⟨u, us, hlarge, hu, -, -, htext⟩ := E.text_cons_cases c cs
    · have hin : inNumber E.code u (E.text cs) = inNumber Char.toNat c cs := by
        rw [inNumber, inNumber, hcode, head?_text isDigit fun n => lt_of_isDigit]
      rw [htext, scanNumber, scanNumber, hin, ih, hcode]
      split_ifs
      · refine Prod.ext (Prod.ext ?_ rfl) rfl
        exact (congrArg (· ++ _) hc).symm
      · exact Prod.ext rfl htext.symm
    · have hbeyond : ∀ n, 128 ≤ n → isDigit n = false ∧ (n == '.'.toNat) = false := by
        intro n hn
        have hdot : '.'.toNat < 128 := by decide
        exact ⟨Bool.eq_false_iff.2 fun h => absurd (lt_of_isDigit h) (by omega),
          beq_eq_false_iff_ne.2 (by omega)⟩
      have hout : ∀ {β : Type} (code : β → Nat) (d : β) (ds : List β), 128 ≤ code d →
          inNumber code d ds = false := by
        intro β code d ds hd
        rw [inNumber, (hbeyond _ hd).1, (hbeyond _ hd).2]
        rfl
      rw [htext, scanNumber, scanNumber, hout _ _ _ hu, hout _ _ _ hlarge]
      exact Prod.ext rfl htext.symm

/-- The characters of ASCII that a text begins with. -/
theorem takeWhile_text (p : Nat → Bool) (hp : ∀ n, p n = true → n < 128) (cs : Text) :
    ((E.text cs).takeWhile fun u => p (E.code u)) = E.text (cs.takeWhile fun c => p c.toNat) ∧
    ((E.text cs).dropWhile fun u => p (E.code u)) = E.text (cs.dropWhile fun c => p c.toNat) := by
  induction cs with
  | nil => exact ⟨rfl, rfl⟩
  | cons c cs ih =>
    rw [List.takeWhile_cons, List.dropWhile_cons]
    obtain ⟨u, -, hcode, hc, htext⟩ | ⟨u, us, hlarge, hu, -, -, htext⟩ := E.text_cons_cases c cs
    · rw [htext, List.takeWhile_cons, List.dropWhile_cons, hcode]
      split_ifs
      · exact ⟨by rw [ih.1, E.text_cons, hc]; rfl, ih.2⟩
      · exact ⟨rfl, htext.symm⟩
    · have hbeyond : ∀ n, 128 ≤ n → ¬p n = true := fun n hn h => absurd (hp n h) (by omega)
      rw [htext, List.takeWhile_cons, List.dropWhile_cons, if_neg (hbeyond _ hu),
        if_neg (hbeyond _ hu), if_neg (hbeyond _ hlarge), if_neg (hbeyond _ hlarge)]
      exact ⟨rfl, htext.symm⟩

/-- **The next lexeme is the same** over units and over characters. -/
theorem lexeme_text {c : Char} {u : α} (hc : c.toNat < 128) (hcode : E.code u = c.toNat)
    (henc : E.encode c = [u]) (cs : Text) : lexeme E.code u (E.text cs) =
      (lexeme Char.toNat c cs).map (Prod.map (Lexeme.encode E) E.text) := by
  have hcons : ∀ t, u :: E.text t = E.text (c :: t) := fun t => by rw [E.text_cons, henc]; rfl
  unfold lexeme
  rw [hcode]
  cases kind c.toNat with
  | symbol s => rfl
  | pair long short =>
    rw [eat_text (by decide)]
    cases eat Char.toNat '='.toNat cs with
    | some rest => rfl
    | none => cases short <;> rfl
  | quote =>
    rw [scanString_text hc]
    cases scanString Char.toNat c.toNat cs <;> rfl
  | digit =>
    rw [hcons, scanNumber_text]
    rfl
  | minus =>
    rw [scanNumber_text]
    exact congrArg (fun t => Except.ok (Lexeme.number t _, _)) (hcons _)
  | word =>
    obtain ⟨htake, hdrop⟩ := takeWhile_text (E := E) isWordPart (fun n => lt_of_isWordPart) cs
    dsimp only
    rw [htake, hdrop, hcons]
    rfl
  | other => rfl

theorem kind_beyond {n : Nat} (hn : 128 ≤ n) : kind n = .other := by
  have hdigit : ¬isDigit n = true := fun h => absurd (lt_of_isDigit h) (by omega)
  have hword : ¬isWordStart n = true := fun h =>
    absurd (lt_of_isWordPart (n := n) (by rw [isWordPart, h]; rfl)) (by omega)
  have hmarks : ∀ m ∈ marks, m.1.toNat < 128 := by decide
  have hnone : marks.find? (fun m => m.1.toNat = n) = none := by
    refine List.find?_eq_none.2 fun m hm heq => ?_
    have := hmarks m hm
    rw [of_decide_eq_true heq] at this
    omega
  rw [kind, hnone, if_neg hdigit, if_neg hword]

/-- No lexeme begins beyond ASCII. -/
theorem lexeme_beyond {code : α → Nat} {u : α} (hu : 128 ≤ code u) (us : List α) :
    lexeme code u us = .error .unexpected := by
  rw [lexeme, kind_beyond hu]

/-! ### How lexemes are spelled -/

/-- How a symbol is spelled. -/
def Symbol.text : Symbol → Text
  | lparen => ['('] | rparen => [')'] | dot => ['.'] | comma => [','] | eq => ['=']
  | ne => ['!', '='] | lt => ['<'] | le => ['<', '='] | gt => ['>'] | ge => ['>', '=']

/-- How content is spelled between quotes: what stands after a backslash is content. -/
inductive Quoted (q : Char) : Text → Text → Prop where
  | nil : Quoted q [] []
  | plain {c : Char} {body content : Text} (hq : c ≠ q) (hb : c ≠ '\\')
      (h : Quoted q body content) : Quoted q (c :: body) (c :: content)
  | escape (c : Char) {body content : Text} (h : Quoted q body content) :
      Quoted q ('\\' :: c :: body) (c :: content)

/-- Digits, with points before digits. -/
inductive Digits : Text → Bool → Prop where
  | nil : Digits [] false
  | digit {c : Char} {t : Text} {p : Bool} (hc : isDigit c.toNat = true) (h : Digits t p) :
      Digits (c :: t) p
  | point {c : Char} {t : Text} {p : Bool} (hc : isDigit c.toNat = true) (h : Digits (c :: t) p) :
      Digits ('.' :: c :: t) true

/-- **How a lexeme is spelled.** -/
inductive Spelled : Lexeme Char → Text → Prop where
  | symbol (s : Symbol) : Spelled (.symbol s) s.text
  | string {q : Char} {body content : Text} (hq : q = '"' ∨ q = '\'') (h : Quoted q body content) :
      Spelled (.string content) (q :: (body ++ [q]))
  | number {c : Char} {t : Text} {p : Bool} (hc : isDigit c.toNat = true) (h : Digits (c :: t) p) :
      Spelled (.number (c :: t) p) (c :: t)
  | minus {t : Text} {p : Bool} (h : Digits t p) : Spelled (.number ('-' :: t) p) ('-' :: t)
  | word {c : Char} {cs : Text} (hc : isWordStart c.toNat = true)
      (hcs : ∀ d ∈ cs, isWordPart d.toNat = true) : Spelled (.word (c :: cs)) (c :: cs)

/-- Where a lexeme stops: it does not go on with what follows. -/
def Stops : Lexeme Char → Text → Prop
  | .symbol .lt, rest | .symbol .gt, rest => rest.head? ≠ some '='
  | .symbol _, _ | .string _, _ => True
  | .number _ _, rest => ∀ c cs, rest = c :: cs → inNumber Char.toNat c cs = false
  | .word _, rest => ∀ c ∈ rest.head?, isWordPart c.toNat = false

theorem Quoted.scanString {q : Char} (hq : q ≠ '\\') {body content : Text}
    (h : Quoted q body content) (rest : Text) :
    scanString Char.toNat q.toNat (body ++ q :: rest) = some (content, rest) := by
  induction h with
  | nil => exact scanString_quote rfl rest
  | plain hne hb h ih =>
    rw [List.cons_append, scanString_plain (fun h => hne (Char.toNat_inj.1 h))
      (fun h => hb (Char.toNat_inj.1 h)), ih]
    rfl
  | escape c h ih =>
    rw [List.cons_append, List.cons_append, scanString_escape
      (fun h => hq (Char.toNat_inj.1 h).symm) rfl, ih]
    rfl

theorem exists_quoted {q : Char} {cs content rest : Text}
    (h : scanString Char.toNat q.toNat cs = some (content, rest)) :
    ∃ body, cs = body ++ q :: rest ∧ Quoted q body content := by
  induction cs using scanString.induct Char.toNat q.toNat generalizing content with
  | case1 => cases h
  | case2 c cs hc =>
    rw [scanString_quote hc] at h
    cases h
    exact ⟨[], by rw [Char.toNat_inj.1 hc]; rfl, .nil⟩
  | case3 c hne hc =>
    rw [scanString.eq_def] at h
    cases ((if_neg hne).trans (if_pos hc)).symm.trans h
  | case4 c hne hc d ds ih =>
    rw [scanString_escape hne hc] at h
    obtain ⟨⟨content', rest'⟩, hds, heq⟩ := Option.map_eq_some_iff.1 h
    cases heq
    obtain ⟨body, rfl, hbody⟩ := ih hds
    exact ⟨'\\' :: d :: body, by rw [Char.toNat_inj.1 hc]; rfl, .escape d hbody⟩
  | case5 c cs hne hc ih =>
    rw [scanString_plain hne hc] at h
    obtain ⟨⟨content', rest'⟩, hcs, heq⟩ := Option.map_eq_some_iff.1 h
    cases heq
    obtain ⟨body, rfl, hbody⟩ := ih hcs
    exact ⟨c :: body, rfl, .plain (fun h => hne (congrArg _ h)) (fun h => hc (congrArg _ h)) hbody⟩

theorem not_isDigit_dot : isDigit '.'.toNat = false := by decide

theorem inNumber_digit {c : Char} (hc : isDigit c.toNat = true) (cs : Text) :
    inNumber Char.toNat c cs = true := by rw [inNumber, hc, Bool.true_or]

theorem Digits.scanNumber {t : Text} {p : Bool} (h : Digits t p) {rest : Text}
    (hstop : Stops (.number t p) rest) :
    scanNumber Char.toNat (t ++ rest) = ((t, p), rest) := by
  induction h with
  | nil =>
    cases rest with
    | nil => rfl
    | cons c cs =>
      rw [List.nil_append, Scan.scanNumber, hstop c cs rfl]
      rfl
  | @digit c t p hc h ih =>
    have hdot : (c.toNat == '.'.toNat) = false := beq_eq_false_iff_ne.2 fun heq => by
      rw [heq, not_isDigit_dot] at hc
      cases hc
    rw [List.cons_append, Scan.scanNumber, inNumber, hc, ih hstop, hdot]
    rfl
  | @point c t p hc h ih =>
    have hin : inNumber Char.toNat '.' (c :: t ++ rest) = true := by
      rw [inNumber, not_isDigit_dot]
      exact hc
    rw [List.cons_append, Scan.scanNumber, hin, ih hstop]
    rfl

theorem digits_of_scanNumber {cs t rest : Text} {p : Bool}
    (h : scanNumber Char.toNat cs = ((t, p), rest)) :
    cs = t ++ rest ∧ Digits t p ∧ Stops (.number t p) rest := by
  induction cs generalizing t p with
  | nil =>
    cases h
    exact ⟨rfl, .nil, nofun⟩
  | cons c cs ih =>
    rw [Scan.scanNumber] at h
    cases hin : inNumber Char.toNat c cs with
    | false =>
      rw [hin] at h
      cases h
      refine ⟨rfl, .nil, fun c' cs' heq => ?_⟩
      cases heq
      exact hin
    | true =>
      rw [hin] at h
      rcases hrec : Scan.scanNumber Char.toNat cs with ⟨⟨t', p'⟩, rest'⟩
      rw [hrec] at h
      cases h
      obtain ⟨rfl, hdigits, hstop⟩ := ih hrec
      refine ⟨rfl, ?_, hstop⟩
      rw [inNumber, Bool.or_eq_true, Bool.and_eq_true] at hin
      rcases hin with hdigit | ⟨hpoint, hnext⟩
      · have hdot : (c.toNat == '.'.toNat) = false := beq_eq_false_iff_ne.2 fun heq => by
          rw [heq, not_isDigit_dot] at hdigit
          cases hdigit
        rw [hdot]
        exact .digit hdigit hdigits
      · -- the digit after the point is the first of the rest of the number
        obtain rfl := Char.toNat_inj.1 (beq_iff_eq.1 hpoint)
        cases hdigits with
        | nil =>
          cases rest with
          | nil => cases hnext
          | cons d ds => cases (inNumber_digit hnext ds).symm.trans (hstop d ds rfl)
        | digit hd h => exact .point hd (.digit hd h)
        | point hd h => cases not_isDigit_dot.symm.trans hnext

/-- What is said of a character by what it begins. -/
def Kind.Fits (c : Char) : Kind → Prop
  | symbol s => s.text = [c] ∧ s ≠ .lt ∧ s ≠ .gt
  | pair long short => (long.text = [c, '='] ∧ long ≠ .lt ∧ long ≠ .gt) ∧
    ∀ s ∈ short, s.text = [c]
  | quote => c = '"' ∨ c = '\''
  | digit => isDigit c.toNat = true
  | minus => c = '-'
  | word => isWordStart c.toNat = true
  | other => True

theorem fits_kind (c : Char) : (kind c.toNat).Fits c := by
  have hmarks : ∀ m ∈ marks, m.2.Fits m.1 := by
    simp [marks, Kind.Fits, Symbol.text]
  unfold kind
  cases hfind : marks.find? fun m => m.1.toNat = c.toNat with
  | some m =>
    have hc : m.1 = c := by simpa [Char.toNat_inj] using List.find?_some hfind
    exact hc ▸ hmarks m (List.mem_of_find?_eq_some hfind)
  | none =>
    dsimp only
    split_ifs with hdigit hword
    · exact hdigit
    · exact hword
    · trivial

/-- No mark is a digit, or begins a word. -/
theorem find?_marks_eq_none {n : Nat} (h : isWordPart n = true) :
    marks.find? (fun m => m.1.toNat = n) = none := by
  have hmarks : ∀ m ∈ marks, isWordPart m.1.toNat = false := by decide
  refine List.find?_eq_none.2 fun m hm heq => ?_
  rw [← of_decide_eq_true heq, hmarks m hm] at h
  cases h

theorem kind_digit {n : Nat} (h : isDigit n = true) : kind n = .digit := by
  rw [kind, find?_marks_eq_none (by rw [isWordPart, h, Bool.or_true]), if_pos h]

theorem kind_word {n : Nat} (h : isWordStart n = true) : kind n = .word := by
  have hdigit : ¬isDigit n = true := by
    intro hd
    simp [isWordStart, isDigit] at h hd
    omega
  rw [kind, find?_marks_eq_none (by rw [isWordPart, h, Bool.true_or]), if_neg hdigit, if_pos h]

/-- A lexeme is not empty, and begins with what its kind begins with. -/
theorem Spelled.exists_cons {l : Lexeme Char} {t : Text} (h : Spelled l t) :
    ∃ c cs, t = c :: cs ∧ kind c.toNat ≠ .other := by
  cases h with
  | symbol s => cases s <;> exact ⟨_, _, rfl, nofun⟩
  | string hq h => rcases hq with rfl | rfl <;> exact ⟨_, _, rfl, nofun⟩
  | number hc h => exact ⟨_, _, rfl, fun hk => by rw [kind_digit hc] at hk; cases hk⟩
  | minus h => exact ⟨_, _, rfl, nofun⟩
  | word hc hcs => exact ⟨_, _, rfl, fun hk => by rw [kind_word hc] at hk; cases hk⟩

theorem eat_eq_some {n : Nat} {code : α → Nat} {cs rest : List α} (h : eat code n cs = some rest) :
    ∃ c, cs = c :: rest ∧ code c = n := by
  cases cs with
  | nil => cases h
  | cons c cs =>
    rw [eat] at h
    split_ifs at h with hc
    cases h
    exact ⟨c, rfl, hc⟩

theorem eat_eq_none {n : Nat} {code : α → Nat} {cs : List α} :
    eat code n cs = none ↔ ∀ c ∈ cs.head?, code c ≠ n := by
  cases cs with
  | nil => exact ⟨fun _ => nofun, fun _ => rfl⟩
  | cons c cs =>
    rw [eat]
    split_ifs with hc
    · exact ⟨nofun, fun h => absurd hc (h c rfl)⟩
    · refine ⟨fun _ d hd => ?_, fun _ => rfl⟩
      cases hd
      exact hc

/-- The parts of a word that comes first. -/
theorem word_append {cs rest : Text} (hcs : ∀ d ∈ cs, isWordPart d.toNat = true)
    (hstop : ∀ c ∈ rest.head?, isWordPart c.toNat = false) :
    ((cs ++ rest).takeWhile fun d => isWordPart d.toNat) = cs ∧
    ((cs ++ rest).dropWhile fun d => isWordPart d.toNat) = rest := by
  rw [List.takeWhile_append_of_pos hcs, List.dropWhile_append_of_pos hcs]
  cases rest with
  | nil => exact ⟨List.append_nil _, rfl⟩
  | cons c rest =>
    rw [List.takeWhile_cons, List.dropWhile_cons, hstop c rfl]
    exact ⟨List.append_nil _, rfl⟩

/-- A symbol that is spelled and stops. -/
theorem lexeme_symbol {s : Symbol} {c : Char} {cs rest : Text} (htext : s.text = c :: cs)
    (hstop : Stops (.symbol s) rest) :
    lexeme Char.toNat c (cs ++ rest) = .ok (.symbol s, rest) := by
  have hshort (s : Symbol) (hstop : rest.head? ≠ some '=') :
      eat Char.toNat '='.toNat rest = none := eat_eq_none.2 fun d hd heq => by
    rw [Char.toNat_inj.1 heq] at hd
    exact hstop hd
  cases s with
  | lt =>
    cases htext
    rw [lexeme, show kind '<'.toNat = .pair .le (some .lt) from rfl, List.nil_append,
      hshort .lt hstop]
  | gt =>
    cases htext
    rw [lexeme, show kind '>'.toNat = .pair .ge (some .gt) from rfl, List.nil_append,
      hshort .gt hstop]
  | _ => cases htext; rfl

/-- **What is spelled and stops is the next lexeme.** -/
theorem Spelled.lexeme_eq {l : Lexeme Char} {c : Char} {cs rest : Text} (h : Spelled l (c :: cs))
    (hstop : Stops l rest) : lexeme Char.toNat c (cs ++ rest) = .ok (l, rest) := by
  generalize hs : c :: cs = t at h
  cases h with
  | symbol s => exact lexeme_symbol hs.symm hstop
  | @string q body content hq h =>
    obtain ⟨rfl, rfl⟩ := List.cons.inj hs
    have hkind : kind c.toNat = .quote := by rcases hq with rfl | rfl <;> rfl
    have hne : c ≠ '\\' := by rcases hq with rfl | rfl <;> decide
    rw [lexeme, hkind, List.append_assoc, List.singleton_append]
    dsimp only
    rw [h.scanString hne]
  | number hc h =>
    cases hs
    rw [lexeme, kind_digit hc, ← List.cons_append]
    dsimp only
    rw [h.scanNumber hstop]
  | minus h =>
    cases hs
    rw [lexeme, show kind '-'.toNat = .minus from rfl]
    dsimp only
    rw [h.scanNumber hstop]
  | word hc hcs =>
    cases hs
    obtain ⟨htake, hdrop⟩ := word_append hcs hstop
    rw [lexeme, kind_word hc]
    dsimp only
    rw [htake, hdrop]

/-- **The next lexeme is spelled and stops.** -/
theorem exists_spelled {c : Char} {cs rest : Text} {l : Lexeme Char}
    (h : lexeme Char.toNat c cs = .ok (l, rest)) :
    ∃ t, c :: cs = c :: t ++ rest ∧ Spelled l (c :: t) ∧ Stops l rest := by
  have hfits := fits_kind c
  unfold lexeme at h
  cases hkind : kind c.toNat with
  | symbol s =>
    rw [hkind] at h hfits
    cases h
    obtain ⟨htext, hlt, hgt⟩ := hfits
    refine ⟨[], rfl, htext ▸ .symbol s, ?_⟩
    cases s <;> trivial
  | pair long short =>
    rw [hkind] at h hfits
    obtain ⟨⟨htext, hlt, hgt⟩, hshort⟩ := hfits
    dsimp only at h
    cases heat : eat Char.toNat '='.toNat cs with
    | some rest' =>
      rw [heat] at h
      cases h
      obtain ⟨d, rfl, hd⟩ := eat_eq_some heat
      refine ⟨['='], by rw [Char.toNat_inj.1 hd]; rfl, htext ▸ .symbol long, ?_⟩
      cases long <;> trivial
    | none =>
      rw [heat] at h
      cases short with
      | none => cases h
      | some s =>
        cases h
        refine ⟨[], rfl, hshort s rfl ▸ .symbol s, ?_⟩
        have hne : cs.head? ≠ some '=' := fun heq => eat_eq_none.1 heat '=' heq rfl
        cases s <;> trivial
  | quote =>
    rw [hkind] at h hfits
    dsimp only at h
    cases hscan : scanString Char.toNat c.toNat cs with
    | none => rw [hscan] at h; cases h
    | some p =>
      rw [hscan] at h
      cases h
      obtain ⟨body, rfl, hbody⟩ := exists_quoted hscan
      exact ⟨body ++ [c], by simp, .string hfits hbody, trivial⟩
  | digit =>
    rw [hkind] at h hfits
    dsimp only at h
    rcases hscan : scanNumber Char.toNat (c :: cs) with ⟨⟨t, p⟩, rest'⟩
    rw [hscan] at h
    cases h
    obtain ⟨heq, hdigits, hstop⟩ := digits_of_scanNumber hscan
    cases t with
    | nil => exact absurd (hstop c cs heq.symm) (by rw [inNumber_digit hfits]; nofun)
    | cons d t =>
      obtain rfl : c = d := (List.cons.inj heq).1
      exact ⟨t, heq, .number hfits hdigits, hstop⟩
  | minus =>
    rw [hkind] at h hfits
    dsimp only at h
    rcases hscan : scanNumber Char.toNat cs with ⟨⟨t, p⟩, rest'⟩
    rw [hscan] at h
    cases h
    obtain ⟨heq, hdigits, hstop⟩ := digits_of_scanNumber hscan
    cases hfits
    exact ⟨t, congrArg _ heq, .minus hdigits, hstop⟩
  | word =>
    rw [hkind] at h hfits
    cases h
    refine ⟨_, congrArg _ List.takeWhile_append_dropWhile.symm, .word hfits ?_, ?_⟩
    · exact fun d hd => List.mem_takeWhile_imp (p := fun d : Char => isWordPart d.toNat) hd
    · intro d hd
      have := List.head?_dropWhile_not (fun d : Char => isWordPart d.toNat) cs
      rw [hd] at this
      exact this
  | other =>
    rw [hkind] at h
    cases h

/-! ### How texts are cut -/

/-- A space, or a lexeme as it is spelled. -/
inductive Piece where
  | space (c : Char)
  | lexeme (l : Lexeme Char) (text : Text)

/-- The characters that units are spaces for. -/
structure Spaces (E : Encoding α) (space : α → Bool) (isSpace : Char → Bool) : Prop where
  of_space : ∀ c, isSpace c = true → ∃ u, E.encode c = [u] ∧ space u = true
  of_not : ∀ c u us, isSpace c = false → E.encode c = u :: us → space u = false
  /-- No lexeme begins with a space. -/
  apart : ∀ c, isSpace c = true → kind c.toNat = .other

/-- **How a text is cut** into spaces and lexemes. -/
inductive Lexed (isSpace : Char → Bool) : Text → List Piece → Prop where
  | nil : Lexed isSpace [] []
  | space {c : Char} {s : Text} {ps : List Piece} (hc : isSpace c = true)
      (h : Lexed isSpace s ps) : Lexed isSpace (c :: s) (.space c :: ps)
  | lexeme {l : Lexeme Char} {t s : Text} {ps : List Piece} (hl : Spelled l t) (hstop : Stops l s)
      (h : Lexed isSpace s ps) : Lexed isSpace (t ++ s) (.lexeme l t :: ps)

section

variable {isSpace : Char → Bool} {space : α → Bool} (hspace : Spaces E space isSpace) {c : Char}
  {cs : Text} {ps : List Piece}

theorem Lexed.eq_nil (h : Lexed isSpace [] ps) : ps = [] := by
  generalize hs : ([] : Text) = s at h
  cases h with
  | nil => rfl
  | space => cases hs
  | lexeme hl =>
    obtain ⟨c, cs, rfl, -⟩ := hl.exists_cons
    cases hs

include hspace

theorem lexed_space (hc : isSpace c = true) :
    Lexed isSpace (c :: cs) ps ↔ ∃ ps', ps = .space c :: ps' ∧ Lexed isSpace cs ps' := by
  constructor
  · intro h
    generalize hs : c :: cs = s at h
    cases h with
    | nil => cases hs
    | space _ h =>
      cases hs
      exact ⟨_, rfl, h⟩
    | lexeme hl =>
      obtain ⟨d, ds, rfl, hd⟩ := hl.exists_cons
      cases hs
      exact absurd (hspace.apart c hc) hd
  · rintro ⟨ps', rfl, h⟩
    exact .space hc h

omit hspace in
theorem lexed_lexeme (hc : isSpace c = false) : Lexed isSpace (c :: cs) ps ↔
    ∃ l t rest ps', lexeme Char.toNat c cs = .ok (l, rest) ∧ cs = t ++ rest ∧
      ps = .lexeme l (c :: t) :: ps' ∧ Lexed isSpace rest ps' := by
  constructor
  · intro h
    generalize hs : c :: cs = s at h
    cases h with
    | nil => cases hs
    | space hc' =>
      cases hs
      cases hc.symm.trans hc'
    | lexeme hl hstop h =>
      obtain ⟨d, ds, rfl, -⟩ := hl.exists_cons
      cases hs
      exact ⟨_, _, _, _, hl.lexeme_eq hstop, rfl, rfl, h⟩
  · rintro ⟨l, t, rest, ps', hlexeme, rfl, rfl, h⟩
    obtain ⟨t', heq, hl, hstop⟩ := exists_spelled hlexeme
    obtain rfl : t = t' := List.append_cancel_right (List.cons.inj heq).2
    exact .lexeme hl hstop h

/-- A text is cut in one way. -/
theorem Lexed.unique {s : Text} {qs : List Piece} (h : Lexed isSpace s ps)
    (h' : Lexed isSpace s qs) : ps = qs := by
  induction h generalizing qs with
  | nil => exact h'.eq_nil.symm
  | space hc _ ih =>
    obtain ⟨qs, rfl, hqs⟩ := (lexed_space hspace hc).1 h'
    rw [ih hqs]
  | lexeme hl hstop _ ih =>
    obtain ⟨c, cs, rfl, hc⟩ := hl.exists_cons
    have hspace' : isSpace c = false := Bool.eq_false_iff.2 fun h => hc (hspace.apart c h)
    obtain ⟨l', t', rest', qs, hlexeme, heq, rfl, hqs⟩ := (lexed_lexeme hspace').1 h'
    obtain ⟨rfl, rfl⟩ := Prod.mk.inj (Except.ok.inj ((hl.lexeme_eq hstop).symm.trans hlexeme))
    obtain rfl := List.append_cancel_right heq
    rw [ih hqs]

omit hspace in
/-- The spaces may be more, and only those that are there matter. -/
theorem Lexed.of_spaces {isSpace' : Char → Bool} {s : Text} (h : Lexed isSpace s ps)
    (hsub : ∀ c, .space c ∈ ps → isSpace' c = true) : Lexed isSpace' s ps := by
  induction h with
  | nil => exact .nil
  | space hc _ ih =>
    exact .space (hsub _ List.mem_cons_self) (ih fun c hc => hsub c (List.mem_cons_of_mem _ hc))
  | lexeme hl hstop _ ih =>
    exact .lexeme hl hstop (ih fun c hc => hsub c (List.mem_cons_of_mem _ hc))

omit hspace in
theorem Lexed.isSpace_of_mem {s : Text} (h : Lexed isSpace s ps) (hc : .space c ∈ ps) :
    isSpace c = true := by
  induction h with
  | nil => cases hc
  | space hc' _ ih =>
    rcases List.mem_cons.1 hc with heq | hc
    · cases heq
      exact hc'
    · exact ih hc
  | lexeme _ _ _ ih => exact ih ((List.mem_cons.1 hc).resolve_left nofun)

omit hspace in
theorem Lexed.spelled_of_mem {s : Text} (h : Lexed isSpace s ps) {l : Lexeme Char} {t : Text}
    (hl : .lexeme l t ∈ ps) : Spelled l t := by
  induction h with
  | nil => cases hl
  | space _ _ ih => exact ih ((List.mem_cons.1 hl).resolve_left nofun)
  | lexeme hl' _ _ ih =>
    rcases List.mem_cons.1 hl with heq | hl
    · cases heq
      exact hl'
    · exact ih hl

omit hspace in
/-- Where there is no lexeme a text is not cut. -/
theorem not_lexed (hc : isSpace c = false) {e : Fault} (he : lexeme Char.toNat c cs = .error e) :
    ¬Lexed isSpace (c :: cs) ps := by
  intro h
  obtain ⟨l, t, rest, ps', hlexeme, -⟩ := (lexed_lexeme hc).1 h
  rw [he] at hlexeme
  cases hlexeme

end

/-! ### Texts one after the other -/

/-- A lexeme that stops goes on stopping before a text that begins with no lexeme. -/
theorem Stops.append {l : Lexeme Char} {rest s : Text} (h : Stops l rest)
    (hs : ∀ c ∈ s.head?, kind c.toNat = .other) : Stops l (rest ++ s) := by
  have hother : ∀ c ∈ s.head?, isDigit c.toNat = false ∧ isWordPart c.toNat = false ∧ c ≠ '=' ∧
      c ≠ '.' := by
    intro c hc
    have hk := hs c hc
    have hdigit : isDigit c.toNat = false := Bool.eq_false_iff.2 fun h => by
      rw [kind_digit h] at hk
      cases hk
    have hstart : isWordStart c.toNat = false := Bool.eq_false_iff.2 fun h => by
      rw [kind_word h] at hk
      cases hk
    refine ⟨hdigit, ?_, ?_, ?_⟩
    · rw [isWordPart, hdigit, hstart]
      rfl
    · rintro rfl
      cases hk
    · rintro rfl
      cases hk
  cases rest with
  | nil =>
    rw [List.nil_append]
    cases l with
    | symbol x =>
      cases x with
      | lt => exact fun heq => (hother _ heq).2.2.1 rfl
      | gt => exact fun heq => (hother _ heq).2.2.1 rfl
      | _ => trivial
    | string content => trivial
    | number text p =>
      rintro c cs rfl
      obtain ⟨hdigit, -, -, hdot⟩ := hother c rfl
      rw [inNumber, hdigit, beq_eq_false_iff_ne.2 fun h => hdot (Char.toNat_inj.1 h)]
      rfl
    | word text => exact fun c hc => (hother c hc).2.1
  | cons c rest =>
    cases l with
    | symbol x => cases x <;> trivial
    | string content => trivial
    | number text p =>
      rintro d ds heq
      obtain ⟨rfl, rfl⟩ := List.cons.inj heq
      have hnext : inNumber Char.toNat c rest = false := h c rest rfl
      cases rest with
      | cons e rest => exact hnext
      | nil =>
        have hdigit : (s.head?.any fun d => isDigit d.toNat) = false := by
          cases hs' : s.head? with
          | none => rfl
          | some e => exact (hother e hs').1
        change (isDigit c.toNat || (c.toNat == '.'.toNat && s.head?.any _)) = false
        rw [hdigit]
        exact hnext
    | word text => exact h

/-- **Texts are cut one after the other**, if no lexeme goes on. -/
theorem Lexed.append {isSpace : Char → Bool} {s s' : Text} {ps qs : List Piece}
    (h : Lexed isSpace s ps) (h' : Lexed isSpace s' qs)
    (hs : ∀ c ∈ s'.head?, kind c.toNat = .other) : Lexed isSpace (s ++ s') (ps ++ qs) := by
  induction h with
  | nil => exact h'
  | space hc _ ih => exact .space hc ih
  | @lexeme l t s ps hl hstop _ ih =>
    rw [List.append_assoc]
    exact .lexeme hl (hstop.append hs) ih

/-- Spaces that come first. -/
theorem Lexed.spaces {isSpace : Char → Bool} {sp s : Text} {ps : List Piece}
    (hsp : ∀ c ∈ sp, isSpace c = true) (h : Lexed isSpace s ps) :
    Lexed isSpace (sp ++ s) (sp.map .space ++ ps) := by
  induction sp with
  | nil => exact h
  | cons c sp ih =>
    exact .space (hsp c List.mem_cons_self) (ih fun d hd => hsp d (List.mem_cons_of_mem _ hd))

namespace Scanner

variable {τ ε : Type} (S : Scanner α τ ε)

/-- The tokens of pieces, from a position on. -/
def emit (E : Encoding α) : Nat → List Piece → Except ε (List (Spanned τ))
  | _, [] => .ok []
  | pos, .space c :: ps => emit E (pos + (E.text [c]).length) ps
  | pos, .lexeme l t :: ps => do
    let stop := pos + (E.text t).length
    let tok ← S.token pos (l.encode E)
    let toks ← emit E stop ps
    .ok (⟨tok, pos, stop⟩ :: toks)

/-- Spaces that come first are no tokens. -/
theorem emit_spaces (pos : Nat) (sp : Text) (ps : List Piece) :
    S.emit E pos (sp.map .space ++ ps) = S.emit E (pos + (E.text sp).length) ps := by
  induction sp generalizing pos with
  | nil => rfl
  | cons c sp ih =>
    have hlen : (E.text (c :: sp)).length = (E.text [c]).length + (E.text sp).length := by
      rw [← List.singleton_append, E.text_append, List.length_append]
    rw [List.map_cons, List.cons_append, emit, ih, hlen, Nat.add_assoc]

/-- The tokens of pieces one after the other. -/
theorem emit_append {isSpace : Char → Bool} {s : Text} {ps qs : List Piece}
    (h : Lexed isSpace s ps) {pos : Nat} {out out' : List (Spanned τ)}
    (hps : S.emit E pos ps = .ok out) (hqs : S.emit E (pos + (E.text s).length) qs = .ok out') :
    S.emit E pos (ps ++ qs) = .ok (out ++ out') := by
  induction h generalizing pos out with
  | nil =>
    cases hps
    exact hqs
  | @space c s ps _ _ ih =>
    have hlen : (E.text (c :: s)).length = (E.text [c]).length + (E.text s).length := by
      rw [← List.singleton_append, E.text_append, List.length_append]
    rw [hlen, ← Nat.add_assoc] at hqs
    exact ih hps hqs
  | @lexeme l t s ps _ _ _ ih =>
    rw [E.text_append, List.length_append, ← Nat.add_assoc] at hqs
    simp only [emit, except_bind_eq_ok] at hps
    obtain ⟨tok, htok, toks, htoks, heq⟩ := hps
    cases heq
    rw [List.cons_append, emit]
    simp only [except_bind_eq_ok]
    exact ⟨tok, htok, _, ih htoks hqs, rfl⟩

variable {S} {isSpace : Char → Bool}

/-- Nothing comes of nothing. -/
theorem lexed_nil_iff {pos : Nat} {out : List (Spanned τ)} : (.ok [] : Except ε _) = .ok out ↔
    ∃ ps, Lexed isSpace [] ps ∧ S.emit E pos ps = .ok out := by
  constructor
  · intro h
    exact ⟨[], .nil, h⟩
  · rintro ⟨ps, h, hemit⟩
    obtain rfl := h.eq_nil
    exact hemit

theorem loop_eq_ok (hcode : S.code = E.code) (hspace : Spaces E S.space isSpace) {fuel : Nat}
    {s : Text} (hfuel : (E.text s).length ≤ fuel) {pos : Nat} {out : List (Spanned τ)} :
    S.loop fuel pos (E.text s) = .ok out ↔
      ∃ ps, Lexed isSpace s ps ∧ S.emit E pos ps = .ok out := by
  induction fuel generalizing s pos out with
  | zero =>
    obtain rfl : s = [] := List.eq_nil_of_length_eq_zero
      (Nat.le_zero.1 ((E.length_le_text s).trans hfuel))
    exact lexed_nil_iff
  | succ fuel ih =>
    cases s with
    | nil => exact lexed_nil_iff
    | cons c cs =>
      cases hc : isSpace c with
      | true =>
        obtain ⟨u, henc, hu⟩ := hspace.of_space c hc
        have htext : E.text (c :: cs) = u :: E.text cs := by rw [E.text_cons, henc]; rfl
        rw [htext, List.length_cons] at hfuel
        rw [htext, loop, if_pos hu, ih (by omega)]
        have hlen : (E.text [c]).length = 1 := by rw [E.text_cons, henc]; rfl
        constructor
        · rintro ⟨ps, h, hemit⟩
          refine ⟨.space c :: ps, .space hc h, ?_⟩
          rw [emit, hlen]
          exact hemit
        · rintro ⟨ps, h, hemit⟩
          obtain ⟨ps', rfl, h'⟩ := (lexed_space hspace hc).1 h
          rw [emit, hlen] at hemit
          exact ⟨ps', h', hemit⟩
      | false =>
        obtain ⟨u, hlt, hu, henc, htext⟩ | ⟨u, us, hlarge, hu, -, henc, htext⟩ :=
          E.text_cons_cases c cs
        · rw [htext, List.length_cons] at hfuel
          rw [htext, loop, if_neg (by rw [hspace.of_not c u [] hc henc]; nofun), hcode,
            lexeme_text hlt hu henc]
          cases hlexeme : lexeme Char.toNat c cs with
          | error e => exact ⟨nofun, fun ⟨ps, h, _⟩ => (not_lexed hc hlexeme h).elim⟩
          | ok p =>
            obtain ⟨l, rest⟩ := p
            obtain ⟨t, heq, hl, hstop⟩ := exists_spelled hlexeme
            have hunits := congrArg E.text heq
            rw [htext, E.text_append] at hunits
            have hlen := congrArg List.length hunits
            rw [List.length_append, List.length_cons] at hlen
            have hpos : 0 < (E.text (c :: t)).length :=
              (Nat.succ_pos _).trans_le (E.length_le_text (c :: t))
            have hturn :
                (u :: E.text cs).length - (E.text rest).length = (E.text (c :: t)).length := by
              rw [List.length_cons]
              omega
            simp only [Except.map, Prod.map, hturn, except_bind_eq_ok, ih (s := rest) (by omega)]
            constructor
            · rintro ⟨tok, htok, toks, ⟨ps, h, hemit⟩, hout⟩
              refine ⟨.lexeme l (c :: t) :: ps, heq ▸ .lexeme hl hstop h, ?_⟩
              rw [emit]
              simp only [except_bind_eq_ok]
              exact ⟨tok, htok, toks, hemit, hout⟩
            · rintro ⟨ps, h, hemit⟩
              obtain ⟨l', t', rest', ps', hlexeme', rfl, rfl, h'⟩ := (lexed_lexeme hc).1 h
              obtain ⟨rfl, rfl⟩ := Prod.mk.inj (Except.ok.inj (hlexeme.symm.trans hlexeme'))
              obtain rfl : t' = t := List.append_cancel_right (List.cons.inj heq).2
              rw [emit] at hemit
              simp only [except_bind_eq_ok] at hemit
              obtain ⟨tok, htok, toks, hemit, hout⟩ := hemit
              exact ⟨tok, htok, toks, ⟨ps', h', hemit⟩, hout⟩
        · rw [htext, loop, if_neg (by rw [hspace.of_not c u us hc henc]; nofun), hcode,
            lexeme_beyond hu]
          exact ⟨nofun, fun ⟨ps, h, _⟩ => (not_lexed hc (lexeme_beyond hlarge cs) h).elim⟩

/-- **What is scanned** are the tokens of the pieces. -/
theorem scan_eq_ok (hcode : S.code = E.code) (hspace : Spaces E S.space isSpace) {s : Text}
    {out : List (Spanned τ)} :
    S.scan (E.text s) = .ok out ↔ ∃ ps, Lexed isSpace s ps ∧ S.emit E 0 ps = .ok out :=
  loop_eq_ok hcode hspace le_rfl

end Scanner

end Lib.Scan
