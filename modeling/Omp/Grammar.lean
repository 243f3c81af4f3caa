import Omp.Tokens

/-!
# The grammar of queries

The parser reads a predicate by recursive descent: `or` binds loosest, then `and`, both to the left,
then `not`.  What it accepts are the tokens of an expression, with parentheses where the precedences
ask for them and wherever else they are written.

## Main definitions

* `Query.parse` : the parser.
* `Shown` : expressions as they are written, with parentheses that are not needed.
* `Shown.print` : the tokens of what is written.
* `Prints` : a text that is cut into tokens.

## Main results

* `parseOr_reads`, `parseOr_sound` : the parser reads what is printed, and nothing else.
* `parse_exact` : an expression is read from each of its prints, and only prints are read.
-/

namespace Omp

namespace Query

open Lib Scan

/-! ### The parser -/

/-- What is read, with the tokens that follow. -/
abbrev Read (α : Type) := α × List Token

/-- The error at the next token, which is not what is wanted. -/
def wrong (want : Wanted) : List Token → QueryError
  | [] => ⟨0, .expected want none⟩
  | t :: _ => ⟨t.bytePos, .expected want (some t.kind)⟩

/-- `expect`. -/
def expect (want : Tok) : List Token → Except QueryError (List Token)
  | [] => .error (wrong (.token want) [])
  | t :: ts => if t.kind = want then .ok ts else .error (wrong (.token want) (t :: ts))

/-- The names after the first, each after a point. -/
def parsePathTail : List Token → Except QueryError (Read FieldPath)
  | ⟨.dot, _⟩ :: ⟨.ident s, _⟩ :: ts => do
    let (path, rest) ← parsePathTail ts
    .ok (s :: path, rest)
  | ⟨.dot, _⟩ :: ts => .error (wrong .identAfterDot ts)
  | ts => .ok ([], ts)

/-- `parse_field_path`. -/
def parseFieldPath : List Token → Except QueryError (Read FieldPath)
  | ⟨.ident s, _⟩ :: ts => do
    let (path, rest) ← parsePathTail ts
    .ok (s :: path, rest)
  | ts => .error (wrong .fieldPath ts)

/-- The literal of a token. -/
def Tok.literal? : Tok → Option Literal
  | str s => some (.string s)
  | int n => some (.int n)
  | float x => some (.float x)
  | bool b => some (.bool b)
  | null => some .null
  | _ => none

/-- The operator of a token. -/
def Tok.op? : Tok → Option Op
  | op o => some o
  | _ => none

/-- What is read from one token. -/
def parseToken {α : Type} (want : Wanted) (get : Tok → Option α) :
    List Token → Except QueryError (Read α)
  | [] => .error (wrong want [])
  | t :: ts => match get t.kind with
    | some a => .ok (a, ts)
    | none => .error (wrong want (t :: ts))

/-- `parse_literal`. -/
def parseLiteral : List Token → Except QueryError (Read Literal) := parseToken .literal Tok.literal?

/-- The operator between a path and a literal. -/
def parseOp : List Token → Except QueryError (Read Op) := parseToken .operator Tok.op?

/-- A comparison. -/
def parseCompare (ts : List Token) : Except QueryError (Read Expr) := do
  let (path, ts) ← parseFieldPath ts
  let (op, ts) ← parseOp ts
  let (value, ts) ← parseLiteral ts
  .ok (.atom (.compare path op value), ts)

/-- `exists`, after its name. -/
def parseExists (ts : List Token) : Except QueryError (Read Expr) := do
  let ts ← expect .lparen ts
  let (path, ts) ← parseFieldPath ts
  let ts ← expect .rparen ts
  .ok (.atom (.exists path), ts)

/-- The two operators that join expressions. -/
inductive Join where
  | or | and
  deriving DecidableEq

/-- The token of an operator. -/
def Join.tok : Join → Tok
  | or => .or
  | and => .and

/-- What it makes of two expressions. -/
def Join.mk : Join → Expr → Expr → Expr
  | or => .or
  | and => .and

/-- The loop over what is joined to the left.  A turn takes a token at least. -/
def joinLoop (j : Join) (operand : List Token → Except QueryError (Read Expr)) :
    Nat → Expr → List Token → Except QueryError (Read Expr)
  | 0, left, ts => .ok (left, ts)
  | _ + 1, left, [] => .ok (left, [])
  | fuel + 1, left, t :: ts =>
    if t.kind = j.tok then do
      let (right, rest) ← operand ts
      joinLoop j operand fuel (j.mk left right) rest
    else .ok (left, t :: ts)

/-- What is joined to the left. -/
def parseJoined (j : Join) (operand : List Token → Except QueryError (Read Expr))
    (ts : List Token) : Except QueryError (Read Expr) := do
  let (left, rest) ← operand ts
  joinLoop j operand rest.length left rest

/-- `parse_and`. -/
def parseAnd (parseNot : List Token → Except QueryError (Read Expr)) :
    List Token → Except QueryError (Read Expr) :=
  parseJoined .and parseNot

/-- `parse_or`. -/
def parseOr (parseNot : List Token → Except QueryError (Read Expr)) :
    List Token → Except QueryError (Read Expr) :=
  parseJoined .or (parseAnd parseNot)

/-- `parse_not`, with `parse_primary`.  A call within it has a token less, at least. -/
def parseNot : Nat → List Token → Except QueryError (Read Expr)
  | 0, ts => .error (wrong .fieldPath ts)
  | _ + 1, [] => .error (wrong .fieldPath [])
  | fuel + 1, t :: ts =>
    match t.kind with
    | .not => do
      let (inner, rest) ← parseNot fuel ts
      .ok (.not inner, rest)
    | .lparen => do
      let (e, rest) ← parseOr (parseNot fuel) ts
      let rest ← expect .rparen rest
      .ok (e, rest)
    | .exists => parseExists ts
    | _ => parseCompare (t :: ts)

/-- `parse`. -/
def parse (input : Text) : Except QueryError Expr := do
  let tokens ← tokenize input
  let (expr, rest) ← parseOr (parseNot (tokens.length + 1)) tokens
  match rest with
  | [] => .ok expr
  | t :: _ => .error ⟨t.bytePos, .unexpectedToken t.kind⟩

/-! ### What is written -/

/-- An expression as it is written, with parentheses. -/
inductive Shown where
  | join (j : Join) (a b : Shown)
  | not (a : Shown)
  | atom (a : Atom)
  | paren (a : Shown)

/-- The expression, without parentheses. -/
def Shown.strip : Shown → Expr
  | join j a b => j.mk a.strip b.strip
  | not a => .not a.strip
  | atom a => .atom a
  | paren a => a.strip

/-- An expression with no parentheses but those it needs. -/
def Expr.shown : Expr → Shown
  | and a b => .join .and a.shown b.shown
  | or a b => .join .or a.shown b.shown
  | not a => .not a.shown
  | atom a => .atom a

theorem strip_shown (e : Expr) : e.shown.strip = e := by
  induction e with
  | and a b iha ihb => exact congrArg₂ Expr.and iha ihb
  | or a b iha ihb => exact congrArg₂ Expr.or iha ihb
  | not a ih => exact congrArg Expr.not ih
  | atom a => rfl

/-- The tokens of a path. -/
def pathToks : FieldPath → List Tok
  | [] => []
  | s :: path => .ident s :: path.flatMap fun s => [.dot, .ident s]

/-- The token of a literal. -/
def Literal.tok : Literal → Tok
  | string s => .str s
  | int n => .int n
  | float x => .float x
  | bool b => .bool b
  | null => .null

/-- The tokens of an atom. -/
def Atom.toks : Atom → List Tok
  | compare path op value => pathToks path ++ [.op op, value.tok]
  | .exists path => .exists :: .lparen :: pathToks path ++ [.rparen]

/-- How tightly an operator binds. -/
def Join.level : Join → Nat
  | or => 0
  | and => 1

/-- Parentheses, where they are needed. -/
def parens (need : Bool) (ts : List Tok) : List Tok :=
  if need then .lparen :: (ts ++ [.rparen]) else ts

/-- **The tokens of what is written**, where an operator must bind at least as tightly as a level:
`or` binds at 0, `and` at 1, and all else at 2. -/
def Shown.print : Shown → Nat → List Tok
  | join j a b, n => parens (j.level < n) (a.print j.level ++ j.tok :: b.print (j.level + 1))
  | not a, _ => .not :: a.print 2
  | atom a, _ => a.toks
  | paren a, _ => .lparen :: (a.print 0 ++ [.rparen])

/-- The path of an atom. -/
def Atom.path : Atom → FieldPath
  | compare path _ _ => path
  | .exists path => path

/-- The atoms of an expression. -/
def Shown.atoms : Shown → List Atom
  | join _ a b => a.atoms ++ b.atoms
  | not a => a.atoms
  | atom a => [a]
  | paren a => a.atoms

/-- Each path has a name. -/
def Shown.Named (p : Shown) : Prop := ∀ a ∈ p.atoms, a.path ≠ []

/-! ### Tokens that are consumed -/

/-- The tokens that come first are of these kinds, and the rest follows. -/
def Consumes (toks : List Tok) (ts rest : List Token) : Prop :=
  ∃ us : List Token, us.map Token.kind = toks ∧ ts = us ++ rest

variable {toks toks' : List Tok} {k : Tok} {ts rest : List Token}

@[simp] theorem consumes_nil : Consumes [] ts rest ↔ ts = rest := by
  simp [Consumes]

theorem consumes_cons : Consumes (k :: toks) ts rest ↔
    ∃ t ts', ts = t :: ts' ∧ t.kind = k ∧ Consumes toks ts' rest := by
  constructor
  · rintro ⟨us, hus, rfl⟩
    obtain ⟨t, us, rfl, hk, hus⟩ := List.map_eq_cons_iff.1 hus
    exact ⟨t, us ++ rest, rfl, hk, us, hus, rfl⟩
  · rintro ⟨t, ts', rfl, rfl, us, hus, rfl⟩
    exact ⟨t :: us, congrArg _ hus, rfl⟩

theorem consumes_append : Consumes (toks ++ toks') ts rest ↔
    ∃ mid, Consumes toks ts mid ∧ Consumes toks' mid rest := by
  constructor
  · rintro ⟨us, hus, rfl⟩
    obtain ⟨us₁, us₂, rfl, h₁, h₂⟩ := List.map_eq_append_iff.1 hus
    exact ⟨us₂ ++ rest, ⟨us₁, h₁, List.append_assoc ..⟩, us₂, h₂, rfl⟩
  · rintro ⟨_, ⟨us₁, h₁, rfl⟩, us₂, h₂, rfl⟩
    exact ⟨us₁ ++ us₂, by rw [List.map_append, h₁, h₂], (List.append_assoc ..).symm⟩

theorem consumes_cons_mid : Consumes (k :: toks) ts rest ↔
    ∃ mid, Consumes [k] ts mid ∧ Consumes toks mid rest :=
  @consumes_append [k] toks ts rest

theorem Consumes.length (h : Consumes toks ts rest) : ts.length = toks.length + rest.length := by
  obtain ⟨us, rfl, rfl⟩ := h
  rw [List.length_append, List.length_map]

theorem consumes_singleton : Consumes [k] ts rest ↔ ∃ t, ts = t :: rest ∧ t.kind = k := by
  rw [consumes_cons]
  simp only [consumes_nil]
  exact ⟨fun ⟨t, _, hts, hk, h⟩ => ⟨t, h ▸ hts, hk⟩, fun ⟨t, hts, hk⟩ => ⟨t, rest, hts, hk, rfl⟩⟩

/-! ### Atoms -/

theorem expect_eq_ok : expect k ts = .ok rest ↔ Consumes [k] ts rest := by
  rw [consumes_singleton]
  cases ts with
  | nil => exact iff_of_false nofun nofun
  | cons t ts =>
    rw [expect]
    split_ifs with hk
    · constructor
      · intro h
        cases h
        exact ⟨t, rfl, hk⟩
      · rintro ⟨t', heq, -⟩
        cases heq
        rfl
    · refine iff_of_false nofun ?_
      rintro ⟨t', heq, hk'⟩
      cases heq
      exact hk hk'

theorem parseToken_eq_ok {α : Type} {want : Wanted} {get : Tok → Option α} {a : α}
    (hget : ∀ k', get k' = some a ↔ k' = k) :
    parseToken want get ts = .ok (a, rest) ↔ Consumes [k] ts rest := by
  rw [consumes_singleton]
  cases ts with
  | nil => exact iff_of_false nofun nofun
  | cons t ts =>
    rw [parseToken]
    constructor
    · intro h
      cases hk : get t.kind with
      | none => rw [hk] at h; cases h
      | some b =>
        rw [hk] at h
        cases h
        exact ⟨t, rfl, (hget _).1 hk⟩
    · rintro ⟨t', heq, hk⟩
      cases heq
      rw [(hget _).2 hk]

theorem parseOp_eq_ok {o : Op} : parseOp ts = .ok (o, rest) ↔ Consumes [.op o] ts rest :=
  parseToken_eq_ok fun k => by cases k <;> simp [Tok.op?]

theorem parseLiteral_eq_ok {v : Literal} :
    parseLiteral ts = .ok (v, rest) ↔ Consumes [v.tok] ts rest :=
  parseToken_eq_ok fun k => by
    constructor
    · intro h
      cases k <;> cases h <;> rfl
    · rintro rfl
      cases v <;> rfl

/-- What follows a path does not go on with a point. -/
def PathStops (rest : List Token) : Prop := ∀ t ∈ rest.head?, t.kind ≠ .dot

theorem parsePathTail_eq_ok {path : FieldPath} : parsePathTail ts = .ok (path, rest) ↔
    Consumes (path.flatMap fun s => [.dot, .ident s]) ts rest ∧ PathStops rest := by
  fun_induction parsePathTail ts generalizing path with
  | case1 pos s pos' ts ih =>
    rw [except_bind_eq_ok]
    constructor
    · rintro ⟨⟨path', rest'⟩, htail, heq⟩
      cases heq
      obtain ⟨hts, hstop⟩ := ih.1 htail
      exact ⟨consumes_cons.2 ⟨_, _, rfl, rfl, consumes_cons.2 ⟨_, _, rfl, rfl, hts⟩⟩, hstop⟩
    · rintro ⟨hts, hstop⟩
      cases path with
      | nil =>
        obtain rfl := consumes_nil.1 hts
        exact absurd rfl (hstop _ rfl)
      | cons s' path =>
        obtain ⟨t, ts', heq, -, hts⟩ := consumes_cons.1 hts
        cases heq
        obtain ⟨t, ts', heq, hk, hts'⟩ := consumes_cons.1 hts
        cases heq
        cases hk
        exact ⟨(path, rest), ih.2 ⟨hts', hstop⟩, rfl⟩
  | case2 pos ts hne =>
    refine iff_of_false nofun ?_
    rintro ⟨hts, hstop⟩
    cases path with
    | nil =>
      obtain rfl := consumes_nil.1 hts
      exact absurd rfl (hstop _ rfl)
    | cons s' path =>
      obtain ⟨t, ts', heq, hk, hts⟩ := consumes_cons.1 hts
      cases heq
      obtain ⟨⟨kind, pos'⟩, ts', rfl, hk', hts⟩ := consumes_cons.1 hts
      cases hk'
      exact hne _ _ _ rfl
  | case3 ts hne hne' =>
    constructor
    · intro h
      cases h
      refine ⟨consumes_nil.2 rfl, fun t ht hk => ?_⟩
      obtain ⟨l, hl⟩ := List.head?_eq_some_iff.1 ht
      obtain ⟨kind, pos⟩ := t
      exact hne' pos l (hl.trans (congrArg (⟨·, pos⟩ :: l) hk))
    · rintro ⟨hts, hstop⟩
      cases path with
      | nil => rw [consumes_nil.1 hts]
      | cons s' path =>
        obtain ⟨⟨kind, pos'⟩, ts', rfl, hk, hts⟩ := consumes_cons.1 hts
        cases hk
        exact (hne' _ _ rfl).elim

theorem parseFieldPath_eq_ok {path : FieldPath} : parseFieldPath ts = .ok (path, rest) ↔
    path ≠ [] ∧ Consumes (pathToks path) ts rest ∧ PathStops rest := by
  unfold parseFieldPath
  split
  · rename_i s pos ts
    rw [except_bind_eq_ok]
    constructor
    · rintro ⟨⟨path', rest'⟩, htail, heq⟩
      cases heq
      obtain ⟨hts, hstop⟩ := parsePathTail_eq_ok.1 htail
      exact ⟨nofun, consumes_cons.2 ⟨_, _, rfl, rfl, hts⟩, hstop⟩
    · rintro ⟨hne, hts, hstop⟩
      cases path with
      | nil => exact absurd rfl hne
      | cons s' path =>
        obtain ⟨t, ts', heq, hk, hts'⟩ := consumes_cons.1 hts
        cases heq
        cases hk
        exact ⟨(path, rest), parsePathTail_eq_ok.2 ⟨hts', hstop⟩, rfl⟩
  · rename_i hident
    refine iff_of_false nofun ?_
    rintro ⟨hne, hts, -⟩
    cases path with
    | nil => exact hne rfl
    | cons s' path =>
      obtain ⟨⟨kind, pos⟩, ts', rfl, hk, -⟩ := consumes_cons.1 hts
      cases hk
      exact hident _ _ _ rfl

/-- **A comparison** is read from its tokens. -/
theorem parseCompare_eq_ok {e : Expr} : parseCompare ts = .ok (e, rest) ↔
    ∃ path op value, e = .atom (.compare path op value) ∧ path ≠ [] ∧
      Consumes (Atom.compare path op value).toks ts rest := by
  simp only [parseCompare, except_bind_eq_ok, Prod.exists, parseFieldPath_eq_ok, parseOp_eq_ok,
    parseLiteral_eq_ok]
  constructor
  · rintro ⟨path, mid, ⟨hne, hpath, -⟩, op, mid', hop, value, mid'', hvalue, heq⟩
    cases heq
    refine ⟨path, op, value, rfl, hne, consumes_append.2 ⟨mid, hpath, ?_⟩⟩
    exact consumes_cons_mid.2 ⟨mid', hop, hvalue⟩
  · rintro ⟨path, op, value, rfl, hne, hts⟩
    obtain ⟨mid, hpath, hmid⟩ := consumes_append.1 hts
    obtain ⟨mid', hop, hvalue⟩ := consumes_cons_mid.1 hmid
    refine ⟨path, mid, ⟨hne, hpath, ?_⟩, op, mid', hop, value, rest, hvalue, rfl⟩
    obtain ⟨t, rfl, hk⟩ := consumes_singleton.1 hop
    intro t' ht'
    cases ht'
    rw [hk]
    nofun

/-- **`exists`** is read from its tokens. -/
theorem parseExists_eq_ok {e : Expr} : parseExists ts = .ok (e, rest) ↔
    ∃ path, e = .atom (.exists path) ∧ path ≠ [] ∧
      Consumes (.lparen :: pathToks path ++ [.rparen]) ts rest := by
  simp only [parseExists, except_bind_eq_ok, Prod.exists, parseFieldPath_eq_ok, expect_eq_ok]
  constructor
  · rintro ⟨mid, hopen, path, mid', ⟨hne, hpath, -⟩, mid'', hclose, heq⟩
    cases heq
    refine ⟨path, rfl, hne, ?_⟩
    exact consumes_cons_mid.2 ⟨mid, hopen, consumes_append.2 ⟨mid', hpath, hclose⟩⟩
  · rintro ⟨path, rfl, hne, hts⟩
    obtain ⟨mid, hopen, hmid⟩ := consumes_cons_mid.1 hts
    obtain ⟨mid', hpath, hclose⟩ := consumes_append.1 hmid
    refine ⟨mid, hopen, path, mid', ⟨hne, hpath, ?_⟩, rest, hclose, rfl⟩
    obtain ⟨t, rfl, hk⟩ := consumes_singleton.1 hclose
    intro t' ht'
    cases ht'
    rw [hk]
    nofun

/-! ### What is read -/

section Joined

variable {j : Join} {operand : List Token → Except QueryError (Read Expr)} {fuel : Nat}

/-- What follows does not go on at a level. -/
def Stops (level : Nat) (rest : List Token) : Prop :=
  ∀ t ∈ rest.head?, ∀ j : Join, level ≤ j.level → t.kind ≠ j.tok

/-- A parser reads what is printed at a level, if there are fewer tokens than its fuel. -/
def Reads (operand : List Token → Except QueryError (Read Expr)) (level fuel : Nat) : Prop :=
  ∀ (p : Shown) (ts rest : List Token), p.Named → Consumes (p.print level) ts rest →
    Stops level rest → ts.length < fuel → operand ts = .ok (p.strip, rest)

/-- A parser reads nothing but what is printed at a level. -/
def Sound (operand : List Token → Except QueryError (Read Expr)) (level : Nat) : Prop :=
  ∀ (ts rest : List Token) (e : Expr), operand ts = .ok (e, rest) →
    ∃ p : Shown, p.Named ∧ p.strip = e ∧ Consumes (p.print level) ts rest

theorem Join.tok_inj {j j' : Join} (h : j.tok = j'.tok) : j = j' := by
  cases j <;> cases j' <;> first | rfl | cases h

/-- Below the level of an operator, all else is printed alike. -/
theorem print_succ (j : Join) (p : Shown) (h : ∀ a b, p ≠ .join j a b) :
    p.print j.level = p.print (j.level + 1) := by
  cases p with
  | join j' a b =>
    cases j <;> cases j' <;> first | exact absurd rfl (h a b) | rfl
  | not a => rfl
  | atom a => rfl
  | paren a => rfl

theorem print_join (j : Join) (a b : Shown) :
    (Shown.join j a b).print j.level = a.print j.level ++ j.tok :: b.print (j.level + 1) := by
  rw [Shown.print, decide_eq_false (lt_irrefl _)]
  rfl

/-- What binds tightly enough at a level is written so at the level below. -/
theorem exists_print_succ (j : Join) (p : Shown) (hp : p.Named) :
    ∃ q : Shown, q.Named ∧ q.strip = p.strip ∧ q.print j.level = p.print (j.level + 1) := by
  by_cases h : ∃ a b, p = .join j a b
  · obtain ⟨a, b, rfl⟩ := h
    refine ⟨.paren (.join j a b), hp, rfl, ?_⟩
    cases j <;> rfl
  · exact ⟨p, hp, rfl, print_succ j p fun a b heq => h ⟨a, b, heq⟩⟩

/-- What is left is shorter, so that the fuel does not matter. -/
theorem joinLoop_fuel {level : Nat} (hsound : Sound operand level) {n m : Nat}
    (hn : ts.length ≤ n) (hm : ts.length ≤ m) (left : Expr) :
    joinLoop j operand n left ts = joinLoop j operand m left ts := by
  induction n generalizing m left ts with
  | zero =>
    obtain rfl := List.eq_nil_of_length_eq_zero (Nat.le_zero.1 hn)
    cases m <;> rfl
  | succ n ih =>
    cases ts with
    | nil => cases m <;> rfl
    | cons t ts =>
      cases m with
      | zero => cases hm
      | succ m =>
        rw [joinLoop, joinLoop]
        split_ifs
        · cases hoperand : operand ts with
          | error e => rfl
          | ok r =>
            obtain ⟨right, rest⟩ := r
            obtain ⟨p, -, -, hts⟩ := hsound _ _ _ hoperand
            have hlen := hts.length
            rw [List.length_cons] at hn hm
            exact ih (by omega) (by omega) _
        · rfl

/-- **The loop goes on from what is printed to the left.** -/
theorem parseJoined_eq (hsound : Sound operand (j.level + 1))
    (hreads : Reads operand (j.level + 1) fuel) (p : Shown) {ts rest : List Token}
    (hp : p.Named) (hts : Consumes (p.print j.level) ts rest) (hstop : Stops (j.level + 1) rest)
    (hfuel : ts.length < fuel) :
    parseJoined j operand ts = joinLoop j operand rest.length p.strip rest := by
  induction p generalizing ts rest with
  | join j' a b iha ihb =>
    by_cases hj : j' = j
    · subst hj
      rw [print_join] at hts
      obtain ⟨mid, ha, hmid⟩ := consumes_append.1 hts
      obtain ⟨t, mid', rfl, hk, hb⟩ := consumes_cons.1 hmid
      have hstop' : Stops (j'.level + 1) (t :: mid') := by
        intro t' ht' j hlevel heq
        cases ht'
        obtain rfl := Join.tok_inj (hk.symm.trans heq)
        omega
      have hlen := ha.length
      rw [List.length_cons] at hlen
      have hlenb := hb.length
      rw [iha (fun c hc => hp c (List.mem_append_left _ hc)) ha hstop' hfuel, List.length_cons,
        joinLoop, if_pos hk,
        hreads b mid' rest (fun c hc => hp c (List.mem_append_right _ hc)) hb hstop (by omega)]
      exact joinLoop_fuel hsound (by omega) le_rfl _
    · rw [print_succ j _ fun a b heq => hj (Shown.join.inj heq).1] at hts
      rw [parseJoined, hreads _ ts rest hp hts hstop hfuel]
      rfl
  | not a =>
    rw [parseJoined, hreads _ ts rest hp hts hstop hfuel]
    rfl
  | atom a =>
    rw [parseJoined, hreads _ ts rest hp hts hstop hfuel]
    rfl
  | paren a =>
    rw [parseJoined, hreads _ ts rest hp hts hstop hfuel]
    rfl

theorem joinLoop_stops (n : Nat) (left : Expr) (hstop : Stops j.level rest) :
    joinLoop j operand n left rest = .ok (left, rest) := by
  cases n with
  | zero => rfl
  | succ n =>
    cases rest with
    | nil => rfl
    | cons t rest => rw [joinLoop, if_neg (hstop t rfl j le_rfl)]

/-- **What is joined is read.** -/
theorem parseJoined_reads (hsound : Sound operand (j.level + 1))
    (hreads : Reads operand (j.level + 1) fuel) : Reads (parseJoined j operand) j.level fuel := by
  intro p ts rest hp hts hstop hfuel
  have hstop' : Stops (j.level + 1) rest := fun t ht j' hj' => hstop t ht j' (by omega)
  rw [parseJoined_eq hsound hreads p hp hts hstop' hfuel, joinLoop_stops _ _ hstop]

theorem joinLoop_sound (hsound : Sound operand (j.level + 1)) {n : Nat} {q : Shown} (hq : q.Named)
    {e : Expr} (h : joinLoop j operand n q.strip ts = .ok (e, rest)) :
    ∃ (p : Shown) (more : List Tok), p.Named ∧ p.strip = e ∧ Consumes more ts rest ∧
      p.print j.level = q.print j.level ++ more := by
  induction n generalizing q ts with
  | zero =>
    cases h
    exact ⟨q, [], hq, rfl, consumes_nil.2 rfl, (List.append_nil _).symm⟩
  | succ n ih =>
    cases ts with
    | nil =>
      cases h
      exact ⟨q, [], hq, rfl, consumes_nil.2 rfl, (List.append_nil _).symm⟩
    | cons t ts =>
      rw [joinLoop] at h
      split_ifs at h with hk
      · obtain ⟨⟨right, mid⟩, hoperand, hloop⟩ := except_bind_eq_ok.1 h
        obtain ⟨b, hb, rfl, hts⟩ := hsound _ _ _ hoperand
        have hnamed : (Shown.join j q b).Named :=
          fun c hc => (List.mem_append.1 hc).elim (hq c) (hb c)
        obtain ⟨p, more, hp, he, hmore, hprint⟩ := ih hnamed hloop
        refine ⟨p, j.tok :: b.print (j.level + 1) ++ more, hp, he, ?_, ?_⟩
        · exact consumes_append.2 ⟨mid, consumes_cons.2 ⟨t, ts, rfl, hk, hts⟩, hmore⟩
        · rw [hprint, print_join, List.append_assoc]
      · cases h
        exact ⟨q, [], hq, rfl, consumes_nil.2 rfl, (List.append_nil _).symm⟩

/-- **What is read is joined.** -/
theorem parseJoined_sound (hsound : Sound operand (j.level + 1)) :
    Sound (parseJoined j operand) j.level := by
  intro ts rest e h
  obtain ⟨⟨left, mid⟩, hoperand, hloop⟩ := except_bind_eq_ok.1 h
  obtain ⟨a, ha, rfl, hts⟩ := hsound _ _ _ hoperand
  obtain ⟨q, hq, hstrip, hprint⟩ := exists_print_succ j a ha
  rw [← hstrip] at hloop
  obtain ⟨p, more, hp, he, hmore, heq⟩ := joinLoop_sound hsound hq hloop
  refine ⟨p, hp, he, ?_⟩
  rw [heq, hprint]
  exact consumes_append.2 ⟨mid, hts, hmore⟩

end Joined

/-- **The parser reads nothing but what is printed.** -/
theorem parseNot_sound (fuel : Nat) : Sound (parseNot fuel) 2 := by
  induction fuel with
  | zero => exact fun ts rest e h => nomatch h
  | succ fuel ih =>
    intro ts rest e h
    cases ts with
    | nil => cases h
    | cons t ts =>
      rw [parseNot] at h
      split at h
      · rename_i hk
        obtain ⟨⟨inner, mid⟩, hinner, heq⟩ := except_bind_eq_ok.1 h
        cases heq
        obtain ⟨p, hp, rfl, hts⟩ := ih _ _ _ hinner
        exact ⟨.not p, hp, rfl, consumes_cons.2 ⟨t, ts, rfl, hk, hts⟩⟩
      · rename_i hk
        obtain ⟨⟨inner, mid⟩, hinner, h⟩ := except_bind_eq_ok.1 h
        obtain ⟨mid', hclose, heq⟩ := except_bind_eq_ok.1 h
        cases heq
        obtain ⟨p, hp, rfl, hts⟩ :=
          parseJoined_sound (j := .or) (parseJoined_sound (j := .and) ih) _ _ _ hinner
        refine ⟨.paren p, hp, rfl, consumes_cons.2 ⟨t, ts, rfl, hk, ?_⟩⟩
        exact consumes_append.2 ⟨mid, hts, expect_eq_ok.1 hclose⟩
      · rename_i hk
        obtain ⟨path, rfl, hpath, hts⟩ := parseExists_eq_ok.1 h
        refine ⟨.atom (.exists path), ?_, rfl, consumes_cons.2 ⟨t, ts, rfl, hk, hts⟩⟩
        exact List.forall_mem_singleton.2 hpath
      · obtain ⟨path, op, value, rfl, hpath, hts⟩ := parseCompare_eq_ok.1 h
        exact ⟨.atom (.compare path op value), List.forall_mem_singleton.2 hpath, rfl, hts⟩

theorem parseOr_sound (fuel : Nat) : Sound (parseOr (parseNot fuel)) 0 :=
  parseJoined_sound (j := .or) (parseJoined_sound (j := .and) (parseNot_sound fuel))

/-- **The parser reads what is printed.** -/
theorem parseNot_reads (fuel : Nat) : Reads (parseNot fuel) 2 fuel := by
  induction fuel with
  | zero => exact fun p ts rest _ _ _ h => nomatch h
  | succ fuel ih =>
    intro p ts rest hp hts hstop hfuel
    have hor : Reads (parseOr (parseNot fuel)) 0 fuel :=
      parseJoined_reads (j := .or) (parseJoined_sound (j := .and) (parseNot_sound fuel))
        (parseJoined_reads (j := .and) (parseNot_sound fuel) ih)
    -- what stands between parentheses
    have hparen : ∀ (p : Shown) (ts : List Token), p.Named → ts.length < fuel + 1 →
        Consumes (.lparen :: (p.print 0 ++ [.rparen])) ts rest →
        parseNot (fuel + 1) ts = .ok (p.strip, rest) := by
      intro p ts hp hfuel hts
      obtain ⟨t, ts, rfl, hk, hts⟩ := consumes_cons.1 hts
      obtain ⟨mid, hin, hclose⟩ := consumes_append.1 hts
      have hstop' : Stops 0 mid := by
        obtain ⟨t', rfl, hk'⟩ := consumes_singleton.1 hclose
        intro t'' ht'' j _ heq
        cases ht''
        rw [hk'] at heq
        cases j <;> cases heq
      rw [List.length_cons] at hfuel
      rw [parseNot, hk]
      dsimp only
      rw [hor p ts mid hp hin hstop' (by omega)]
      exact except_bind_eq_ok.2 ⟨(p.strip, mid), rfl,
        except_bind_eq_ok.2 ⟨rest, expect_eq_ok.2 hclose, rfl⟩⟩
    cases p with
    | join j a b =>
      refine hparen (.join j a b) ts hp hfuel ?_
      cases j <;> exact hts
    | paren a => exact hparen a ts hp hfuel hts
    | not a =>
      obtain ⟨t, ts, rfl, hk, hts⟩ := consumes_cons.1 hts
      rw [List.length_cons] at hfuel
      rw [parseNot, hk]
      dsimp only
      rw [ih a ts rest hp hts hstop (by omega)]
      rfl
    | atom a =>
      cases a with
      | compare path op value =>
        have hpath : path ≠ [] := hp _ List.mem_cons_self
        obtain ⟨s, path, rfl⟩ := List.exists_cons_of_ne_nil hpath
        obtain ⟨t, ts', rfl, hk, -⟩ := consumes_cons.1 hts
        rw [parseNot, hk]
        exact parseCompare_eq_ok.2 ⟨s :: path, op, value, rfl, hpath, hts⟩
      | «exists» path =>
        have hpath : path ≠ [] := hp _ List.mem_cons_self
        obtain ⟨t, ts', rfl, hk, hts'⟩ := consumes_cons.1 hts
        rw [parseNot, hk]
        exact parseExists_eq_ok.2 ⟨path, rfl, hpath, hts'⟩

theorem parseOr_reads (fuel : Nat) : Reads (parseOr (parseNot fuel)) 0 fuel :=
  parseJoined_reads (j := .or) (parseJoined_sound (j := .and) (parseNot_sound fuel))
    (parseJoined_reads (j := .and) (parseNot_sound fuel) (parseNot_reads fuel))

/-! ### Texts -/

/-- **How a token is written**: keywords in any case, numbers and strings in any spelling. -/
inductive Writes : Tok → Lexeme Char → Prop where
  | symbol (s : Symbol) : Writes (symbolTok s) (.symbol s)
  | keyword {word : Text} {k : Tok} (h : (lower word, k) ∈ keywords) : Writes k (.word word)
  | ident {word : Text} (h : lower word ∉ keywords.map Prod.fst) :
      Writes (.ident word) (.word word)
  | str (content : Text) : Writes (.str ((utf8 content).map asChar)) (.string content)
  | int {num : Text} {n : Int64} (h : parseI64 num = some n) : Writes (.int n) (.number num false)
  | float {num : Text} {x : F64} (h : parseF64 num = some x) :
      Writes (.float x) (.number num true)

/-- The lexemes among pieces. -/
def lexemes : List Piece → List (Lexeme Char)
  | [] => []
  | .space _ :: ps => lexemes ps
  | .lexeme l _ :: ps => l :: lexemes ps

/-- **A text is a print of tokens**: but for white space it is cut into lexemes that write them. -/
def Prints (s : Text) (toks : List Tok) : Prop :=
  ∃ ps, Lexed (fun c => isSpace c.toNat) s ps ∧ List.Forall₂ Writes toks (lexemes ps)

theorem wordTok_eq {word : Text} : wordTok word = k ↔ Writes k (.word word) := by
  have hnodup : (keywords.map Prod.fst).Nodup := by decide +kernel
  unfold wordTok
  cases hfind : keywords.find? fun k => k.1 = lower word with
  | some p =>
    have hp : p ∈ keywords := List.mem_of_find?_eq_some hfind
    have hword : p.1 = lower word := by simpa using List.find?_some hfind
    constructor
    · rintro rfl
      exact .keyword (hword ▸ hp)
    · intro h
      cases h with
      | keyword h => exact congrArg Prod.snd (List.inj_on_of_nodup_map hnodup hp h hword)
      | ident h => exact absurd (hword ▸ List.mem_map_of_mem hp) h
  | none =>
    have hnone : lower word ∉ keywords.map Prod.fst := by
      intro h
      obtain ⟨p, hp, hword⟩ := List.mem_map.1 h
      exact List.find?_eq_none.1 hfind p hp (decide_eq_true hword)
    constructor
    · rintro rfl
      exact .ident hnone
    · intro h
      cases h with
      | keyword h => exact absurd (List.mem_map_of_mem h) hnone
      | ident h => rfl

/-- The scanner returns what a lexeme writes. -/
theorem token_eq_ok {pos : Nat} {l : Lexeme Char} :
    scanner.token pos (l.encode .utf8) = .ok k ↔ Writes k l := by
  cases l with
  | symbol s =>
    constructor
    · intro h
      cases h
      exact .symbol s
    · rintro ⟨⟩
      rfl
  | string content =>
    constructor
    · intro h
      cases h
      exact .str content
    · rintro ⟨⟩
      rfl
  | word text =>
    have htoken : scanner.token pos (Lexeme.encode .utf8 (.word text)) = .ok (wordTok text) := by
      change Except.ok (wordTok ((fromUtf8 (utf8 text)).getD [])) = _
      rw [fromUtf8_utf8]
      rfl
    rw [htoken, Except.ok.injEq, wordTok_eq]
  | number text p =>
    have htoken : scanner.token pos (Lexeme.encode .utf8 (.number text p)) =
        numberTok pos text p := by
      change numberTok pos ((fromUtf8 (utf8 text)).getD []) p = _
      rw [fromUtf8_utf8]
      rfl
    rw [htoken, numberTok]
    cases p with
    | true =>
      cases hparse : parseF64 text with
      | none =>
        refine iff_of_false (by simp) ?_
        intro h
        cases h with
        | float h => simp [hparse] at h
      | some x =>
        constructor
        · intro h
          cases h
          exact .float hparse
        · intro h
          cases h with
          | float h => rw [Option.some.inj (hparse.symm.trans h)]; rfl
    | false =>
      cases hparse : parseI64 text with
      | none =>
        refine iff_of_false (by simp) ?_
        intro h
        cases h with
        | int h => simp [hparse] at h
      | some x =>
        constructor
        · intro h
          cases h
          exact .int hparse
        · intro h
          cases h with
          | int h => rw [Option.some.inj (hparse.symm.trans h)]; rfl

theorem emit_eq_ok {ps : List Piece} {pos : Nat} : (∃ out, scanner.emit .utf8 pos ps = .ok out ∧
    out.map (fun t => t.tok) = toks) ↔ List.Forall₂ Writes toks (lexemes ps) := by
  induction ps generalizing pos toks with
  | nil =>
    constructor
    · rintro ⟨out, hout, rfl⟩
      cases hout
      exact .nil
    · intro h
      cases h
      exact ⟨[], rfl, rfl⟩
  | cons q ps ih =>
    cases q with
    | space c => exact ih
    | lexeme l t =>
      simp only [Scanner.emit, except_bind_eq_ok, lexemes]
      constructor
      · rintro ⟨out, ⟨tok, htok, out', hout', heq⟩, rfl⟩
        cases heq
        exact .cons (token_eq_ok.1 htok) (ih.1 ⟨out', hout', rfl⟩)
      · intro h
        cases h with
        | cons htok hrest =>
          obtain ⟨out', hout', rfl⟩ := ih.2 hrest
          exact ⟨_, ⟨_, token_eq_ok.2 htok, out', hout', rfl⟩, rfl⟩

/-- **What is accepted by the scanner** are the prints of tokens. -/
theorem tokenize_eq_ok {s : Text} :
    (∃ ts, tokenize s = .ok ts ∧ ts.map Token.kind = toks) ↔ Prints s toks := by
  have hemit (ps : List Piece) : (∃ out, scanner.emit .utf8 0 ps = .ok out ∧
      out.map (fun t => t.tok) = toks) ↔ List.Forall₂ Writes toks (lexemes ps) := emit_eq_ok
  simp only [QueryLang.tokenize_server, Prints, ← hemit]
  constructor
  · rintro ⟨_, ⟨ps, hps, out, hout, rfl⟩, hkinds⟩
    exact ⟨ps, hps, out, hout, by rw [← hkinds, List.map_map]; rfl⟩
  · rintro ⟨ps, hps, out, hout, hkinds⟩
    exact ⟨_, ⟨ps, hps, out, hout, rfl⟩, by rw [← hkinds, List.map_map]; rfl⟩

theorem consumes_all {ts : List Token} : Consumes toks ts [] ↔ ts.map Token.kind = toks := by
  simp [Consumes]

/-- **What is accepted by the parser** are the prints of expressions. -/
theorem parse_eq_ok {s : Text} {e : Expr} :
    parse s = .ok e ↔ ∃ p : Shown, p.Named ∧ p.strip = e ∧ Prints s (p.print 0) := by
  simp only [parse, except_bind_eq_ok, ← tokenize_eq_ok]
  constructor
  · rintro ⟨ts, hts, ⟨e', rest⟩, hread, heq⟩
    cases rest with
    | cons t rest => cases heq
    | nil =>
      cases heq
      obtain ⟨p, hp, rfl, hconsumes⟩ := parseOr_sound _ _ _ _ hread
      exact ⟨p, hp, rfl, ts, hts, consumes_all.1 hconsumes⟩
  · rintro ⟨p, hp, rfl, ts, hts, hkinds⟩
    exact ⟨ts, hts, (p.strip, []), parseOr_reads _ p ts [] hp (consumes_all.2 hkinds) nofun
      (Nat.lt_succ_self _), rfl⟩

/-- Tokens after an expression that do not go on with it are not accepted. -/
theorem parse_trailing {s : Text} {p : Shown} {extra : List Tok} (hp : p.Named)
    (hs : Prints s (p.print 0 ++ k :: extra)) (hk : ∀ j : Join, k ≠ j.tok) (e : Expr) :
    parse s ≠ .ok e := by
  intro h
  obtain ⟨ts, hts, hkinds⟩ := tokenize_eq_ok.2 hs
  obtain ⟨mid, hmid, hextra⟩ := consumes_append.1 (consumes_all.2 hkinds)
  obtain ⟨t, mid', rfl, rfl, -⟩ := consumes_cons.1 hextra
  have hstop : Stops 0 (t :: mid') := by
    intro t' ht' j _
    cases ht'
    exact hk j
  have hread := parseOr_reads _ p ts (t :: mid') hp hmid hstop (Nat.lt_succ_self _)
  obtain ⟨ts', hts', h⟩ := except_bind_eq_ok.1 h
  obtain rfl := Except.ok.inj (hts.symm.trans hts')
  obtain ⟨r, hread', hrest⟩ := except_bind_eq_ok.1 h
  obtain rfl := Except.ok.inj (hread.symm.trans hread')
  cases hrest

/-! ### What can be written -/

/-- A name: a word that is not a keyword. -/
def IsName (word : Text) : Prop :=
  (∃ t, Spelled (.word word) t) ∧ lower word ∉ keywords.map Prod.fst

/-- A literal that is written by some lexeme. -/
def Literal.Expressible (v : Literal) : Prop := ∃ l t, Spelled l t ∧ Writes v.tok l

/-- An atom over a path of names, with a literal that can be written. -/
def Atom.Expressible (a : Atom) : Prop :=
  (a.path ≠ [] ∧ ∀ word ∈ a.path, IsName word) ∧
    ∀ path op value, a = .compare path op value → value.Expressible

/-- What is written can be. -/
def Shown.Expressible (p : Shown) : Prop := ∀ a ∈ p.atoms, a.Expressible

/-- A token that is written by some lexeme. -/
def Writable (k : Tok) : Prop := ∃ l t, Spelled l t ∧ Writes k l

theorem Shown.Expressible.named {p : Shown} (hp : p.Expressible) : p.Named :=
  fun a ha => (hp a ha).1.1

theorem writable_symbol (s : Symbol) : Writable (symbolTok s) := ⟨_, _, .symbol s, .symbol s⟩

theorem writable_keyword {word : Text} (h : (word, k) ∈ keywords) : Writable k := by
  have hwords : ∀ p ∈ keywords, lower p.1 = p.1 ∧
      (p.1.head?.any fun c => isWordStart c.toNat) = true ∧
      (p.1.all fun c => isWordPart c.toNat) = true := by decide +kernel
  obtain ⟨hlower, hstart, hparts⟩ := hwords _ h
  cases word with
  | nil => cases hstart
  | cons c cs =>
    have hparts := List.all_eq_true.1 hparts
    exact ⟨.word (c :: cs), c :: cs, .word hstart fun d hd => hparts d (List.mem_cons_of_mem _ hd),
      .keyword (hlower.symm ▸ h)⟩

theorem writable_of_mem (h : k ∈ keywords.map Prod.snd) : Writable k := by
  obtain ⟨p, hp, rfl⟩ := List.mem_map.1 h
  exact writable_keyword hp

theorem writable_ident {word : Text} : Writable (.ident word) ↔ IsName word := by
  have hno : ∀ p ∈ keywords, ∀ w, p.2 ≠ .ident w := by
    simp [keywords]
  constructor
  · rintro ⟨l, t, hspelled, hwrites⟩
    generalize hk : Tok.ident word = k at hwrites
    cases hwrites with
    | symbol s => cases s <;> cases hk
    | keyword h => exact absurd hk.symm (hno _ h word)
    | ident h =>
      cases hk
      exact ⟨⟨t, hspelled⟩, h⟩
    | str => cases hk
    | int => cases hk
    | float => cases hk
  · rintro ⟨⟨t, hspelled⟩, hword⟩
    exact ⟨_, t, hspelled, .ident hword⟩

theorem writable_op (o : Op) : Writable (.op o) := by
  cases o with
  | eq => exact writable_symbol .eq
  | ne => exact writable_symbol .ne
  | lt => exact writable_symbol .lt
  | le => exact writable_symbol .le
  | gt => exact writable_symbol .gt
  | ge => exact writable_symbol .ge
  | contains => exact writable_of_mem (by decide)
  | startsWith => exact writable_of_mem (by decide)

theorem writable_join (j : Join) : Writable j.tok := by
  cases j with
  | or => exact writable_of_mem (by decide)
  | and => exact writable_of_mem (by decide)

/-- The tokens of a path can be written if its names are names. -/
theorem writable_path (path : FieldPath) :
    (∀ k ∈ pathToks path, Writable k) ↔ ∀ word ∈ path, IsName word := by
  cases path with
  | nil => exact iff_of_true nofun nofun
  | cons w path =>
    have hrest : (∀ k ∈ path.flatMap fun s => [.dot, .ident s], Writable k) ↔
        ∀ word ∈ path, IsName word := by
      constructor
      · intro h word hword
        exact writable_ident.1 (h _ (List.mem_flatMap.2 ⟨word, hword, by simp⟩))
      · intro h k hk
        obtain ⟨word, hword, hk⟩ := List.mem_flatMap.1 hk
        rcases List.mem_cons.1 hk with rfl | hk
        · exact writable_symbol .dot
        · rw [List.mem_singleton.1 hk]
          exact writable_ident.2 (h word hword)
    rw [pathToks, List.forall_mem_cons, List.forall_mem_cons, writable_ident, hrest]

/-- The tokens of an atom can be written if its names and its literal can. -/
theorem writable_atom {a : Atom} (ha : a.path ≠ []) :
    (∀ k ∈ a.toks, Writable k) ↔ a.Expressible := by
  cases a with
  | compare path op value =>
    rw [Atom.toks, List.forall_mem_append, writable_path, List.forall_mem_cons,
      List.forall_mem_singleton]
    constructor
    · rintro ⟨hpath, -, hvalue⟩
      refine ⟨⟨ha, hpath⟩, fun path' op' value' heq => ?_⟩
      cases heq
      exact hvalue
    · rintro ⟨⟨-, hpath⟩, hvalue⟩
      exact ⟨hpath, writable_op op, hvalue _ _ _ rfl⟩
  | «exists» path =>
    rw [Atom.toks, List.cons_append, List.cons_append, List.forall_mem_cons, List.forall_mem_cons,
      List.forall_mem_append, writable_path, List.forall_mem_singleton]
    constructor
    · rintro ⟨-, -, hpath, -⟩
      exact ⟨⟨ha, hpath⟩, nofun⟩
    · rintro ⟨⟨-, hpath⟩, -⟩
      exact ⟨writable_of_mem (by decide),
        writable_symbol .lparen, hpath, writable_symbol .rparen⟩

theorem writable_parens {need : Bool} :
    (∀ k ∈ parens need toks, Writable k) ↔ ∀ k ∈ toks, Writable k := by
  cases need with
  | false => exact Iff.rfl
  | true =>
    change (∀ k ∈ Tok.lparen :: (toks ++ [.rparen]), Writable k) ↔ _
    rw [List.forall_mem_cons, List.forall_mem_append, List.forall_mem_singleton]
    exact ⟨fun h => h.2.1, fun h => ⟨writable_symbol .lparen, h, writable_symbol .rparen⟩⟩

/-- **The tokens of what is written can be written** if its atoms can. -/
theorem writable_print {p : Shown} (hp : p.Named) (level : Nat) :
    (∀ k ∈ p.print level, Writable k) ↔ p.Expressible := by
  induction p generalizing level with
  | join j a b iha ihb =>
    have ha := iha (fun c hc => hp c (List.mem_append_left _ hc)) j.level
    have hb := ihb (fun c hc => hp c (List.mem_append_right _ hc)) (j.level + 1)
    rw [Shown.print, writable_parens, List.forall_mem_append, List.forall_mem_cons, ha, hb]
    constructor
    · rintro ⟨ha, -, hb⟩ c hc
      exact (List.mem_append.1 hc).elim (ha c) (hb c)
    · intro h
      exact ⟨fun c hc => h c (List.mem_append_left _ hc), writable_join j,
        fun c hc => h c (List.mem_append_right _ hc)⟩
  | not a ih =>
    rw [Shown.print, List.forall_mem_cons, ih hp]
    exact and_iff_right (writable_of_mem (by decide))
  | atom a =>
    rw [Shown.print, writable_atom (hp a List.mem_cons_self)]
    exact List.forall_mem_singleton.symm
  | paren a ih =>
    exact (@writable_parens (a.print 0) true).trans (ih hp 0)

/-- What is followed by a space stops. -/
theorem stops_space (l : Lexeme Char) (s : Text) : Scan.Stops l (' ' :: s) := by
  cases l with
  | symbol s => cases s <;> first | trivial | exact fun h => by cases h
  | string content => trivial
  | number text p =>
    intro c cs heq
    cases heq
    rfl
  | word text =>
    intro c hc
    cases hc
    rfl

/-- Tokens that can be written have a print. -/
theorem exists_prints (h : ∀ k ∈ toks, Writable k) : ∃ s, Prints s toks := by
  induction toks with
  | nil => exact ⟨[], [], .nil, .nil⟩
  | cons k toks ih =>
    obtain ⟨⟨l, t, hspelled, hwrites⟩, hrest⟩ := List.forall_mem_cons.1 h
    obtain ⟨s, ps, hps, hforall⟩ := ih hrest
    exact ⟨t ++ ' ' :: s, .lexeme l t :: .space ' ' :: ps,
      .lexeme hspelled (stops_space l s) (.space rfl hps), .cons hwrites hforall⟩

/-- The tokens of a print can be written. -/
theorem writable_of_prints {s : Text} (h : Prints s toks) : ∀ k ∈ toks, Writable k := by
  obtain ⟨ps, hps, hforall⟩ := h
  induction hps generalizing toks with
  | nil =>
    cases hforall
    exact nofun
  | space _ _ ih => exact ih hforall
  | lexeme hl _ _ ih =>
    cases hforall with
    | cons hwrites hforall => exact List.forall_mem_cons.2 ⟨⟨_, _, hl, hwrites⟩, ih hforall⟩

/-- Strings of ASCII can be written. -/
theorem expressible_string {t : Text} (h : IsAscii t) : (Literal.string t).Expressible := by
  have hquoted : ∀ t : Text, ∃ body, Quoted '"' body t := by
    intro t
    induction t with
    | nil => exact ⟨[], .nil⟩
    | cons c t ih =>
      obtain ⟨body, hbody⟩ := ih
      exact ⟨_, .escape c hbody⟩
  obtain ⟨body, hbody⟩ := hquoted t
  refine ⟨.string t, _, .string (.inl rfl) hbody, ?_⟩
  have hwrites := Writes.str t
  rw [QueryLang.map_asChar h] at hwrites
  exact hwrites

theorem digits_of_forall {t : Text} (h : ∀ c ∈ t, c.isDigit = true) : Digits t false := by
  induction t with
  | nil => exact .nil
  | cons c t ih =>
    obtain ⟨hc, ht⟩ := List.forall_mem_cons.1 h
    exact .digit ((QueryLang.isDigit_toNat c).trans hc) (ih ht)

/-- Integers can be written. -/
theorem expressible_int (n : Int64) : (Literal.int n).Expressible := by
  have hlow := n.le_toInt
  have hhigh := n.toInt_lt
  have hdigits : ∀ c ∈ Nat.toDigits 10 n.toInt.natAbs, c.isDigit = true := fun c hc =>
    Nat.isDigit_of_mem_toDigits (by omega) (by omega) hc
  obtain ⟨d, ds, hds, hd⟩ := exists_toDigits_cons n.toInt.natAbs
  have hvalue := Nat.ofDigitChars_ten_toDigits (n := n.toInt.natAbs)
  have hall : ((Nat.toDigits 10 n.toInt.natAbs).all Char.isDigit) = true :=
    List.all_eq_true.2 hdigits
  rw [hds] at hdigits hvalue hall
  have hparse : ∀ num minus, splitSign num = (minus, d :: ds) →
      (if minus then -(n.toInt.natAbs : Int) else n.toInt.natAbs) = n.toInt →
      parseI64 num = some n := by
    intro num minus hsign hn
    have hint : intOf num = n.toInt := by
      simp only [intOf, hsign, hvalue]
      exact hn
    simp only [parseI64, hsign, hint, hall]
    rw [if_neg (by simp), if_pos ⟨hlow, hhigh⟩, Int64.ofInt_toInt]
  by_cases hneg : n.toInt < 0
  · refine ⟨.number ('-' :: d :: ds) false, _, .minus (digits_of_forall hdigits), .int ?_⟩
    exact hparse _ true rfl (by rw [if_pos rfl]; omega)
  · have hc : isDigit d.toNat = true := (QueryLang.isDigit_toNat d).trans hd
    refine ⟨.number (d :: ds) false, _, .number hc (digits_of_forall hdigits), .int ?_⟩
    exact hparse _ false (QueryLang.splitSign_digit hc ds) (by rw [if_neg (by simp)]; omega)

/-- **The parser reads an expression from each of its prints, and reads prints only**: with the
parentheses that the precedences ask for, with other parentheses, and with nothing after. -/
theorem parse_exact :
    (∀ e : Expr, e.shown.Expressible → (∃ s, Prints s (e.shown.print 0)) ∧
      ∀ s, Prints s (e.shown.print 0) → parse s = .ok e) ∧
    (∀ (s : Text) (e : Expr), parse s = .ok e ↔
      ∃ p : Shown, p.Expressible ∧ p.strip = e ∧ Prints s (p.print 0)) ∧
    ∀ (s : Text) (p : Shown) (k : Tok) (extra : List Tok), p.Expressible →
      (∀ j : Join, k ≠ j.tok) → Prints s (p.print 0 ++ k :: extra) → ∀ e, parse s ≠ .ok e := by
  refine ⟨fun e he => ⟨?_, fun s hs => ?_⟩, fun s e => ?_, fun s p k extra hp hk hs e => ?_⟩
  · exact exists_prints ((writable_print he.named 0).2 he)
  · exact parse_eq_ok.2 ⟨e.shown, he.named, strip_shown e, hs⟩
  · rw [parse_eq_ok]
    constructor
    · rintro ⟨p, hp, he, hs⟩
      exact ⟨p, (writable_print hp 0).1 (writable_of_prints hs), he, hs⟩
    · rintro ⟨p, hp, he, hs⟩
      exact ⟨p, hp.named, he, hs⟩
  · exact parse_trailing hp.named hs hk e

example : parse "a = 1 AND (b.c contains 'x' or not exists(d))".toList =
    .ok (.and (.atom (.compare ["a".toList] .eq (.int 1)))
      (.or (.atom (.compare ["b".toList, "c".toList] .contains (.string "x".toList)))
        (.not (.atom (.exists ["d".toList]))))) := by decide +kernel

end Query

end Omp
