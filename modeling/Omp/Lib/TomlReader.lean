import Omp.Lib.Toml

/-!
# A TOML library made of the reader

The reader of `Omp.Lib.Toml` with a printer makes a TOML library that satisfies `Library.Lawful`:
it accepts exactly the texts of the fragment, and prints a document with the given printer
where the reader gets it back from what was printed.  It serves to evaluate definitions that are
written over an arbitrary library.

## Main definitions

* `Library.ofReader` : the library.

## Main results

* `Library.lawful_ofReader` : it is lawful when its scalars are.
-/

namespace Lib.Toml

/-! ### Comparing values -/

namespace Value

mutual
/-- Equality of values is decidable. -/
def decEq : (a b : Value) → Decidable (a = b)
  | str s, str t => decidable_of_iff (s = t) (by simp)
  | int i, int j => decidable_of_iff (i = j) (by simp)
  | float x, float y => decidable_of_iff (x = y) (by simp)
  | bool b, bool c => decidable_of_iff (b = c) (by simp)
  | datetime s, datetime t => decidable_of_iff (s = t) (by simp)
  | array l, array m => have := decEqItems l m; decidable_of_iff (l = m) (by simp)
  | inline l, inline m => have := decEqEntries l m; decidable_of_iff (l = m) (by simp)
  | str _, int _ | str _, float _ | str _, bool _ | str _, datetime _ | str _, array _
  | str _, inline _ => .isFalse nofun
  | int _, str _ | int _, float _ | int _, bool _ | int _, datetime _ | int _, array _
  | int _, inline _ => .isFalse nofun
  | float _, str _ | float _, int _ | float _, bool _ | float _, datetime _ | float _, array _
  | float _, inline _ => .isFalse nofun
  | bool _, str _ | bool _, int _ | bool _, float _ | bool _, datetime _ | bool _, array _
  | bool _, inline _ => .isFalse nofun
  | datetime _, str _ | datetime _, int _ | datetime _, float _ | datetime _, bool _
  | datetime _, array _ | datetime _, inline _ => .isFalse nofun
  | array _, str _ | array _, int _ | array _, float _ | array _, bool _ | array _, datetime _
  | array _, inline _ => .isFalse nofun
  | inline _, str _ | inline _, int _ | inline _, float _ | inline _, bool _
  | inline _, datetime _ | inline _, array _ => .isFalse nofun
/-- The same for the items of an array. -/
def decEqItems : (l m : List Value) → Decidable (l = m)
  | [], [] => .isTrue rfl
  | a :: l, b :: m =>
    have := decEq a b
    have := decEqItems l m
    decidable_of_iff (a = b ∧ l = m) (by simp)
  | [], _ :: _ | _ :: _, [] => .isFalse nofun
/-- The same for the entries of an inline table. -/
def decEqEntries : (l m : List (Text × Value)) → Decidable (l = m)
  | [], [] => .isTrue rfl
  | (j, a) :: l, (k, b) :: m =>
    have := decEq a b
    have := decEqEntries l m
    decidable_of_iff ((j = k ∧ a = b) ∧ l = m) (by simp)
  | [], _ :: _ | _ :: _, [] => .isFalse nofun
end

instance : DecidableEq Value := decEq

mutual
/-- Whether the inline tables in a value have distinct keys. -/
def decDistinctKeys : (v : Value) → Decidable v.DistinctKeys
  | str _ | int _ | float _ | bool _ | datetime _ => .isTrue trivial
  | array items => decDistinctItems items
  | inline entries =>
    have := decDistinctEntries entries
    inferInstanceAs (Decidable ((entries.map Prod.fst).Nodup ∧
      AllEntries (fun _ => True) (fun _ => True) (fun _ => True) List.Nodup entries))
/-- The same for the items of an array. -/
def decDistinctItems : (vs : List Value) →
    Decidable (AllItems (fun _ => True) (fun _ => True) (fun _ => True) List.Nodup vs)
  | [] => .isTrue trivial
  | v :: vs =>
    have := decDistinctKeys v
    have := decDistinctItems vs
    inferInstanceAs (Decidable (v.DistinctKeys ∧
      AllItems (fun _ => True) (fun _ => True) (fun _ => True) List.Nodup vs))
/-- The same for the entries of an inline table. -/
def decDistinctEntries : (es : List (Text × Value)) →
    Decidable (AllEntries (fun _ => True) (fun _ => True) (fun _ => True) List.Nodup es)
  | [] => .isTrue trivial
  | (_, v) :: es =>
    have := decDistinctKeys v
    have := decDistinctEntries es
    inferInstanceAs (Decidable ((True ∧ v.DistinctKeys) ∧
      AllEntries (fun _ => True) (fun _ => True) (fun _ => True) List.Nodup es))
end

instance (v : Value) : Decidable v.DistinctKeys := v.decDistinctKeys

end Value

instance (p : Value → Prop) [DecidablePred p] (pairs : List (Text × Value))
    (tables : List (Text × List (Text × Value))) : Decidable (FlatAll p pairs tables) :=
  inferInstanceAs (Decidable ((∀ x ∈ pairs, p x.2) ∧ ∀ t ∈ tables, ∀ x ∈ t.2, p x.2))

/-! ### Flat documents -/

namespace Doc

/-- The values of a table of values. -/
def tableValues : List (Text × Item) → Option (List (Text × Value))
  | [] => some []
  | (k, .value v) :: es => (tableValues es).map ((k, v) :: ·)
  | (_, _) :: _ => none

/-- The tables of a document of tables of values. -/
def flatTables : Doc → Option (List (Text × List (Text × Value)))
  | [] => some []
  | (k, .table es) :: d => (tableValues es).bind fun vs => (flatTables d).map ((k, vs) :: ·)
  | (_, _) :: _ => none

/-- The values and the tables of a document that has this form. -/
def unflat : Doc → Option (List (Text × Value) × List (Text × List (Text × Value)))
  | (k, .value v) :: d => (unflat d).map fun p => ((k, v) :: p.1, p.2)
  | d => (flatTables d).map ([], ·)

theorem tableValues_map (vs : List (Text × Value)) :
    tableValues (vs.map fun p => (p.1, .value p.2)) = some vs := by
  induction vs with
  | nil => rfl
  | cons p vs ih => rw [List.map_cons, tableValues, ih]; rfl

theorem unflat_flat (pairs : List (Text × Value)) (tables : List (Text × List (Text × Value))) :
    unflat (flat pairs tables) = some (pairs, tables) := by
  have htables : flatTables (flat [] tables) = some tables := by
    induction tables with
    | nil => rfl
    | cons t tables ih =>
      rw [flat, List.map_nil, List.nil_append] at ih ⊢
      rw [List.map_cons, flatTables, tableValues_map, ih]
      rfl
  induction pairs with
  | nil =>
    cases tables with
    | nil => rfl
    | cons t tables =>
      change (flatTables (flat [] (t :: tables))).map _ = _
      rw [htables]
      rfl
  | cons p pairs ih =>
    change (unflat (flat pairs tables)).map _ = _
    rw [ih]
    rfl

theorem flat_inj {pairs pairs' : List (Text × Value)}
    {tables tables' : List (Text × List (Text × Value))}
    (h : flat pairs tables = flat pairs' tables') : pairs = pairs' ∧ tables = tables' := by
  have hun := congrArg unflat h
  rw [unflat_flat, unflat_flat, Option.some.injEq, Prod.mk.injEq] at hun
  exact hun

end Doc

/-! ### The library -/

/-- The delete character, which no text may hold. -/
def deleteChar : Char := Char.ofNat 0x7F

/-- Read the values and tables of a text, within the limits of a library. -/
def readFlat (scalar : Text → Option Value) (limit : Nat) (t : Text) :
    Option (List (Text × Value) × List (Text × List (Text × Value))) :=
  if deleteChar ∈ t then none
  else match readLines scalar (lines t) with
    | none => none
    | some (pairs, tables) =>
      if ((pairs.map Prod.fst ++ tables.map Prod.fst).Nodup ∧
          ∀ e ∈ tables, (e.2.map Prod.fst).Nodup) ∧
          FlatAll (fun v => v.DistinctKeys ∧ v.depth ≤ limit) pairs tables then
        some (pairs, tables)
      else none

instance decEqFlat : DecidableEq (List (Text × Value) × List (Text × List (Text × Value))) :=
  instDecidableEqProd

/-- The reader as a library.  What the printer makes of a document is kept when it is read back as
that document; a text that nothing accepts stands for the others. -/
def Library.ofReader (scalar : Text → Option Value) (datetime : Text → Option Text) (limit : Nat)
    (printer : List (Text × Value) → List (Text × List (Text × Value)) → Text) : Library where
  parse t := match readFlat scalar limit t with
    | some (pairs, tables) => .ok (.flat pairs tables)
    | none => .error "TOML parse error".toList
  print d := match d.unflat with
    | none => [deleteChar]
    | some (pairs, tables) =>
      if readFlat scalar limit (printer pairs tables) = some (pairs, tables) then
        printer pairs tables
      else [deleteChar]
  scalar := scalar
  datetime := datetime
  nestingLimit := limit

/-- What a library is made of reads unquoted scalars as it should. -/
structure LawfulScalars (scalar : Text → Option Value) (datetime : Text → Option Text) :
    Prop where
  int : ∀ i : Int64, scalar (intText i.toInt) = some (.int i)
  true_ : scalar "true".toList = some (.bool true)
  false_ : scalar "false".toList = some (.bool false)
  date : ∀ {s}, datetime s = some s → Token s ∧ scalar s = some (.datetime s)
  datetime_idem : ∀ {s s'}, datetime s = some s' → datetime s' = some s'

section Lawful

variable {scalar : Text → Option Value} {datetime : Text → Option Text} {limit : Nat}
  {printer : List (Text × Value) → List (Text × List (Text × Value)) → Text}

theorem readFlat_eq_some {t : Text} {pairs : List (Text × Value)}
    {tables : List (Text × List (Text × Value))} :
    readFlat scalar limit t = some (pairs, tables) ↔
      deleteChar ∉ t ∧ readLines scalar (lines t) = some (pairs, tables) ∧
        ((pairs.map Prod.fst ++ tables.map Prod.fst).Nodup ∧
          ∀ e ∈ tables, (e.2.map Prod.fst).Nodup) ∧
        FlatAll (fun v => v.DistinctKeys ∧ v.depth ≤ limit) pairs tables := by
  unfold readFlat
  split_ifs with hdel
  · exact iff_of_false nofun fun h => h.1 hdel
  · cases hread : readLines scalar (lines t) with
    | none => exact iff_of_false nofun fun h => by cases h.2.1
    | some p =>
      obtain ⟨ps, ts⟩ := p
      dsimp only
      split_ifs with hcond
      · constructor
        · intro h
          cases h
          exact ⟨hdel, rfl, hcond⟩
        · rintro ⟨-, h, -⟩
          exact h
      · refine iff_of_false nofun ?_
        rintro ⟨-, h, hok⟩
        cases h
        exact hcond hok

theorem parse_ofReader {t : Text} {pairs : List (Text × Value)}
    {tables : List (Text × List (Text × Value))} :
    (Library.ofReader scalar datetime limit printer).parse t = .ok (.flat pairs tables) ↔
      readFlat scalar limit t = some (pairs, tables) := by
  rw [Library.ofReader]
  dsimp only
  cases hread : readFlat scalar limit t with
  | none => exact iff_of_false nofun nofun
  | some p =>
    obtain ⟨ps, ts⟩ := p
    rw [Except.ok.injEq, Option.some.injEq, Prod.mk.injEq]
    exact ⟨Doc.flat_inj, fun h => by rw [h.1, h.2]⟩

theorem exists_readFlat_of_parse {t : Text} {d : Doc}
    (h : (Library.ofReader scalar datetime limit printer).parse t = .ok d) :
    ∃ pairs tables, d = .flat pairs tables ∧ readFlat scalar limit t = some (pairs, tables) := by
  rw [Library.ofReader] at h
  dsimp only at h
  cases hread : readFlat scalar limit t with
  | none => rw [hread] at h; cases h
  | some p =>
    rw [hread] at h
    cases h
    exact ⟨p.1, p.2, rfl, rfl⟩

/-- **The reader makes a lawful library.** -/
theorem Library.lawful_ofReader (hs : LawfulScalars scalar datetime) :
    (Library.ofReader scalar datetime limit printer).Lawful where
  parse_print := by
    intro pairs tables d _ h
    have hprint : (Library.ofReader scalar datetime limit printer).print (.flat pairs tables) =
        if readFlat scalar limit (printer pairs tables) = some (pairs, tables) then
          printer pairs tables else [deleteChar] := by
      rw [Library.ofReader]
      dsimp only
      rw [Doc.unflat_flat]
    rw [hprint] at h
    obtain ⟨ps, ts, rfl, hread⟩ := exists_readFlat_of_parse h
    split_ifs at hread with hok
    · rw [hok] at hread
      cases hread
      rfl
    · exact absurd List.mem_cons_self (readFlat_eq_some.1 hread).1
  of_parse := by
    intro t pairs tables h
    obtain ⟨-, -, hkeys, hall⟩ := readFlat_eq_some.1 (parse_ofReader.1 h)
    exact ⟨hkeys.1, hkeys.2, hall⟩
  parse_read := by
    intro t pairs tables h hall hdel
    refine parse_ofReader.2 (readFlat_eq_some.2 ⟨hdel, ?_, ?_, hall⟩)
    all_goals
      rw [read, Option.bind_eq_bind, Option.bind_eq_some_iff] at h
      obtain ⟨⟨ps, ts⟩, hread, h⟩ := h
      dsimp only at h
      split_ifs at h with hkeys
      obtain ⟨rfl, rfl⟩ := Doc.flat_inj (Option.some.inj h)
    · exact hread
    · exact hkeys
  not_mem_of_parse := by
    intro t d h
    obtain ⟨_, _, -, hread⟩ := exists_readFlat_of_parse h
    exact (readFlat_eq_some.1 hread).1
  scalar_int := hs.int
  scalar_true := hs.true_
  scalar_false := hs.false_
  scalar_datetime := hs.date
  datetime_idem := hs.datetime_idem

end Lawful

end Lib.Toml
