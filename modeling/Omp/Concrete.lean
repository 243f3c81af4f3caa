import Omp.Canonical
import Omp.Lib.TomlReader

/-!
# A world to compute with

A `World` whose TOML library is the reader of `Omp.Lib.Toml`, with decimal integers and booleans.
Floats have a form of their own, the decimal number of their bits, and dates are not known; what
`toml::from_str` yields for the typed documents is a table that the caller gives.  Definitions over
a world are evaluated in it.

## Main definitions

* `demoWorld` : the world.

## Main results

* `demoWorld_lawful` : it is lawful.
-/

namespace Omp

open Lib Lib.Toml

/-! ### Scalars -/

/-- The number that decimal digits stand for. -/
def readDigits (ds : Text) : Option Nat :=
  if ds ≠ [] ∧ ds.all Char.isDigit then some (Nat.ofDigitChars 10 ds 0) else none

/-- Read an integer, without a limit. -/
def readInt (t : Text) : Option Int :=
  match t with
  | '-' :: ds => (readDigits ds).map fun n : Nat => -Int.ofNat n
  | ds => (readDigits ds).map Int.ofNat

/-- Read an unquoted scalar. -/
def demoScalar (t : Text) : Option Value :=
  match readInt t with
  | some i => some (.int (Int64.ofInt i))
  | none =>
    if t = "true".toList then some (.bool true)
    else if t = "false".toList then some (.bool false)
    else if t = "0.0".toList then some (.float F64.zero)
    else match t with
      | 'e' :: ds => (readDigits ds).map fun n => .float ⟨UInt64.ofNat n⟩
      | _ => none

theorem readDigits_toDigits (n : Nat) : readDigits (Nat.toDigits 10 n) = some n := by
  have hall : (Nat.toDigits 10 n).all Char.isDigit = true :=
    List.all_eq_true.2 fun c hc => Nat.isDigit_of_mem_toDigits (by omega) (by omega) hc
  rw [readDigits, if_pos ⟨Nat.toDigits_ne_nil, hall⟩, Nat.ofDigitChars_ten_toDigits]

theorem readInt_intText (i : Int) : readInt (intText i) = some i := by
  unfold intText
  split_ifs with hneg
  · rw [readInt, readDigits_toDigits, Option.map_some, Option.some.injEq]
    rw [Int.ofNat_eq_natCast]
    omega
  · obtain ⟨c, ds, hc, hdigit⟩ := exists_toDigits_cons i.natAbs
    have hread := readDigits_toDigits i.natAbs
    rw [hc] at hread ⊢
    have hminus : c ≠ '-' := by
      rintro rfl
      cases hdigit
    rw [readInt, hread]
    · rw [Option.map_some, Option.some.injEq, Int.ofNat_eq_natCast]
      omega
    · intro ds' heq
      exact hminus (List.cons.inj heq).1

/-- The scalars of the world are those of the language. -/
theorem lawfulScalars_demo : LawfulScalars demoScalar fun _ => none where
  int i := by
    unfold demoScalar
    rw [readInt_intText]
    dsimp only
    rw [Int64.ofInt_toInt]
  true_ := by decide +kernel
  false_ := by decide +kernel
  date := nofun
  datetime_idem := nofun

theorem demoScalar_e (ds : Text) :
    demoScalar ('e' :: ds) = (readDigits ds).map fun n => .float ⟨UInt64.ofNat n⟩ := by
  have hint : readInt ('e' :: ds) = none := by
    have hdigits : readDigits ('e' :: ds) = none := if_neg fun h => by cases h.2
    rw [readInt, hdigits]
    · rfl
    · rintro ds' heq
      cases heq
  have hne : ∀ {t : Text}, t.head? ≠ some 'e' → 'e' :: ds ≠ t := by
    rintro t ht rfl
    exact ht rfl
  unfold demoScalar
  rw [hint]
  dsimp only
  rw [if_neg (hne (by decide)), if_neg (hne (by decide)), if_neg (hne (by decide))]
  rfl

/-! ### The world -/

/-- The documents that `toml::from_str` knows, by their texts. -/
structure Documents where
  schemas : List (Text × RawSchema)
  configs : List (Text × RawConfig)
  probes : List (Text × RawProbe)

/-- What stands under a text. -/
def lookupDocument {α : Type} (documents : List (Text × α)) (t : Text) : Except Text α :=
  match documents.find? fun p => p.1 = t with
  | some p => .ok p.2
  | none => .error "TOML parse error".toList

/-- The world, with the given printer of documents. -/
def worldOf (printer : List (Text × Value) → List (Text × List (Text × Value)) → Text)
    (docs : Documents) : World :=
  { demo with
    toml := .ofReader demoScalar (fun _ => none) 80 printer
    floatDebug := fun x => 'e' :: Nat.toDigits 10 x.bits.toNat
    rawSchema := lookupDocument docs.schemas
    rawConfig := lookupDocument docs.configs
    rawProbe := lookupDocument docs.probes
    argsJson := fun args => '\x7b' :: (args.toList.flatMap fun p => p.1 ++ [',']) ++ ['\x7d']
    toLowercase := fun t => t.map Char.toLower
    inferMime := fun _ => none
    starterProbes := []
    fileLength := List.length }

/-- The lines of the pairs of a table. -/
def printPairs (pairs : List (Text × Value)) : Text :=
  unlines (pairs.map fun p => pairText (quoteKey p.1,
    (emitValue (worldOf (fun _ _ => []) ⟨[], [], []⟩) p.2).toOption.getD [deleteChar]))

/-- Escape the delete characters of a text, as the printer of the library does and the program's
own writer does not. -/
def escapeDel (t : Text) : Text := t.flatMap fun c => if c = del then "\\u007F".toList else [c]

/-- A document with its entries in the order they have. -/
def printFlat (pairs : List (Text × Value)) (tables : List (Text × List (Text × Value))) : Text :=
  escapeDel (printPairs pairs ++ tables.flatMap fun t =>
    '\n' :: '[' :: t.1 ++ [']', '\n'] ++ printPairs t.2)

/-- A world to compute with. -/
def demoWorld (docs : Documents) : World := worldOf printFlat docs

/-- **The world is lawful.** -/
theorem demoWorld_lawful (docs : Documents) : (demoWorld docs).Lawful where
  toml := Library.lawful_ofReader lawfulScalars_demo
  scalar_float := by
    intro x _
    by_cases hzero : x.isZero = true
    · rw [formatFloat, if_pos hzero, if_pos hzero]
      have hscalar : demoScalar "0.0".toList = some (.float F64.zero) := by decide +kernel
      exact ⟨⟨by decide, List.all_eq_true.1 (by decide)⟩, hscalar⟩
    · have htext : formatFloat (demoWorld docs) x = 'e' :: Nat.toDigits 10 x.bits.toNat := by
        rw [formatFloat, if_neg hzero]
        exact if_pos (.inr (.inl List.mem_cons_self))
      rw [htext, if_neg hzero]
      refine ⟨⟨List.cons_ne_nil _ _, List.forall_mem_cons.2 ⟨by decide, fun c hc => ?_⟩⟩, ?_⟩
      · have hdigit := Nat.isDigit_of_mem_toDigits (by omega) (by omega) hc
        simp [isToken, Char.isAlphanum, hdigit]
      · refine (demoScalar_e _).trans ?_
        rw [readDigits_toDigits, Option.map_some, UInt64.ofNat_toNat]

end Omp
