import Mathlib.Data.List.Infix
import Omp.Lib.Toml
import Omp.Store

/-!
# Field values, and what lies outside the repository

The values the schema type system knows, and the third-party functions that parse and print
them.  A `World` is a `Platform` together with the TOML crates, the standard library's printing
of floats, JSON, Unicode case mapping, MIME sniffing and the probes built into the program.
Nothing is assumed of a world except through `World.Lawful`, where a theorem names it.

## Main definitions

* `FieldValue` : a value of a manifest field.
* `RawSchema`, `RawConfig`, `RawProbe` : what `toml::from_str` yields for the typed documents.
* `World`, `World.Lawful` : the crates, and what the program relies on of them.
-/

namespace Omp

open Lib

/-! ### Field values -/

/-- A structural value from the closed type system.  The entries of an object are those of a
map, in key order. -/
inductive FieldValue where
  | null
  | string (s : Text)
  | int (i : Int64)
  | float (x : F64)
  | bool (b : Bool)
  | datetime (s : Text)
  | list (items : List FieldValue)
  | object (entries : List (Text × FieldValue))

namespace FieldValue

mutual
/-- Structural equality is decidable. -/
def decEq : (a b : FieldValue) → Decidable (a = b)
  | null, null => .isTrue rfl
  | string s, string t => decidable_of_iff (s = t) (by simp)
  | int i, int j => decidable_of_iff (i = j) (by simp)
  | float x, float y => decidable_of_iff (x = y) (by simp)
  | bool b, bool c => decidable_of_iff (b = c) (by simp)
  | datetime s, datetime t => decidable_of_iff (s = t) (by simp)
  | list l, list m => have := decEqItems l m; decidable_of_iff (l = m) (by simp)
  | object l, object m => have := decEqEntries l m; decidable_of_iff (l = m) (by simp)
  | null, string _ | null, int _ | null, float _ | null, bool _ | null, datetime _
  | null, list _ | null, object _ => .isFalse nofun
  | string _, null | string _, int _ | string _, float _ | string _, bool _
  | string _, datetime _ | string _, list _ | string _, object _ => .isFalse nofun
  | int _, null | int _, string _ | int _, float _ | int _, bool _
  | int _, datetime _ | int _, list _ | int _, object _ => .isFalse nofun
  | float _, null | float _, string _ | float _, int _ | float _, bool _
  | float _, datetime _ | float _, list _ | float _, object _ => .isFalse nofun
  | bool _, null | bool _, string _ | bool _, int _ | bool _, float _
  | bool _, datetime _ | bool _, list _ | bool _, object _ => .isFalse nofun
  | datetime _, null | datetime _, string _ | datetime _, int _ | datetime _, float _
  | datetime _, bool _ | datetime _, list _ | datetime _, object _ => .isFalse nofun
  | list _, null | list _, string _ | list _, int _ | list _, float _
  | list _, bool _ | list _, datetime _ | list _, object _ => .isFalse nofun
  | object _, null | object _, string _ | object _, int _ | object _, float _
  | object _, bool _ | object _, datetime _ | object _, list _ => .isFalse nofun
/-- The same for the items of a list. -/
def decEqItems : (l m : List FieldValue) → Decidable (l = m)
  | [], [] => .isTrue rfl
  | a :: l, b :: m =>
    have := decEq a b
    have := decEqItems l m
    decidable_of_iff (a = b ∧ l = m) (by simp)
  | [], _ :: _ | _ :: _, [] => .isFalse nofun
/-- The same for the entries of an object. -/
def decEqEntries : (l m : List (Text × FieldValue)) → Decidable (l = m)
  | [], [] => .isTrue rfl
  | (j, a) :: l, (k, b) :: m =>
    have := decEq a b
    have := decEqEntries l m
    decidable_of_iff ((j = k ∧ a = b) ∧ l = m) (by simp)
  | [], _ :: _ | _ :: _, [] => .isFalse nofun
end

instance : DecidableEq FieldValue := decEq

/-- `is_null`. -/
def isNull : FieldValue → Bool
  | null => true
  | _ => false

mutual
/-- The derived `PartialEq`, in which floats are compared as floats. -/
def eq : FieldValue → FieldValue → Bool
  | null, null => true
  | string s, string t => s == t
  | int i, int j => i == j
  | float x, float y => x.eq y
  | bool b, bool c => b == c
  | datetime s, datetime t => s == t
  | list l, list m => eqItems l m
  | object l, object m => eqEntries l m
  | _, _ => false
/-- The same for the items of a list. -/
def eqItems : List FieldValue → List FieldValue → Bool
  | [], [] => true
  | a :: l, b :: m => a.eq b && eqItems l m
  | _, _ => false
/-- The same for the entries of an object. -/
def eqEntries : List (Text × FieldValue) → List (Text × FieldValue) → Bool
  | [], [] => true
  | (j, a) :: l, (k, b) :: m => j == k && a.eq b && eqEntries l m
  | _, _ => false
end

end FieldValue

/-- Keys with values, as a caller or a manifest gives them. -/
abbrev Fields := TextMap FieldValue

/-! ### Typed documents -/

/-- A `[fields.<name>]` block as it is deserialized. -/
inductive RawField where
  | mk (source : Text) (type : Option Text) (required : Option Bool)
      (description : Option Text) (value : Option Toml.Value) (probe : Option Text)
      (args : Option (List (Text × Toml.Value))) (from_ : Option Text)
      (transform : Option Text) (fallback : Option RawField)

/-- A schema as it is deserialized; the fields come in the order the hash map yields them.  The
`render` block, which only the user interface reads, is left out. -/
structure RawSchema where
  fileType : Text
  mimePatterns : List Text
  allowExtraFields : Option Bool
  fields : List (Text × RawField)

/-- What ingest reads of `omp.toml`, as it is deserialized. -/
structure RawConfig where
  /-- `ingest.default_schema_policy`. -/
  defaultSchemaPolicy : Option Text
  /-- `probes.memory_mb`. -/
  memoryMb : Option Nat
  /-- `probes.fuel`. -/
  fuel : Option Nat
  /-- `probes.wall_clock_s`. -/
  wallClockS : Option Nat
  /-- `storage.chunk_size_bytes`. -/
  chunkSizeBytes : Option Nat

/-- What ingest reads of a `.probe.toml`, as it is deserialized. -/
structure RawProbe where
  /-- `limits.max_input_bytes`. -/
  maxInputBytes : Option Nat

/-- A probe built into the program. -/
structure StarterProbe where
  name : Text
  wasm : Bytes
  manifestToml : Bytes

/-- What the program takes from crates and from the standard library. -/
structure World extends Platform where
  /-- `toml_edit`. -/
  toml : Toml.Library
  /-- The `{:?}` form of a float. -/
  floatDebug : F64 → Text
  /-- `toml::from_str` for schemas, with the text of its error. -/
  rawSchema : Text → Except Text RawSchema
  /-- `toml::from_str` for `omp.toml`. -/
  rawConfig : Text → Except Text RawConfig
  /-- `toml::from_str` for `.probe.toml`. -/
  rawProbe : Text → Except Text RawProbe
  /-- `serde_json::to_string` of probe arguments; it does not fail on them. -/
  argsJson : Fields → Text
  /-- `str::to_lowercase`. -/
  toLowercase : Text → Text
  /-- `infer::get`, the MIME type of leading bytes. -/
  inferMime : Bytes → Option Text
  /-- The probes embedded at build time. -/
  starterProbes : List StarterProbe
  /-- The number of bytes of the file an object is kept in, which is compressed. -/
  fileLength : Bytes → Nat

namespace FieldValue

variable (W : World)

mutual
/-- The derived `{:?}` form. -/
def debug : FieldValue → Text
  | null => "Null".toList
  | string s => "String(".toList ++ W.debugStr s ++ ")".toList
  | int i => "Int(".toList ++ Toml.intText i.toInt ++ ")".toList
  | float x => "Float(".toList ++ W.floatDebug x ++ ")".toList
  | bool b => "Bool(".toList ++ (if b then "true".toList else "false".toList) ++ ")".toList
  | datetime s => "Datetime(".toList ++ W.debugStr s ++ ")".toList
  | list items => "List([".toList ++ Toml.joinComma (debugItems items) ++ "])".toList
  | object entries => "Object(\x7b".toList ++ Toml.joinComma (debugEntries entries) ++ "\x7d)".toList
/-- The same for the items of a list. -/
def debugItems : List FieldValue → List Text
  | [] => []
  | v :: vs => v.debug :: debugItems vs
/-- The same for the entries of an object. -/
def debugEntries : List (Text × FieldValue) → List Text
  | [] => []
  | (k, v) :: es => (W.debugStr k ++ ": ".toList ++ v.debug) :: debugEntries es
end

end FieldValue

/-- `format_float` : the `{:?}` form with a decimal point forced; both zeros are `0.0`. -/
def formatFloat (W : World) (x : F64) : Text :=
  if x.isZero then "0.0".toList
  else
    let s := W.floatDebug x
    if '.' ∈ s ∨ 'e' ∈ s ∨ 'E' ∈ s ∨ "inf".toList <:+: s ∨ "NaN".toList <:+: s then s
    else s ++ ".0".toList

/-- Unquoted scalars are read back from what the program writes for them. -/
structure World.ReadsScalars (W : World) : Prop where
  /-- Decimal integers. -/
  int : ∀ i : Int64, W.toml.scalar (Toml.intText i.toInt) = some (.int i)
  /-- Booleans. -/
  true_ : W.toml.scalar "true".toList = some (.bool true)
  false_ : W.toml.scalar "false".toList = some (.bool false)
  /-- Dates and times in the canonical form, which has no spaces. -/
  date : ∀ {s}, W.toml.datetime s = some s →
    Toml.Token s ∧ W.toml.scalar s = some (.datetime s)
  /-- The text of a finite float is read back as that float, a zero as the positive one. -/
  float : ∀ {x : F64}, x.isFinite = true → Toml.Token (formatFloat W x) ∧
    W.toml.scalar (formatFloat W x) = some (.float (if x.isZero then F64.zero else x))

/-- What is relied on of the crates that read and write manifests. -/
structure World.Lawful (W : World) : Prop where
  /-- The TOML library. -/
  toml : W.toml.Lawful
  /-- The text of a finite float is read back as that float, a zero as the positive one. -/
  scalar_float : ∀ {x : F64}, x.isFinite = true → Toml.Token (formatFloat W x) ∧
    W.toml.scalar (formatFloat W x) = some (.float (if x.isZero then F64.zero else x))

theorem World.Lawful.readsScalars {W : World} (hW : W.Lawful) : W.ReadsScalars where
  int := hW.toml.scalar_int
  true_ := hW.toml.scalar_true
  false_ := hW.toml.scalar_false
  date := hW.toml.scalar_datetime
  float := hW.scalar_float

end Omp
