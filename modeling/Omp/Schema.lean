import Omp.Manifest

/-!
# Schemas

A schema says for each field of a file type where its value comes from: a constant, a probe, the
caller, or another field.  A field may have a fallback, itself a field, for when its source
gives nothing.  The fields of a parsed schema stand in an order in which a field follows the one
it is derived from.

## Main definitions

* `FieldType`, `Source`, `Transform`, `Field`, `Schema` : the data.
* `Schema.parse`, `convertField`, `topoSort` : reading a schema.
* `mimeMatches` : glob patterns on MIME types.
-/

namespace Omp

open Lib

variable (W : World)

/-! ### Types -/

/-- The closed set of value types. -/
inductive FieldType where
  | string | int | float | bool | datetime
  | listString | listInt | listFloat | listBool | listDatetime
  | object
  deriving DecidableEq

namespace FieldType

/-- `parse`. -/
def parse (s : Text) : Except OmpError FieldType :=
  if s = "string".toList then .ok string
  else if s = "int".toList then .ok int
  else if s = "float".toList then .ok float
  else if s = "bool".toList then .ok bool
  else if s = "datetime".toList then .ok datetime
  else if s = "list[string]".toList then .ok listString
  else if s = "list[int]".toList then .ok listInt
  else if s = "list[float]".toList then .ok listFloat
  else if s = "list[bool]".toList then .ok listBool
  else if s = "list[datetime]".toList then .ok listDatetime
  else if s = "object".toList then .ok object
  else .error (.schemaValidation ("unknown field type: ".toList ++ W.debugStr s))

/-- The derived `{:?}` form. -/
def debug : FieldType → Text
  | string => "String".toList
  | int => "Int".toList
  | float => "Float".toList
  | bool => "Bool".toList
  | datetime => "Datetime".toList
  | listString => "ListString".toList
  | listInt => "ListInt".toList
  | listFloat => "ListFloat".toList
  | listBool => "ListBool".toList
  | listDatetime => "ListDatetime".toList
  | object => "Object".toList

/-- Whether a value that is not null satisfies a scalar type. -/
def acceptsScalar : FieldType → FieldValue → Bool
  | string, .string _ => true
  | int, .int _ => true
  | float, .float _ => true
  | float, .int _ => true
  | bool, .bool _ => true
  | datetime, .string _ => true
  | datetime, .datetime _ => true
  | object, .object _ => true
  | _, _ => false

/-- The type of the items of a list type. -/
def item? : FieldType → Option FieldType
  | listString => some string
  | listInt => some int
  | listFloat => some float
  | listBool => some bool
  | listDatetime => some datetime
  | _ => none

/-- `accepts` : a null satisfies every type. -/
def accepts (ty : FieldType) (v : FieldValue) : Bool :=
  v.isNull || match ty.item?, v with
    | some item, .list items => items.all item.acceptsScalar
    | _, v => ty.acceptsScalar v

end FieldType

/-! ### Sources -/

/-- How a value is derived from another field. -/
inductive Transform where
  | identity | slugify | lower
  deriving DecidableEq

/-- The scan of `slugify`; `out` is reversed. -/
def slugifyChars : List Char → Text → Bool → Text
  | [], out, _ => out
  | c :: cs, out, lastDash =>
    if c.isAlphanum then slugifyChars cs (c.toLower :: out) false
    else if !lastDash && !out.isEmpty then slugifyChars cs ('-' :: out) true
    else slugifyChars cs out lastDash

/-- `slugify`. -/
def slugify (s : Text) : Text :=
  match slugifyChars s [] false with
  | '-' :: out => out.reverse
  | out => out.reverse

namespace Transform

/-- `parse`. -/
def parse (s : Text) : Except OmpError Transform :=
  if s = "identity".toList ∨ s = [] then .ok identity
  else if s = "slugify".toList then .ok slugify
  else if s = "lower".toList then .ok lower
  else .error (.schemaValidation ("unknown transform: ".toList ++ W.debugStr s))

/-- `apply`. -/
def apply : Transform → FieldValue → FieldValue
  | lower, .string s => .string (W.toLowercase s)
  | slugify, .string s => .string (Omp.slugify s)
  | _, v => v

end Transform

/-- Where the value of a field comes from. -/
inductive Source where
  | constant (value : FieldValue)
  | probe (probe : Text) (args : Fields)
  | userProvided
  | field (from_ : Text) (transform : Transform)

/-- A field declaration, with the declaration to fall back to. -/
inductive Field where
  | mk (name : Text) (source : Source) (type : FieldType) (required : Bool)
      (description : Option Text) (fallback : Option Field)

namespace Field

def name : Field → Text
  | mk name .. => name

def source : Field → Source
  | mk _ source .. => source

def type : Field → FieldType
  | mk _ _ type .. => type

def required : Field → Bool
  | mk _ _ _ required .. => required

def description : Field → Option Text
  | mk _ _ _ _ description _ => description

def fallback : Field → Option Field
  | mk _ _ _ _ _ fallback => fallback

end Field

/-- A schema; its fields are topologically sorted. -/
structure Schema where
  fileType : Text
  mimePatterns : List Text
  allowExtraFields : Bool
  fields : List Field

/-! ### Reading the fields -/

/-- `toml_value_to_field`. -/
def tomlValueToField (v : Toml.Value) : FieldValue := valueToFieldValue v

/-- The source of a field. -/
def convertSource (name source : Text) (value : Option Toml.Value) (probe : Option Text)
    (args : Option (List (Text × Toml.Value))) (from_ transform : Option Text) :
    Except OmpError Source :=
  let needs (what which : Text) : OmpError :=
    .schemaValidation ("field ".toList ++ W.debugStr name ++ ": `".toList ++ what ++
      "` needs `".toList ++ which ++ "`".toList)
  if source = "constant".toList then
    match value with
    | some v => .ok (.constant (tomlValueToField v))
    | none => .error (needs "constant".toList "value".toList)
  else if source = "probe".toList then
    match probe with
    | some probe => .ok (.probe probe (TextMap.collect
        ((args.getD []).map fun p => (p.1, tomlValueToField p.2))))
    | none => .error (needs "probe".toList "probe".toList)
  else if source = "user_provided".toList then .ok .userProvided
  else if source = "field".toList then
    match from_ with
    | some from_ => do
      let transform ← Transform.parse W (transform.getD [])
      .ok (.field from_ transform)
    | none => .error (needs "field".toList "from".toList)
  else if source = "fallback".toList then
    .error (.schemaValidation ("field ".toList ++ W.debugStr name ++
      ": `fallback` is not a valid `source` (it is a nested wrapper)".toList))
  else
    .error (.schemaValidation ("field ".toList ++ W.debugStr name ++
      ": unknown source ".toList ++ W.debugStr source))

mutual
/-- `convert_field_with_inherited_type`. -/
def convertFieldWithInheritedType (name : Text) :
    RawField → Option FieldType → Except OmpError Field
  | .mk source type required description value probe args from_ transform fallback,
      inherited => do
    let ty ← match type, inherited with
      | some s, _ => FieldType.parse W s
      | none, some ty => .ok ty
      | none, none => .error (.schemaValidation
          ("field ".toList ++ W.debugStr name ++ ": missing `type`".toList))
    let source ← convertSource W name source value probe args from_ transform
    let fallback ← convertFallback (name ++ ".fallback".toList) fallback ty
    .ok (.mk name source ty (required.getD false) description fallback)
/-- The fallback of a field, which inherits its type. -/
def convertFallback (name : Text) :
    Option RawField → FieldType → Except OmpError (Option Field)
  | none, _ => .ok none
  | some raw, ty => do
    let f ← convertFieldWithInheritedType name raw (some ty)
    .ok (some f)
end

/-- `convert_field`. -/
def convertField (name : Text) (raw : RawField) : Except OmpError Field :=
  convertFieldWithInheritedType W name raw none

/-! ### Order -/

/-- The field another field is derived from. -/
def Field.from? (f : Field) : Option Text :=
  match f.source with
  | .field from_ _ => some from_
  | _ => none

/-- Names in ascending order. -/
def sortNames (names : List Text) : List Text :=
  names.insertionSort fun a b => (compare a b).isLE = true

/-- Names in descending order. -/
def sortNamesDesc (names : List Text) : List Text :=
  names.insertionSort fun a b => (compare b a).isLE = true

/-- The fields that are derived from a field. -/
def dependents (fields : TextMap Field) (name : Text) : List Text :=
  (fields.toList.filter fun p => p.2.from? = some name).map Prod.fst

/-- The loop of Kahn's algorithm over the fields that are ready, the next one last.  Every round
takes a field, and each becomes ready once, so as many rounds as fields are enough. -/
def topoLoop (fields : TextMap Field) : Nat → List Text → TextMap Nat → List Field
  | 0, _, _ => []
  | rounds + 1, ready, indeg => match ready.getLast? with
    | none => []
    | some n =>
      let deps := dependents fields n
      let indeg := deps.foldl (fun m d => m.insert d (m[d]?.getD 0 - 1)) indeg
      let unlocked := deps.filter fun d => indeg[d]? = some 0
      let ready := if deps.isEmpty then ready.dropLast
        else sortNamesDesc (ready.dropLast ++ sortNames unlocked)
      fields[n]?.toList ++ topoLoop fields rounds ready indeg

/-- `topo_sort`.  Of several fields that reference themselves the first in name order is
reported, where the program takes the first that its hash map yields. -/
def topoSort (fields : TextMap Field) : Except OmpError (List Field) :=
  match fields.toList.find? fun p => p.2.from? = some p.1 with
  | some p => .error (.schemaValidation
      ("field ".toList ++ W.debugStr p.1 ++ " references itself".toList))
  | none =>
    let indeg := TextMap.collect (fields.toList.map fun p =>
      (p.1, if p.2.from?.isSome then 1 else 0))
    let ready := sortNames ((indeg.toList.filter fun p => p.2 = 0).map Prod.fst)
    let out := topoLoop fields fields.size ready indeg
    if out.length ≠ fields.size then
      .error (.schemaValidation "schema: field dependency cycle".toList)
    else .ok out

/-- `check_field_refs` for one source. -/
def checkSourceRef (name : Text) (source : Source) (all : TextMap Field) : Except OmpError Unit :=
  match source with
  | .field from_ _ =>
    if all.contains from_ then .ok ()
    else .error (.schemaValidation ("field ".toList ++ W.debugStr name ++ ": `from = ".toList ++
      W.debugStr from_ ++ "` has no matching field".toList))
  | _ => .ok ()

/-- `check_field_refs`. -/
def checkFieldRefs (all : TextMap Field) : Field → Except OmpError Unit
  | .mk name source _ _ _ none => checkSourceRef W name source all
  | .mk name source _ _ _ (some fallback) => do
    checkSourceRef W name source all
    checkFieldRefs all fallback

/-! ### Schemas -/

namespace Schema

/-- `Schema::parse`. -/
def parse (bytes : Bytes) (filenameStem : Text) : Except OmpError Schema :=
  match fromUtf8 bytes with
  | none => .error (.schemaValidation "schema not UTF-8".toList)
  | some s => match W.rawSchema s with
    | .error e => .error (.schemaValidation ("schema TOML: ".toList ++ e))
    | .ok raw =>
      if raw.fileType ≠ filenameStem then
        .error (.schemaValidation ("file_type ".toList ++ W.debugStr raw.fileType ++
          " does not match schema filename stem ".toList ++ W.debugStr filenameStem))
      else if raw.mimePatterns = [] then
        .error (.schemaValidation "schema: mime_patterns must be non-empty".toList)
      else do
        let converted ← raw.fields.mapM fun p => do
          let f ← convertField W p.1 p.2
          .ok (p.1, f)
        let converted := TextMap.collect converted
        let ordered ← topoSort W converted
        ordered.forM (checkFieldRefs W converted)
        .ok ⟨raw.fileType, raw.mimePatterns, raw.allowExtraFields.getD false, ordered⟩

end Schema

/-- `validate_probe_refs` for one source. -/
def validateSourceProbe (name : Text) (source : Source) (probeNames : List Text) :
    Except OmpError Unit :=
  match source with
  | .probe probe _ =>
    if probe ∈ probeNames then .ok ()
    else .error (.schemaValidation ("field ".toList ++ W.debugStr name ++ ": probe ".toList ++
      W.debugStr probe ++ " not found in tree".toList))
  | _ => .ok ()

/-- `validate_probe_refs_inner`. -/
def validateProbeRefsInner (probeNames : List Text) : Field → Except OmpError Unit
  | .mk name source _ _ _ none => validateSourceProbe W name source probeNames
  | .mk name source _ _ _ (some fallback) => do
    validateSourceProbe W name source probeNames
    validateProbeRefsInner probeNames fallback

/-- `validate_probe_refs`. -/
def Schema.validateProbeRefs (s : Schema) (probeNames : List Text) : Except OmpError Unit :=
  s.fields.forM (validateProbeRefsInner W probeNames)

/-! ### MIME patterns -/

/-- `glob_inner`, on the rest of the pattern and the rest of the text. -/
def globInner : List Char → List Char → Bool
  | [], t => t.isEmpty
  | '*' :: p, t => t.tails.any (globInner p)
  | '?' :: _, [] => false
  | '?' :: p, _ :: t => globInner p t
  | _ :: _, [] => false
  | c :: p, d :: t => d == c && globInner p t

/-- `mime_matches` : globs, without regard to case. -/
def mimeMatches (pattern mime : Text) : Bool :=
  globInner (pattern.map Char.toLower) (mime.map Char.toLower)

/-- The text of `MINIMAL_SCHEMA`. -/
def minimalSchemaText : Text :=
  "file_type = \"_minimal\"\nmime_patterns = [\"*/*\"]\n\n".toList ++
  "[fields.byte_size]\nsource = \"probe\"\nprobe = \"file.size\"\ntype = \"int\"\n\n".toList ++
  "[fields.sha256]\nsource = \"probe\"\nprobe = \"file.sha256\"\ntype = \"string\"\n\n".toList ++
  "[fields.mime]\nsource = \"probe\"\nprobe = \"file.mime\"\ntype = \"string\"\n".toList

/-- `MINIMAL_SCHEMA`, the schema built into the program. -/
def minimalSchema : Bytes := utf8 minimalSchemaText

end Omp
