import Omp.Branches
import Omp.FieldOrder

/-!
# What an ingest yields

An ingest that succeeds gives every field of its schema a value of its type, in normal form, and
null only where the schema lets it.  What the caller supplies beyond the fields is taken where the
schema allows it, and never in place of a field.  The manifest names the probes whose outputs were
consulted, each with the hash of its program.

## Main definitions

* `Source.Consults`, `Field.Consults` : the probes whose outputs a field consults.
* `FieldType.Normal` : values without integers where the type says floats.
* `WellIngested` : the postcondition.

## Main results

* `resolveField_keeps`, `resolveFields_keeps` : what resolving does to the hashes of the probes.
* `resolveField_userFields` : fields that do not ask the caller do not depend on what it supplies.
* `ingestWithCache_wellIngested` : the postcondition holds.
-/

namespace Omp

open Lib

/-! ### Values -/

/-- No integer stands where the type says float. -/
def FieldType.Normal : FieldType → FieldValue → Prop
  | .float, v => ∀ i, v ≠ .int i
  | .listFloat, v => ∀ items, v = .list items → ∀ item ∈ items, ∀ i, item ≠ .int i
  | _, _ => True

theorem normal_normalizeValue (v : FieldValue) (ty : FieldType) :
    ty.Normal (normalizeValue v ty) := by
  cases ty with
  | float => cases v <;> nofun
  | listFloat =>
    rintro items hitems item hitem i rfl
    cases v with
    | list vs =>
      cases hitems
      obtain ⟨v, -, hv⟩ := List.mem_map.1 hitem
      cases v <;> cases hv
    | _ => cases hitems
  | _ => trivial

theorem isNull_normalizeValue (v : FieldValue) (ty : FieldType) :
    (normalizeValue v ty).isNull = v.isNull := by
  cases ty <;> cases v <;> rfl

/-- A value is of a type in its normal form as it was before. -/
theorem accepts_normalizeValue (v : FieldValue) (ty : FieldType) :
    ty.accepts (normalizeValue v ty) = ty.accepts v := by
  cases ty with
  | float => cases v <;> rfl
  | listFloat =>
    cases v with
    | list items =>
      change (items.map _).all FieldType.float.acceptsScalar =
        items.all FieldType.float.acceptsScalar
      rw [List.all_map]
      refine congrArg (List.all items) (funext fun v => ?_)
      cases v <;> rfl
    | _ => rfl
  | _ => rfl

/-! ### Consulting probes -/

/-- A source consults the output of a probe, which runs or has run. -/
def Source.Consults (input : IngestInput) (view : TreeView) (source : Source) (probe : Text) :
    Prop :=
  ∃ args blob, source = .probe probe args ∧ view.probes[probe]? = some blob ∧
    input.skipsProbe view blob = false

/-- A field consults the output of a probe: in its source, or in a fallback if the source gives
nothing. -/
inductive Field.Consults (W : World) (runProbe : RunProbe) (input : IngestInput) (view : TreeView)
    (resolved : Fields) : Field → IngestState → Text → Prop
  | source {f : Field} {st : IngestState} {probe : Text} :
    f.source.Consults input view probe → Consults W runProbe input view resolved f st probe
  | fallback {f fallback : Field} {st st' : IngestState} {v : FieldValue} {probe : Text} :
    f.fallback = some fallback →
    resolveSource W runProbe f.name f.source input view resolved st = (.ok v, st') →
    v.isNull = true → Consults W runProbe input view resolved fallback st' probe →
    Consults W runProbe input view resolved f st probe

/-- The sources of a field and of its fallbacks. -/
def Field.sources : Field → List Source
  | .mk _ source _ _ _ none => [source]
  | .mk _ source _ _ _ (some fallback) => source :: fallback.sources

/-- A field and its fallbacks do not ask the caller. -/
def Field.Derived (f : Field) : Prop := .userProvided ∉ f.sources

/-- **What an ingest yields**, of a view, an input and a cache. -/
structure WellIngested (W : World) (runProbe : RunProbe) (input : IngestInput) (view : TreeView)
    (cache : ProbeOutputCache) (m : Manifest) : Prop where
  /-- Every field has a value of its type, in normal form. -/
  typed : ∀ f ∈ view.schema.fields, ∃ v, m.fields[f.name]? = some v ∧ f.type.accepts v = true ∧
    f.type.Normal v
  required : ∀ f ∈ view.schema.fields, f.required = true → ∀ v, m.fields[f.name]? = some v →
    v.isNull = false
  /-- What is under another name is from the caller, and allowed. -/
  extra : ∀ n v, m.fields[n]? = some v → (∀ f ∈ view.schema.fields, f.name ≠ n) →
    view.schema.allowExtraFields = true ∧ input.userFields[n]? = some v
  /-- A field has the value that it resolves to, whatever the caller supplies if it is not asked. -/
  resolved : ∀ l₁ f l₂, view.schema.fields = l₁ ++ f :: l₂ → ∃ resolved st v st',
    resolveFields W runProbe input view l₁ ∅ ⟨∅, cache⟩ = (.ok resolved, st) ∧
    resolveField W runProbe input view resolved f st = (.ok v, st') ∧
    m.fields[f.name]? = some (normalizeValue v f.type) ∧
    (f.Derived → ∀ userFields, resolveField W runProbe { input with userFields := userFields } view
      resolved f st = (.ok v, st'))
  /-- The probes whose outputs were consulted, with the hashes of their programs. -/
  probes : ∀ probe h, m.probeHashes[probe]? = some h ↔
    (∃ blob, view.probes[probe]? = some blob ∧ blob.framedHash = h) ∧
    ∃ l₁ f l₂ resolved st, view.schema.fields = l₁ ++ f :: l₂ ∧
      resolveFields W runProbe input view l₁ ∅ ⟨∅, cache⟩ = (.ok resolved, st) ∧
      f.Consults W runProbe input view resolved st probe

section Resolve

variable {W : World} {runProbe : RunProbe} {input : IngestInput} {view : TreeView}
  {resolved r : Fields} {st st' : IngestState}

/-! ### Resolving a field -/

/-- The hashes that are noted are those of the view. -/
def IngestState.Known (view : TreeView) (st : IngestState) : Prop :=
  ∀ (probe : Text) h, st.probeHashes[probe]? = some h →
    ∃ blob, view.probes[probe]? = some blob ∧ blob.framedHash = h

/-- The state after a step that consults certain probes. -/
structure Notes (view : TreeView) (consulted : Text → Prop) (st st' : IngestState) : Prop where
  known : st.Known view → st'.Known view
  mem : ∀ probe, probe ∈ st'.probeHashes ↔ probe ∈ st.probeHashes ∨ consulted probe

theorem Notes.refl {consulted : Text → Prop} (h : ∀ probe, ¬ consulted probe) (st : IngestState) :
    Notes view consulted st st :=
  ⟨id, fun probe => (or_iff_left (h probe)).symm⟩

/-- **What a source notes.** -/
theorem resolveSource_notes {name : Text} {source : Source} {v : FieldValue}
    (h : resolveSource W runProbe name source input view resolved st = (.ok v, st')) :
    Notes view (source.Consults input view) st st' := by
  cases source with
  | constant value =>
    cases h
    exact Notes.refl (fun probe ⟨_, _, h, _⟩ => nomatch h) _
  | userProvided =>
    cases h
    exact Notes.refl (fun probe ⟨_, _, h, _⟩ => nomatch h) _
  | field from_ transform =>
    cases h
    exact Notes.refl (fun probe ⟨_, _, h, _⟩ => nomatch h) _
  | probe probe args =>
    rw [resolveSource, resolveProbe] at h
    split at h
    · cases h
    · next blob hblob =>
      split_ifs at h with hskip
      · -- the probe does not run, and is not noted
        cases h
        refine Notes.refl (fun p ⟨_, blob', hp, hblob', hskip'⟩ => ?_) _
        cases hp
        cases hblob.symm.trans hblob'
        rw [hskip] at hskip'
        cases hskip'
      · split at h
        · cases h
        · cases h
          constructor
          · intro hknown p fh hp
            dsimp only at hp
            rw [TextMap.getElem?_insert] at hp
            split_ifs at hp with heq
            · cases hp
              exact ⟨blob, heq ▸ hblob, rfl⟩
            · exact hknown p fh hp
          · intro p
            rw [Std.ExtTreeMap.mem_insert, Std.compare_eq_iff_eq, or_comm]
            refine or_congr_right ⟨?_, ?_⟩
            · rintro rfl
              exact ⟨args, blob, rfl, hblob, by simpa using hskip⟩
            · rintro ⟨_, _, hp, -⟩
              cases hp
              rfl

/-- **What a field notes.** -/
theorem resolveField_notes {f : Field} {v : FieldValue}
    (h : resolveField W runProbe input view resolved f st = (.ok v, st')) :
    Notes view (f.Consults W runProbe input view resolved st) st st' := by
  induction f using Field.refs.induct generalizing st with
  | case1 name source type required description =>
    rw [resolveField] at h
    have hnotes := resolveSource_notes h
    refine ⟨hnotes.known, fun probe =>
      (hnotes.mem probe).trans (or_congr_right ⟨fun hs => .source hs, ?_⟩)⟩
    rintro (hsource | ⟨hnone, -⟩)
    · exact hsource
    · cases hnone
  | case2 name source type required description fallback ih =>
    rw [resolveField] at h
    split at h
    · cases h
    · next v₁ st₁ hsource =>
      have hnotes := resolveSource_notes hsource
      split_ifs at h with hnull
      · -- the source gave nothing, and the fallback is resolved after it
        have hnotes' := ih h
        refine ⟨fun hknown => hnotes'.known (hnotes.known hknown), fun probe => ?_⟩
        rw [hnotes'.mem, hnotes.mem, or_assoc]
        refine or_congr_right ⟨?_, ?_⟩
        · rintro (hconsults | hconsults)
          · exact .source hconsults
          · exact .fallback rfl hsource hnull hconsults
        · rintro (hconsults | ⟨hfallback, hsource', -, hconsults⟩)
          · exact .inl hconsults
          · cases hfallback
            cases hsource.symm.trans hsource'
            exact .inr hconsults
      · cases h
        refine ⟨hnotes.known, fun probe =>
          (hnotes.mem probe).trans (or_congr_right ⟨fun hs => .source hs, ?_⟩)⟩
        rintro (hconsults | ⟨hfallback, hsource', hnull', -⟩)
        · exact hconsults
        · cases hsource.symm.trans hsource'
          exact absurd hnull' hnull

theorem resolveSource_userFields {name : Text} {source : Source} (hsource : source ≠ .userProvided)
    (userFields : Fields) : resolveSource W runProbe name source
      { input with userFields := userFields } view resolved st =
        resolveSource W runProbe name source input view resolved st := by
  cases source with
  | userProvided => exact absurd rfl hsource
  | _ => rfl

/-- **A field that does not ask the caller** does not depend on what it supplies. -/
theorem resolveField_userFields {f : Field} (hf : f.Derived) (userFields : Fields) :
    resolveField W runProbe { input with userFields := userFields } view resolved f st =
      resolveField W runProbe input view resolved f st := by
  induction f using Field.refs.induct generalizing st with
  | case1 name source type required description =>
    rw [resolveField, resolveField]
    exact resolveSource_userFields (fun h => hf (by rw [h]; exact List.mem_singleton_self _)) _
  | case2 name source type required description fallback ih =>
    obtain ⟨hsource, hfallback⟩ := not_or.1 (fun h => hf (List.mem_cons.2 h))
    have hrest (st) := @ih st hfallback
    rw [resolveField, resolveField, resolveSource_userFields (Ne.symm hsource)]
    simp only [hrest]

/-! ### Resolving the fields -/

theorem checkValue_eq_ok {f : Field} {v : FieldValue} (h : checkValue W f v = .ok ()) :
    (f.required = true → v.isNull = false) ∧ f.type.accepts v = true := by
  unfold checkValue at h
  split_ifs at h with hrequired haccepts
  refine ⟨fun hf => ?_, by simpa using haccepts⟩
  simpa [hf] using hrequired

/-- One field is resolved, and then the others. -/
theorem resolveFields_cons {f : Field} {l : List Field}
    (h : resolveFields W runProbe input view (f :: l) resolved st = (.ok r, st')) :
    ∃ v st₁, resolveField W runProbe input view resolved f st = (.ok v, st₁) ∧
      checkValue W f v = .ok () ∧
      resolveFields W runProbe input view l (resolved.insert f.name (normalizeValue v f.type)) st₁ =
        (.ok r, st') := by
  rw [resolveFields] at h
  split at h
  · cases h
  · next v st₁ hfield =>
    split at h
    · cases h
    · next hcheck => exact ⟨v, st₁, hfield, hcheck, h⟩

/-- What comes before a field is resolved before it. -/
theorem resolveFields_append {l₁ l₂ : List Field}
    (h : resolveFields W runProbe input view (l₁ ++ l₂) resolved st = (.ok r, st')) :
    ∃ r₁ st₁, resolveFields W runProbe input view l₁ resolved st = (.ok r₁, st₁) ∧
      resolveFields W runProbe input view l₂ r₁ st₁ = (.ok r, st') := by
  induction l₁ generalizing resolved st with
  | nil => exact ⟨resolved, st, rfl, h⟩
  | cons f l₁ ih =>
    obtain ⟨v, st₂, hfield, hcheck, h⟩ := resolveFields_cons h
    obtain ⟨r₁, st₁, hl₁, hl₂⟩ := ih h
    refine ⟨r₁, st₁, ?_, hl₂⟩
    rw [resolveFields, hfield]
    dsimp only
    rw [hcheck]
    exact hl₁

/-- A value stays where no later field has its name. -/
theorem getElem?_of_resolveFields {l : List Field} {n : Text}
    (h : resolveFields W runProbe input view l resolved st = (.ok r, st'))
    (hn : n ∉ l.map Field.name) : r[n]? = resolved[n]? := by
  induction l generalizing resolved st with
  | nil =>
    cases h
    rfl
  | cons f l ih =>
    rw [List.map_cons, List.mem_cons, not_or] at hn
    obtain ⟨v, st₁, -, -, h⟩ := resolveFields_cons h
    rw [ih h hn.2, TextMap.getElem?_insert, if_neg (Ne.symm hn.1)]

/-- **The value of a field** is the one it resolves to after those before it. -/
theorem resolveFields_field {l₁ l₂ : List Field} {f : Field}
    (hnodup : ((l₁ ++ f :: l₂).map Field.name).Nodup)
    (h : resolveFields W runProbe input view (l₁ ++ f :: l₂) resolved st = (.ok r, st')) :
    ∃ r₁ st₁ v st₂, resolveFields W runProbe input view l₁ resolved st = (.ok r₁, st₁) ∧
      resolveField W runProbe input view r₁ f st₁ = (.ok v, st₂) ∧ checkValue W f v = .ok () ∧
      r[f.name]? = some (normalizeValue v f.type) := by
  obtain ⟨r₁, st₁, hl₁, h⟩ := resolveFields_append h
  obtain ⟨v, st₂, hfield, hcheck, h⟩ := resolveFields_cons h
  refine ⟨r₁, st₁, v, st₂, hl₁, hfield, hcheck, ?_⟩
  have hname : f.name ∉ l₂.map Field.name := by
    rw [List.map_append, List.map_cons] at hnodup
    exact (List.nodup_cons.1 (List.nodup_append.1 hnodup).2.1).1
  rw [getElem?_of_resolveFields h hname, TextMap.getElem?_insert, if_pos rfl]

/-- **What the fields note**: the probes that one of them consults when its turn comes. -/
theorem resolveFields_notes {l : List Field}
    (h : resolveFields W runProbe input view l resolved st = (.ok r, st')) :
    Notes view (fun probe => ∃ l₁ f l₂ r₁ st₁, l = l₁ ++ f :: l₂ ∧
      resolveFields W runProbe input view l₁ resolved st = (.ok r₁, st₁) ∧
      f.Consults W runProbe input view r₁ st₁ probe) st st' := by
  induction l generalizing resolved st with
  | nil =>
    cases h
    refine Notes.refl (fun probe => ?_) _
    rintro ⟨l₁, f, l₂, -, -, hnil, -⟩
    cases l₁ <;> cases hnil
  | cons f l ih =>
    obtain ⟨v, st₁, hfield, hcheck, h⟩ := resolveFields_cons h
    have hnotes := resolveField_notes hfield
    have hnotes' := ih h
    refine ⟨fun hknown => hnotes'.known (hnotes.known hknown), fun probe => ?_⟩
    rw [hnotes'.mem, hnotes.mem, or_assoc]
    refine or_congr_right ⟨?_, ?_⟩
    · rintro (hconsults | ⟨l₁, f', l₂, r₁, st₂, rfl, hl₁, hconsults⟩)
      · exact ⟨[], f, l, resolved, st, rfl, rfl, hconsults⟩
      · refine ⟨f :: l₁, f', l₂, r₁, st₂, rfl, ?_, hconsults⟩
        rw [resolveFields, hfield]
        dsimp only
        rw [hcheck]
        exact hl₁
    · rintro ⟨l₁, f', l₂, r₁, st₂, hsplit, hl₁, hconsults⟩
      cases l₁ with
      | nil =>
        cases hsplit
        cases hl₁
        exact .inl hconsults
      | cons f₁ l₁ =>
        cases hsplit
        obtain ⟨v', st₃, hfield', -, hl₁⟩ := resolveFields_cons hl₁
        cases hfield.symm.trans hfield'
        exact .inr ⟨l₁, f', l₂, r₁, st₂, rfl, hl₁, hconsults⟩

/-! ### The values of the caller -/

theorem getElem?_addExtra (l : List (Text × FieldValue)) (m : Fields) (n : Text) :
    (l.foldl (fun m p => if m.contains p.1 then m else m.insert p.1 p.2) m)[n]? =
      m[n]?.or ((l.find? fun p => p.1 = n).map Prod.snd) := by
  induction l generalizing m with
  | nil => simp
  | cons p l ih =>
    rw [List.foldl_cons, ih, List.find?_cons]
    by_cases hp : p.1 = n
    · subst hp
      rw [decide_eq_true rfl]
      dsimp only
      cases hm : m[p.1]? with
      | some v =>
        have hcontains : m.contains p.1 = true := by
          rw [Std.ExtTreeMap.contains_eq_isSome_getElem?, hm]
          rfl
        rw [if_pos hcontains, hm]
        rfl
      | none =>
        have hcontains : ¬ m.contains p.1 = true := by
          rw [Std.ExtTreeMap.contains_eq_isSome_getElem?, hm]
          nofun
        rw [if_neg hcontains, TextMap.getElem?_insert, if_pos rfl]
        rfl
    · rw [decide_eq_false hp]
      dsimp only
      split_ifs
      · rfl
      · rw [TextMap.getElem?_insert, if_neg hp]

/-- **What the caller supplies** is added under names that are free, and only where allowed. -/
theorem addExtras_of_ok {schema : Schema} {userFields fields : Fields}
    (h : addExtras W schema userFields resolved = .ok fields) (n : Text) :
    (∀ v, resolved[n]? = some v → fields[n]? = some v) ∧
      (resolved[n]? = none → ∀ v, fields[n]? = some v →
        schema.allowExtraFields = true ∧ userFields[n]? = some v) := by
  unfold addExtras at h
  split_ifs at h with hallow
  · cases h
    rw [getElem?_addExtra]
    refine ⟨fun v hv => by rw [hv]; rfl, fun hnone v hv => ⟨hallow, ?_⟩⟩
    rw [hnone, Option.none_or, Option.map_eq_some_iff] at hv
    obtain ⟨⟨k, w⟩, hfind, rfl⟩ := hv
    obtain rfl : k = n := by simpa using List.find?_some hfind
    exact TextMap.mem_toList.1 (List.mem_of_find?_eq_some hfind)
  · split at h
    · cases h
    · cases h
      exact ⟨fun v hv => hv, fun hnone v hv => by rw [hnone] at hv; cases hv⟩

end Resolve

/-! ### The postcondition -/

/-- The fields of a parsed schema have different names. -/
theorem Schema.nodup_names {W : World} {bytes : Bytes} {stem : Text} {schema : Schema}
    (h : Schema.parse W bytes stem = .ok schema) : (schema.fields.map Field.name).Nodup := by
  have hparse := (Schema.parse_eq W bytes stem).symm.trans h
  obtain ⟨⟨raw, fields⟩, hdeclared, -⟩ := except_bind_eq_ok.1 hparse
  obtain ⟨names, hsorts, hfields⟩ := sorts_of_topoSort (Schema.topoSort_of_parse hdeclared h)
  rw [hfields, map_name_filterMap (fun n f => Schema.name_of_declared hdeclared) hsorts]
  exact hsorts.nodup

/-- **What an ingest yields is well formed**, for every schema that parses. -/
theorem ingestWithCache_wellIngested {W : World} {runProbe : RunProbe} {input : IngestInput}
    {view : TreeView} {cache : ProbeOutputCache} {bytes : Bytes} {stem : Text} {m : Manifest}
    (hschema : Schema.parse W bytes stem = .ok view.schema)
    (h : (ingestWithCache W runProbe input view cache).1 = .ok m) :
    WellIngested W runProbe input view cache m := by
  have hnodup := Schema.nodup_names hschema
  unfold ingestWithCache at h
  split at h
  · cases h
  · next resolved st hresolve =>
    split at h
    · cases h
    · next fields hextras =>
      cases h
      have hfield : ∀ l₁ f l₂, view.schema.fields = l₁ ++ f :: l₂ → ∃ r₁ st₁ v st₂,
          resolveFields W runProbe input view l₁ ∅ ⟨∅, cache⟩ = (.ok r₁, st₁) ∧
          resolveField W runProbe input view r₁ f st₁ = (.ok v, st₂) ∧
          checkValue W f v = .ok () ∧ fields[f.name]? = some (normalizeValue v f.type) := by
        intro l₁ f l₂ hsplit
        rw [hsplit] at hresolve hnodup
        obtain ⟨r₁, st₁, v, st₂, hl₁, hf, hcheck, hvalue⟩ := resolveFields_field hnodup hresolve
        exact ⟨r₁, st₁, v, st₂, hl₁, hf, hcheck, (addExtras_of_ok hextras _).1 _ hvalue⟩
      have hnotes := resolveFields_notes hresolve
      refine ⟨fun f hf => ?_, fun f hf hrequired v hv => ?_, fun n v hv hn => ?_,
        fun l₁ f l₂ hsplit => ?_, fun probe fh => ?_⟩
      · obtain ⟨l₁, l₂, hsplit⟩ := List.append_of_mem hf
        obtain ⟨_, _, v, _, -, -, hcheck, hvalue⟩ := hfield l₁ f l₂ hsplit
        refine ⟨_, hvalue, ?_, normal_normalizeValue v f.type⟩
        rw [accepts_normalizeValue]
        exact (checkValue_eq_ok hcheck).2
      · obtain ⟨l₁, l₂, hsplit⟩ := List.append_of_mem hf
        obtain ⟨_, _, w, _, -, -, hcheck, hvalue⟩ := hfield l₁ f l₂ hsplit
        cases hvalue.symm.trans hv
        rw [isNull_normalizeValue]
        exact (checkValue_eq_ok hcheck).1 hrequired
      · -- under another name there is no resolved value
        refine (addExtras_of_ok hextras n).2 ?_ v hv
        refine Std.ExtTreeMap.getElem?_eq_none fun hin => ?_
        have hmem := ((mem_of_resolveFields hresolve).1 hin).resolve_left
          Std.ExtTreeMap.not_mem_empty
        obtain ⟨f, hf, hname⟩ := List.mem_map.1 hmem
        exact hn f hf hname
      · obtain ⟨r₁, st₁, v, st₂, hl₁, hf, -, hvalue⟩ := hfield l₁ f l₂ hsplit
        exact ⟨r₁, st₁, v, st₂, hl₁, hf, hvalue,
          fun hderived userFields => (resolveField_userFields hderived userFields).trans hf⟩
      · have hknown := hnotes.known fun p h hp => by
          rw [Std.ExtTreeMap.getElem?_empty] at hp
          cases hp
        have hmem := hnotes.mem probe
        rw [or_iff_right Std.ExtTreeMap.not_mem_empty] at hmem
        rw [← hmem]
        constructor
        · intro hget
          exact ⟨hknown probe fh hget, by
            rw [Std.ExtTreeMap.mem_iff_isSome_getElem?, hget]
            rfl⟩
        · rintro ⟨⟨blob, hblob, rfl⟩, hin⟩
          rw [Std.ExtTreeMap.mem_iff_isSome_getElem?, Option.isSome_iff_exists] at hin
          obtain ⟨fh, hfh⟩ := hin
          obtain ⟨blob', hblob', rfl⟩ := hknown probe fh hfh
          cases hblob.symm.trans hblob'
          exact hfh

/-- An input with values from the caller. -/
def demoInput (userFields : Fields) : IngestInput where
  bytes := []
  userFields := userFields
  path := ['p']
  ingestedAt := []
  streamingBuiltins := none
  contentLength := 0
  overrideSourceHash := none

/-- A view of a schema without probes. -/
def demoView (schema : Schema) : TreeView := ⟨schema, [], ∅, ⟨0, 0, 0⟩⟩

theorem ingestWithCache_wellIngested_demo :
    ∃ schema m, WellIngested (schemaWorld [(['b'], demoDerived ['a']), (['a'], demoConstant)])
      demoEnv.runProbe (demoInput ∅) (demoView schema) [] m := by
  obtain ⟨schema, hschema⟩ := exists_eq_ok_of_isOk (r := Schema.parse (schemaWorld
    [(['b'], demoDerived ['a']), (['a'], demoConstant)]) (utf8 "S".toList) ['t'])
    (by decide +kernel)
  have hok : ((Schema.parse (schemaWorld [(['b'], demoDerived ['a']), (['a'], demoConstant)])
      (utf8 "S".toList) ['t']).toOption.map fun schema => (ingestWithCache
        (schemaWorld [(['b'], demoDerived ['a']), (['a'], demoConstant)]) demoEnv.runProbe
          (demoInput ∅) (demoView schema) []).1.isOk) = some true := by decide +kernel
  rw [hschema] at hok
  obtain ⟨m, hm⟩ := exists_eq_ok_of_isOk (Option.some.inj hok)
  exact ⟨schema, m, ingestWithCache_wellIngested hschema hm⟩

end Omp
