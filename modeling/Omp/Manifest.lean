import Omp.Canonical

/-!
# Manifests

A manifest describes one file: the hashes of its source, its schema and its probes, and the
values of its fields.  It is stored as canonical TOML.

A stored manifest is parsed back as it was, its values normalised (`Manifest.parse_iff`), unless
one of its texts has a delete character: then nothing can parse it.

## Main definitions

* `Manifest`, `Manifest.serialize`, `Manifest.parse`.

## Main results

* `Manifest.parse_iff` : what a serialized manifest is parsed as.
-/

namespace Omp

open Lib Lib.Toml

variable (W : World)

/-- The TOML object describing one user file. -/
structure Manifest where
  sourceHash : Hash
  fileType : Text
  schemaHash : Hash
  ingestedAt : Text
  ingesterVersion : Text
  probeHashes : TextMap Hash
  fields : Fields

/-! ### Values and items -/

/-- The `{}` form of a float that is not finite. -/
def nonFiniteText (x : F64) : Text :=
  if x.isNaN then "NaN".toList else if x.isNegative then "-inf".toList else "inf".toList

mutual
/-- `field_value_to_item`, whose items are always values; `none` for a null. -/
def fieldValueToItem : FieldValue → Except OmpError (Option Value)
  | .null => .ok none
  | .string s => .ok (some (.str s))
  | .int i => .ok (some (.int i))
  | .float x =>
    if x.isFinite then .ok (some (.float x))
    else .error (.ingestValidation ("non-finite float in field: ".toList ++ nonFiniteText x))
  | .bool b => .ok (some (.bool b))
  | .datetime s => match W.toml.datetime s with
    | some s' => .ok (some (.datetime s'))
    | none => .ok (some (.str s))
  | .list items => do
    let vs ← listToItems items
    .ok (some (.array vs))
  | .object entries => do
    let es ← objectToItems entries
    .ok (some (.inline es))
/-- The items of a list. -/
def listToItems : List FieldValue → Except OmpError (List Value)
  | [] => .ok []
  | v :: vs => do
    let i ← fieldValueToItem v
    match i with
    | none => .error (.ingestValidation "list element must be a scalar".toList)
    | some i =>
      let is ← listToItems vs
      .ok (i :: is)
/-- The items of an object. -/
def objectToItems : List (Text × FieldValue) → Except OmpError (List (Text × Value))
  | [] => .ok []
  | (k, v) :: es => do
    let i ← fieldValueToItem v
    match i with
    | none => .error (.ingestValidation
        ("object field ".toList ++ k ++ " must be a scalar".toList))
    | some i =>
      let is ← objectToItems es
      .ok ((k, i) :: is)
end

mutual
/-- `value_to_field_value`. -/
def valueToFieldValue : Value → FieldValue
  | .str s => .string s
  | .int i => .int i
  | .float x => .float x
  | .bool b => .bool b
  | .datetime s => .datetime s
  | .array items => .list (valuesToFieldValues items)
  | .inline entries => .object (TextMap.collect (entriesToFieldValues entries)).toList
/-- The same for the items of an array. -/
def valuesToFieldValues : List Value → List FieldValue
  | [] => []
  | v :: vs => valueToFieldValue v :: valuesToFieldValues vs
/-- The same for the entries of an inline table. -/
def entriesToFieldValues : List (Text × Value) → List (Text × FieldValue)
  | [] => []
  | (k, v) :: es => (k, valueToFieldValue v) :: entriesToFieldValues es
end

mutual
/-- `item_to_field_value`. -/
def itemToFieldValue : Item → FieldValue
  | .value v => valueToFieldValue v
  | .table es => .object (TextMap.collect (itemsToFieldValues es)).toList
  | .tables ts => .list (tablesToFieldValues ts)
/-- The same for the entries of a table. -/
def itemsToFieldValues : List (Text × Item) → List (Text × FieldValue)
  | [] => []
  | (k, i) :: es => (k, itemToFieldValue i) :: itemsToFieldValues es
/-- `array_of_tables_to_field_value`. -/
def tablesToFieldValues : List (List (Text × Item)) → List FieldValue
  | [] => []
  | t :: ts => .object (TextMap.collect (itemsToFieldValues t)).toList :: tablesToFieldValues ts
end

/-! ### Serializing and parsing -/

namespace Manifest

/-- The items of the fields; nulls are not emitted. -/
def fieldItems : List (Text × FieldValue) → Except OmpError (List (Text × Value))
  | [] => .ok []
  | (k, v) :: es => do
    let i ← fieldValueToItem W v
    let is ← fieldItems es
    match i with
    | some i => .ok ((k, i) :: is)
    | none => .ok is

/-- The pairs of the root table. -/
def header (m : Manifest) : List (Text × Value) :=
  [("source_hash".toList, .str m.sourceHash.hex), ("file_type".toList, .str m.fileType),
    ("schema_hash".toList, .str m.schemaHash.hex), ("ingested_at".toList, .str m.ingestedAt),
    ("ingester_version".toList, .str m.ingesterVersion)]

/-- The tables, given the items of the fields. -/
def tables (m : Manifest) (items : List (Text × Value)) : List (Text × List (Text × Value)) :=
  [("probe_hashes".toList, m.probeHashes.toList.map fun p => (p.1, .str p.2.hex)),
    ("fields".toList, items)]

/-- `serialize` : the canonical TOML bytes, over which addresses are taken. -/
def serialize (m : Manifest) : Except OmpError Bytes := do
  let items ← fieldItems W m.fields.toList
  let canonical ← canonicalize W (W.toml.print (.flat m.header (m.tables items)))
  .ok (utf8 canonical)

/-- `read_string`. -/
def readString (doc : Doc) (key : Text) : Except OmpError Text :=
  match doc.get key with
  | some (.value (.str s)) => .ok s
  | _ => .error (.corrupt ("manifest missing string ".toList ++ key))

/-- `read_hash_str`. -/
def readHashStr (doc : Doc) (key : Text) : Except OmpError Hash := do
  let s ← readString doc key
  match Hash.parse W.toPlatform s with
  | .ok h => .ok h
  | .error e => .error (.corrupt ("manifest ".toList ++ key ++ ": ".toList ++ e))

/-- The hashes of the `probe_hashes` table. -/
def readProbeHashes : List (Text × Item) → Except OmpError (List (Text × Hash))
  | [] => .ok []
  | (k, .value (.str s)) :: es => match Hash.parse W.toPlatform s with
    | .ok h => do
      let hs ← readProbeHashes es
      .ok ((k, h) :: hs)
    | .error e =>
      .error (.corrupt ("probe_hashes[".toList ++ k ++ "]: ".toList ++ e))
  | (k, _) :: _ => .error (.corrupt ("probe_hashes[".toList ++ k ++ "] not a string".toList))

/-- `parse`. -/
def parse (bytes : Bytes) : Except OmpError Manifest :=
  match fromUtf8 bytes with
  | none => .error (.corrupt "manifest is not UTF-8".toList)
  | some s => match W.toml.parse s with
    | .error e => .error (.corrupt ("manifest TOML: ".toList ++ e))
    | .ok doc => do
      let sourceHash ← readHashStr W doc "source_hash".toList
      let fileType ← readString doc "file_type".toList
      let schemaHash ← readHashStr W doc "schema_hash".toList
      let ingestedAt ← readString doc "ingested_at".toList
      let ingesterVersion ← readString doc "ingester_version".toList
      let probeHashes ← match doc.get "probe_hashes".toList with
        | some (.table t) => readProbeHashes W t
        | _ => .ok []
      let fields := match doc.get "fields".toList with
        | some (.table t) => itemsToFieldValues t
        | _ => []
      .ok ⟨sourceHash, fileType, schemaHash, ingestedAt, ingesterVersion, TextMap.collect probeHashes,
        TextMap.collect fields⟩

/-! ### Reading a manifest back -/

variable {W}

mutual
theorem writable_of_fieldValueToItem (hW : W.Lawful) :
    ∀ {v : FieldValue} {x : Value}, fieldValueToItem W v = .ok (some x) → W.toml.Writable x
  | .null, x, h => by rw [fieldValueToItem] at h; cases h
  | .string s, x, h => by rw [fieldValueToItem] at h; cases h; trivial
  | .int i, x, h => by rw [fieldValueToItem] at h; cases h; trivial
  | .float y, x, h => by
    rw [fieldValueToItem] at h
    split_ifs at h with hfin
    cases h
    exact hfin
  | .bool b, x, h => by rw [fieldValueToItem] at h; cases h; trivial
  | .datetime s, x, h => by
    rw [fieldValueToItem] at h
    cases hs : W.toml.datetime s with
    | none => rw [hs] at h; cases h; trivial
    | some s' =>
      rw [hs] at h
      cases h
      exact hW.toml.datetime_idem hs
  | .list items, x, h => by
    rw [fieldValueToItem] at h
    cases hvs : listToItems W items with
    | error e => rw [hvs] at h; cases h
    | ok vs =>
      rw [hvs] at h
      cases h
      exact writable_of_listToItems hW hvs
  | .object entries, x, h => by
    rw [fieldValueToItem] at h
    cases hes : objectToItems W entries with
    | error e => rw [hes] at h; cases h
    | ok es =>
      rw [hes] at h
      cases h
      exact ⟨trivial, writable_of_objectToItems hW hes⟩
theorem writable_of_listToItems (hW : W.Lawful) :
    ∀ {vs : List FieldValue} {xs : List Value}, listToItems W vs = .ok xs →
      AllItems (fun _ => True) (fun x => x.isFinite = true)
        (fun s => W.toml.datetime s = some s) (fun _ => True) xs
  | [], xs, h => by rw [listToItems] at h; cases h; trivial
  | v :: vs, xs, h => by
    rw [listToItems] at h
    cases hv : fieldValueToItem W v with
    | error e => rw [hv] at h; cases h
    | ok i =>
      cases i with
      | none => rw [hv] at h; cases h
      | some i =>
        cases hvs : listToItems W vs with
        | error e => rw [hv, hvs] at h; cases h
        | ok is =>
          rw [hv, hvs] at h
          cases h
          exact ⟨writable_of_fieldValueToItem hW hv, writable_of_listToItems hW hvs⟩
theorem writable_of_objectToItems (hW : W.Lawful) :
    ∀ {es : List (Text × FieldValue)} {xs : List (Text × Value)}, objectToItems W es = .ok xs →
      AllEntries (fun _ => True) (fun x => x.isFinite = true)
        (fun s => W.toml.datetime s = some s) (fun _ => True) xs
  | [], xs, h => by rw [objectToItems] at h; cases h; trivial
  | (k, v) :: es, xs, h => by
    rw [objectToItems] at h
    cases hv : fieldValueToItem W v with
    | error e => rw [hv] at h; cases h
    | ok i =>
      cases i with
      | none => rw [hv] at h; cases h
      | some i =>
        cases hes : objectToItems W es with
        | error e => rw [hv, hes] at h; cases h
        | ok is =>
          rw [hv, hes] at h
          cases h
          exact ⟨⟨trivial, writable_of_fieldValueToItem hW hv⟩,
            writable_of_objectToItems hW hes⟩
end

/-- The items of the fields are those of the entries that have one. -/
theorem mem_fieldItems {es : List (Text × FieldValue)} {is : List (Text × Value)}
    (h : fieldItems W es = .ok is) {k : Text} {x : Value} :
    (k, x) ∈ is ↔ ∃ v, (k, v) ∈ es ∧ fieldValueToItem W v = .ok (some x) := by
  induction es generalizing is with
  | nil =>
    rw [fieldItems] at h
    cases h
    simp
  | cons p es ih =>
    obtain ⟨k', v⟩ := p
    rw [fieldItems, except_bind_eq_ok] at h
    obtain ⟨i, hv, h⟩ := h
    obtain ⟨js, hes, h⟩ := except_bind_eq_ok.1 h
    have hsplit : (∃ w, (k, w) ∈ (k', v) :: es ∧ fieldValueToItem W w = .ok (some x)) ↔
        (k = k' ∧ i = some x) ∨ (k, x) ∈ js := by
      rw [ih hes]
      simp only [List.mem_cons, Prod.mk.injEq]
      constructor
      · rintro ⟨w, ⟨rfl, rfl⟩ | hw, hx⟩
        · exact .inl ⟨rfl, by rwa [hv, Except.ok.injEq] at hx⟩
        · exact .inr ⟨w, hw, hx⟩
      · rintro (⟨rfl, rfl⟩ | ⟨w, hw, hx⟩)
        · exact ⟨v, .inl ⟨rfl, rfl⟩, hv⟩
        · exact ⟨w, .inr hw, hx⟩
    rw [hsplit]
    cases i with
    | none =>
      cases h
      simp
    | some i =>
      cases h
      simp [eq_comm]

/-- The keys of the items are among those of the fields. -/
theorem map_fst_fieldItems {es : List (Text × FieldValue)} {is : List (Text × Value)}
    (h : fieldItems W es = .ok is) : (is.map Prod.fst).Sublist (es.map Prod.fst) := by
  induction es generalizing is with
  | nil =>
    rw [fieldItems] at h
    cases h
    exact .slnil
  | cons p es ih =>
    obtain ⟨k, v⟩ := p
    rw [fieldItems, except_bind_eq_ok] at h
    obtain ⟨i, -, h⟩ := h
    obtain ⟨js, hes, h⟩ := except_bind_eq_ok.1 h
    cases i with
    | none => cases h; exact (ih hes).cons _
    | some i => cases h; exact (ih hes).cons_cons _

/-- What a field's value is read back as: nothing for a null, and otherwise the value with its
objects in key order and its zeros positive. -/
def normalValue (W : World) (v : FieldValue) : Option FieldValue :=
  match fieldValueToItem W v with
  | .ok (some x) => some (valueToFieldValue (canonValue x))
  | _ => none

/-- What a manifest is read back as. -/
def normal (W : World) (m : Manifest) : Manifest :=
  { m with fields := m.fields.filterMap fun _ v => normalValue W v }

theorem readProbeHashes_hex (W : World) (hs : List (Text × Hash)) :
    readProbeHashes W (valueItems (hs.map fun p => (p.1, .str p.2.hex))) = .ok hs := by
  induction hs with
  | nil => rfl
  | cons p hs ih =>
    rw [List.map_cons, valueItems, List.map_cons, readProbeHashes, Hash.parse_hex]
    exact except_bind_eq_ok.2 ⟨hs, ih, rfl⟩

theorem itemsToFieldValues_valueItems (ps : List (Text × Value)) :
    itemsToFieldValues (valueItems ps) = ps.map fun p => (p.1, valueToFieldValue p.2) := by
  induction ps with
  | nil => rfl
  | cons p ps ih =>
    rw [valueItems, List.map_cons, itemsToFieldValues, itemToFieldValue, ← valueItems, ih]
    rfl

/-- The steps of serializing a manifest. -/
theorem serialize_eq_ok (hW : W.Lawful) {m : Manifest} {bytes : Bytes}
    (h : m.serialize W = .ok bytes) :
    ∃ items t, fieldItems W m.fields.toList = .ok items ∧ bytes = utf8 t ∧
      W.toml.parse (W.toml.print (.flat m.header (m.tables items))) =
        .ok (.flat m.header (m.tables items)) ∧
      emitTable W (.flat m.header (m.tables items)) = .ok t ∧
      FlatAll W.toml.Writable m.header (m.tables items) := by
  rw [serialize, except_bind_eq_ok] at h
  obtain ⟨items, hitems, h⟩ := h
  obtain ⟨t, ht, h⟩ := except_bind_eq_ok.1 h
  cases h
  have hwritable : FlatAll W.toml.Writable m.header (m.tables items) := by
    refine ⟨?_, ?_⟩
    · simp only [header, List.forall_mem_cons]
      exact ⟨trivial, trivial, trivial, trivial, trivial, nofun⟩
    · simp only [tables, List.forall_mem_cons]
      refine ⟨fun x hx => ?_, fun x hx => ?_, nofun⟩
      · obtain ⟨p, -, rfl⟩ := List.mem_map.1 hx
        trivial
      · obtain ⟨v, -, hv⟩ := (mem_fieldItems hitems).1 hx
        exact writable_of_fieldValueToItem hW hv
  rw [canonicalize] at ht
  split at ht
  · cases ht
  · next doc hparse =>
    obtain rfl := hW.toml.parse_print hwritable hparse
    exact ⟨items, t, hitems, rfl, hparse, ht, hwritable⟩

/-- A manifest without a delete character in its text is written so that it can be read. -/
theorem readableDoc (hW : W.Lawful) {m : Manifest} {items : List (Text × Value)} {t s : Text}
    (hparse : W.toml.parse s = .ok (.flat m.header (m.tables items)))
    (hwritable : FlatAll W.toml.Writable m.header (m.tables items))
    (ht : emitTable W (.flat m.header (m.tables items)) = .ok t) (hdel : del ∉ t) :
    ReadableDoc W m.header (m.tables items) := by
  obtain ⟨hkeys, htableKeys, hdistinct⟩ := hW.toml.of_parse hparse
  obtain ⟨hplain, hplains⟩ := plain_of_emitTable hkeys ht hdel
  have hread : ∀ ps : List (Text × Value), PlainEntries ps →
      (∀ x ∈ ps, W.toml.Writable x.2 ∧ x.2.DistinctKeys) → ReadablePairs W ps := by
    intro ps hps hx
    refine allEntries_iff.2 fun p hp => ?_
    obtain ⟨hkey, hval⟩ := allEntries_iff.1 hps p hp
    obtain ⟨hw, hd⟩ := hx p hp
    have hdates : p.2.All (fun _ => True) (fun _ => True)
        (fun s => W.toml.datetime s = some s) List.Nodup :=
      hw.combine (fun _ _ _ => trivial) (fun _ _ _ => trivial) (fun _ h _ => h)
        (fun _ _ h => h) hd
    exact ⟨hkey, hval.combine (fun _ h _ => h) (fun _ _ _ => trivial) (fun _ _ h => h)
      (fun _ _ h => h) hdates⟩
  refine ⟨hkeys, htableKeys, ?_, ?_, ?_⟩
  · exact hread _ hplain fun x hx => ⟨hwritable.1 x hx, (hdistinct.1 x hx).1⟩
  · exact fun t ht => hread _ (hplains t ht) fun x hx =>
      ⟨hwritable.2 t ht x hx, (hdistinct.2 t ht x hx).1⟩
  · simp only [tables, List.forall_mem_cons]
    exact ⟨⟨by decide, List.all_eq_true.1 (by decide)⟩,
      ⟨by decide, List.all_eq_true.1 (by decide)⟩, nofun⟩

theorem sortKeys_toList {V : Type} (m : TextMap V) : sortKeys m.toList = m.toList :=
  sortKeys_eq (List.Perm.refl _) m.nodup_keys_toList
    (m.sorted_toList.imp fun h => by rw [KeyLe, h]; rfl)

/-- The fields of a manifest that is read back. -/
theorem collect_fields {m : Manifest} {items : List (Text × Value)}
    (h : fieldItems W m.fields.toList = .ok items) :
    TextMap.collect (itemsToFieldValues (valueItems (canonPairs items))) = (m.normal W).fields := by
  have hkeys : (items.map Prod.fst).Nodup :=
    (map_fst_fieldItems h).nodup m.fields.nodup_keys_toList
  have hnodup : ((itemsToFieldValues (valueItems (canonPairs items))).map Prod.fst).Nodup := by
    rw [itemsToFieldValues_valueItems, List.map_map]
    exact (map_fst_canonPairs_perm items).nodup_iff.2 hkeys
  refine Std.ExtTreeMap.ext_getElem? fun k => Option.ext fun w => ?_
  rw [TextMap.getElem?_collect hnodup, itemsToFieldValues_valueItems, normal,
    Std.ExtTreeMap.getElem?_filterMap', Option.bind_eq_some_iff]
  constructor
  · intro hmem
    obtain ⟨x, hx, heq⟩ := List.mem_map.1 hmem
    obtain ⟨y, hy, rfl⟩ := mem_canonPairs hx
    cases heq
    obtain ⟨v, hv, hval⟩ := (mem_fieldItems h).1 (show (y.1, y.2) ∈ items from hy)
    exact ⟨v, TextMap.mem_toList.1 hv, by rw [normalValue, hval]⟩
  · rintro ⟨v, hv, hw⟩
    rw [normalValue] at hw
    split at hw
    · next x hx =>
      cases hw
      have hmem := (mem_fieldItems h).2 ⟨v, TextMap.mem_toList.2 hv, hx⟩
      exact List.mem_map.2 ⟨_, canonValue_mem_canonPairs hmem, rfl⟩
    · cases hw

/-- The hashes of a manifest that is read back. -/
theorem readProbeHashes_canon (m : Manifest) :
    readProbeHashes W (valueItems (canonPairs (m.probeHashes.toList.map fun p =>
      (p.1, .str p.2.hex)))) = .ok m.probeHashes.toList := by
  have hcanon : ∀ hs : List (Text × Hash),
      canonEntries (hs.map fun p => (p.1, .str p.2.hex)) = hs.map fun p => (p.1, .str p.2.hex) := by
    intro hs
    induction hs with
    | nil => rfl
    | cons p hs ih => rw [List.map_cons, canonEntries, ih]; rfl
  rw [canonPairs, hcanon, map_sortKeys, sortKeys_toList]
  exact readProbeHashes_hex W _

/-- **What a serialized manifest is parsed as**: the manifest with its values normalised, unless
its text has a delete character, and then nothing. -/
theorem parse_iff (hW : W.Lawful) {m : Manifest} {bytes : Bytes}
    (h : m.serialize W = .ok bytes) :
    ∃ t, bytes = utf8 t ∧ ∀ m', parse W bytes = .ok m' ↔ del ∉ t ∧ m' = m.normal W := by
  obtain ⟨items, t, hitems, rfl, hparse, ht, hwritable⟩ := serialize_eq_ok hW h
  refine ⟨t, rfl, fun m' => ?_⟩
  by_cases hdel : del ∈ t
  · refine ⟨fun hm' => ?_, fun hm' => absurd hdel hm'.1⟩
    rw [parse, fromUtf8_utf8] at hm'
    cases hdoc : W.toml.parse t with
    | error e => simp only [hdoc] at hm'; cases hm'
    | ok d => exact absurd hdel (hW.toml.not_mem_of_parse hdoc)
  · have hdoc := readableDoc hW hparse hwritable ht hdel
    obtain ⟨-, -, hdistinct⟩ := hW.toml.of_parse hparse
    have hread := parse_emitTable hW hdoc hdistinct ht hdel
    have hstr : ∀ {k s}, (k, Value.str s) ∈ m.header →
        readString (.flat (canonPairs m.header) (canonTables (m.tables items))) k = .ok s := by
      intro k s hmem
      rw [readString, get_canonPairs hdoc.keys hmem]
      rfl
    have hhash : ∀ {k g}, (k, Value.str (Hash.hex g)) ∈ m.header →
        readHashStr W (.flat (canonPairs m.header) (canonTables (m.tables items))) k = .ok g := by
      intro k g hmem
      rw [readHashStr, hstr hmem]
      simp only [bind, Except.bind, Hash.parse_hex]
    have hprobes := get_canonTables hdoc.keys (List.mem_cons_self ..)
    have hfields := get_canonTables hdoc.keys (List.mem_cons_of_mem _ (List.mem_cons_self ..))
    have hparsed : parse W (utf8 t) = .ok (m.normal W) := by
      simp only [parse, fromUtf8_utf8, hread,
        hhash (k := "source_hash".toList) (g := m.sourceHash) (by simp [header]),
        hstr (k := "file_type".toList) (s := m.fileType) (by simp [header]),
        hhash (k := "schema_hash".toList) (g := m.schemaHash) (by simp [header]),
        hstr (k := "ingested_at".toList) (s := m.ingestedAt) (by simp [header]),
        hstr (k := "ingester_version".toList) (s := m.ingesterVersion) (by simp [header]),
        hprobes, hfields, readProbeHashes_canon, bind, Except.bind, TextMap.collect_toList,
        collect_fields hitems]
      rfl
    rw [hparsed, Except.ok.injEq]
    exact ⟨fun h => ⟨hdel, h.symm⟩, fun h => h.2.symm⟩

end Manifest

end Omp
