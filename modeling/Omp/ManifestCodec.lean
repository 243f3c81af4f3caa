import Omp.Concrete
import Omp.Manifest

/-!
# Reading manifests back

A manifest with values as the ingest engine makes them, its dates canonical and without negative
zeros, is parsed from its stored form as it was, less its nulls, and is stored again as the same
bytes (`Manifest.manifest_round_trip_iff`).  A delete character in one of its texts undoes that: the
writer does not escape it, and no TOML text may hold it, so the stored manifest cannot be read.

## Main definitions

* `FieldValue.Regular`, `Manifest.Regular` : values as the engine makes them.
* `FieldValue.Plain`, `Manifest.Plain` : without delete characters.
* `Manifest.withoutNulls` : a manifest less its nulls.

## Main results

* `Manifest.manifest_round_trip_iff` : when a stored manifest is read back.
-/

namespace Omp

open Lib Lib.Toml

/-! ### Conditions on field values -/

namespace FieldValue

section All

variable (str : Text → Prop) (float : F64 → Prop) (date : Text → Prop) (keys : List Text → Prop)

mutual
/-- Conditions on the texts, floats and dates in a value, keys being texts, and on the key lists
of its objects. -/
def All : FieldValue → Prop
  | .string s => str s
  | .float x => float x
  | .datetime s => date s
  | .list items => AllItems items
  | .object entries => keys (entries.map Prod.fst) ∧ AllEntries entries
  | _ => True
/-- The conditions for the items of a list. -/
def AllItems : List FieldValue → Prop
  | [] => True
  | v :: vs => v.All ∧ AllItems vs
/-- The conditions for the entries of an object. -/
def AllEntries : List (Text × FieldValue) → Prop
  | [] => True
  | (k, v) :: es => (str k ∧ v.All) ∧ AllEntries es
end

end All

/-- Keys as a map has them: each once and in order. -/
def KeysOfMap (ks : List Text) : Prop := ks.Pairwise fun j k => compare j k = .lt

/-- A value as the ingest engine makes it: its objects are maps, its dates are canonical and no
zero in it is negative. -/
def Regular (W : World) (v : FieldValue) : Prop :=
  v.All (fun _ => True) (fun x => x.isZero = true → x = F64.zero)
    (fun s => W.toml.datetime s = some s) KeysOfMap

/-- Without a delete character in its texts and keys. -/
def Plain (v : FieldValue) : Prop :=
  v.All (fun s => del ∉ s) (fun _ => True) (fun _ => True) fun _ => True

end FieldValue

/-! ### Values read back -/

theorem toList_collect {V : Type} {l : List (Text × V)}
    (h : FieldValue.KeysOfMap (l.map Prod.fst)) : (TextMap.collect l).toList = l := by
  have hsorted : l.Pairwise fun p q => compare p.1 q.1 = .lt := List.pairwise_map.1 h
  have hnodup : (l.map Prod.fst).Nodup := h.imp fun hlt heq => by
    rw [Std.compare_eq_iff_eq.2 heq] at hlt
    cases hlt
  have hperm : (TextMap.collect l).toList.Perm l := by
    refine (List.perm_ext_iff_of_nodup ?_ hnodup.of_map).2 fun p => ?_
    · exact (TextMap.nodup_keys_toList _).of_map
    · rw [← TextMap.getElem?_collect hnodup, TextMap.mem_toList]
  rw [← Manifest.sortKeys_toList (TextMap.collect l)]
  exact sortKeys_eq hperm (TextMap.nodup_keys_toList _)
    (hsorted.imp fun hlt => by rw [KeyLe, hlt]; rfl)

section

variable {W : World}

theorem map_fst_objectToItems {es : List (Text × FieldValue)} {xs : List (Text × Value)}
    (h : objectToItems W es = .ok xs) : xs.map Prod.fst = es.map Prod.fst := by
  induction es generalizing xs with
  | nil =>
    rw [objectToItems] at h
    cases h
    rfl
  | cons p es ih =>
    rw [objectToItems, except_bind_eq_ok] at h
    obtain ⟨i, -, h⟩ := h
    cases i with
    | none => cases h
    | some i =>
      obtain ⟨is, his, h⟩ := except_bind_eq_ok.1 h
      cases h
      rw [List.map_cons, List.map_cons, ih his]

theorem map_fst_entriesToFieldValues (es : List (Text × Value)) :
    (entriesToFieldValues es).map Prod.fst = es.map Prod.fst := by
  induction es with
  | nil => rfl
  | cons p es ih => rw [entriesToFieldValues, List.map_cons, List.map_cons, ih]

/-- Only a null has no item. -/
theorem fieldValueToItem_eq_none {v : FieldValue} :
    fieldValueToItem W v = .ok none ↔ v = .null := by
  refine ⟨fun h => ?_, fun h => h ▸ by rw [fieldValueToItem]⟩
  cases v with
  | null => rfl
  | string s => rw [fieldValueToItem] at h; cases h
  | int i => rw [fieldValueToItem] at h; cases h
  | float x =>
    rw [fieldValueToItem] at h
    split_ifs at h with hfin
    cases h
  | bool b => rw [fieldValueToItem] at h; cases h
  | datetime s => rw [fieldValueToItem] at h; split at h <;> cases h
  | list items =>
    rw [fieldValueToItem, except_bind_eq_ok] at h
    obtain ⟨vs, -, h⟩ := h
    cases h
  | object entries =>
    rw [fieldValueToItem, except_bind_eq_ok] at h
    obtain ⟨es, -, h⟩ := h
    cases h

mutual
/-- **A regular value is read back from its item.** -/
theorem valueToFieldValue_canonValue : ∀ {v : FieldValue} {x : Value}, v.Regular W →
    fieldValueToItem W v = .ok (some x) → valueToFieldValue (canonValue x) = v
  | .null, x, _, h => by rw [fieldValueToItem] at h; cases h
  | .string s, x, _, h => by rw [fieldValueToItem] at h; cases h; rfl
  | .int i, x, _, h => by rw [fieldValueToItem] at h; cases h; rfl
  | .float y, x, hv, h => by
    rw [fieldValueToItem] at h
    split_ifs at h with hfin
    cases h
    rw [canonValue, valueToFieldValue]
    split_ifs with hzero
    · have hy : y.isZero = true → y = F64.zero := hv
      rw [hy hzero]
    · rfl
  | .bool b, x, _, h => by rw [fieldValueToItem] at h; cases h; rfl
  | .datetime s, x, hv, h => by
    have hs : W.toml.datetime s = some s := hv
    rw [fieldValueToItem, hs] at h
    cases h
    rfl
  | .list items, x, hv, h => by
    rw [fieldValueToItem, except_bind_eq_ok] at h
    obtain ⟨vs, hvs, h⟩ := h
    cases h
    rw [canonValue, valueToFieldValue, valuesToFieldValues_canonItems hv hvs]
  | .object entries, x, hv, h => by
    rw [fieldValueToItem, except_bind_eq_ok] at h
    obtain ⟨es, hes, h⟩ := h
    cases h
    -- the keys are those of a map, so that sorting and collecting them changes nothing
    have hkeys : FieldValue.KeysOfMap (es.map Prod.fst) := map_fst_objectToItems hes ▸ hv.1
    have hcanon : FieldValue.KeysOfMap ((canonEntries es).map Prod.fst) :=
      (map_fst_canonEntries es).symm ▸ hkeys
    have hsort : sortKeys (canonEntries es) = canonEntries es := by
      rw [← toList_collect hcanon]
      exact Manifest.sortKeys_toList _
    have hentries := entriesToFieldValues_canonEntries hv.2 hes
    rw [canonValue, valueToFieldValue, hsort, hentries, toList_collect hv.1]
/-- The same for the items of a list. -/
theorem valuesToFieldValues_canonItems : ∀ {vs : List FieldValue} {xs : List Value},
    FieldValue.AllItems (fun _ => True) (fun x => x.isZero = true → x = F64.zero)
      (fun s => W.toml.datetime s = some s) FieldValue.KeysOfMap vs →
    listToItems W vs = .ok xs → valuesToFieldValues (canonItems xs) = vs
  | [], xs, _, h => by rw [listToItems] at h; cases h; rfl
  | v :: vs, xs, hvs, h => by
    rw [listToItems, except_bind_eq_ok] at h
    obtain ⟨i, hi, h⟩ := h
    cases i with
    | none => cases h
    | some i =>
      obtain ⟨is, his, h⟩ := except_bind_eq_ok.1 h
      cases h
      rw [canonItems, valuesToFieldValues, valueToFieldValue_canonValue hvs.1 hi,
        valuesToFieldValues_canonItems hvs.2 his]
/-- The same for the entries of an object. -/
theorem entriesToFieldValues_canonEntries :
    ∀ {es : List (Text × FieldValue)} {xs : List (Text × Value)},
      FieldValue.AllEntries (fun _ => True) (fun x => x.isZero = true → x = F64.zero)
        (fun s => W.toml.datetime s = some s) FieldValue.KeysOfMap es →
      objectToItems W es = .ok xs → entriesToFieldValues (canonEntries xs) = es
  | [], xs, _, h => by rw [objectToItems] at h; cases h; rfl
  | (k, v) :: es, xs, hes, h => by
    rw [objectToItems, except_bind_eq_ok] at h
    obtain ⟨i, hi, h⟩ := h
    cases i with
    | none => cases h
    | some i =>
      obtain ⟨is, his, h⟩ := except_bind_eq_ok.1 h
      cases h
      rw [canonEntries, entriesToFieldValues, valueToFieldValue_canonValue hes.1.2 hi,
        entriesToFieldValues_canonEntries hes.2 his]
end

mutual
/-- A delete character in a value is in its item, and none other is. -/
theorem plain_item_iff : ∀ {v : FieldValue} {x : Value}, v.Regular W →
    fieldValueToItem W v = .ok (some x) → (Plain x ↔ v.Plain)
  | .null, x, _, h => by rw [fieldValueToItem] at h; cases h
  | .string s, x, _, h => by rw [fieldValueToItem] at h; cases h; rfl
  | .int i, x, _, h => by rw [fieldValueToItem] at h; cases h; rfl
  | .float y, x, _, h => by
    rw [fieldValueToItem] at h
    split_ifs at h with hfin
    cases h
    rfl
  | .bool b, x, _, h => by rw [fieldValueToItem] at h; cases h; rfl
  | .datetime s, x, hv, h => by
    have hs : W.toml.datetime s = some s := hv
    rw [fieldValueToItem, hs] at h
    cases h
    rfl
  | .list items, x, hv, h => by
    rw [fieldValueToItem, except_bind_eq_ok] at h
    obtain ⟨vs, hvs, h⟩ := h
    cases h
    exact plain_items_iff hv hvs
  | .object entries, x, hv, h => by
    rw [fieldValueToItem, except_bind_eq_ok] at h
    obtain ⟨es, hes, h⟩ := h
    cases h
    exact and_congr_right fun _ => plain_entries_iff hv.2 hes
theorem plain_items_iff : ∀ {vs : List FieldValue} {xs : List Value},
    FieldValue.AllItems (fun _ => True) (fun x => x.isZero = true → x = F64.zero)
      (fun s => W.toml.datetime s = some s) FieldValue.KeysOfMap vs →
    listToItems W vs = .ok xs →
    (AllItems (fun s => del ∉ s) (fun _ => True) (fun _ => True) (fun _ => True) xs ↔
      FieldValue.AllItems (fun s => del ∉ s) (fun _ => True) (fun _ => True) (fun _ => True) vs)
  | [], xs, _, h => by rw [listToItems] at h; cases h; rfl
  | v :: vs, xs, hvs, h => by
    rw [listToItems, except_bind_eq_ok] at h
    obtain ⟨i, hi, h⟩ := h
    cases i with
    | none => cases h
    | some i =>
      obtain ⟨is, his, h⟩ := except_bind_eq_ok.1 h
      cases h
      exact and_congr (plain_item_iff hvs.1 hi) (plain_items_iff hvs.2 his)
theorem plain_entries_iff : ∀ {es : List (Text × FieldValue)} {xs : List (Text × Value)},
    FieldValue.AllEntries (fun _ => True) (fun x => x.isZero = true → x = F64.zero)
      (fun s => W.toml.datetime s = some s) FieldValue.KeysOfMap es →
    objectToItems W es = .ok xs →
    (PlainEntries xs ↔ FieldValue.AllEntries (fun s => del ∉ s) (fun _ => True)
      (fun _ => True) (fun _ => True) es)
  | [], xs, _, h => by rw [objectToItems] at h; cases h; rfl
  | (k, v) :: es, xs, hes, h => by
    rw [objectToItems, except_bind_eq_ok] at h
    obtain ⟨i, hi, h⟩ := h
    cases i with
    | none => cases h
    | some i =>
      obtain ⟨is, his, h⟩ := except_bind_eq_ok.1 h
      cases h
      exact and_congr (and_congr_right fun _ => plain_item_iff hes.1.2 hi)
        (plain_entries_iff hes.2 his)
end

end

/-! ### Manifests read back -/

namespace Manifest

/-- A manifest with values as the ingest engine makes them. -/
def Regular (W : World) (m : Manifest) : Prop :=
  ∀ (k : Text) (v : FieldValue), m.fields[k]? = some v → v.Regular W

/-- A manifest without a delete character in the texts it is stored with. -/
structure Plain (m : Manifest) : Prop where
  fileType : del ∉ m.fileType
  ingestedAt : del ∉ m.ingestedAt
  ingesterVersion : del ∉ m.ingesterVersion
  /-- The names of the probes. -/
  probes : ∀ (name : Text) (hash : Hash), m.probeHashes[name]? = some hash → del ∉ name
  /-- The fields that are not null, with their names. -/
  fields : ∀ (k : Text) (v : FieldValue), m.fields[k]? = some v → v ≠ .null → del ∉ k ∧ v.Plain

/-- A manifest less its nulls. -/
def withoutNulls (m : Manifest) : Manifest :=
  { m with fields := m.fields.filter fun _ v => !v.isNull }

variable {W : World}

theorem isNull_iff {v : FieldValue} : v.isNull = true ↔ v = .null := by
  cases v <;> simp [FieldValue.isNull]

/-- Every field of a manifest that is stored has an item or is null. -/
theorem exists_fieldValueToItem {es : List (Text × FieldValue)} {is : List (Text × Value)}
    (h : fieldItems W es = .ok is) {k : Text} {v : FieldValue} (hp : (k, v) ∈ es) :
    ∃ i, fieldValueToItem W v = .ok i := by
  induction es generalizing is with
  | nil => cases hp
  | cons q es ih =>
    rw [fieldItems, except_bind_eq_ok] at h
    obtain ⟨i, hi, h⟩ := h
    obtain ⟨js, hjs, -⟩ := except_bind_eq_ok.1 h
    rcases List.mem_cons.1 hp with rfl | hp
    · exact ⟨i, hi⟩
    · exact ih hjs hp

/-- Nulls leave no trace among the items. -/
theorem fieldItems_filter (es : List (Text × FieldValue)) :
    (fieldItems W es).isOk = true →
      fieldItems W (es.filter fun p => !p.2.isNull) = fieldItems W es := by
  induction es with
  | nil => exact fun _ => rfl
  | cons p es ih =>
    intro hok
    obtain ⟨k, v⟩ := p
    obtain ⟨is, his⟩ := exists_eq_ok_of_isOk hok
    rw [fieldItems, except_bind_eq_ok] at his
    obtain ⟨i, hi, his⟩ := his
    obtain ⟨js, hjs, -⟩ := except_bind_eq_ok.1 his
    have hrest := ih (by rw [hjs]; rfl)
    by_cases hv : v = .null
    · subst hv
      rw [List.filter_cons_of_neg (by simp [FieldValue.isNull]), hrest, fieldItems, hjs,
        fieldValueToItem_eq_none.2 rfl]
      rfl
    · have hkeep : (!v.isNull) = true := by
        rw [Bool.not_eq_true', ← Bool.not_eq_true, isNull_iff]
        exact hv
      rw [List.filter_cons, if_pos hkeep, fieldItems, fieldItems, hrest]

/-- A manifest less its nulls is stored as the same bytes. -/
theorem serialize_withoutNulls {m : Manifest} {bytes : Bytes} (h : m.serialize W = .ok bytes) :
    m.withoutNulls.serialize W = .ok bytes := by
  have hsplit := h
  rw [serialize, except_bind_eq_ok] at hsplit
  obtain ⟨items, hitems, -⟩ := hsplit
  have hfields : fieldItems W m.withoutNulls.fields.toList = fieldItems W m.fields.toList := by
    rw [withoutNulls, Std.ExtTreeMap.toList_filter]
    exact fieldItems_filter _ (by rw [hitems]; rfl)
  rw [serialize, hfields]
  exact h

/-- **A regular manifest is read back as it was, less its nulls.** -/
theorem normal_eq_withoutNulls {m : Manifest} (hm : m.Regular W) {items : List (Text × Value)}
    (h : fieldItems W m.fields.toList = .ok items) : m.normal W = m.withoutNulls := by
  have hvalue : ∀ (k : Text) (v : FieldValue), m.fields[k]? = some v →
      normalValue W v = if v.isNull then none else some v := by
    intro k v hv
    obtain ⟨i, hi⟩ := exists_fieldValueToItem h (TextMap.mem_toList.2 hv)
    rw [normalValue, hi]
    cases i with
    | none => rw [fieldValueToItem_eq_none.1 hi]; rfl
    | some x =>
      have hne : v.isNull ≠ true := fun hnull => by
        rw [isNull_iff.1 hnull, fieldValueToItem] at hi
        cases hi
      rw [if_neg hne]
      exact congrArg some (valueToFieldValue_canonValue (hm k v hv) hi)
  have hfields : (m.fields.filterMap fun _ v => normalValue W v) =
      m.fields.filter fun _ v => !v.isNull := by
    refine Std.ExtTreeMap.ext_getElem? fun k => ?_
    rw [Std.ExtTreeMap.getElem?_filterMap', Std.ExtTreeMap.getElem?_filter']
    cases hv : m.fields[k]? with
    | none => rfl
    | some v =>
      rw [Option.bind_some, hvalue k v hv, Option.filter_some]
      cases v.isNull <;> rfl
  rw [normal, hfields]
  rfl

/-- A delete character in a regular manifest is in its text, and none other is. -/
theorem del_not_mem_iff (hW : W.Lawful) {m : Manifest} (hm : m.Regular W)
    {items : List (Text × Value)} {s t : Text}
    (hitems : fieldItems W m.fields.toList = .ok items)
    (hparse : W.toml.parse s = .ok (.flat m.header (m.tables items)))
    (ht : emitTable W (.flat m.header (m.tables items)) = .ok t) : del ∉ t ↔ m.Plain := by
  obtain ⟨hkeys, -, -⟩ := hW.toml.of_parse hparse
  constructor
  · intro hdel
    obtain ⟨hheader, htables⟩ := plain_of_emitTable hkeys ht hdel
    have htext : ∀ {k s : Text}, (k, Value.str s) ∈ m.header → del ∉ s := fun hmem =>
      (allEntries_iff.1 hheader _ hmem).2
    refine ⟨htext (k := "file_type".toList) ?_, htext (k := "ingested_at".toList) ?_,
      htext (k := "ingester_version".toList) ?_, fun name hash hname => ?_, fun k v hv hne => ?_⟩
    · exact List.mem_of_getElem? (i := 1) rfl
    · exact List.mem_of_getElem? (i := 3) rfl
    · exact List.mem_of_getElem? (i := 4) rfl
    · exact (allEntries_iff.1 (htables _ List.mem_cons_self) (name, .str hash.hex)
        (List.mem_map_of_mem (f := fun p : Text × Hash => (p.1, Value.str p.2.hex))
          (TextMap.mem_toList.2 hname))).1
    · obtain ⟨i, hi⟩ := exists_fieldValueToItem hitems (TextMap.mem_toList.2 hv)
      cases i with
      | none => exact absurd (fieldValueToItem_eq_none.1 hi) hne
      | some x =>
        obtain ⟨hkey, hx⟩ := allEntries_iff.1
          (htables _ (List.mem_cons_of_mem _ List.mem_cons_self)) (k, x)
          ((mem_fieldItems hitems).2 ⟨v, TextMap.mem_toList.2 hv, hi⟩)
        exact ⟨hkey, (plain_item_iff (hm k v hv) hi).1 hx⟩
  · intro hplain
    have hhex : ∀ g : Hash, del ∉ g.hex := fun g => Hash.not_mem_hex (by decide)
    have hheader : CleanEntries W m.header :=
      ⟨⟨by decide, hhex _⟩, ⟨by decide, hplain.fileType⟩, ⟨by decide, hhex _⟩,
        ⟨by decide, hplain.ingestedAt⟩, ⟨by decide, hplain.ingesterVersion⟩, trivial⟩
    have hprobes : del ∉ "probe_hashes".toList := by decide
    have hfields : del ∉ "fields".toList := by decide
    refine del_not_mem_emitTable hW hkeys hheader (List.forall_mem_cons.2
      ⟨⟨hprobes, allEntries_iff.2 fun p hp => ?_⟩,
        List.forall_mem_singleton.2 ⟨hfields, allEntries_iff.2 fun p hp => ?_⟩⟩) ht
    · obtain ⟨⟨name, hash⟩, hname, rfl⟩ := List.mem_map.1 hp
      exact ⟨hplain.probes name hash (TextMap.mem_toList.1 hname), hhex _⟩
    · obtain ⟨k, x⟩ := p
      obtain ⟨v, hv, hi⟩ := (mem_fieldItems hitems).1 hp
      have hv := TextMap.mem_toList.1 hv
      have hne : v ≠ .null := by
        rintro rfl
        rw [fieldValueToItem] at hi
        cases hi
      obtain ⟨hkey, hval⟩ := hplain.fields k v hv hne
      have hx : Omp.Plain x := (plain_item_iff (hm k v hv) hi).2 hval
      have hw : W.toml.Writable x := writable_of_fieldValueToItem hW hi
      exact ⟨hkey, hx.combine (fun _ h _ => h) (fun _ _ h => h) (fun _ _ h => h)
        (fun _ _ _ => trivial) hw⟩

/-- **When a stored manifest is read back**: a regular manifest is parsed as it was, less its
nulls, and stored again as the same bytes, exactly when it has no delete character. -/
theorem manifest_round_trip_iff (hW : W.Lawful) {m : Manifest} {bytes : Bytes} (hm : m.Regular W)
    (h : m.serialize W = .ok bytes) :
    (parse W bytes = .ok m.withoutNulls ∧ m.withoutNulls.serialize W = .ok bytes) ↔ m.Plain := by
  obtain ⟨items, t, hitems, rfl, hparse, ht, -⟩ := serialize_eq_ok hW h
  obtain ⟨t', heq, hread⟩ := parse_iff hW h
  obtain rfl : t = t' := Option.some.inj (by rw [← fromUtf8_utf8 t, heq, fromUtf8_utf8])
  rw [hread, normal_eq_withoutNulls hm hitems,
    ← del_not_mem_iff hW hm hitems hparse ht]
  exact ⟨fun hboth => hboth.1.1, fun hdel => ⟨⟨hdel, rfl⟩, serialize_withoutNulls h⟩⟩

/-- A manifest with the given fields. -/
def demoManifest (fields : List (Text × FieldValue)) : Manifest where
  sourceHash := Hash.ofNat 1
  fileType := "note".toList
  schemaHash := Hash.ofNat 2
  ingestedAt := "2024-05-01T10:00:00Z".toList
  ingesterVersion := "0.1.0".toList
  probeHashes := TextMap.collect [("text.line_count".toList, Hash.ofNat 3)]
  fields := TextMap.collect fields

/-- Fields of several kinds, one of them null. -/
def demoFields : List (Text × FieldValue) :=
  [("tags".toList, .list [.string "a b".toList, .int (-1)]), ("title".toList, .string ['"', '\n']),
    ("year".toList, .null)]

theorem manifest_round_trip_iff_demo :
    ∃ bytes, (demoManifest demoFields).serialize (demoWorld ⟨[], [], []⟩) = .ok bytes ∧
      parse (demoWorld ⟨[], [], []⟩) bytes = .ok (demoManifest demoFields).withoutNulls := by
  obtain ⟨bytes, hbytes⟩ := exists_eq_ok_of_isOk
    (r := (demoManifest demoFields).serialize (demoWorld ⟨[], [], []⟩)) (by decide +kernel)
  have hmem : ∀ {k : Text} {v : FieldValue}, (demoManifest demoFields).fields[k]? = some v →
      (k, v) ∈ demoFields := fun h => (TextMap.getElem?_collect (by decide +kernel)).1 h
  have hregular : (demoManifest demoFields).Regular (demoWorld ⟨[], [], []⟩) := by
    have hall : ∀ p ∈ demoFields, p.2.Regular (demoWorld ⟨[], [], []⟩) := by
      refine List.forall_mem_cons.2 ⟨⟨trivial, trivial, trivial⟩, List.forall_mem_cons.2
        ⟨trivial, List.forall_mem_singleton.2 trivial⟩⟩
    exact fun k v hv => hall (k, v) (hmem hv)
  have hplain : (demoManifest demoFields).Plain := by
    have hall : ∀ p ∈ demoFields, del ∉ p.1 ∧ p.2.Plain := by
      have htag : del ∉ "a b".toList := by decide
      have htitle : del ∉ ['"', '\n'] := by decide
      exact List.forall_mem_cons.2 ⟨⟨by decide, htag, trivial, trivial⟩, List.forall_mem_cons.2
        ⟨⟨by decide, htitle⟩, List.forall_mem_singleton.2 ⟨by decide, trivial⟩⟩⟩
    refine ⟨by decide, by decide, by decide, fun name hash hname => ?_, fun k v hv _ =>
      hall (k, v) (hmem hv)⟩
    have hprobe : (name, hash) ∈ [("text.line_count".toList, Hash.ofNat 3)] :=
      (TextMap.getElem?_collect (by decide)).1 hname
    cases List.mem_singleton.1 hprobe
    decide
  exact ⟨bytes, hbytes, ((manifest_round_trip_iff (demoWorld_lawful _) hregular hbytes).2 hplain).1⟩

/-- A title with a delete character. -/
def deletedTitle : List (Text × FieldValue) := [("title".toList, .string ['a', del])]

/-- **A manifest with a delete character is stored and cannot be read.** -/
theorem unreadable_manifest :
    (demoManifest deletedTitle).Regular (demoWorld ⟨[], [], []⟩) ∧
      ∃ bytes, (demoManifest deletedTitle).serialize (demoWorld ⟨[], [], []⟩) = .ok bytes ∧
        ∀ m', parse (demoWorld ⟨[], [], []⟩) bytes ≠ .ok m' := by
  constructor
  · intro k v hv
    have hmem : (k, v) ∈ deletedTitle := (TextMap.getElem?_collect (by decide)).1 hv
    cases List.mem_singleton.1 hmem
    trivial
  · obtain ⟨bytes, hbytes⟩ := exists_eq_ok_of_isOk
      (r := (demoManifest deletedTitle).serialize (demoWorld ⟨[], [], []⟩)) (by decide +kernel)
    refine ⟨bytes, hbytes, fun m' hm' => ?_⟩
    have hnone : (((demoManifest deletedTitle).serialize (demoWorld ⟨[], [], []⟩)).bind
        (parse (demoWorld ⟨[], [], []⟩))).isOk = false := by decide +kernel
    rw [hbytes, Except.bind, hm'] at hnone
    cases hnone

end Manifest

end Omp
