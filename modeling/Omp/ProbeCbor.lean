import Mathlib.Data.List.Dedup
import Omp.ManifestCodec

/-!
# Values of probes in CBOR

A probe is given its arguments as CBOR and answers with a CBOR value.  What a field value is written
as is read back as the value, but for a datetime, which is written as a text.

CBOR has more values than there are field values.  The keys of a map may be texts or integers, and
an integer becomes its text; and a map may have a key twice.  What is read goes into a map of texts
entry by entry, so that entries whose keys become the same text are merged.

## Main definitions

* `CborValue` : the values of `ciborium`.
* `fieldToCbor`, `cborToField` : the conversions.
* `CborValue.KeptIn` : a field value has all entries and integers of a CBOR value.
* `CborValue.KeysApart` : no map has two keys that become the same text.

## Main results

* `cborToField_fieldToCbor` : what is written is read back.
* `cbor_boundary_iff` : what is read is kept exactly when the keys stay apart.
* `entries_merged` : two entries that are merged.
-/

namespace Omp

open Lib

/-! ### CBOR values -/

/-- `ciborium::value::Integer`, of 64 bits and a sign. -/
structure CborInteger where
  val : Int
  lower : -2 ^ 64 ≤ val
  upper : val < 2 ^ 64

/-- `ciborium::value::Value`, which may get more variants: of those there is the `{:?}` form. -/
inductive CborValue where
  | integer (i : CborInteger)
  | bytes (bs : Bytes)
  | float (x : F64)
  | text (s : Text)
  | bool (b : Bool)
  | null
  | tag (tag : UInt64) (inner : CborValue)
  | array (items : List CborValue)
  | map (entries : List (CborValue × CborValue))
  | other (debug : Text)

/-- `i64::into`. -/
def CborInteger.ofInt64 (i : Int64) : CborInteger where
  val := i.toInt
  lower := by
    have := i.le_toInt
    omega
  upper := by
    have := i.toInt_lt
    omega

/-- `i64::try_from`. -/
def CborInteger.toInt64 (i : CborInteger) : Option Int64 :=
  if -2 ^ 63 ≤ i.val ∧ i.val < 2 ^ 63 then some (Int64.ofInt i.val) else none

/-! ### The conversions -/

mutual
/-- `field_to_cbor`, which does not fail. -/
def fieldToCbor : FieldValue → CborValue
  | .null => .null
  | .string s => .text s
  | .int i => .integer (.ofInt64 i)
  | .float x => .float x
  | .bool b => .bool b
  | .datetime s => .text s
  | .list items => .array (itemsToCbor items)
  | .object entries => .map (entriesToCbor entries)
/-- The same for the items of a list. -/
def itemsToCbor : List FieldValue → List CborValue
  | [] => []
  | v :: vs => fieldToCbor v :: itemsToCbor vs
/-- The same for the entries of an object. -/
def entriesToCbor : List (Text × FieldValue) → List (CborValue × CborValue)
  | [] => []
  | (k, v) :: es => (.text k, fieldToCbor v) :: entriesToCbor es
end

/-- The error of an answer that cannot be read. -/
def outputError (reason : Text) : OmpError := .probeFailed "<output>".toList reason

/-- The text that a key of a map becomes. -/
def keyText : CborValue → Except OmpError Text
  | .text s => .ok s
  | .integer i => match i.toInt64 with
    | some n => .ok (Toml.intText n.toInt)
    | none => .error (outputError "map key integer out of range".toList)
  | _ => .error (outputError "map key is not string or integer".toList)

mutual
/-- `cbor_to_field`. -/
def cborToField : CborValue → Except OmpError FieldValue
  | .null => .ok .null
  | .bool b => .ok (.bool b)
  | .integer i => match i.toInt64 with
    | some n => .ok (.int n)
    | none => .error (outputError
        "integer out of range: out of range integral type conversion attempted".toList)
  | .float x => .ok (.float x)
  | .text s => .ok (.string s)
  | .bytes bs => .ok (.string (hexEncode bs))
  | .array items => do
    let vs ← cborToItems items
    .ok (.list vs)
  | .map entries => do
    let es ← cborToEntries entries
    .ok (.object (TextMap.collect es).toList)
  | .tag _ inner => cborToField inner
  | .other debug => .error (outputError ("unsupported CBOR value: ".toList ++ debug))
/-- The same for the items of an array. -/
def cborToItems : List CborValue → Except OmpError (List FieldValue)
  | [] => .ok []
  | c :: cs => do
    let v ← cborToField c
    let vs ← cborToItems cs
    .ok (v :: vs)
/-- The same for the entries of a map, in the order they are inserted. -/
def cborToEntries : List (CborValue × CborValue) → Except OmpError (List (Text × FieldValue))
  | [] => .ok []
  | (k, c) :: es => do
    let key ← keyText k
    let v ← cborToField c
    let vs ← cborToEntries es
    .ok ((key, v) :: vs)
end

/-- `ciborium`, on the values of the program, with the texts of its errors. -/
structure Ciborium where
  intoWriter : CborValue → Except Text Bytes
  fromReader : Bytes → Except Text CborValue

/-- `encode_input`. -/
def encodeInput (C : Ciborium) (bytes : Bytes) (kwargs : Fields) : Except OmpError Bytes :=
  (C.intoWriter (.map [(.text "bytes".toList, .bytes bytes),
    (.text "kwargs".toList, .map (entriesToCbor kwargs.toList))])).mapError fun e =>
      .internal ("cbor encode input: ".toList ++ e)

/-- `decode_output`. -/
def decodeOutput (C : Ciborium) (bytes : Bytes) : Except OmpError FieldValue := do
  let v ← (C.fromReader bytes).mapError fun e => outputError ("decoding output: ".toList ++ e)
  cborToField v

/-! ### What is written -/

/-- A value without a datetime in it, whose objects are maps. -/
def FieldValue.Dateless (v : FieldValue) : Prop :=
  v.All (fun _ => True) (fun _ => True) (fun _ => False) FieldValue.KeysOfMap

theorem CborInteger.toInt64_ofInt64 (i : Int64) : (CborInteger.ofInt64 i).toInt64 = some i := by
  have hlower := i.le_toInt
  have hupper := i.toInt_lt
  unfold toInt64 ofInt64
  rw [if_pos ⟨hlower, hupper⟩, Int64.ofInt_toInt]

/-- What is read is the integer. -/
theorem CborInteger.toInt_of_toInt64 {i : CborInteger} {n : Int64} (h : i.toInt64 = some n) :
    n.toInt = i.val := by
  unfold toInt64 at h
  split_ifs at h with hbounds
  cases h
  exact Int64.toInt_ofInt_of_le hbounds.1 hbounds.2

mutual
/-- **What is written is read back.** -/
theorem cborToField_fieldToCbor : ∀ {v : FieldValue}, v.Dateless →
    cborToField (fieldToCbor v) = .ok v
  | .null, _ => rfl
  | .string _, _ => rfl
  | .int i, _ => by rw [fieldToCbor, cborToField, CborInteger.toInt64_ofInt64]
  | .float _, _ => rfl
  | .bool _, _ => rfl
  | .datetime _, h => h.elim
  | .list items, h => by
    rw [fieldToCbor, cborToField, cborToItems_itemsToCbor h]
    rfl
  | .object entries, h => by
    rw [fieldToCbor, cborToField, cborToEntries_entriesToCbor h.2]
    exact congrArg (fun es => Except.ok (FieldValue.object es)) (toList_collect h.1)
/-- The same for the items of a list. -/
theorem cborToItems_itemsToCbor : ∀ {vs : List FieldValue},
    FieldValue.AllItems (fun _ => True) (fun _ => True) (fun _ => False) FieldValue.KeysOfMap vs →
    cborToItems (itemsToCbor vs) = .ok vs
  | [], _ => rfl
  | v :: vs, h => by
    rw [itemsToCbor, cborToItems, cborToField_fieldToCbor h.1, cborToItems_itemsToCbor h.2]
    rfl
/-- The same for the entries of an object. -/
theorem cborToEntries_entriesToCbor : ∀ {es : List (Text × FieldValue)},
    FieldValue.AllEntries (fun _ => True) (fun _ => True) (fun _ => False) FieldValue.KeysOfMap
      es →
    cborToEntries (entriesToCbor es) = .ok es
  | [], _ => rfl
  | (k, v) :: es, h => by
    rw [entriesToCbor, cborToEntries, cborToField_fieldToCbor h.1.2,
      cborToEntries_entriesToCbor h.2]
    rfl
end

/-- So the answer of a probe that echoes a value is the value. -/
theorem decodeOutput_of_written {C : Ciborium} {v : FieldValue} (hv : v.Dateless) {bytes : Bytes}
    (hC : C.fromReader bytes = .ok (fieldToCbor v)) : decodeOutput C bytes = .ok v := by
  rw [decodeOutput, hC]
  exact cborToField_fieldToCbor hv

/-! ### What is read -/

namespace CborValue

mutual
/-- A field value has the entries of a CBOR value, each by itself, and its integers. -/
def KeptIn : CborValue → FieldValue → Prop
  | .integer i, v => ∃ n, v = .int n ∧ n.toInt = i.val
  | .array items, v => ∃ vs, v = .list vs ∧ ItemsKeptIn items vs
  | .map entries, v => ∃ es, v = .object es ∧ es.length = entries.length ∧ EntriesKeptIn entries es
  | .tag _ inner, v => inner.KeptIn v
  | _, _ => True
/-- The items of an array are kept in those of a list. -/
def ItemsKeptIn : List CborValue → List FieldValue → Prop
  | [], vs => vs = []
  | c :: cs, vs => ∃ w ws, vs = w :: ws ∧ c.KeptIn w ∧ ItemsKeptIn cs ws
/-- The entries of a map are kept among those of an object. -/
def EntriesKeptIn : List (CborValue × CborValue) → List (Text × FieldValue) → Prop
  | [], _ => True
  | (k, c) :: es, fs =>
    (∃ key w, keyText k = .ok key ∧ (key, w) ∈ fs ∧ c.KeptIn w) ∧ EntriesKeptIn es fs
end

mutual
/-- In no map do two keys become the same text. -/
def KeysApart : CborValue → Prop
  | .array items => ItemsApart items
  | .map entries => (entries.map fun e => keyText e.1).Nodup ∧ EntriesApart entries
  | .tag _ inner => inner.KeysApart
  | _ => True
/-- The same for the items of an array. -/
def ItemsApart : List CborValue → Prop
  | [] => True
  | c :: cs => c.KeysApart ∧ ItemsApart cs
/-- The same for the values of a map. -/
def EntriesApart : List (CborValue × CborValue) → Prop
  | [] => True
  | (_, c) :: es => c.KeysApart ∧ EntriesApart es
end

end CborValue

/-- The keys of entries that are read. -/
theorem map_keyText_of_cborToEntries {entries : List (CborValue × CborValue)}
    {es : List (Text × FieldValue)} (h : cborToEntries entries = .ok es) :
    (entries.map fun e => keyText e.1) = es.map fun e => .ok e.1 := by
  induction entries generalizing es with
  | nil =>
    rw [cborToEntries] at h
    cases h
    rfl
  | cons e entries ih =>
    rw [cborToEntries] at h
    obtain ⟨key, hkey, h⟩ := except_bind_eq_ok.1 h
    obtain ⟨v, hv, h⟩ := except_bind_eq_ok.1 h
    obtain ⟨vs, hvs, h⟩ := except_bind_eq_ok.1 h
    cases h
    rw [List.map_cons, List.map_cons, ih hvs, hkey]

theorem foldl_insert_eq_none {V : Type} {l : List (Text × V)} {m : TextMap V} {k : Text} :
    (l.foldl (fun m p => m.insert p.1 p.2) m)[k]? = none ↔ k ∉ l.map Prod.fst ∧ m[k]? = none := by
  induction l generalizing m with
  | nil => simp
  | cons p l ih =>
    rw [List.foldl_cons, ih, TextMap.getElem?_insert]
    by_cases hk : p.1 = k
    · simp [hk]
    · simp [hk, Ne.symm hk]

/-- **Entries are collected without loss exactly when their keys are distinct.** -/
theorem length_collect_iff {V : Type} {l : List (Text × V)} :
    (TextMap.collect l).toList.length = l.length ↔ (l.map Prod.fst).Nodup := by
  have hperm : ((TextMap.collect l).toList.map Prod.fst).Perm (l.map Prod.fst).dedup := by
    refine (List.perm_ext_iff_of_nodup (TextMap.nodup_keys_toList _) (List.nodup_dedup _)).2
      fun k => ?_
    have hnone : (TextMap.collect l)[k]? = none ↔ k ∉ l.map Prod.fst := by
      rw [TextMap.collect, foldl_insert_eq_none, Std.ExtTreeMap.getElem?_empty]
      simp
    rw [List.mem_dedup, ← not_iff_not, ← hnone, List.mem_map]
    constructor
    · intro h
      by_contra hsome
      obtain ⟨v, hv⟩ := Option.ne_none_iff_exists'.1 hsome
      exact h ⟨(k, v), TextMap.mem_toList.2 hv, rfl⟩
    · rintro hnone ⟨⟨k', v⟩, hmem, rfl⟩
      rw [TextMap.mem_toList.1 hmem] at hnone
      cases hnone
  have hlength : (TextMap.collect l).toList.length = (l.map Prod.fst).dedup.length := by
    rw [← hperm.length_eq, List.length_map]
  rw [hlength, ← List.dedup_eq_self, ← (List.dedup_sublist _).length_eq, List.length_map]

namespace CborValue

mutual
/-- **What is read is kept exactly when the keys stay apart.** -/
theorem keptIn_iff : ∀ (c : CborValue) {v : FieldValue}, cborToField c = .ok v →
    (c.KeptIn v ↔ c.KeysApart)
  | .integer i, v, h => by
    rw [cborToField] at h
    cases hi : i.toInt64 with
    | none => simp [hi] at h
    | some n =>
      rw [hi] at h
      cases h
      exact iff_of_true ⟨n, rfl, CborInteger.toInt_of_toInt64 hi⟩ trivial
  | .bytes _, _, _ | .float _, _, _ | .text _, _, _ | .bool _, _, _ | .null, _, _
  | .other _, _, _ => iff_of_true trivial trivial
  | .tag _ inner, v, h => by
    rw [cborToField] at h
    exact keptIn_iff inner h
  | .array items, v, h => by
    rw [cborToField] at h
    obtain ⟨vs, hvs, h⟩ := except_bind_eq_ok.1 h
    cases h
    rw [KeptIn, KeysApart, ← itemsKeptIn_iff items hvs]
    simp
  | .map entries, v, h => by
    rw [cborToField] at h
    obtain ⟨es, hes, h⟩ := except_bind_eq_ok.1 h
    cases h
    have hkeys := map_keyText_of_cborToEntries hes
    have hlength : entries.length = es.length := by
      simpa using congrArg List.length hkeys
    have hnodup : (entries.map fun e => keyText e.1).Nodup ↔ (es.map Prod.fst).Nodup := by
      have hmap : (es.map fun e => (.ok e.1 : Except OmpError Text)) =
          (es.map Prod.fst).map .ok := by simp
      rw [hkeys, hmap]
      exact List.nodup_map_iff fun _ _ heq => Except.ok.inj heq
    rw [KeptIn, KeysApart, hnodup]
    simp only [FieldValue.object.injEq, exists_eq_left', hlength, length_collect_iff]
    refine and_congr_right fun hdistinct => ?_
    -- the keys being distinct, what was collected are the entries
    refine entriesKeptIn_iff entries hes (TextMap.nodup_keys_toList _) fun e he => ?_
    exact TextMap.mem_toList.2 ((TextMap.getElem?_collect hdistinct).2 he)
/-- The same for the items of an array. -/
theorem itemsKeptIn_iff : ∀ (cs : List CborValue) {vs : List FieldValue},
    cborToItems cs = .ok vs → (ItemsKeptIn cs vs ↔ ItemsApart cs)
  | [], vs, h => by
    rw [cborToItems] at h
    cases h
    simp [ItemsKeptIn, ItemsApart]
  | c :: cs, vs, h => by
    rw [cborToItems] at h
    obtain ⟨w, hw, h⟩ := except_bind_eq_ok.1 h
    obtain ⟨ws, hws, h⟩ := except_bind_eq_ok.1 h
    cases h
    rw [ItemsApart, ← keptIn_iff c hw, ← itemsKeptIn_iff cs hws, ItemsKeptIn]
    simp
/-- The same for the values of a map, among entries with distinct keys that hold those read. -/
theorem entriesKeptIn_iff : ∀ (entries : List (CborValue × CborValue))
    {es fs : List (Text × FieldValue)}, cborToEntries entries = .ok es → (fs.map Prod.fst).Nodup →
    es ⊆ fs → (EntriesKeptIn entries fs ↔ EntriesApart entries)
  | [], es, fs, _, _, _ => iff_of_true trivial trivial
  | (k, c) :: entries, es, fs, h, hnodup, hsub => by
    rw [cborToEntries] at h
    obtain ⟨key, hkey, h⟩ := except_bind_eq_ok.1 h
    obtain ⟨w, hw, h⟩ := except_bind_eq_ok.1 h
    obtain ⟨ws, hws, h⟩ := except_bind_eq_ok.1 h
    cases h
    rw [EntriesKeptIn, EntriesApart, ← keptIn_iff c hw, ← entriesKeptIn_iff entries hws hnodup
      fun e he => hsub (List.mem_cons_of_mem _ he)]
    refine and_congr_left fun _ => ⟨?_, fun hkept => ⟨key, w, hkey, hsub List.mem_cons_self, hkept⟩⟩
    -- under its key there is only what it was read as
    rintro ⟨key', w', hkey', hmem, hkept⟩
    cases hkey.symm.trans hkey'
    have heq := List.inj_on_of_nodup_map hnodup hmem (hsub List.mem_cons_self) rfl
    cases heq
    exact hkept
end

end CborValue

/-- **Values cross the boundary whole exactly when keys stay apart.**  Every value without a datetime
in it that is written is read back, with arguments by their names as one map of them; and what is
read of any CBOR value has its integers and as many entries as each of its maps if and only if in no
map two keys become the same text. -/
theorem cbor_boundary_iff {c : CborValue} {v : FieldValue} (h : cborToField c = .ok v) :
    (∀ w : FieldValue, w.Dateless → cborToField (fieldToCbor w) = .ok w) ∧
    (∀ kwargs : Fields, (FieldValue.object kwargs.toList).Dateless →
      cborToField (.map (entriesToCbor kwargs.toList)) = .ok (.object kwargs.toList)) ∧
    (c.KeptIn v ↔ c.KeysApart) :=
  ⟨fun _ => cborToField_fieldToCbor, fun kwargs hkwargs => by
    have hread := cborToField_fieldToCbor hkwargs
    rwa [fieldToCbor] at hread, c.keptIn_iff h⟩

/-- A map with the keys `1` and `"1"`. -/
def mixedKeys : CborValue :=
  .map [(.integer (.ofInt64 1), .bool true), (.text "1".toList, .bool false)]

theorem cbor_boundary_iff_demo : cborToField (.map [(.integer (.ofInt64 1), .null)]) =
      .ok (.object [("1".toList, .null)]) ∧
    ((CborValue.map [(.integer (.ofInt64 1), .null)]).KeptIn (.object [("1".toList, .null)]) ↔
      (CborValue.map [(.integer (.ofInt64 1), .null)]).KeysApart) := by
  have hread : cborToField (.map [(.integer (.ofInt64 1), .null)]) =
      .ok (.object [("1".toList, .null)]) := by
    decide +kernel
  exact ⟨hread, (cbor_boundary_iff hread).2.2⟩

/-- **An integer and its text are one key**: of two entries one is left. -/
theorem entries_merged : cborToField mixedKeys = .ok (.object [("1".toList, .bool false)]) ∧
    ¬ mixedKeys.KeptIn (.object [("1".toList, .bool false)]) := by
  refine ⟨by decide +kernel, ?_⟩
  rintro ⟨es, heq, hlength, -⟩
  cases heq
  cases hlength

end Omp
