import Omp.Concrete
import Omp.Engine
import Omp.Lib.TopoOrder

/-!
# The order of the fields of a schema

A parsed schema has its fields in an order in which a field stands behind the one it is derived
from.  The sort looks at the source of a field and not at those of its fallbacks, which may be
derived from other fields too.  So a schema may be accepted although its references are cyclic, and
a fallback may read a field that has no value yet.

## Main definitions

* `Field.refs`, `Refers`, `DerivesFrom` : what a field is derived from, with its fallbacks and
  without them.
* `Schema.declared` : the fields that a schema declares.
* `Resolvable`, `OrderedBy` : what is to be accepted, and the order there should be.
* `Implied` : references of fallbacks lead where those of sources lead.

## Main results

* `topoLoop_spec` : the loop emits what is ready until nothing is.
* `topoSort_isOk`, `OrderedBy.of_topoSort` : what the sort accepts, and the order it yields.
* `topoSortIn_eq` : the order does not depend on that of the hash maps.
* `Schema.resolved_before_use` : what `parse` does with the schemas that meet the condition.
* `Schema.unresolved_read` : a schema that does not.
-/

namespace Omp

open Lib

/-! ### References -/

/-- The field a source is derived from. -/
def Source.from? : Source → Option Text
  | .field from_ _ => some from_
  | _ => none

/-- The fields that a field and its fallbacks are derived from. -/
def Field.refs : Field → List Text
  | .mk _ source _ _ _ none => source.from?.toList
  | .mk _ source _ _ _ (some fallback) => source.from?.toList ++ fallback.refs

/-- A field or one of its fallbacks is derived from another. -/
def Refers (fields : TextMap Field) (a b : Text) : Prop :=
  ∃ f, fields[a]? = some f ∧ b ∈ f.refs

/-- The source of a field is another field. -/
def DerivesFrom (fields : TextMap Field) (a b : Text) : Prop :=
  ∃ f, fields[a]? = some f ∧ f.from? = some b

theorem Field.from?_eq (f : Field) : f.from? = f.source.from? := by
  unfold Field.from? Source.from?
  cases f.source <;> rfl

theorem Field.mem_refs_of_from? {f : Field} {g : Text} (h : f.from? = some g) : g ∈ f.refs := by
  rw [Field.from?_eq] at h
  obtain ⟨name, source, type, required, description, _ | fallback⟩ := f
  · exact Option.mem_toList.2 h
  · exact List.mem_append_left _ (Option.mem_toList.2 h)

theorem DerivesFrom.refers {fields : TextMap Field} {a b : Text} (h : DerivesFrom fields a b) :
    Refers fields a b := by
  obtain ⟨f, hf, hfrom⟩ := h
  exact ⟨f, hf, f.mem_refs_of_from? hfrom⟩

/-! ### The loop -/

section Loop

variable {fields : TextMap Field} {out ready : List Text} {indeg : TextMap Nat}

theorem mem_dependents {n d : Text} :
    d ∈ dependents fields n ↔ ∃ f, fields[d]? = some f ∧ f.from? = some n := by
  unfold dependents
  simp only [List.mem_map, List.mem_filter, decide_eq_true_eq, Prod.exists, exists_and_right,
    exists_eq_right, TextMap.mem_toList]

theorem nodup_dependents (fields : TextMap Field) (n : Text) : (dependents fields n).Nodup :=
  (TextMap.nodup_keys_toList fields).sublist (List.filter_sublist.map _)

/-- What holds of the fields that are out, those that are ready and the counts of the others. -/
structure TopoInv (fields : TextMap Field) (out ready : List Text) (indeg : TextMap Nat) :
    Prop where
  nodup : (out ++ ready).Nodup
  /-- What is ready is derived from what is out. -/
  mem : ∀ n ∈ out ++ ready, ∃ f, fields[n]? = some f ∧ ∀ g, f.from? = some g → g ∈ out
  /-- Nothing that could be ready is missing. -/
  complete : ∀ (n : Text) (f : Field), fields[n]? = some f → (∀ g, f.from? = some g → g ∈ out) →
    n ∈ out ++ ready
  ordered : TopoOrdered (DerivesFrom fields) out
  /-- A field that waits has a count of one. -/
  waiting : ∀ (n : Text) (f : Field) (g : Text), fields[n]? = some f → f.from? = some g →
    g ∉ out → indeg[n]? = some 1

/-- One round of the loop. -/
theorem TopoInv.step {n : Text} {ready' : List Text} {indeg' : TextMap Nat}
    (h : TopoInv fields out (ready ++ [n]) indeg)
    (hready : ready'.Perm (ready ++ dependents fields n))
    (hindeg : ∀ x, x ∉ dependents fields n → indeg'[x]? = indeg[x]?) :
    TopoInv fields (out ++ [n]) ready' indeg' := by
  have hn : n ∉ out := fun hn => by
    have hdisjoint := (List.nodup_append.1 h.nodup).2.2
    exact hdisjoint n hn n (by simp) rfl
  have hmem : ∀ x, x ∈ out ++ [n] ++ ready' ↔
      x ∈ out ++ (ready ++ [n]) ∨ x ∈ dependents fields n := by
    intro x
    simp only [List.mem_append, hready.mem_iff]
    tauto
  refine ⟨?_, ?_, ?_, ?_, ?_⟩
  · -- a dependent of the field is neither out nor ready: the field was not out
    have hperm : (out ++ [n] ++ ready').Perm (out ++ (ready ++ [n]) ++ dependents fields n) := by
      refine (hready.append_left _).trans ?_
      rw [List.append_assoc, List.append_assoc, List.append_assoc]
      refine List.Perm.append_left _ ?_
      rw [← List.append_assoc, ← List.append_assoc]
      exact List.Perm.append_right _ List.perm_append_comm
    refine hperm.nodup_iff.2 (List.nodup_append.2 ⟨h.nodup, nodup_dependents fields n, ?_⟩)
    rintro x hx _ hd rfl
    obtain ⟨f, hf, hfrom⟩ := mem_dependents.1 hd
    obtain ⟨f', hf', hout⟩ := h.mem x hx
    cases hf.symm.trans hf'
    exact hn (hout n hfrom)
  · intro x hx
    rcases (hmem x).1 hx with hx | hd
    · obtain ⟨f, hf, hout⟩ := h.mem x hx
      exact ⟨f, hf, fun g hg => List.mem_append_left _ (hout g hg)⟩
    · obtain ⟨f, hf, hfrom⟩ := mem_dependents.1 hd
      refine ⟨f, hf, fun g hg => ?_⟩
      cases hfrom.symm.trans hg
      simp
  · intro x f hf hout
    rw [hmem]
    by_cases hd : f.from? = some n
    · exact .inr (mem_dependents.2 ⟨f, hf, hd⟩)
    · refine .inl (h.complete x f hf fun g hg => ?_)
      rcases List.mem_append.1 (hout g hg) with hg' | hg'
      · exact hg'
      · rw [List.mem_singleton] at hg'
        exact absurd (hg' ▸ hg) hd
  · refine h.ordered.concat ?_
    rintro g ⟨f, hf, hfrom⟩
    obtain ⟨f', hf', hout⟩ := h.mem n (by simp)
    cases hf.symm.trans hf'
    exact hout g hfrom
  · intro x f g hf hfrom hg
    simp only [List.mem_append, List.mem_singleton, not_or] at hg
    rw [hindeg x ?_]
    · exact h.waiting x f g hf hfrom hg.1
    · intro hd
      obtain ⟨f', hf', hfrom'⟩ := mem_dependents.1 hd
      cases hf.symm.trans hf'
      exact hg.2 (Option.some.inj (hfrom.symm.trans hfrom'))

/-- The counts after those of some fields went down by one. -/
theorem getElem?_decrement {ds : List Text} (hnodup : ds.Nodup) (m : TextMap Nat) (x : Text) :
    (ds.foldl (fun m d => m.insert d (m[d]?.getD 0 - 1)) m)[x]? =
      if x ∈ ds then some (m[x]?.getD 0 - 1) else m[x]? := by
  induction ds generalizing m with
  | nil => rfl
  | cons d ds ih =>
    obtain ⟨hd, hds⟩ := List.nodup_cons.1 hnodup
    rw [List.foldl_cons, ih hds, TextMap.getElem?_insert]
    by_cases hx : d = x
    · subst hx
      rw [if_neg hd, if_pos rfl, if_pos List.mem_cons_self]
    · rw [if_neg hx]
      have hmem : x ∈ d :: ds ↔ x ∈ ds :=
        ⟨fun h => (List.mem_cons.1 h).resolve_left (Ne.symm hx), List.mem_cons_of_mem _⟩
      simp only [hmem]

theorem perm_sortNames (names : List Text) : (sortNames names).Perm names :=
  List.perm_insertionSort _ _

theorem perm_sortNamesDesc (names : List Text) : (sortNamesDesc names).Perm names :=
  List.perm_insertionSort _ _

theorem TopoInv.length_le (h : TopoInv fields out ready indeg) :
    out.length + ready.length ≤ fields.size := by
  have hsub : out ++ ready ⊆ fields.toList.map Prod.fst := by
    intro n hn
    obtain ⟨f, hf, -⟩ := h.mem n hn
    exact List.mem_map.2 ⟨(n, f), TextMap.mem_toList.2 hf, rfl⟩
  have hlen := (h.nodup.subperm hsub).length_le
  rwa [List.length_append, List.length_map, Std.ExtTreeMap.length_toList] at hlen

/-- **The loop emits what is ready until nothing is.** -/
theorem topoLoop_spec (rounds : Nat) (h : TopoInv fields out ready indeg)
    (hrounds : fields.size ≤ out.length + rounds) :
    ∃ names indeg', topoLoop fields rounds ready indeg = names.filterMap (fun n => fields[n]?) ∧
      TopoInv fields (out ++ names) [] indeg' := by
  induction rounds generalizing out ready indeg with
  | zero =>
    have hlen := h.length_le
    obtain rfl : ready = [] := List.length_eq_zero_iff.1 (by omega)
    exact ⟨[], indeg, rfl, by rwa [List.append_nil]⟩
  | succ rounds ih =>
    rw [topoLoop]
    cases hlast : ready.getLast? with
    | none =>
      obtain rfl := List.getLast?_eq_none_iff.1 hlast
      exact ⟨[], indeg, rfl, by rwa [List.append_nil]⟩
    | some n =>
      have hsplit : ready.dropLast ++ [n] = ready := List.dropLast_append_getLast? n hlast
      have hcounts := getElem?_decrement (nodup_dependents fields n) indeg
      dsimp only
      generalize hindeg : (dependents fields n).foldl
        (fun m d => m.insert d (m[d]?.getD 0 - 1)) indeg = indeg' at hcounts ⊢
      -- the count of each dependent was one, so that all of them are unlocked
      have hn : n ∉ out := fun hn =>
        (List.nodup_append.1 h.nodup).2.2 n hn n (by rw [← hsplit]; simp) rfl
      have hunlocked : (dependents fields n).filter (fun d => indeg'[d]? = some 0) =
          dependents fields n := by
        refine List.filter_eq_self.2 fun d hd => ?_
        obtain ⟨f, hf, hfrom⟩ := mem_dependents.1 hd
        rw [hcounts, if_pos hd, h.waiting d f n hf hfrom hn]
        rfl
      rw [hunlocked]
      generalize hready : (if (dependents fields n).isEmpty then ready.dropLast
        else sortNamesDesc (ready.dropLast ++ sortNames (dependents fields n))) = ready'
      have hperm : ready'.Perm (ready.dropLast ++ dependents fields n) := by
        rw [← hready]
        split_ifs with hempty
        · rw [List.isEmpty_iff.1 hempty, List.append_nil]
        · exact (perm_sortNamesDesc _).trans ((perm_sortNames _).append_left _)
      rw [← hsplit] at h
      have hstep := h.step hperm fun x hx => by rw [hcounts, if_neg hx]
      obtain ⟨names, last, hnames, hinv⟩ := ih hstep (by
        rw [List.length_append, List.length_singleton]
        omega)
      obtain ⟨f, hf, -⟩ := h.mem n (by simp)
      refine ⟨n :: names, last, ?_, by rwa [List.append_cons]⟩
      rw [hnames, hf, List.filterMap_cons_some hf]
      rfl

end Loop

/-! ### The sort -/

section TopoSort

variable {W : World} {fields : TextMap Field} {names : List Text}

theorem mem_fields {n : Text} : n ∈ fields ↔ ∃ f, fields[n]? = some f := by
  rw [Std.ExtTreeMap.mem_iff_isSome_getElem?, Option.isSome_iff_exists]

/-- The count of a field before the first round. -/
theorem getElem?_counts (fields : TextMap Field) (n : Text) (k : Nat) :
    (TextMap.collect (fields.toList.map fun p => (p.1, if p.2.from?.isSome then 1 else 0)))[n]? =
      some k ↔ ∃ f : Field, fields[n]? = some f ∧ (if f.from?.isSome then 1 else 0) = k := by
  have hkeys : ((fields.toList.map fun p => (p.1, if p.2.from?.isSome then 1 else 0)).map
      (Prod.fst : Text × Nat → Text)).Nodup := by
    rw [List.map_map]
    exact TextMap.nodup_keys_toList fields
  rw [TextMap.getElem?_collect hkeys, List.mem_map]
  constructor
  · rintro ⟨⟨_, f⟩, hf, heq⟩
    cases heq
    exact ⟨f, TextMap.mem_toList.1 hf, rfl⟩
  · rintro ⟨f, hf, rfl⟩
    exact ⟨(n, f), TextMap.mem_toList.2 hf, rfl⟩

/-- What holds before the first round. -/
theorem TopoInv.init (fields : TextMap Field) :
    let indeg := TextMap.collect (fields.toList.map fun p =>
      (p.1, if p.2.from?.isSome then 1 else 0))
    TopoInv fields [] (sortNames ((indeg.toList.filter fun p => p.2 = 0).map Prod.fst)) indeg := by
  intro indeg
  have hcount : ∀ (n : Text) (k : Nat), indeg[n]? = some k ↔
      ∃ f : Field, fields[n]? = some f ∧ (if f.from?.isSome then 1 else 0) = k :=
    getElem?_counts fields
  have hready : ∀ n, n ∈ sortNames ((indeg.toList.filter fun p => p.2 = 0).map Prod.fst) ↔
      ∃ f : Field, fields[n]? = some f ∧ f.from? = none := by
    intro n
    rw [(perm_sortNames _).mem_iff]
    simp only [List.mem_map, List.mem_filter, decide_eq_true_eq, Prod.exists, exists_and_right,
      exists_eq_right, TextMap.mem_toList, hcount]
    constructor
    · rintro ⟨f, hf, hk⟩
      refine ⟨f, hf, ?_⟩
      cases hfrom : f.from? with
      | none => rfl
      | some g => rw [hfrom] at hk; cases hk
    · rintro ⟨f, hf, hfrom⟩
      exact ⟨f, hf, by rw [hfrom]; rfl⟩
  refine ⟨?_, ?_, ?_, TopoOrdered.nil, ?_⟩
  · rw [List.nil_append, (perm_sortNames _).nodup_iff]
    exact (TextMap.nodup_keys_toList indeg).sublist (List.filter_sublist.map _)
  · intro n hn
    obtain ⟨f, hf, hfrom⟩ := (hready n).1 hn
    exact ⟨f, hf, fun g hg => by rw [hfrom] at hg; cases hg⟩
  · intro n f hf hout
    refine (hready n).2 ⟨f, hf, ?_⟩
    cases hfrom : f.from? with
    | none => rfl
    | some g => exact absurd (hout g hfrom) List.not_mem_nil
  · intro n f g hf hfrom _
    exact (hcount n 1).2 ⟨f, hf, by rw [hfrom]; rfl⟩

/-- The names of the sorted fields. -/
structure Sorts (fields : TextMap Field) (names : List Text) : Prop where
  nodup : names.Nodup
  mem : ∀ n, n ∈ names ↔ n ∈ fields
  ordered : TopoOrdered (DerivesFrom fields) names

theorem Sorts.acyclic (h : Sorts fields names) : Acyclic (DerivesFrom fields) :=
  h.ordered.acyclic h.nodup fun a _ ⟨f, hf, _⟩ => (h.mem a).2 (mem_fields.2 ⟨f, hf⟩)

theorem Sorts.closed (h : Sorts fields names) {a b : Text} (hab : DerivesFrom fields a b) :
    b ∈ fields := by
  obtain ⟨f, hf, -⟩ := id hab
  obtain ⟨l₁, l₂, rfl⟩ := List.append_of_mem ((h.mem a).2 (mem_fields.2 ⟨f, hf⟩))
  exact (h.mem b).1 (List.mem_append_left _ (h.ordered l₁ a l₂ rfl b hab))

theorem length_filterMap_get (h : ∀ n ∈ names, n ∈ fields) :
    (names.filterMap fun n => fields[n]?).length = names.length := by
  refine List.filterMap_length_eq_length.2 fun n hn => ?_
  obtain ⟨f, hf⟩ := mem_fields.1 (h n hn)
  rw [hf]
  rfl

/-- The names are all there are, if there are as many. -/
theorem mem_of_length (hnodup : names.Nodup) (hmem : ∀ n ∈ names, n ∈ fields)
    (hlen : names.length = fields.size) {n : Text} (hn : n ∈ fields) : n ∈ names := by
  have hkeys : ∀ n, n ∈ fields.toList.map Prod.fst ↔ n ∈ fields := by
    intro n
    rw [mem_fields, List.mem_map]
    exact ⟨fun ⟨⟨_, f⟩, hf, heq⟩ => ⟨f, heq ▸ TextMap.mem_toList.1 hf⟩,
      fun ⟨f, hf⟩ => ⟨(n, f), TextMap.mem_toList.2 hf, rfl⟩⟩
  have hsub := hnodup.subperm fun n hn => (hkeys n).2 (hmem n hn)
  refine (hsub.perm_of_length_le ?_).mem_iff.2 ((hkeys n).2 hn)
  rw [List.length_map, Std.ExtTreeMap.length_toList, hlen]

/-- **What the sort yields.** -/
theorem sorts_of_topoSort {ordered : List Field} (h : topoSort W fields = .ok ordered) :
    ∃ names, Sorts fields names ∧ ordered = names.filterMap fun n => fields[n]? := by
  unfold topoSort at h
  split at h
  · cases h
  · dsimp only at h
    split_ifs at h with hlen
    cases h
    obtain ⟨names, indeg, hnames, hinv⟩ := topoLoop_spec fields.size (TopoInv.init fields) (by simp)
    rw [List.nil_append] at hinv
    have hmem : ∀ n ∈ names, n ∈ fields := fun n hn => by
      obtain ⟨f, hf, -⟩ := hinv.mem n (List.mem_append_left _ hn)
      exact mem_fields.2 ⟨f, hf⟩
    have hnodup : names.Nodup := by simpa using hinv.nodup
    rw [hnames, length_filterMap_get hmem, not_not] at hlen
    exact ⟨names, ⟨hnodup, fun n => ⟨hmem n, mem_of_length hnodup hmem hlen⟩, hinv.ordered⟩, hnames⟩

/-- **What the sort accepts**: fields that are derived from fields, and not in a cycle. -/
theorem topoSort_isOk : (topoSort W fields).isOk = true ↔
    Acyclic (DerivesFrom fields) ∧ ∀ a b, DerivesFrom fields a b → b ∈ fields := by
  constructor
  · intro h
    obtain ⟨ordered, h⟩ := exists_eq_ok_of_isOk h
    obtain ⟨names, hsorts, -⟩ := sorts_of_topoSort h
    exact ⟨hsorts.acyclic, fun a b hab => hsorts.closed hab⟩
  · rintro ⟨hacyclic, hclosed⟩
    unfold topoSort
    split
    · next p hp =>
      -- a field that is derived from itself is a cycle
      have hself : p.2.from? = some p.1 := by simpa using List.find?_some hp
      have hmem := TextMap.mem_toList.1 (List.mem_of_find?_eq_some hp)
      exact absurd (Relation.TransGen.single ⟨p.2, hmem, hself⟩) (hacyclic p.1)
    · dsimp only
      rw [if_neg ?_]
      · rfl
      obtain ⟨names, indeg, hnames, hinv⟩ :=
        topoLoop_spec fields.size (TopoInv.init fields) (by simp)
      rw [List.nil_append] at hinv
      have hmem : ∀ n ∈ names, n ∈ fields := fun n hn => by
        obtain ⟨f, hf, -⟩ := hinv.mem n (List.mem_append_left _ hn)
        exact mem_fields.2 ⟨f, hf⟩
      rw [hnames, length_filterMap_get hmem, not_not]
      -- were a field left out, one of these would be ready
      by_contra hlen
      have hleft : (fields.toList.map Prod.fst).filter (fun n => n ∉ names) ≠ [] := by
        intro hnil
        have hsub : fields.toList.map Prod.fst ⊆ names := fun n hn => by
          simpa using List.filter_eq_nil_iff.1 hnil n hn
        have hle := ((TextMap.nodup_keys_toList fields).subperm hsub).length_le
        have hge := hinv.length_le
        rw [List.length_map, Std.ExtTreeMap.length_toList] at hle
        exact hlen (by simpa using Nat.le_antisymm (by simpa using hge) hle)
      obtain ⟨a, ha, hready⟩ := hacyclic.exists_ready hleft
      rw [List.mem_filter, List.mem_map] at ha
      obtain ⟨⟨⟨_, f⟩, hf, rfl⟩, hout⟩ := ha
      refine (of_decide_eq_true hout) ?_
      have hcomplete := hinv.complete _ f (TextMap.mem_toList.1 hf) fun g hg => ?_
      · simpa using hcomplete
      · have hderives : DerivesFrom fields _ g := ⟨f, TextMap.mem_toList.1 hf, hg⟩
        obtain ⟨f', hf'⟩ := mem_fields.1 (hclosed _ _ hderives)
        have := hready g hderives
        rw [List.mem_filter, not_and] at this
        simpa using this (List.mem_map.2 ⟨(g, f'), TextMap.mem_toList.2 hf', rfl⟩)

end TopoSort

/-! ### Hash maps -/

/-- `dependents`, of a hash map that yields its entries in some order. -/
def dependentsIn (entries : List (Text × Field)) (name : Text) : List Text :=
  (entries.filter fun p => p.2.from? = some name).map Prod.fst

/-- The loop, with the dependents in the order the hash map yields them. -/
def topoLoopIn (entries : List (Text × Field)) (fields : TextMap Field) :
    Nat → List Text → TextMap Nat → List Field
  | 0, _, _ => []
  | rounds + 1, ready, indeg => match ready.getLast? with
    | none => []
    | some n =>
      let deps := dependentsIn entries n
      let indeg := deps.foldl (fun m d => m.insert d (m[d]?.getD 0 - 1)) indeg
      let unlocked := deps.filter fun d => indeg[d]? = some 0
      let ready := if deps.isEmpty then ready.dropLast
        else sortNamesDesc (ready.dropLast ++ sortNames unlocked)
      fields[n]?.toList ++ topoLoopIn entries fields rounds ready indeg

/-- `topo_sort`, where the hash map of the fields and that of the counts each yield their entries
in an order of their own. -/
def topoSortIn (W : World) (entries counts : List (Text × Field)) (fields : TextMap Field) :
    Except OmpError (List Field) :=
  match entries.find? fun p => p.2.from? = some p.1 with
  | some p => .error (.schemaValidation
      ("field ".toList ++ W.debugStr p.1 ++ " references itself".toList))
  | none =>
    let indeg := TextMap.collect (fields.toList.map fun p =>
      (p.1, if p.2.from?.isSome then 1 else 0))
    let ready := sortNames (((counts.map Prod.fst).filter fun n => indeg[n]? = some 0))
    let out := topoLoopIn entries fields fields.size ready indeg
    if out.length ≠ fields.size then
      .error (.schemaValidation "schema: field dependency cycle".toList)
    else .ok out

section HashMaps

variable {W : World} {fields : TextMap Field} {entries counts : List (Text × Field)}

instance : Std.Antisymm fun a b : Text => (compare a b).isLE = true :=
  ⟨fun _ _ hab hba => Std.compare_eq_iff_eq.1 (Std.OrientedCmp.isLE_antisymm hab hba)⟩

instance : IsTrans Text fun a b => (compare a b).isLE = true :=
  ⟨fun _ _ _ hab hbc => Std.TransCmp.isLE_trans hab hbc⟩

instance : Std.Total fun a b : Text => (compare a b).isLE = true :=
  ⟨fun a b => by
    have hswap : compare b a = (compare a b).swap := Std.OrientedCmp.eq_swap
    rw [hswap]
    cases compare a b <;> simp⟩

theorem sortNames_congr {l l' : List Text} (h : l.Perm l') : sortNames l = sortNames l' := by
  have hsorted := List.pairwise_insertionSort fun a b : Text => (compare a b).isLE = true
  exact List.Perm.eq_of_pairwise' (hsorted l) (hsorted l')
    ((perm_sortNames l).trans (h.trans (perm_sortNames l').symm))

theorem dependentsIn_perm (h : entries.Perm fields.toList) (n : Text) :
    (dependentsIn entries n).Perm (dependents fields n) :=
  (h.filter _).map _

/-- The counts do not depend on the order in which they go down. -/
theorem decrement_congr {ds ds' : List Text} (hnodup : ds'.Nodup) (h : ds.Perm ds')
    (m : TextMap Nat) : ds.foldl (fun m d => m.insert d (m[d]?.getD 0 - 1)) m =
      ds'.foldl (fun m d => m.insert d (m[d]?.getD 0 - 1)) m := by
  refine Std.ExtTreeMap.ext_getElem? fun x => ?_
  rw [getElem?_decrement (h.nodup_iff.2 hnodup), getElem?_decrement hnodup]
  simp only [h.mem_iff]

theorem topoLoopIn_eq (h : entries.Perm fields.toList) (rounds : Nat) (ready : List Text)
    (indeg : TextMap Nat) :
    topoLoopIn entries fields rounds ready indeg = topoLoop fields rounds ready indeg := by
  induction rounds generalizing ready indeg with
  | zero => rfl
  | succ rounds ih =>
    have hdeps := dependentsIn_perm h
    rw [topoLoopIn, topoLoop]
    cases ready.getLast? with
    | none => rfl
    | some n =>
      dsimp only
      rw [ih, decrement_congr (nodup_dependents fields n) (hdeps n),
        sortNames_congr ((hdeps n).filter _)]
      have hempty : (dependentsIn entries n).isEmpty = (dependents fields n).isEmpty := by
        rw [Bool.eq_iff_iff, List.isEmpty_iff, List.isEmpty_iff]
        exact ⟨fun hnil => List.perm_nil.1 (hnil ▸ (hdeps n).symm),
          fun hnil => List.perm_nil.1 (hnil ▸ hdeps n)⟩
      rw [hempty]

/-- **The order does not depend on that of the hash maps**, and neither does whether there is
one. -/
theorem topoSortIn_eq (hentries : entries.Perm fields.toList) (hcounts : counts.Perm fields.toList) :
    (topoSortIn W entries counts fields).toOption = (topoSort W fields).toOption := by
  have hready : ((counts.map Prod.fst).filter fun n =>
      (TextMap.collect (fields.toList.map fun p =>
        (p.1, if p.2.from?.isSome then 1 else 0)))[n]? = some 0).Perm
      (((TextMap.collect (fields.toList.map fun p =>
        (p.1, if p.2.from?.isSome then 1 else 0))).toList.filter fun p => p.2 = 0).map
          Prod.fst) := by
    refine (List.perm_ext_iff_of_nodup ?_ ?_).2 ?_
    · refine List.Nodup.filter _ ((hcounts.map _).nodup_iff.2 (TextMap.nodup_keys_toList fields))
    · exact (TextMap.nodup_keys_toList _).sublist (List.filter_sublist.map _)
    · intro n
      have hmem : ∀ n, n ∈ counts.map Prod.fst ↔ n ∈ fields.toList.map Prod.fst := fun n =>
        (hcounts.map _).mem_iff
      simp only [List.mem_filter, hmem, List.mem_map, decide_eq_true_eq, Prod.exists,
        exists_and_right, exists_eq_right, TextMap.mem_toList]
      refine and_iff_right_of_imp fun hcount => ?_
      obtain ⟨f, hf, -⟩ := (getElem?_counts fields n 0).1 hcount
      exact ⟨f, hf⟩
  unfold topoSortIn topoSort
  cases hself : fields.toList.find? (fun p => p.2.from? = some p.1) with
  | some p =>
    cases hself' : entries.find? (fun p => p.2.from? = some p.1) with
    | some p' => rfl
    | none =>
      have := List.find?_eq_none.1 hself' p (hentries.mem_iff.2 (List.mem_of_find?_eq_some hself))
      exact absurd (List.find?_some hself) this
  | none =>
    have hself' : entries.find? (fun p => p.2.from? = some p.1) = none :=
      List.find?_eq_none.2 fun p hp => List.find?_eq_none.1 hself p (hentries.mem_iff.1 hp)
    rw [hself']
    dsimp only
    rw [topoLoopIn_eq hentries, sortNames_congr hready]

end HashMaps

/-! ### Schemas -/

/-- What is to be accepted: references lead to fields, and not in a cycle. -/
def Resolvable (fields : TextMap Field) : Prop :=
  (∀ a b, Refers fields a b → b ∈ fields) ∧ Acyclic (Refers fields)

/-- The order there should be: all fields, each behind those it and its fallbacks refer to. -/
structure OrderedBy (fields : TextMap Field) (ordered : List Field) : Prop where
  perm : ordered.Perm (fields.toList.map Prod.snd)
  before : ∀ l₁ f l₂, ordered = l₁ ++ f :: l₂ → ∀ g ∈ f.refs, g ∈ l₁.map Field.name

/-- References of fallbacks lead where those of sources lead, in a schema that the sort accepts
and whose references lead to fields. -/
def Implied (fields : TextMap Field) : Prop :=
  Acyclic (DerivesFrom fields) → (∀ a b, Refers fields a b → b ∈ fields) →
    ∀ a b, Refers fields a b → Relation.TransGen (DerivesFrom fields) a b

/-- What `Schema::parse` does before it sorts: the schema as it is written, and its fields. -/
def Schema.declared (W : World) (bytes : Bytes) (filenameStem : Text) :
    Except OmpError (RawSchema × TextMap Field) :=
  match fromUtf8 bytes with
  | none => .error (.schemaValidation "schema not UTF-8".toList)
  | some s => match W.rawSchema s with
    | .error e => .error (.schemaValidation ("schema TOML: ".toList ++ e))
    | .ok raw =>
      if raw.fileType ≠ filenameStem then
        .error (.schemaValidation ("file_type ".toList ++ W.debugStr raw.fileType ++
          " does not match schema filename stem ".toList ++ W.debugStr filenameStem))
      else if raw.mimePatterns = [] then
        .error (.schemaValidation "schema: mime_patterns must be non-empty".toList)
      else do
        let converted ← raw.fields.mapM fun p => do
          let f ← convertField W p.1 p.2
          .ok (p.1, f)
        .ok (raw, TextMap.collect converted)

section Parse

variable {W : World} {bytes : Bytes} {stem : Text} {raw : RawSchema} {fields : TextMap Field}

theorem Schema.parse_eq (W : World) (bytes : Bytes) (stem : Text) :
    Schema.parse W bytes stem = (do
      let declared ← Schema.declared W bytes stem
      let ordered ← topoSort W declared.2
      ordered.forM (checkFieldRefs W declared.2)
      .ok ⟨declared.1.fileType, declared.1.mimePatterns, declared.1.allowExtraFields.getD false,
        ordered⟩) := by
  unfold Schema.parse Schema.declared
  cases fromUtf8 bytes with
  | none => rfl
  | some s =>
    dsimp only
    cases W.rawSchema s with
    | error e => rfl
    | ok raw =>
      dsimp only
      split_ifs
      · rfl
      · rfl
      · rw [bind_assoc]
        rfl

/-- A field that is read: its source, its fallback, and the values as they are. -/
theorem convertFieldWithInheritedType_of_ok {name source : Text} {type : Option Text}
    {required : Option Bool} {description : Option Text} {value : Option Toml.Value}
    {probe : Option Text} {args : Option (List (Text × Toml.Value))} {from_ transform : Option Text}
    {fallback : Option RawField} {inherited : Option FieldType} {f : Field}
    (h : convertFieldWithInheritedType W name
      (.mk source type required description value probe args from_ transform fallback) inherited =
        .ok f) :
    ∃ ty src fb, convertSource W name source value probe args from_ transform = .ok src ∧
      convertFallback W (name ++ ".fallback".toList) fallback ty = .ok fb ∧
      f = .mk name src ty (required.getD false) description fb := by
  unfold convertFieldWithInheritedType at h
  have hrest : ∀ ty : FieldType, (do
      let source ← convertSource W name source value probe args from_ transform
      let fallback ← convertFallback W (name ++ ".fallback".toList) fallback ty
      Except.ok (Field.mk name source ty (required.getD false) description fallback)) = .ok f →
      ∃ ty src fb, convertSource W name source value probe args from_ transform = .ok src ∧
        convertFallback W (name ++ ".fallback".toList) fallback ty = .ok fb ∧
        f = .mk name src ty (required.getD false) description fb := by
    intro ty h
    obtain ⟨src, hsrc, h⟩ := except_bind_eq_ok.1 h
    obtain ⟨fb, hfb, h⟩ := except_bind_eq_ok.1 h
    exact ⟨ty, src, fb, hsrc, hfb, (Except.ok.inj h).symm⟩
  cases type with
  | some s =>
    obtain ⟨ty, -, h⟩ := except_bind_eq_ok.1 h
    exact hrest ty h
  | none =>
    cases inherited with
    | some ty => exact hrest ty h
    | none => cases h

/-- A field is read from what is written under its name. -/
theorem Schema.convert_of_declared (h : Schema.declared W bytes stem = .ok (raw, fields)) {n : Text}
    {f : Field} (hf : fields[n]? = some f) : ∃ rawField, convertField W n rawField = .ok f := by
  unfold Schema.declared at h
  split at h
  · cases h
  · split at h
    · cases h
    · split_ifs at h
      obtain ⟨converted, hconverted, h⟩ := except_bind_eq_ok.1 h
      cases h
      obtain ⟨p, -, hp⟩ := exists_mem_of_mapM hconverted (TextMap.mem_of_getElem?_collect hf)
      obtain ⟨f', hf', hp⟩ := except_bind_eq_ok.1 hp
      cases hp
      exact ⟨p.2, hf'⟩

/-- A field has the name it is declared under. -/
theorem Schema.name_of_declared (h : Schema.declared W bytes stem = .ok (raw, fields)) {n : Text}
    {f : Field} (hf : fields[n]? = some f) : f.name = n := by
  obtain ⟨⟨source, type, required, description, value, probe, args, from_, transform, fallback⟩,
    hconvert⟩ := Schema.convert_of_declared h hf
  obtain ⟨ty, src, fb, -, -, rfl⟩ := convertFieldWithInheritedType_of_ok hconvert
  rfl

theorem checkSourceRef_eq_ok {name : Text} {source : Source} :
    checkSourceRef W name source fields = .ok () ↔ ∀ g ∈ source.from?.toList, g ∈ fields := by
  unfold checkSourceRef Source.from?
  cases source with
  | field from_ transform =>
    dsimp only
    rw [Option.toList_some, List.forall_mem_singleton, Std.ExtTreeMap.mem_iff_contains]
    split_ifs with hmem
    · simp [hmem]
    · simp [hmem]
  | _ => simp

theorem checkFieldRefs_eq_ok {f : Field} :
    checkFieldRefs W fields f = .ok () ↔ ∀ g ∈ f.refs, g ∈ fields := by
  induction f using Field.refs.induct with
  | case1 name source type required description =>
    rw [checkFieldRefs, Field.refs, checkSourceRef_eq_ok]
  | case2 name source type required description fallback ih =>
    rw [checkFieldRefs, Field.refs, except_bind_eq_ok, List.forall_mem_append, ← ih,
      ← checkSourceRef_eq_ok]
    exact ⟨fun ⟨_, hsource, hfallback⟩ => ⟨hsource, hfallback⟩,
      fun ⟨hsource, hfallback⟩ => ⟨(), hsource, hfallback⟩⟩

theorem mem_filterMap_get {names : List Text} (h : Sorts fields names) {f : Field} :
    (f ∈ names.filterMap fun n => fields[n]?) ↔ ∃ n : Text, fields[n]? = some f := by
  rw [List.mem_filterMap]
  exact ⟨fun ⟨n, _, hf⟩ => ⟨n, hf⟩, fun ⟨n, hf⟩ => ⟨n, (h.mem n).2 (mem_fields.2 ⟨f, hf⟩), hf⟩⟩

/-- **What is accepted**, of schemas that can be read: fields whose sources are not in a cycle, with
references to fields. -/
theorem Schema.parse_isOk (h : Schema.declared W bytes stem = .ok (raw, fields)) :
    (Schema.parse W bytes stem).isOk = true ↔
      Acyclic (DerivesFrom fields) ∧ ∀ a b, Refers fields a b → b ∈ fields := by
  have hparse : (Schema.parse W bytes stem).isOk = true ↔
      ∃ ordered, topoSort W fields = .ok ordered ∧ ∀ f ∈ ordered, ∀ g ∈ f.refs, g ∈ fields := by
    rw [Schema.parse_eq, h]
    constructor
    · intro hok
      obtain ⟨schema, hok⟩ := exists_eq_ok_of_isOk hok
      obtain ⟨_, hdeclared, hok⟩ := except_bind_eq_ok.1 hok
      cases hdeclared
      obtain ⟨ordered, hsort, hok⟩ := except_bind_eq_ok.1 hok
      obtain ⟨_, hcheck, -⟩ := except_bind_eq_ok.1 hok
      exact ⟨ordered, hsort, fun f hf => checkFieldRefs_eq_ok.1 (forM_eq_ok.1 hcheck f hf)⟩
    · rintro ⟨ordered, hsort, hcheck⟩
      have hforM : ordered.forM (checkFieldRefs W fields) = .ok () :=
        forM_eq_ok.2 fun f hf => checkFieldRefs_eq_ok.2 (hcheck f hf)
      have hrest : (do
          let ordered ← topoSort W fields
          ordered.forM (checkFieldRefs W fields)
          .ok (Schema.mk raw.fileType raw.mimePatterns (raw.allowExtraFields.getD false)
            ordered)) = Except.ok _ :=
        except_bind_eq_ok.2 ⟨ordered, hsort, except_bind_eq_ok.2 ⟨(), hforM, rfl⟩⟩
      exact congrArg Except.isOk hrest
  rw [hparse]
  constructor
  · rintro ⟨ordered, hsort, hcheck⟩
    obtain ⟨hacyclic, -⟩ := topoSort_isOk.1 (congrArg Except.isOk hsort)
    obtain ⟨names, hsorts, rfl⟩ := sorts_of_topoSort hsort
    exact ⟨hacyclic, fun a b ⟨f, hf, hb⟩ => hcheck f ((mem_filterMap_get hsorts).2 ⟨a, hf⟩) b hb⟩
  · rintro ⟨hacyclic, hclosed⟩
    obtain ⟨ordered, hsort⟩ := exists_eq_ok_of_isOk
      (topoSort_isOk.2 ⟨hacyclic, fun a b hab => hclosed a b hab.refers⟩)
    obtain ⟨names, hsorts, rfl⟩ := sorts_of_topoSort hsort
    refine ⟨_, hsort, fun f hf g hg => ?_⟩
    obtain ⟨n, hn⟩ := (mem_filterMap_get hsorts).1 hf
    exact hclosed n g ⟨f, hn, hg⟩

theorem Schema.topoSort_of_parse (h : Schema.declared W bytes stem = .ok (raw, fields))
    {schema : Schema} (hparse : Schema.parse W bytes stem = .ok schema) :
    topoSort W fields = .ok schema.fields := by
  rw [Schema.parse_eq, h] at hparse
  obtain ⟨_, hdeclared, hparse⟩ := except_bind_eq_ok.1 hparse
  cases hdeclared
  obtain ⟨ordered, hsort, hparse⟩ := except_bind_eq_ok.1 hparse
  obtain ⟨_, -, hparse⟩ := except_bind_eq_ok.1 hparse
  cases hparse
  exact hsort

theorem map_name_filterMap (hnames : ∀ (n : Text) f, fields[n]? = some f → f.name = n)
    {names : List Text} (h : Sorts fields names) :
    (names.filterMap fun n => fields[n]?).map Field.name = names := by
  have hget : ∀ n ∈ names, (fields[n]?.map Field.name) = some n := by
    intro n hn
    obtain ⟨f, hf⟩ := mem_fields.1 ((h.mem n).1 hn)
    rw [hf, Option.map_some, hnames n f hf]
  rw [List.map_filterMap, List.filterMap_congr hget, List.filterMap_some]

/-- The names of the fields of a map, in any order. -/
theorem Sorts.perm {names : List Text} (h : Sorts fields names) :
    names.Perm (fields.toList.map Prod.fst) := by
  refine (List.perm_ext_iff_of_nodup h.nodup (TextMap.nodup_keys_toList fields)).2 fun n => ?_
  rw [h.mem, mem_fields, List.mem_map]
  exact ⟨fun ⟨f, hf⟩ => ⟨(n, f), TextMap.mem_toList.2 hf, rfl⟩,
    fun ⟨⟨_, f⟩, hf, heq⟩ => ⟨f, heq ▸ TextMap.mem_toList.1 hf⟩⟩

theorem filterMap_keys : ((fields.toList.map Prod.fst).filterMap fun n => fields[n]?) =
    fields.toList.map Prod.snd := by
  rw [List.filterMap_map, ← List.filterMap_eq_map']
  exact List.filterMap_congr fun p hp => TextMap.mem_toList.1 hp

/-- The order is right for references that are implied by those the sort looks at. -/
theorem OrderedBy.of_topoSort (hnames : ∀ (n : Text) f, fields[n]? = some f → f.name = n)
    (hrefs : ∀ a b, Refers fields a b → Relation.TransGen (DerivesFrom fields) a b)
    {ordered : List Field} (h : topoSort W fields = .ok ordered) : OrderedBy fields ordered := by
  obtain ⟨names, hsorts, rfl⟩ := sorts_of_topoSort h
  refine ⟨?_, fun l₁ f l₂ hsplit g hg => ?_⟩
  · rw [← filterMap_keys]
    exact hsorts.perm.filterMap _
  · obtain ⟨n, hf⟩ := (mem_filterMap_get hsorts (f := f)).1 (by rw [hsplit]; simp)
    have hmap := congrArg (List.map Field.name) hsplit
    rw [map_name_filterMap hnames hsorts, List.map_append, List.map_cons, hnames n f hf] at hmap
    exact hsorts.ordered.transGen _ _ _ hmap g (hrefs n g ⟨f, hf, hg⟩)

/-- Without references of fallbacks nothing is to be implied. -/
theorem Implied.of_refs (h : ∀ (n : Text) f, fields[n]? = some f → f.refs = f.from?.toList) :
    Implied fields := by
  rintro - - a b ⟨f, hf, hb⟩
  rw [h a f hf] at hb
  exact .single ⟨f, hf, Option.mem_toList.1 hb⟩

/-- The names that have a value once some fields are resolved. -/
theorem mem_of_resolveFields {runProbe : RunProbe} {input : IngestInput} {view : TreeView}
    {l : List Field} {resolved r : Fields} {st st' : IngestState}
    (h : resolveFields W runProbe input view l resolved st = (.ok r, st')) {n : Text} :
    n ∈ r ↔ n ∈ resolved ∨ n ∈ l.map Field.name := by
  induction l generalizing resolved st with
  | nil =>
    cases h
    simp
  | cons f l ih =>
    rw [resolveFields] at h
    split at h
    · cases h
    · split at h
      · cases h
      · rw [ih h, Std.ExtTreeMap.mem_insert, Std.compare_eq_iff_eq, List.map_cons, List.mem_cons]
        tauto

/-- **References are resolved before they are used**, and exactly the schemas are accepted whose
references can be, if those of fallbacks are implied by those of sources; and always the order is
the same whatever the order of the hash maps. -/
theorem Schema.resolved_before_use (h : Schema.declared W bytes stem = .ok (raw, fields))
    (himplied : Implied fields) :
    ((Schema.parse W bytes stem).isOk = true ↔ Resolvable fields) ∧
      (∀ schema, Schema.parse W bytes stem = .ok schema → OrderedBy fields schema.fields ∧
        ∀ runProbe input view l₁ f l₂ st resolved st', schema.fields = l₁ ++ f :: l₂ →
          resolveFields W runProbe input view l₁ ∅ st = (.ok resolved, st') →
            ∀ g ∈ f.refs, g ∈ resolved) ∧
      ∀ entries counts, entries.Perm fields.toList → counts.Perm fields.toList →
        (topoSortIn W entries counts fields).toOption = (topoSort W fields).toOption := by
  have hok := Schema.parse_isOk h
  refine ⟨?_, fun schema hparse => ?_, fun entries counts => topoSortIn_eq⟩
  · rw [hok]
    constructor
    · rintro ⟨hacyclic, hclosed⟩
      exact ⟨hclosed, hacyclic.transGen.mono (himplied hacyclic hclosed)⟩
    · rintro ⟨hclosed, hacyclic⟩
      exact ⟨hacyclic.mono fun a b hab => hab.refers, hclosed⟩
  · obtain ⟨hacyclic, hclosed⟩ := hok.1 (congrArg Except.isOk hparse)
    have hordered := OrderedBy.of_topoSort (fun n f => Schema.name_of_declared h)
      (himplied hacyclic hclosed) (Schema.topoSort_of_parse h hparse)
    refine ⟨hordered, fun runProbe input view l₁ f l₂ st resolved st' hsplit hresolve g hg => ?_⟩
    exact (mem_of_resolveFields hresolve).2 (.inr (hordered.before l₁ f l₂ hsplit g hg))

end Parse

/-! ### Schemas that are accepted -/

/-- A field that the caller provides, or else another one. -/
def demoFallback (from_ : Text) : RawField :=
  .mk "user_provided".toList (some "string".toList) none none none none none none none
    (some (.mk "field".toList none none none none none none (some from_) none none))

/-- A field with a value. -/
def demoConstant : RawField :=
  .mk "constant".toList (some "string".toList) none none (some (.str ['x'])) none none none none
    none

/-- A field derived from another. -/
def demoDerived (from_ : Text) : RawField :=
  .mk "field".toList (some "string".toList) none none none none none (some from_) none none

/-- A world with a schema of the given fields. -/
def schemaWorld (fields : List (Text × RawField)) : World :=
  demoWorld ⟨[("S".toList, ⟨['t'], ["*/*".toList], none, fields⟩)], [], []⟩

/-- The fields that the schema declares. -/
def demoDeclared (fields : List (Text × RawField)) : TextMap Field :=
  (((Schema.declared (schemaWorld fields) (utf8 "S".toList) ['t']).toOption.map Prod.snd).getD ∅)

theorem Schema.declared_demo (fields : List (Text × RawField))
    (h : (Schema.declared (schemaWorld fields) (utf8 "S".toList) ['t']).isOk = true) :
    ∃ raw, Schema.declared (schemaWorld fields) (utf8 "S".toList) ['t'] =
      .ok (raw, demoDeclared fields) := by
  obtain ⟨⟨raw, declared⟩, h⟩ := exists_eq_ok_of_isOk h
  refine ⟨raw, ?_⟩
  rw [demoDeclared, h]
  rfl

theorem Schema.resolved_before_use_demo :
    Resolvable (demoDeclared [(['b'], demoDerived ['a']), (['a'], demoConstant)]) := by
  obtain ⟨raw, h⟩ := Schema.declared_demo [(['b'], demoDerived ['a']), (['a'], demoConstant)]
    (by decide +kernel)
  have hrefs : ∀ p ∈ (demoDeclared [(['b'], demoDerived ['a']), (['a'], demoConstant)]).toList,
      p.2.refs = p.2.from?.toList := by decide +kernel
  have himplied := Implied.of_refs fun n f hf => hrefs (n, f) (TextMap.mem_toList.2 hf)
  exact (Schema.resolved_before_use h himplied).1.1 (by decide +kernel)

/-- **References that are not resolved.**  A fallback refers to a field that comes later; and two
fallbacks refer to each other. -/
theorem Schema.unresolved_read :
    (∃ schema, Schema.parse (schemaWorld [(['b'], demoFallback ['a']), (['a'], demoConstant)])
        (utf8 "S".toList) ['t'] = .ok schema ∧
      ¬ OrderedBy (demoDeclared [(['b'], demoFallback ['a']), (['a'], demoConstant)])
        schema.fields) ∧
    (Schema.parse (schemaWorld [(['a'], demoFallback ['b']), (['b'], demoFallback ['a'])])
        (utf8 "S".toList) ['t']).isOk = true ∧
      ¬ Resolvable (demoDeclared [(['a'], demoFallback ['b']), (['b'], demoFallback ['a'])]) := by
  refine ⟨?_, by decide +kernel, ?_⟩
  · obtain ⟨schema, hschema⟩ := exists_eq_ok_of_isOk (r := Schema.parse (schemaWorld
      [(['b'], demoFallback ['a']), (['a'], demoConstant)]) (utf8 "S".toList) ['t'])
      (by decide +kernel)
    refine ⟨schema, hschema, fun h => ?_⟩
    have hrefs : ((Schema.parse (schemaWorld [(['b'], demoFallback ['a']), (['a'], demoConstant)])
        (utf8 "S".toList) ['t']).toOption.map fun s => s.fields.map Field.refs) =
        some [[['a']], []] := by decide +kernel
    rw [hschema] at hrefs
    -- the first field refers to the second
    have hfirst : schema.fields.map Field.refs = [[['a']], []] := Option.some.inj hrefs
    cases hfields : schema.fields with
    | nil => rw [hfields] at hfirst; cases hfirst
    | cons f l =>
      rw [hfields, List.map_cons] at hfirst
      have hbefore := h.before [] f l hfields ['a'] (by rw [(List.cons.inj hfirst).1]; simp)
      exact List.not_mem_nil hbefore
  · rintro ⟨-, hacyclic⟩
    have hrefs : ∀ p ∈ [((['a'] : Text), (['b'] : Text)), (['b'], ['a'])],
        ((demoDeclared [(['a'], demoFallback ['b']), (['b'], demoFallback ['a'])])[p.1]?).map
          Field.refs = some [p.2] := by decide +kernel
    have hrefers : ∀ a b, (a, b) ∈ [((['a'] : Text), (['b'] : Text)), (['b'], ['a'])] →
        Refers (demoDeclared [(['a'], demoFallback ['b']), (['b'], demoFallback ['a'])]) a b := by
      intro a b hab
      obtain ⟨f, hf, hfrefs⟩ := Option.map_eq_some_iff.1 (hrefs (a, b) hab)
      exact ⟨f, hf, by rw [hfrefs]; simp⟩
    exact hacyclic ['a']
      (.tail (.single (hrefers ['a'] ['b'] (by simp))) (hrefers ['b'] ['a'] (by simp)))

end Omp
