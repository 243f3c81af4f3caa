import Omp.Concrete
import Omp.Settles

/-!
# Schemas and the manifests resolved with them

A schema is looked for in three ways: `add` checks the bytes of a path string of the form
`schemas/<t>/schema.toml`, a commit puts them under the components of the path, and ingest finds
the schemas of HEAD by walking its tree and then takes the bytes of the one it chose from the path
it builds, with the working tree behind both.

As long as every addition to a place of a schema is checked, the three agree: in every state of a
run, what stands at the place of a schema in a commit is a valid schema, and every manifest was
resolved with the schema its hash names.  The check goes by the path string, and the tree by the
components, so that `schemas/t/schema.toml/` is not checked and is put in the same place.

## Main definitions

* `Repo.SchemasValid` : what holds of the commits of a repository.
* `AddRequest.SpellsSchemas` : the additions that are checked, or do not need to be.
* `Repo.Sound` : the invariant.

## Main results

* `Repo.Sound.parse_of_schemaFor` : the schema that ingest chooses is what its bytes parse to.
* `Repo.Sound.step` : a call keeps the invariant, however it ends.
* `Repo.schemas_valid` : the schemas and manifests of the commits in every state of a run.
* `Repo.schema_not_valid` : what an addition with a slash at its end leads to.
-/

namespace Omp

open Lib RepoScript

/-! ### What is claimed -/

variable (W : World)

/-- The fields of a manifest were resolved with a schema. -/
def Manifest.ResolvedWith (m : Manifest) (schema : Schema) : Prop :=
  ∃ (runProbe : RunProbe) (input : IngestInput) (view : TreeView) (cache : ProbeOutputCache),
    view.schema = schema ∧ (ingestWithCache W runProbe input view cache).1 = .ok m

/-- The hash of a manifest is that of bytes that parse to the schema it was resolved with. -/
def Manifest.FromSchema (m : Manifest) : Prop :=
  ∃ (schema : Schema) (schemaBytes : Bytes), m.schemaHash = Omp.schemaHash W schemaBytes ∧
    Schema.parse W schemaBytes schema.fileType = .ok schema ∧ m.ResolvedWith W schema

/-- A manifest that is stored, and comes from a schema. -/
def Store.HasManifest (s : Store) (h : Hash) : Prop :=
  ∃ (o : Object) (m : Manifest), s.get W.toPlatform h = some o ∧ o.type = .manifest ∧
    m.serialize W = .ok o.content ∧ m.FromSchema W

/-- A blob that is stored, and holds a schema of a type. -/
def Store.HasSchema (s : Store) (fileType : Text) (h : Hash) : Prop :=
  ∃ o : Object, s.get W.toPlatform h = some o ∧ o.type = .blob ∧
    (Schema.parse W o.content fileType).isOk = true

/-- In every commit, what there is at the path of a schema is a blob that parses, and what there is
of manifests comes from schemas. -/
structure Repo.SchemasValid (r : Repo) : Prop where
  schemas : ∀ commit root, Repo.commitTree W r.store commit = .ok root → ∀ t : Text, '/' ∉ t →
    ∀ e, getAt W.toPlatform r.store none (Repo.schemaPath t) root = .ok (some e) →
      e.mode = .blob ∧ r.store.HasSchema W t e.hash
  manifests : ∀ commit root, Repo.commitTree W r.store commit = .ok root → ∀ path e,
    getAt W.toPlatform r.store none path root = .ok (some e) → e.mode = .manifest →
      r.store.HasManifest W e.hash

/-! ### The places of schemas -/

/-- The place of a schema in a tree, with what comes below it. -/
def schemaPlace (t : Text) (rest : List Text) : List Text :=
  "schemas".toList :: t :: "schema.toml".toList :: rest

/-- An addition is checked where it is put at the place of a schema: its path is the one that is
looked for, or it is a schema all the same.  Its names are ones a tree keeps. -/
def AddRequest.SpellsSchemas (req : AddRequest) : Prop :=
  ∀ parts, split W.toPlatform req.path = .ok parts → (∀ n ∈ parts, CleanName n) ∧
    ∀ t rest, parts = schemaPlace t rest → req.path = Repo.schemaPath t ∨
      rest = [] ∧ (Schema.parse W req.bytes t).isOk = true

section Places

variable {P : Platform}

/-- The components of a path without slashes at its ends. -/
theorem parts_of_split {path : Text} {parts : List Text} (hne : path ≠ [])
    (hhead : path.head? ≠ some '/') (hlast : path.getLast? ≠ some '/')
    (h : split P path = .ok parts) : parts = path.splitOn '/' := by
  rw [split, trimMatches_eq_self hhead hlast, if_neg hne] at h
  dsimp only at h
  split_ifs at h
  exact (Except.ok.inj h).symm

theorem schemaPath_append (t : Text) :
    Repo.schemaPath t = "schemas/".toList ++ t ++ "/schema.toml".toList := rfl

theorem schemaPath_eq (t : Text) : Repo.schemaPath t =
    "schemas".toList ++ '/' :: (t ++ '/' :: "schema.toml".toList) := by
  have hdir : "schemas/".toList = "schemas".toList ++ ['/'] := by decide +kernel
  have hfile : "/schema.toml".toList = '/' :: "schema.toml".toList := by decide +kernel
  rw [schemaPath_append, hdir, hfile, List.append_assoc, List.append_assoc, List.singleton_append]

theorem splitOn_schemaPath {t : Text} (ht : '/' ∉ t) :
    (Repo.schemaPath t).splitOn '/' = schemaPlace t [] := by
  rw [schemaPath_eq, splitOn_append_cons (by decide +kernel), splitOn_append_cons ht,
    splitOn_of_not_mem (by decide +kernel)]
  rfl

theorem parts_of_schemaPath {t : Text} (ht : '/' ∉ t) {parts : List Text}
    (h : split P (Repo.schemaPath t) = .ok parts) : parts = schemaPlace t [] := by
  have hhead : (Repo.schemaPath t).head? = some 's' := by
    rw [schemaPath_eq, List.head?_append_of_ne_nil _ (by decide +kernel)]
    decide +kernel
  have hlast : (Repo.schemaPath t).getLast? = some 'l' := by
    rw [schemaPath_append, List.getLast?_append_of_ne_nil _ (by decide +kernel)]
    decide +kernel
  have hne : Repo.schemaPath t ≠ [] := fun hnil => by
    rw [hnil] at hhead
    cases hhead
  rw [← splitOn_schemaPath ht]
  exact parts_of_split hne (by rw [hhead]; decide) (by rw [hlast]; decide) h

theorem slash_not_mem_of_schemaPlace {path t : Text} {rest : List Text}
    (h : split P path = .ok (schemaPlace t rest)) : '/' ∉ t :=
  (of_mem_split h (List.mem_cons_of_mem _ List.mem_cons_self)).1

/-- A path starts with its first component and a slash, if it has two. -/
theorem isPrefix_of_split {path a b : Text} {parts : List Text} (hhead : path.head? ≠ some '/')
    (h : split P path = .ok (a :: b :: parts)) : a ++ ['/'] <+: path := by
  have hdrop : path.dropWhile (· == '/') = path := by
    cases path with
    | nil => rfl
    | cons c path =>
      have hc : c ≠ '/' := fun hc => hhead (by rw [hc]; rfl)
      simp [hc]
  rw [split, trimMatches, hdrop] at h
  dsimp only at h
  split_ifs at h
  · cases h
  · have hjoin := joinWith_splitOn '/' (path.rdropWhile (· == '/'))
    rw [Except.ok.inj h, joinWith_cons_cons] at hjoin
    refine List.IsPrefix.trans ?_ (List.rdropWhile_prefix (· == '/') path)
    rw [← hjoin]
    exact ⟨joinWith '/' (b :: parts), by simp⟩

end Places

section Stems

/-- The name of a schema's file below `schemas`. -/
theorem eq_of_treeName {name stem : Text} (h : Repo.schemaFileTypeFromTreeName name = some stem) :
    name = stem ++ "/schema.toml".toList ∧ stem ≠ [] ∧ '/' ∉ stem := by
  unfold Repo.schemaFileTypeFromTreeName stripSuffix at h
  split_ifs at h with hsuffix
  · obtain ⟨pre, rfl⟩ := hsuffix
    simp only [List.length_append, Nat.add_sub_cancel, List.take_left, Option.bind_eq_bind,
      Option.bind_some] at h
    split_ifs at h with hbad
    · rw [not_or] at hbad
      cases h
      exact ⟨rfl, hbad⟩
  · cases h

theorem treeName_of_stem {stem : Text} (hne : stem ≠ []) (hslash : '/' ∉ stem) :
    Repo.schemaFileTypeFromTreeName (stem ++ "/schema.toml".toList) = some stem := by
  unfold Repo.schemaFileTypeFromTreeName stripSuffix
  rw [if_pos (List.suffix_append _ _)]
  simp [hne, hslash]

theorem fileTypeFromPath_schemaPath {t : Text} (hne : t ≠ []) (hslash : '/' ∉ t) :
    Repo.schemaFileTypeFromPath (Repo.schemaPath t) = some t := by
  unfold Repo.schemaFileTypeFromPath
  rw [schemaPath_append, List.append_assoc, stripPrefix_append]
  exact treeName_of_stem hne hslash

/-- The type of a schema is the one it was parsed for. -/
theorem fileType_of_parse {W : World} {bytes : Bytes} {stem : Text} {schema : Schema}
    (h : Schema.parse W bytes stem = .ok schema) : schema.fileType = stem := by
  unfold Schema.parse at h
  split at h
  · cases h
  · split at h
    · cases h
    · split_ifs at h with htype
      obtain ⟨converted, -, h⟩ := except_bind_eq_ok.1 h
      obtain ⟨ordered, -, h⟩ := except_bind_eq_ok.1 h
      obtain ⟨-, -, h⟩ := except_bind_eq_ok.1 h
      cases h
      exact not_not.1 htype

end Stems

/-! ### The invariant -/

/-- What may stand at a path of a tree: at the place of a schema nothing but a blob that parses,
with nothing below it, and of manifests only such as come from schemas. -/
structure Admits (s : Store) (q : List Text) (e : Entry) : Prop where
  schema : ∀ t rest, q = schemaPlace t rest →
    rest = [] ∧ e.mode = .blob ∧ s.HasSchema W t e.hash
  manifest : e.mode = .manifest → s.HasManifest W e.hash

/-- A staged change that can be made, and that writes only what may stand there. -/
structure Admitted (s : Store) (c : StagedChange) : Prop where
  applicable : Applicable W.toPlatform s none c
  admits : ∀ e, (edit W.toPlatform s c).2 = some e → Admits W s (edit W.toPlatform s c).1 e

/-- A tree with a leaf map, in which only what may stand there stands. -/
def GoodTree (s : Store) (root : Hash) (L : Leaves Text Entry) : Prop :=
  RootAt W.toPlatform s none True True (some root) L ∧ ∀ q e, L q = some e → Admits W s q e

/-- What is staged can be put into any good tree. -/
def GoodIndex (s : Store) (idx : Index) : Prop :=
  ∀ (path : Text) c, idx[path]? = some c → Admitted W s c

/-- **The invariant.**  The commits that are stored have good trees, the manifests come from
schemas, and what is staged can be put into any good tree. -/
structure Repo.Sound (r : Repo) : Prop where
  trees : ∀ o ∈ r.store.objects, o.type = .commit →
    ∃ root L, (∀ h, treeHeader W.toPlatform h o.content = .ok root) ∧ GoodTree W r.store root L
  manifests : ∀ o ∈ r.store.objects, o.type = .manifest →
    ∃ m : Manifest, m.serialize W = .ok o.content ∧ m.FromSchema W
  staged : GoodIndex W r.store r.index

/-- The store grows by objects that are no commits, and by manifests that come from schemas. -/
structure Store.Grows (s s' : Store) : Prop where
  le : s ≤ s'
  fresh : ∀ o ∈ s'.objects, o ∈ s.objects ∨ o.type ≠ .commit ∧ (o.type = .manifest →
    ∃ m : Manifest, m.serialize W = .ok o.content ∧ m.FromSchema W)

section Invariant

variable {W} {s s' : Store}

theorem Store.HasSchema.mono (hle : s ≤ s') {t : Text} {h : Hash} (hs : s.HasSchema W t h) :
    s'.HasSchema W t h := by
  obtain ⟨o, hget, htype, hparse⟩ := hs
  exact ⟨o, Store.get_mono hle hget, htype, hparse⟩

theorem Store.HasManifest.mono (hle : s ≤ s') {h : Hash} (hs : s.HasManifest W h) :
    s'.HasManifest W h := by
  obtain ⟨o, m, hget, htype, hm⟩ := hs
  exact ⟨o, m, Store.get_mono hle hget, htype, hm⟩

theorem Admits.mono (hle : s ≤ s') {q : List Text} {e : Entry} (h : Admits W s q e) :
    Admits W s' q e := by
  refine ⟨fun t rest hq => ?_, fun hmode => (h.manifest hmode).mono hle⟩
  obtain ⟨hrest, hmode, hs⟩ := h.schema t rest hq
  exact ⟨hrest, hmode, hs.mono hle⟩

theorem Admitted.mono (hle : s ≤ s') {c : StagedChange} (hc : Admitted W s c) :
    Admitted W s' c := by
  refine ⟨hc.applicable.mono hle, fun e he => ?_⟩
  rw [hc.applicable.edit_eq hle] at he ⊢
  exact (hc.admits e he).mono hle

theorem GoodTree.mono (hle : s ≤ s') {root : Hash} {L : Leaves Text Entry}
    (h : GoodTree W s root L) : GoodTree W s' root L :=
  ⟨h.1.mono hle, fun q e hq => (h.2 q e hq).mono hle⟩

theorem GoodIndex.mono (hle : s ≤ s') {idx : Index} (h : GoodIndex W s idx) :
    GoodIndex W s' idx :=
  fun path c hget => (h path c hget).mono hle

theorem GoodIndex.insert {idx : Index} (h : GoodIndex W s idx) {c : StagedChange}
    (hc : Admitted W s c) (path : Text) : GoodIndex W s (idx.insert path c) := by
  intro path' c' hget
  rw [TextMap.getElem?_insert] at hget
  split_ifs at hget
  · cases hget
    exact hc
  · exact h path' c' hget

instance : Std.Refl (Store.Grows W) := ⟨fun s => ⟨le_refl s, fun _ ho => .inl ho⟩⟩

instance : IsTrans Store (Store.Grows W) := by
  refine ⟨fun s₁ s₂ s₃ h₁ h₂ => ⟨h₁.le.trans h₂.le, fun o ho => ?_⟩⟩
  rcases h₂.fresh o ho with ho | ho
  · exact h₁.fresh o ho
  · exact .inr ho

theorem Store.Grows.of_put {type : ObjectType} {content : Bytes} (hcommit : type ≠ .commit)
    (hmanifest : type = .manifest →
      ∃ m : Manifest, m.serialize W = .ok content ∧ m.FromSchema W) :
    (Store.put W.toPlatform type content).Keeps (Store.Grows W) := by
  intro s
  rw [Store.run_put]
  refine ⟨⟨_, rfl⟩, fun o ho => ?_⟩
  rcases List.mem_append.1 ho with ho | ho
  · exact .inl ho
  · cases List.mem_singleton.1 ho
    exact .inr ⟨hcommit, hmanifest⟩

namespace Repo

variable {r : Repo}

theorem sound_init : Repo.init.Sound W where
  trees o ho := absurd ho List.not_mem_nil
  manifests o ho := absurd ho List.not_mem_nil
  staged path c hget := by
    rw [Repo.init, Std.ExtTreeMap.getElem?_empty] at hget
    cases hget

theorem Sound.grow (hr : r.Sound W) (h : r.store.Grows W s') :
    ({ r with store := s' } : Repo).Sound W where
  trees o ho htype := by
    obtain ⟨root, L, hheader, hL⟩ :=
      hr.trees o ((h.fresh o ho).resolve_right fun hnew => hnew.1 htype) htype
    exact ⟨root, L, hheader, hL.mono h.le⟩
  manifests o ho htype := by
    rcases h.fresh o ho with ho | hnew
    · exact hr.manifests o ho htype
    · exact hnew.2 htype
  staged := hr.staged.mono h.le

/-- The tree of a commit that is read is good. -/
theorem Sound.goodTree (hr : r.Sound W) {commit root : Hash}
    (h : commitTree W r.store commit = .ok root) : ∃ L, GoodTree W r.store root L := by
  obtain ⟨content, hget, hheader⟩ := except_bind_eq_ok.1 h
  obtain ⟨o, hstored, htype, rfl⟩ := exists_of_getCommit hget
  obtain ⟨root', L, hheader', hL⟩ := hr.trees o (Cas.find_eq_some hstored).1 htype
  rw [hheader' commit] at hheader
  cases hheader
  exact ⟨L, hL⟩

/-- HEAD's tree is missing or good. -/
theorem Sound.headTree (hr : r.Sound W) {o : Option Hash} (h : r.headTree W = .ok o) :
    ∀ root ∈ o, ∃ L, GoodTree W r.store root L := by
  obtain ⟨commit, hcommit, h⟩ := except_bind_eq_ok.1 h
  rintro root hroot
  cases commit with
  | none =>
    cases h
    cases hroot
  | some commit =>
    obtain ⟨root', htree, h⟩ := except_bind_eq_ok.1 h
    cases h
    cases hroot
    exact hr.goodTree htree

/-- **What the invariant is for.** -/
theorem Sound.schemasValid (hr : r.Sound W) : r.SchemasValid W := by
  refine ⟨fun commit root hroot t ht e he => ?_, fun commit root hroot path e he hmode => ?_⟩
  · obtain ⟨L, hL, hadmits⟩ := hr.goodTree hroot
    obtain ⟨parts, hsplit⟩ : ∃ parts, split W.toPlatform (schemaPath t) = .ok parts := by
      obtain ⟨parts, hsplit, -⟩ := except_bind_eq_ok.1 he
      exact ⟨parts, hsplit⟩
    cases parts_of_schemaPath ht hsplit
    obtain ⟨found, hfound, hreads⟩ := getAt_spec hsplit (List.cons_ne_nil _ _) hL.1
    rw [he] at hfound
    cases hfound
    by_cases htree : e.mode = .tree
    · -- a directory has a leaf below it, at which nothing may stand
      rw [Reads, if_pos htree] at hreads
      obtain ⟨q, hq⟩ := hreads.2 trivial
      obtain ⟨l, hl⟩ := Option.ne_none_iff_exists'.1 hq
      obtain ⟨hnil, -⟩ := (hadmits _ l hl).schema t q rfl
      subst hnil
      exact absurd hreads.1.nil hq
    · have hleaf := (hadmits _ e ((hreads.leaf_iff).2 ⟨rfl, htree⟩)).schema t [] rfl
      exact hleaf.2
  · obtain ⟨L, hL, hadmits⟩ := hr.goodTree hroot
    obtain ⟨parts, hsplit, hrest⟩ := except_bind_eq_ok.1 he
    have hne : parts ≠ [] := by
      rintro rfl
      cases hrest
      cases hmode
    obtain ⟨found, hfound, hreads⟩ := getAt_spec hsplit hne hL.1
    rw [he] at hfound
    cases hfound
    exact (hadmits _ e ((hreads.leaf_iff).2 ⟨rfl, by rw [hmode]; decide⟩)).manifest hmode

end Repo

end Invariant

/-! ### What ingest loads -/

section Lookup

variable {W} {s : Store} {root : Hash} {L : Leaves Text Entry}

/-- The schema in a leaf of the `schemas` directory. -/
theorem schemaOfLeaf_eq_some {leaf : Text × Entry} {schema : Schema} :
    Repo.schemaOfLeaf W s leaf = some schema ↔ leaf.2.mode = .blob ∧ ∃ stem o,
      Repo.schemaFileTypeFromTreeName leaf.1 = some stem ∧
      s.get W.toPlatform leaf.2.hash = some o ∧ Schema.parse W o.content stem = .ok schema := by
  unfold Repo.schemaOfLeaf
  by_cases hmode : leaf.2.mode = .blob
  · simp only [hmode, ne_eq, not_true, if_false, true_and, Option.bind_eq_bind,
      Option.bind_eq_some_iff]
    refine exists_congr fun stem => ?_
    constructor
    · rintro ⟨hstem, o, ho, hparse⟩
      exact ⟨o, hstem, ho, toOption_eq_some.1 hparse⟩
    · rintro ⟨o, hstem, ho, hparse⟩
      exact ⟨hstem, o, ho, toOption_eq_some.2 hparse⟩
  · simp [hmode]

theorem splitOn_treeName {stem : Text} (hslash : '/' ∉ stem) :
    (stem ++ "/schema.toml".toList).splitOn '/' = [stem, "schema.toml".toList] := by
  have hfile : "/schema.toml".toList = '/' :: "schema.toml".toList := by decide +kernel
  rw [hfile, splitOn_append_cons hslash, splitOn_of_not_mem (by decide +kernel)]

/-- **The schemas of a good tree**: one for each place, read from the blob that stands there. -/
theorem mem_treeSchemas_iff (hL : GoodTree W s root L) {schemas : List Schema}
    (h : Repo.treeSchemas W s root = .ok schemas) {schema : Schema} :
    schema ∈ schemas ↔ ∃ e o, L (schemaPlace schema.fileType []) = some e ∧
      s.get W.toPlatform e.hash = some o ∧
      Schema.parse W o.content schema.fileType = .ok schema := by
  obtain ⟨found, hfound, h⟩ := except_bind_eq_ok.1 h
  obtain ⟨found', hfound', hreads⟩ :=
    getAt_spec (split_schemas W.toPlatform) (List.cons_ne_nil _ _) hL.1.1
  cases (mapError_eq_ok.1 hfound).symm.trans hfound'
  have hpre : ["schemas".toList] <+: schemaPlace schema.fileType [] := ⟨_, rfl⟩
  -- without a directory there is neither a schema nor a place for one
  have hnone : L (schemaPlace schema.fileType []) = none → schemas = [] →
      (schema ∈ schemas ↔ ∃ e o, L (schemaPlace schema.fileType []) = some e ∧
        s.get W.toPlatform e.hash = some o ∧
        Schema.parse W o.content schema.fileType = .ok schema) := by
    rintro hnone rfl
    simp [hnone]
  rcases found with _ | ⟨mode, subtree⟩
  · exact hnone (hreads _ hpre) (Except.ok.inj h).symm
  · by_cases hmode : mode = .tree
    · subst hmode
      obtain ⟨leaves, hwalk, h⟩ := except_bind_eq_ok.1 h
      cases h
      rw [Reads, if_pos rfl] at hreads
      rw [List.mem_filterMap]
      constructor
      · rintro ⟨⟨path, e⟩, hmem, hleaf⟩
        obtain ⟨q, hq, rfl, hsplit⟩ := (mem_walk_iff hreads.1 hwalk).1 hmem
        obtain ⟨-, stem, o, hstem, hget, hparse⟩ := schemaOfLeaf_eq_some.1 hleaf
        obtain ⟨hpath, hne, hslash⟩ := eq_of_treeName hstem
        obtain rfl : q = [stem, "schema.toml".toList] := by
          rw [show joinWith '/' q = _ from hpath] at hsplit
          rw [← splitOn_treeName hslash]
          refine parts_of_split (by simp [hne]) ?_ ?_ hsplit
          · rw [List.head?_append_of_ne_nil _ hne]
            exact fun hhead => hslash (List.mem_of_head? hhead)
          · rw [List.getLast?_append_of_ne_nil _ (by decide +kernel)]
            decide +kernel
        obtain rfl := fileType_of_parse hparse
        exact ⟨e, o, hq, hget, hparse⟩
      · rintro ⟨e, o, hq, hget, hparse⟩
        have hvalid := hL.1.1.validName (q := schemaPlace schema.fileType []) (by rw [hq]; simp)
        obtain ⟨hne, hslash, -⟩ := hvalid _ (List.mem_cons_of_mem _ List.mem_cons_self)
        have hrest : ∀ n ∈ [schema.fileType, "schema.toml".toList], ValidName n :=
          fun n hn => hvalid n (List.mem_cons_of_mem _ hn)
        refine ⟨_, (mem_walk_iff hreads.1 hwalk).2 ⟨_, hq, rfl, split_joinWith hrest⟩, ?_⟩
        have hfile : "/schema.toml".toList = '/' :: "schema.toml".toList := by decide +kernel
        rw [schemaOfLeaf_eq_some, joinWith_cons_cons, joinWith_singleton, ← hfile]
        exact ⟨((hL.2 _ e hq).schema _ _ rfl).2.1, _, o, treeName_of_stem hne hslash, hget, hparse⟩
    · -- a leaf at `schemas` has nothing below it
      have hleaf : L ["schemas".toList] ≠ none := by
        rw [Reads, if_neg hmode] at hreads
        rw [hreads]
        exact Option.some_ne_none _
      refine hnone ?_ ?_
      · by_contra hplace
        have heq := hL.1.1.prefixFree _ _ hpre hleaf hplace
        exact absurd (List.cons.inj heq).2 (by simp)
      · cases mode with
        | tree => exact absurd rfl hmode
        | blob => exact (Except.ok.inj h).symm
        | manifest => exact (Except.ok.inj h).symm

theorem of_foldl_insert {schemas : List Schema} {m : TextMap Schema} {t : Text} {schema : Schema}
    (h : (schemas.foldl (fun m s => m.insert s.fileType s) m)[t]? = some schema) :
    m[t]? = some schema ∨ schema ∈ schemas ∧ schema.fileType = t := by
  induction schemas generalizing m with
  | nil => exact .inl h
  | cons s schemas ih =>
    rcases ih h with h | ⟨hmem, htype⟩
    · rw [TextMap.getElem?_insert] at h
      split_ifs at h with heq
      · cases h
        exact .inr ⟨List.mem_cons_self, heq⟩
      · exact .inl h
    · exact .inr ⟨List.mem_cons_of_mem _ hmem, htype⟩

theorem ne_none_of_foldl_insert {schemas : List Schema} {m : TextMap Schema} {t : Text}
    (h : m[t]? ≠ none ∨ ∃ s ∈ schemas, s.fileType = t) :
    (schemas.foldl (fun m s => m.insert s.fileType s) m)[t]? ≠ none := by
  induction schemas generalizing m with
  | nil => exact h.resolve_right (by simp)
  | cons s schemas ih =>
    refine ih ?_
    rw [TextMap.getElem?_insert]
    split_ifs with heq
    · exact .inl (by simp)
    · refine h.imp_right fun ⟨s', hmem, htype⟩ => ?_
      rcases List.mem_cons.1 hmem with rfl | hmem
      · exact absurd htype heq
      · exact ⟨s', hmem, htype⟩

theorem of_foldl_keep {schemas : List Schema} {m : TextMap Schema} {t : Text} {schema : Schema}
    (h : (schemas.foldl (fun m s => if m.contains s.fileType then m else m.insert s.fileType s)
      m)[t]? = some schema) :
    m[t]? = some schema ∨ m[t]? = none ∧ schema ∈ schemas ∧ schema.fileType = t := by
  induction schemas generalizing m with
  | nil => exact .inl h
  | cons s schemas ih =>
    rw [List.foldl_cons] at h
    split_ifs at h with hold
    · rcases ih h with h | ⟨hnone, hmem, htype⟩
      · exact .inl h
      · exact .inr ⟨hnone, List.mem_cons_of_mem _ hmem, htype⟩
    · rcases ih h with h | ⟨hnone, hmem, htype⟩
      · rw [TextMap.getElem?_insert] at h
        split_ifs at h with heq
        · cases h
          subst heq
          refine .inr ⟨?_, List.mem_cons_self, rfl⟩
          exact Std.ExtTreeMap.getElem?_eq_none (by simpa using hold)
        · exact .inl h
      · rw [TextMap.getElem?_insert] at hnone
        split_ifs at hnone
        exact .inr ⟨hnone, List.mem_cons_of_mem _ hmem, htype⟩

/-- A schema of the working tree is in the file of its type. -/
theorem of_mem_workSchemas {env : Env} {schema : Schema} (h : schema ∈ Repo.workSchemas W env) :
    schema.fileType ∈ env.schemaDirs ∧ ∃ bytes,
      env.workFile (Repo.schemaPath schema.fileType) = some bytes ∧
      Schema.parse W bytes schema.fileType = .ok schema := by
  obtain ⟨stem, hdir, h⟩ := List.mem_filterMap.1 h
  obtain ⟨bytes, hbytes, hparse⟩ := Option.bind_eq_some_iff.1 h
  rw [toOption_eq_some] at hparse
  obtain rfl := fileType_of_parse hparse
  exact ⟨hdir, bytes, hbytes, hparse⟩

/-- The blob at a path of a good tree. -/
theorem blobAt_eq_ok (hL : GoodTree W s root L) {path : Text} {parts : List Text}
    (hsplit : split W.toPlatform path = .ok parts) (hne : parts ≠ []) {o : Option Bytes}
    (h : Repo.blobAt W s root path = .ok o) :
    (∃ e, L parts = some e ∧ e.mode = .blob ∧ o = (s.get W.toPlatform e.hash).map Object.content) ∨
      (∀ e, L parts = some e → e.mode ≠ .blob) ∧ o = none := by
  obtain ⟨found, hfound, h⟩ := except_bind_eq_ok.1 h
  obtain ⟨found', hfound', hreads⟩ := getAt_spec hsplit hne hL.1.1
  cases hfound.symm.trans hfound'
  rcases found with _ | ⟨mode, hash⟩
  · refine .inr ⟨fun e he => ?_, (Except.ok.inj h).symm⟩
    rw [hreads parts List.prefix_rfl] at he
    cases he
  · cases mode with
    | blob => exact .inl ⟨_, hreads.leaf_iff.2 ⟨rfl, nofun⟩, rfl, (Except.ok.inj h).symm⟩
    | tree | manifest =>
      refine .inr ⟨fun e he hmode => ?_, (Except.ok.inj h).symm⟩
      obtain ⟨heq, -⟩ := hreads.leaf_iff.1 he
      cases heq
      cases hmode

namespace Repo

variable {env : Env} {r : Repo}

/-- **The three lookups agree.**  A schema that is loaded is what the bytes that are found for its
type parse to. -/
theorem Sound.parse_of_loaded (hr : r.Sound W) (hdirs : ∀ d ∈ env.schemaDirs, '/' ∉ d)
    {schemas : TextMap Schema} (hload : r.loadAllSchemas W env = .ok schemas) {t : Text}
    {schema : Schema} (hget : schemas[t]? = some schema) {bytes : Bytes}
    (hbytes : r.schemaBytesAtHead W env schema.fileType = .ok (some bytes)) :
    schema.fileType = t ∧ Schema.parse W bytes schema.fileType = .ok schema := by
  obtain ⟨head, hhead, hload⟩ := except_bind_eq_ok.1 hload
  rw [mapError_eq_ok] at hhead
  obtain ⟨head', hhead', hbytes⟩ := except_bind_eq_ok.1 hbytes
  cases hhead.symm.trans hhead'
  cases head with
  | none =>
    cases hload
    have hbytes : (none : Option Bytes).or (env.workFile _) = some bytes := Except.ok.inj hbytes
    rcases of_foldl_keep hget with h | ⟨-, hmem, htype⟩
    · simp at h
    · obtain ⟨-, bytes', hfile, hparse⟩ := of_mem_workSchemas hmem
      rw [Option.none_or, hfile] at hbytes
      cases hbytes
      exact ⟨htype, hparse⟩
  | some root =>
    obtain ⟨committed, hcommitted, hload⟩ := except_bind_eq_ok.1 hload
    cases hload
    obtain ⟨blob, hblob, hbytes⟩ := except_bind_eq_ok.1 hbytes
    rw [Except.ok.injEq] at hbytes
    obtain ⟨L, hL⟩ := hr.headTree hhead root rfl
    have hplace : '/' ∉ schema.fileType → split W.toPlatform (schemaPath schema.fileType) =
        .ok (schemaPlace schema.fileType []) := by
      intro hslash
      obtain ⟨found, hfound, -⟩ := except_bind_eq_ok.1 hblob
      obtain ⟨parts, hsplit, -⟩ := except_bind_eq_ok.1 hfound
      rw [hsplit, parts_of_schemaPath hslash hsplit]
    rcases of_foldl_keep hget with h | ⟨hnone, hmem, htype⟩
    · -- a schema of HEAD's tree: its blob comes first
      obtain ⟨hmem, htype⟩ := (of_foldl_insert h).resolve_left (by simp)
      refine ⟨htype, ?_⟩
      obtain ⟨e, o, he, ho, hparse⟩ := (mem_treeSchemas_iff hL hcommitted).1 hmem
      have hslash : '/' ∉ schema.fileType :=
        (hL.1.1.validName (q := schemaPlace schema.fileType []) (by rw [he]; nofun) _
          (List.mem_cons_of_mem _ List.mem_cons_self)).2.1
      rcases blobAt_eq_ok hL (hplace hslash) (List.cons_ne_nil _ _) hblob with
        ⟨e', he', -, rfl⟩ | ⟨hnot, -⟩
      · cases he.symm.trans he'
        rw [ho, Option.map_some, Option.some_or] at hbytes
        cases hbytes
        exact hparse
      · exact absurd ((hL.2 _ e he).schema _ _ rfl).2.1 (hnot e he)
    · -- one of the working tree: HEAD's tree has none of its type, and so no blob in its place
      refine ⟨htype, ?_⟩
      obtain ⟨hdir, bytes', hfile, hparse⟩ := of_mem_workSchemas hmem
      rcases blobAt_eq_ok hL (hplace (hdirs _ hdir)) (List.cons_ne_nil _ _) hblob with
        ⟨e, he, -, -⟩ | ⟨-, rfl⟩
      · obtain ⟨-, -, o, ho, -, hok⟩ := (hL.2 _ e he).schema _ _ rfl
        obtain ⟨schema', hparse'⟩ := exists_eq_ok_of_isOk hok
        have htype' := fileType_of_parse hparse'
        have hmem' : schema' ∈ committed :=
          (mem_treeSchemas_iff hL hcommitted).2 ⟨e, o, by rw [htype']; exact he, ho, by
            rw [htype']; exact hparse'⟩
        exact absurd hnone (ne_none_of_foldl_insert (.inr ⟨schema', hmem', htype'.trans htype⟩))
      · rw [Option.none_or, hfile] at hbytes
        cases hbytes
        exact hparse

/-- **The schema that ingest chooses is what its bytes parse to.** -/
theorem Sound.parse_of_schemaFor (hr : r.Sound W) (hdirs : ∀ d ∈ env.schemaDirs, '/' ∉ d)
    {config : RepoConfig} {fileTypeOverride : Option Text} {mime : Text} {schema : Schema}
    {bytes : Bytes}
    (h : r.schemaFor W env config fileTypeOverride mime = .ok (schema, bytes)) :
    Schema.parse W bytes schema.fileType = .ok schema := by
  obtain ⟨schemas, hload, h⟩ := except_bind_eq_ok.1 h
  cases hdetect : detectFileType fileTypeOverride mime schemas with
  | some found =>
    rw [hdetect] at h
    obtain ⟨bytes', hbytes, h⟩ := except_bind_eq_ok.1 h
    rw [mapError_eq_ok] at hbytes
    cases bytes' with
    | none => cases h
    | some bytes' =>
      cases h
      obtain ⟨t, hget⟩ : ∃ t : Text, schemas[t]? = some schema := by
        unfold detectFileType at hdetect
        cases fileTypeOverride with
        | some t => exact ⟨t, hdetect⟩
        | none =>
          obtain ⟨⟨t, found⟩, hmem, rfl⟩ := List.mem_map.1 (List.mem_of_find?_eq_some hdetect)
          exact ⟨t, TextMap.mem_toList.1 hmem⟩
      exact (hr.parse_of_loaded hdirs hload hget hbytes).2
  | none =>
    rw [hdetect] at h
    cases hpolicy : config.defaultSchemaPolicy with
    | reject =>
      rw [hpolicy] at h
      cases h
    | minimal =>
      rw [hpolicy] at h
      obtain ⟨schema', hparse, h⟩ := except_bind_eq_ok.1 h
      obtain ⟨rfl, rfl⟩ := Prod.mk.inj (Except.ok.inj h)
      have hparse : Schema.parse W minimalSchema "_minimal".toList = .ok schema' :=
        mapError_eq_ok.1 hparse
      exact (fileType_of_parse hparse).symm ▸ hparse

end Repo

/-- What is ingested comes from the schema of the view. -/
theorem fromSchema_of_ingest {runProbe : RunProbe} {input : IngestInput} {view : TreeView}
    {cache : ProbeOutputCache} {m : Manifest}
    (h : (ingestWithCache W runProbe input view cache).1 = .ok m)
    (hview : Schema.parse W view.schemaBlob view.schema.fileType = .ok view.schema) :
    m.FromSchema W := by
  refine ⟨view.schema, view.schemaBlob, ?_, hview, runProbe, input, view, cache, rfl, h⟩
  unfold ingestWithCache at h
  split at h
  · cases h
  · split at h
    · cases h
    · cases h
      rfl

/-- **A manifest that is built comes from a schema.** -/
theorem Repo.Sound.fromSchema {env : Env} {r : Repo} (hr : r.Sound W)
    (hdirs : ∀ d ∈ env.schemaDirs, '/' ∉ d) {path : Text} {bytes : Bytes} {userFields : Fields}
    {fileTypeOverride : Option Text} {chunked : Option ChunkedIngest} {m : Manifest}
    (h : r.buildManifestWith W env path bytes userFields fileTypeOverride chunked = .ok m) :
    m.FromSchema W := by
  obtain ⟨config, -, h⟩ := except_bind_eq_ok.1 h
  obtain ⟨⟨schema, schemaBytes⟩, hschema, h⟩ := except_bind_eq_ok.1 h
  obtain ⟨probes, -, h⟩ := except_bind_eq_ok.1 h
  obtain ⟨-, -, h⟩ := except_bind_eq_ok.1 h
  exact fromSchema_of_ingest (mapError_eq_ok.1 h) (hr.parse_of_schemaFor hdirs hschema)

end Lookup

/-! ### Scripts that keep the invariant -/

/-- A script leaves a repository that keeps to the invariant however it ends, and `K` holds if it
succeeds. -/
abbrev Ends {α : Type} (t : RepoScript α) (r : Repo) (K : α → Repo → Prop) : Prop :=
  (t.run (Action.op W)).Ensures (fun r => r.store.CollisionFree W.toPlatform) r (Repo.Sound W) K

section Rules

variable {W} {α β : Type} {r : Repo} {K : α → Repo → Prop}

theorem Ends.bind {t : RepoScript β} {f : β → RepoScript α}
    (h : Ends W t r fun b r' => Ends W (f b) r' K) : Ends W (t >>= f) r K :=
  Settles.bind h

theorem Ends.pure {a : α} (h : K a r) : Ends W (pure a) r K := Op.Ensures.pure h

theorem Ends.inspect (hr : r.Sound W) {f : Repo → Except (Fault OmpError) α}
    (hK : ∀ a, f r = .ok a → K a r) : Ends W (inspect f) r K :=
  Settles.inspect hr hK

theorem Ends.check (hr : r.Sound W) {f : Repo → Except OmpError α}
    (hK : ∀ a, f r = .ok a → K a r) : Ends W (check f) r K :=
  Settles.check hr hK

theorem Ends.require (hr : r.Sound W) {x : Except OmpError α}
    (hK : ∀ a, x = .ok a → K a r) : Ends W (require x) r K :=
  Settles.require hr hK

theorem Ends.objects {x : StoreOp α}
    (h : x.Ensures (fun s => s.CollisionFree W.toPlatform) r.store
      (fun s' => ({ r with store := s' } : Repo).Sound W) fun a s' => K a { r with store := s' }) :
    Ends W (.act (.objects x)) r K :=
  Settles.objects h

/-- **Storing an object** that is no commit. -/
theorem Ends.put {type : ObjectType} {content : Bytes}
    {K : Hash → Repo → Prop} (hcommit : type ≠ .commit)
    (hmanifest : type = .manifest →
      ∃ m : Manifest, m.serialize W = .ok content ∧ m.FromSchema W)
    (hK : ∀ s', r.store.Grows W s' →
      s'.get W.toPlatform (hashOf W.toPlatform type content) = some ⟨type, content⟩ →
      K (hashOf W.toPlatform type content) { r with store := s' }) :
    Ends W (put W type content) r K := by
  refine Settles.put fun s' hs' hget => hK s' ?_ hget
  have hgrows := Store.Grows.of_put hcommit hmanifest r.store
  rwa [Store.run_put, ← hs'] at hgrows

theorem Ends.loadIndex (hr : r.Sound W) {K : Index → Repo → Prop} (h : K r.index r) :
    Ends W (.act .loadIndex) r K :=
  Settles.loadIndex hr h

theorem Ends.lockRefs {K : Unit → Repo → Prop} (h : K () r) : Ends W (.act .lockRefs) r K :=
  Settles.lockRefs h

theorem Ends.saveIndex {K : Unit → Repo → Prop} {idx : Index} (h : K () { r with index := idx }) :
    Ends W (.act (.saveIndex idx)) r K :=
  Settles.saveIndex h

theorem Ends.writeHead {K : Unit → Repo → Prop} {value : Text}
    (h : K () { r with head := value }) : Ends W (.act (.writeHead value)) r K :=
  Settles.writeHead h

theorem Ends.writeRef (hr : r.Sound W) {K : Unit → Repo → Prop} {name : Text} {commit : Hash}
    (h : ∀ path, K () { r with refs := r.refs.insert path commit }) :
    Ends W (.act (.writeRef name commit)) r K :=
  Settles.writeRef hr h

/-- **Staging** what may be put into a good tree. -/
theorem Ends.stage (hr : r.Sound W) {path : Text} {hash : Hash}
    (hc : Admitted W r.store ⟨path, .upsert, some hash⟩) :
    Ends W (stage path hash) r fun _ => Repo.Sound W :=
  .bind (.loadIndex hr (.saveIndex ⟨hr.trees, hr.manifests, hr.staged.insert hc path⟩))

end Rules

/-! ### Staging -/

section Staging

variable {W} {env : Env} {r : Repo}

/-- The components of a path that `add` and `remove` take. -/
theorem of_validatePath {path : Text} (h : Repo.validatePath W path = .ok ()) :
    path.head? ≠ some '/' ∧ ∃ parts, split W.toPlatform path = .ok parts ∧ parts ≠ [] := by
  unfold Repo.validatePath at h
  split_ifs at h with hempty hslash homp
  rw [not_or] at hslash
  obtain ⟨parts, hsplit, -⟩ := except_bind_eq_ok.1 h
  refine ⟨hslash.1, parts, hsplit, ?_⟩
  rintro rfl
  -- only a path of nothing but slashes has no components
  cases path with
  | nil => exact hempty rfl
  | cons c path =>
    have hc : c ≠ '/' := fun hc => hslash.1 (by rw [hc]; rfl)
    have hdrop : (c :: path).dropWhile (· == '/') = c :: path := by simp [hc]
    have htrim : trimMatches '/' (c :: path) ≠ [] := by
      rw [trimMatches, hdrop, ne_eq, List.rdropWhile_eq_nil_iff]
      exact fun hall => hc (by simpa using hall c List.mem_cons_self)
    rw [split, if_neg htrim] at hsplit
    dsimp only at hsplit
    split_ifs at hsplit
    exact List.splitOn_ne_nil _ _ (Except.ok.inj hsplit)

/-- What is put below `schemas` is a blob. -/
theorem isBlobPath_of_schemaPlace {path t : Text} {rest : List Text}
    (hhead : path.head? ≠ some '/')
    (h : split W.toPlatform path = .ok (schemaPlace t rest)) : Repo.isBlobPath path = true := by
  obtain ⟨tail, rfl⟩ := isPrefix_of_split hhead h
  have hdir : ("schemas".toList ++ ['/']).map (fun c => if c = '\\' then '/' else c) =
      "schemas/".toList := by decide +kernel
  unfold Repo.isBlobPath
  rw [List.map_append, hdir]
  simp

/-- A blob or a manifest that is stored can be staged. -/
theorem applicable_upsert {s : Store} {path : Text} {parts : List Text} {hash : Hash} {o : Object}
    {mode : Mode} (hsplit : split W.toPlatform path = .ok parts) (hne : parts ≠ [])
    (hclean : ∀ n ∈ parts, CleanName n) (hget : s.get W.toPlatform hash = some o)
    (htype : o.type = .blob ∧ mode = .blob ∨ o.type = .manifest ∧ mode = .manifest) :
    storedMode W.toPlatform s hash = .ok mode ∧
      Applicable W.toPlatform s none ⟨path, .upsert, some hash⟩ := by
  have hmode : storedMode W.toPlatform s hash = .ok mode := by
    unfold storedMode
    rw [hget]
    rcases htype with ⟨htype, rfl⟩ | ⟨htype, rfl⟩
    · simp [htype]
    · simp [htype]
  have hleaf : mode ≠ .tree := by
    rcases htype with ⟨-, rfl⟩ | ⟨-, rfl⟩
    · decide
    · decide
  exact ⟨hmode, ⟨parts, hsplit, hne, fun _ n hn _ => hclean n hn⟩,
    fun _ => ⟨hash, mode, rfl, hmode, hleaf⟩⟩

/-- An object that is stored can be staged where it may stand. -/
theorem admitted_upsert {s : Store} {path : Text} {parts : List Text} {hash : Hash} {o : Object}
    {mode : Mode} (hsplit : split W.toPlatform path = .ok parts) (hne : parts ≠ [])
    (hclean : ∀ n ∈ parts, CleanName n) (hget : s.get W.toPlatform hash = some o)
    (htype : o.type = .blob ∧ mode = .blob ∨ o.type = .manifest ∧ mode = .manifest)
    (hadmits : Admits W s parts ⟨mode, hash⟩) :
    Admitted W s ⟨path, .upsert, some hash⟩ := by
  obtain ⟨hmode, happlicable⟩ := applicable_upsert hsplit hne hclean hget htype
  refine ⟨happlicable, fun e he => ?_⟩
  rw [edit_of_upsert hsplit rfl rfl hmode] at he ⊢
  cases he
  exact hadmits

/-- A deletion can always be made. -/
theorem applicable_delete {s : Store} {path : Text} {parts : List Text}
    (hsplit : split W.toPlatform path = .ok parts) (hne : parts ≠ []) :
    Applicable W.toPlatform s none ⟨path, .delete, none⟩ :=
  ⟨⟨parts, hsplit, hne, fun hk => by cases hk⟩, fun hk => by cases hk⟩

/-- A deletion can always be staged. -/
theorem admitted_delete {s : Store} {path : Text} {parts : List Text}
    (hsplit : split W.toPlatform path = .ok parts) (hne : parts ≠ []) :
    Admitted W s ⟨path, .delete, none⟩ := by
  refine ⟨applicable_delete hsplit hne, fun e he => ?_⟩
  rw [edit_of_delete hsplit rfl] at he
  cases he

/-- Staging a manifest that comes from a schema, away from the places of schemas. -/
theorem ends_stageManifest (hr : r.Sound W) {path : Text} {parts : List Text} {m : Manifest}
    {sourceHash : Hash} (hsplit : split W.toPlatform path = .ok parts) (hne : parts ≠ [])
    (hclean : ∀ n ∈ parts, CleanName n) (hplace : ∀ t rest, parts ≠ schemaPlace t rest)
    (hm : m.FromSchema W) :
    Ends W (Repo.stageManifest W path m sourceHash) r fun _ => Repo.Sound W := by
  refine .bind (.require hr fun bytes hbytes => .bind (.put (by decide)
    (fun _ => ⟨m, hbytes, hm⟩) fun s' hgrows hget => ?_))
  have hr' := hr.grow hgrows
  refine .bind ((Ends.stage hr' ?_).mono (fun _ hQ => hQ) fun _ _ _ hr'' => .pure hr'')
  exact admitted_upsert hsplit hne hclean hget (.inr ⟨rfl, rfl⟩)
    ⟨fun t rest hparts => absurd hparts (hplace t rest), fun _ => ⟨_, m, hget, rfl, hbytes, hm⟩⟩

/-- **An addition that spells schemas as they are looked for** keeps the invariant. -/
theorem ends_add (hr : r.Sound W) (hdirs : ∀ d ∈ env.schemaDirs, '/' ∉ d) {req : AddRequest}
    (hreq : req.SpellsSchemas W) : Ends W (Repo.add W env req) r fun _ => Repo.Sound W := by
  refine .bind (.require hr fun _ hvalid => .bind (.check hr fun _ _ => ?_))
  obtain ⟨hhead, parts, hsplit, hne⟩ := of_validatePath hvalid
  obtain ⟨hclean, hplaces⟩ := hreq parts hsplit
  split_ifs with hblob
  · refine .bind (.inspect hr fun _ hpre => .bind (.put (by decide) (by simp) fun s' hgrows hget => ?_))
    refine .bind ((Ends.stage (hr.grow hgrows) ?_).mono (fun _ hQ => hQ) fun _ _ _ hr' => .pure hr')
    refine admitted_upsert hsplit hne hclean hget (.inl ⟨rfl, rfl⟩) ⟨fun t rest hparts => ?_, by simp⟩
    -- the check was made of the path, or the bytes are a schema all the same
    suffices h : rest = [] ∧ (Schema.parse W req.bytes t).isOk = true from
      ⟨h.1, rfl, _, hget, rfl, h.2⟩
    subst hparts
    refine (hplaces t rest rfl).elim (fun hpath => ?_) id
    have hslash := slash_not_mem_of_schemaPlace hsplit
    have ht : t ≠ [] := by
      have hbad := (of_mem_split hsplit (List.mem_cons_of_mem _ List.mem_cons_self)).2.1
      rw [BadComponent, not_or] at hbad
      exact hbad.1
    rw [hpath] at hsplit
    have hrest := parts_of_schemaPath hslash hsplit
    refine ⟨(List.cons.inj (List.cons.inj (List.cons.inj hrest).2).2).2, ?_⟩
    unfold Repo.preflight at hpre
    rw [hpath, fileTypeFromPath_schemaPath ht hslash] at hpre
    obtain ⟨schema, hparse, -⟩ := except_bind_eq_ok.1 hpre
    rw [mapError_eq_ok.1 hparse]
    rfl
  · have hplace : ∀ t rest, parts ≠ schemaPlace t rest := by
      rintro t rest rfl
      exact hblob (isBlobPath_of_schemaPlace hhead hsplit)
    refine .bind (.check hr fun config _ => ?_)
    split_ifs
    · refine .bind (.objects ?_)
      have hkeeps := Repo.keeps_putSlices (W := W) (R := Store.Grows W)
        (fun bs => Store.Grows.of_put (by decide) (by simp)) (slices config.chunkSizeBytes req.bytes)
      refine (Op.Ensures.of_keeps hkeeps fun s' hs' => hs').mono
        (fun s' hgrows => hr.grow hgrows) fun entries s' _ hgrows => ?_
      have hr₁ := hr.grow hgrows
      refine .bind (.put (by decide) (by simp) fun s₂ hgrows₂ _ => ?_)
      have hr₂ := hr₁.grow hgrows₂
      exact .bind (.inspect hr₂ fun m hm =>
        ends_stageManifest hr₂ hsplit hne hclean hplace (hr₂.fromSchema hdirs hm))
    · refine .bind (.inspect hr fun m hm => .bind (.put (by decide) (by simp) fun s' hgrows _ => ?_))
      exact ends_stageManifest (hr.grow hgrows) hsplit hne hclean hplace (hr.fromSchema hdirs hm)

theorem ends_remove (hr : r.Sound W) (path : Text) :
    Ends W (Repo.remove W path) r fun _ => Repo.Sound W := by
  refine .bind (.require hr fun _ hvalid => .bind (.loadIndex hr (.saveIndex ?_)))
  obtain ⟨-, parts, hsplit, hne⟩ := of_validatePath hvalid
  exact ⟨hr.trees, hr.manifests, hr.staged.insert (admitted_delete hsplit hne) path⟩

end Staging

/-! ### The pass over the manifests -/

section Pass

variable {W} {ctx : PassContext} {s s₀ : Store}

/-- A manifest of HEAD can be staged again at its path. -/
def GoodFile (file : Text × Hash) : Prop :=
  ∃ parts, split W.toPlatform file.1 = .ok parts ∧ parts ≠ [] ∧ (∀ n ∈ parts, CleanName n) ∧
    ∀ t rest, parts ≠ schemaPlace t rest

/-- Storing a manifest that comes from a schema. -/
theorem ensures_storeManifest {m : Manifest} (hm : m.FromSchema W) (s : Store) :
    (storeManifest W m).Ensures (fun s => s.CollisionFree W.toPlatform) s (s.Grows W)
      fun res s' => s.Grows W s' ∧ ∀ h, res = .ok h → s'.HasManifest W h := by
  unfold storeManifest
  cases hbytes : m.serialize W with
  | error e => exact .pure ⟨Std.Refl.refl s, nofun⟩
  | ok bytes =>
    have hkeeps : (Store.put W.toPlatform .manifest bytes).Keeps (Store.Grows W) :=
      Store.Grows.of_put (by decide) fun _ => ⟨m, hbytes, hm⟩
    refine .bind (collisionFree_le W.toPlatform) ⟨fun hrun hC => ?_, fun hrun hC => ?_⟩
    · have hgrows := hkeeps s
      rw [hrun] at hgrows
      refine .pure ⟨hgrows, fun h hh => ?_⟩
      cases hh
      exact ⟨_, m, Store.get_of_put hrun (le_refl _) hC, rfl, hbytes, hm⟩
    · rw [Store.run_put] at hrun
      cases hrun

/-- A manifest that is rebuilt comes from the schema it is rebuilt against. -/
theorem ensures_reprobeFile {n : NewSchema}
    (hn : Schema.parse W n.bytes n.schema.fileType = .ok n.schema) (cache : ProbeOutputCache)
    (file : Text × Hash) (s : Store) :
    (reprobeFile W ctx n cache file).Ensures (fun s => s.CollisionFree W.toPlatform) s (s.Grows W)
      fun res s' => s.Grows W s' ∧ ∀ h, res.1 = .rebuilt h → s'.HasManifest W h := by
  have hC := collisionFree_le W.toPlatform
  have hrefl : s.Grows W s := Std.Refl.refl s
  refine .bind hC (.reads hrefl fun found _ => ?_)
  cases found with
  | none => exact .pure ⟨hrefl, nofun⟩
  | some o =>
    dsimp only
    cases Manifest.parse W o.content with
    | error e => exact .pure ⟨hrefl, nofun⟩
    | ok m =>
      dsimp only
      split_ifs
      · exact .pure ⟨hrefl, nofun⟩
      · refine .bind hC (Op.Ensures.mono (Q := s.Grows W) (K := fun res s' => s.Grows W s' ∧
          ∀ h, res.1 = .ok h → s'.HasManifest W h) ?_ (fun _ hQ => hQ) ?_)
        · refine .bind hC (.reads hrefl fun built hbuilt => ?_)
          obtain ⟨built, cache'⟩ := built
          rw [Except.ok.injEq] at hbuilt
          cases built with
          | error e => exact .pure ⟨hrefl, nofun⟩
          | ok m' =>
            have hm' : m'.FromSchema W := by
              unfold reprobeManifest at hbuilt
              split at hbuilt
              · cases hbuilt
              · split_ifs at hbuilt
                · cases hbuilt
                · exact fromSchema_of_ingest (congrArg Prod.fst hbuilt) hn
            refine .bind hC ((ensures_storeManifest hm' s).mono (fun _ hQ => hQ) ?_)
            exact fun res s' _ hres => .pure hres
        · rintro ⟨res, cache'⟩ s' - ⟨hgrows, hres⟩
          cases res with
          | error e => exact .pure ⟨hgrows, nofun⟩
          | ok h => exact .pure ⟨hgrows, fun h' hh' => by cases hh'; exact hres h rfl⟩

/-- The loop over the manifests stages what comes from the schema. -/
theorem ensures_reprobeStep {n : NewSchema}
    (hn : Schema.parse W n.bytes n.schema.fileType = .ok n.schema) {st : PassState}
    {file : Text × Hash} (hfile : GoodFile (W := W) file) (hs : s₀.Grows W s)
    (hidx : GoodIndex W s st.index) :
    (reprobeStep W ctx n st file).Ensures (fun s => s.CollisionFree W.toPlatform) s (s₀.Grows W)
      fun st' s' => s₀.Grows W s' ∧ GoodIndex W s' st'.index := by
  have htrans : ∀ {s'}, s.Grows W s' → s₀.Grows W s' := fun h => IsTrans.trans _ _ _ hs h
  refine .bind (collisionFree_le W.toPlatform) ((ensures_reprobeFile hn st.cache file s).mono
    (fun _ => htrans) ?_)
  rintro ⟨outcome, cache⟩ s' - ⟨hgrows, hout⟩
  have hidx' := hidx.mono hgrows.le
  cases outcome with
  | unrelated => exact .pure ⟨htrans hgrows, hidx'⟩
  | unreadable reason => exact .pure ⟨htrans hgrows, hidx'⟩
  | rebuilt h =>
    obtain ⟨parts, hsplit, hne, hclean, hplace⟩ := hfile
    obtain ⟨o, m, hget, htype, hm⟩ := hout h rfl
    refine .pure ⟨htrans hgrows, hidx'.insert (admitted_upsert hsplit hne hclean hget
      (.inr ⟨htype, rfl⟩) ⟨fun t rest hparts => ?_, fun _ => ⟨o, m, hget, htype, hm⟩⟩) file.1⟩
    exact absurd hparts (hplace t rest)
  | failed e =>
    dsimp only [recordOutcome]
    cases truncateReason e.display with
    | none => exact .panic (htrans hgrows)
    | some reason => exact .pure ⟨htrans hgrows, hidx'⟩

theorem ensures_reprobeSchema {heads : TextMap Schema} {files : List (Text × Hash)}
    (hfiles : ∀ file ∈ files, GoodFile (W := W) file) {tot : PassTotals} {staged : Text × Hash}
    (hs : s₀.Grows W s) (hidx : GoodIndex W s tot.index) :
    (reprobeSchema W ctx heads files tot staged).Ensures (fun s => s.CollisionFree W.toPlatform) s
      (s₀.Grows W) fun tot' s' => s₀.Grows W s' ∧ GoodIndex W s' tot'.index := by
  have hC := collisionFree_le W.toPlatform
  refine .bind hC (.reads hs fun found _ => ?_)
  cases found with
  | none => exact .throw hs
  | some o =>
    refine .bind hC (.reads hs fun schema hparse => ?_)
    dsimp only
    split_ifs
    · exact .pure ⟨hs, hidx⟩
    · have hn := hparse
      rw [← fileType_of_parse hparse] at hn
      refine .bind hC (Op.Ensures.mono (Op.Ensures.foldlM hC (I := fun rest st s =>
        s₀.Grows W s ∧ GoodIndex W s st.index ∧ ∀ file ∈ rest, GoodFile (W := W) file)
        ?_ ⟨hs, hidx, hfiles⟩) (fun _ hQ => hQ) fun st s' _ hst => .pure ⟨hst.1, hst.2.1⟩)
      rintro file rest st s₁ ⟨hs₁, hidx₁, hrest⟩
      exact (ensures_reprobeStep (n := ⟨staged.1, staged.2, schema, o.content, heads[staged.1]?⟩)
        hn (hrest file List.mem_cons_self) hs₁ hidx₁).mono (fun _ hQ => hQ) fun st' s' _ hst' =>
          ⟨hst'.1, hst'.2, fun f hf => hrest f (List.mem_cons_of_mem _ hf)⟩

/-- **The pass** stages manifests that come from the staged schemas. -/
theorem ensures_pass {heads : TextMap Schema} {files staged : List (Text × Hash)}
    (hfiles : ∀ file ∈ files, GoodFile (W := W) file) {idx : Index} (hidx : GoodIndex W s idx) :
    (staged.foldlM (reprobeSchema W ctx heads files) ⟨idx, [], []⟩).Ensures
      (fun s => s.CollisionFree W.toPlatform) s (s.Grows W)
      fun tot s' => s.Grows W s' ∧ GoodIndex W s' tot.index :=
  Op.Ensures.foldlM (collisionFree_le W.toPlatform)
    (I := fun _ (tot : PassTotals) s' => s.Grows W s' ∧ GoodIndex W s' tot.index)
    (fun _ _ _ _ h => ensures_reprobeSchema hfiles h.1 h.2) ⟨Std.Refl.refl s, hidx⟩

/-- The manifests of HEAD stand away from the places of schemas. -/
theorem Repo.Sound.goodFile {r : Repo} (hr : r.Sound W) {files : List (Text × Hash)}
    (h : r.headManifests W = .ok files) : ∀ file ∈ files, GoodFile (W := W) file := by
  obtain ⟨head, hhead, h⟩ := except_bind_eq_ok.1 h
  rw [mapError_eq_ok] at hhead
  cases head with
  | none =>
    cases h
    exact nofun
  | some root =>
    obtain ⟨L, hL⟩ := hr.headTree hhead root rfl
    obtain ⟨leaves, hwalk, h⟩ := except_bind_eq_ok.1 h
    cases h
    intro file hfile
    obtain ⟨⟨path, e⟩, hmem, hmode⟩ := List.mem_filterMap.1 hfile
    split_ifs at hmode with hmanifest
    cases hmode
    obtain ⟨q, hq, -, hsplit⟩ := (mem_walk_iff hL.1.1 hwalk).1 hmem
    have hq' : L q ≠ none := by rw [hq]; nofun
    refine ⟨q, hsplit, ?_, ?_, ?_⟩
    · rintro rfl
      exact hq' hL.1.1.nil
    · exact fun n hn => (hL.1.1.names hq' n hn).2 rfl
    · rintro t rest rfl
      have hblob := ((hL.2 _ e hq).schema t rest rfl).2.1
      rw [hmanifest] at hblob
      cases hblob

end Pass

/-! ### Committing -/

section Committing

variable {W} {env : Env} {r : Repo}

theorem ends_reprobed (hr : r.Sound W) {idx : Index} (hidx : GoodIndex W r.store idx) :
    Ends W (Repo.reprobed W env idx) r fun res r' =>
      r'.Sound W ∧ GoodIndex W r'.store res.1 := by
  unfold Repo.reprobed
  split_ifs
  · exact .pure ⟨hr, hidx⟩
  · unfold Repo.autoReprobe
    dsimp only
    split_ifs
    · exact .pure ⟨hr, hidx⟩
    · refine .bind (.inspect hr fun inputs hinputs => ?_)
      obtain ⟨heads, ctx, files⟩ := inputs
      have hfiles := Repo.headManifests_of_passInputs hinputs
      refine .bind (.objects ((ensures_pass (hr.goodFile hfiles) hidx).mono
        (fun _ hgrows => hr.grow hgrows) fun tot s' _ htot => ?_))
      exact .pure ⟨hr.grow htot.1, htot.2⟩

/-- The tree that is built of good changes on a good tree is good. -/
theorem ensures_buildTree {s : Store} {o : Option Hash}
    (ho : ∀ root ∈ o, ∃ L, GoodTree W s root L) {changes : List StagedChange}
    (hchanges : ∀ c ∈ changes, Admitted W s c) :
    (buildTree W.toPlatform none o changes).Ensures (fun s => s.CollisionFree W.toPlatform) s
      (s.Grows W) fun o' s' => s.Grows W s' ∧ ∀ root ∈ o', ∃ L, GoodTree W s' root L := by
  have hkeeps : (buildTree W.toPlatform none o changes).Keeps (Store.Grows W) :=
    Repo.keeps_buildTree (fun t => Store.Grows.of_put (by decide) nofun) o changes
  obtain ⟨L, hroot, hL⟩ : ∃ L, RootAt W.toPlatform s none True True o L ∧
      ∀ q e, L q = some e → Admits W s q e := by
    cases o with
    | none => exact ⟨Leaves.empty, RootAt.missing, fun q e hq => by cases hq⟩
    | some root => exact ho root rfl
  refine ⟨fun {o' s'} hrun hC => ?_, fun hrun _ => ?_⟩
  · have hgrows := hkeeps s
    rw [hrun] at hgrows
    refine ⟨hgrows, ?_⟩
    rintro root rfl
    rcases buildTree_spec (fun h => absurd rfl h) (fun c hc => (hchanges c hc).applicable) hroot
      hrun hC with ⟨o', M, ho', hM, hrootM⟩ | ⟨⟨_, herr⟩, -⟩
    · cases ho'
      refine ⟨M, hrootM, fun q e hq => Admits.mono hgrows.le ?_⟩
      refine Leaves.forall_of_applyAll (Q := Admits W s) hM hL (fun f hf e he => ?_) q e hq
      obtain ⟨c, hc, rfl⟩ := List.mem_map.1 hf
      exact (hchanges c hc).admits e he
    · cases herr
  · have hgrows := hkeeps s
    rwa [hrun] at hgrows

theorem ends_buildCommit (hr : r.Sound W) (author : AuthorOverride) :
    Ends W (Repo.buildCommit W env author) r fun res r' =>
      r'.Sound W ∧ ∀ root ∈ res.1, ∃ L, GoodTree W r'.store root L := by
  refine .bind (.loadIndex hr (.bind (.require hr fun _ _ => .bind (.lockRefs (.bind
    (.require hr fun author' _ => .bind ((ends_reprobed hr hr.staged).mono (fun _ hQ => hQ) ?_)))))))
  rintro ⟨idx, summaries⟩ r₁ - ⟨hr₁, hidx⟩
  refine .bind (.check hr₁ fun o ho => .bind (.objects ((ensures_buildTree (hr₁.headTree ho)
    fun c hc => ?_).mono (fun _ hgrows => hr₁.grow hgrows) fun root s' _ hroot => ?_)))
  · obtain ⟨⟨path, c'⟩, hmem, rfl⟩ := List.mem_map.1 ((env.order_perm idx).mem_iff.1 hc)
    exact hidx path c' (TextMap.mem_toList.1 hmem)
  · exact .pure ⟨hr₁.grow hroot.1, hroot.2⟩

/-- Storing a commit of a good tree. -/
theorem Repo.Sound.commit (hr : r.Sound W) {c : Commit} {L : Leaves Text Entry}
    (hc : GoodTree W r.store c.tree L) :
    ({ r with store := ⟨r.store.objects ++ [⟨.commit, c.serialize⟩]⟩ } : Repo).Sound W := by
  have hle : r.store ≤ ⟨r.store.objects ++ [⟨.commit, c.serialize⟩]⟩ := ⟨_, rfl⟩
  refine ⟨fun o ho htype => ?_, fun o ho htype => ?_, hr.staged.mono hle⟩
  · rcases List.mem_append.1 ho with ho | ho
    · obtain ⟨root, L', hheader, hL'⟩ := hr.trees o ho htype
      exact ⟨root, L', hheader, hL'.mono hle⟩
    · cases List.mem_singleton.1 ho
      exact ⟨c.tree, L, fun h => treeHeader_serialize _ h c, hc.mono hle⟩
  · rcases List.mem_append.1 ho with ho | ho
    · exact hr.manifests o ho htype
    · cases List.mem_singleton.1 ho
      cases htype

theorem ends_publish (hr : r.Sound W) {o : Option Hash}
    (ho : ∀ root ∈ o, ∃ L, GoodTree W r.store root L) (author : Author) (message : Text) :
    Ends W (Repo.publish W o author message) r fun _ => Repo.Sound W := by
  cases o with
  | none => exact .require hr nofun
  | some root =>
    obtain ⟨L, hL⟩ := ho root rfl
    refine .bind (.check hr fun parent _ => .bind (.objects ⟨fun hrun _ => ?_, fun hrun _ => ?_⟩))
    · obtain ⟨rfl, rfl⟩ := Store.put_eq_ok hrun
      have hr₁ := hr.commit (c := ⟨root, parent.toList, author, message⟩) hL
      -- neither the references nor `HEAD` matter, and the empty index can always be put in
      have hempty : ∀ s, GoodIndex W s ∅ := fun s path c hget => by
        rw [Std.ExtTreeMap.getElem?_empty] at hget
        cases hget
      refine .bind (.check hr₁ fun head _ => ?_)
      cases head with
      | branch name =>
        exact .bind (.writeRef hr₁ fun path => .bind (.saveIndex (.pure
          ⟨hr₁.trees, hr₁.manifests, hempty _⟩)))
      | detached g =>
        exact .bind (.writeHead (.bind (.saveIndex (.pure
          ⟨hr₁.trees, hr₁.manifests, hempty _⟩))))
    · rw [Store.run_put] at hrun
      cases hrun

theorem ends_commit (hr : r.Sound W) (message : Text) (author : AuthorOverride) :
    Ends W (Repo.commit W env message author) r fun _ => Repo.Sound W := by
  refine .bind ((ends_buildCommit hr author).mono (fun _ hQ => hQ) ?_)
  rintro ⟨root, author', summaries⟩ r₁ - ⟨hr₁, hroot⟩
  exact .bind ((ends_publish hr₁ hroot author' message).mono (fun _ hQ => hQ)
    fun _ _ _ hr₂ => .pure hr₂)

end Committing

/-! ### Runs -/

/-- The calls that are claimed about, with what is asked of them: additions that spell schemas as
they are looked for, removals and commits.  A directory of the working tree has a name without
slashes. -/
def Call.SpellsSchemas (l : Env × Call) : Prop :=
  (∀ d ∈ l.1.schemaDirs, '/' ∉ d) ∧ match l.2 with
    | .add req => req.SpellsSchemas W
    | .remove _ | .commit .. => True
    | .patchFields .. | .branch .. | .checkout _ => False

variable {W}

/-- **A call keeps the invariant**, however it ends. -/
theorem Repo.Sound.step {r : Repo} (hr : r.Sound W) {l : Env × Call} (hl : Call.SpellsSchemas W l)
    (hC : ((l.2.run W l.1).run r).2.store.CollisionFree W.toPlatform) :
    ((l.2.run W l.1).run r).2.Sound W := by
  obtain ⟨env, c⟩ := l
  obtain ⟨hdirs, hc⟩ := hl
  have hends : Ends W (c.script W env) r fun _ => Repo.Sound W := by
    cases c with
    | add req =>
      exact .bind ((ends_add hr hdirs hc).mono (fun _ hQ => hQ) fun _ _ _ hr' => .pure hr')
    | remove path => exact ends_remove hr path
    | commit message author =>
      exact .bind ((ends_commit hr message author).mono (fun _ hQ => hQ) fun _ _ _ hr' => .pure hr')
    | patchFields _ _ | branch _ _ | checkout _ => exact hc.elim
  dsimp only at hC ⊢
  rcases Repo.locked_state ((c.script W env).run (Action.op W)) r with h | ⟨p, h⟩
  · rw [Call.run, h]
    exact hr
  · rw [Call.run, h] at hC ⊢
    have hr' := hends.state hC
    exact ⟨hr'.trees, hr'.manifests, hr'.staged⟩

/-- **Schemas and the manifests resolved with them.**  In every state of a run of additions,
removals and commits, in which what is added at the place of a schema is spelled as it is looked
for or is a schema all the same: what stands at the place of a schema in a commit is a blob that
parses, and the hash of each manifest in a commit is that of bytes that parse to the schema its
fields were resolved with. -/
theorem Repo.schemas_valid {r : Repo}
    (hr : (Repo.lts W).Reachable (fun _ l => Call.SpellsSchemas W l) Repo.init r)
    (hC : r.store.CollisionFree W.toPlatform) : r.SchemasValid W := by
  refine Repo.Sound.schemasValid (hr.invariant_of_down (I := Repo.Sound W)
    (C := fun r => r.store.CollisionFree W.toPlatform) hC ?_ sound_init ?_)
  · rintro r l r' rfl hC'
    exact hC'.down ((l.2.run W l.1).grows r)
  · rintro r l r' hr hl rfl hC'
    exact hr.step hl hC'

/-- A world with one schema, `note`. -/
def noteWorld : World :=
  demoWorld ⟨[("NOTE".toList, ⟨"note".toList, ["*/*".toList], none, []⟩)], [], []⟩

/-- A schema is committed, and then a file of its type. -/
def notedRepo : Repo :=
  Repo.init.after noteWorld demoEnv
    [.add ⟨"schemas/note/schema.toml".toList, utf8 "NOTE".toList, none, none⟩,
      .commit "schema".toList ⟨none, none, none⟩, .add ⟨"a".toList, [1], none, none⟩,
      .commit "file".toList ⟨none, none, none⟩]

theorem spellsSchemas_of_split {W : World} {req : AddRequest} {parts : List Text}
    (hsplit : split W.toPlatform req.path = .ok parts) (hclean : ∀ n ∈ parts, CleanName n)
    (hplace : ∀ t rest, parts = schemaPlace t rest → req.path = Repo.schemaPath t) :
    req.SpellsSchemas W := by
  intro parts' hsplit'
  cases hsplit.symm.trans hsplit'
  exact ⟨hclean, fun t rest hparts => .inl (hplace t rest hparts)⟩

theorem Repo.schemas_valid_demo : notedRepo.SchemasValid noteWorld := by
  have hdirs : ∀ d ∈ demoEnv.schemaDirs, '/' ∉ d := nofun
  refine Repo.schemas_valid (Repo.reachable_after _ (.refl _) fun _ => ?_) (by decide +kernel)
  refine List.forall_mem_cons.2 ⟨⟨hdirs, ?_⟩, List.forall_mem_cons.2 ⟨⟨hdirs, trivial⟩,
    List.forall_mem_cons.2 ⟨⟨hdirs, ?_⟩, List.forall_mem_singleton.2 ⟨hdirs, trivial⟩⟩⟩⟩
  · have hsplit : split noteWorld.toPlatform "schemas/note/schema.toml".toList =
        .ok (schemaPlace "note".toList []) := by decide +kernel
    refine spellsSchemas_of_split hsplit (by decide +kernel) fun t rest hparts => ?_
    obtain ⟨-, hparts⟩ := List.cons.inj hparts
    obtain ⟨rfl, -⟩ := List.cons.inj hparts
    decide +kernel
  · have hsplit : split noteWorld.toPlatform "a".toList = .ok ["a".toList] := by decide +kernel
    refine spellsSchemas_of_split hsplit (by decide +kernel) fun t rest hparts => ?_
    cases hparts

/-- A text that is no schema is committed at the place of one, spelled with a slash at its end. -/
def slashedRepo : Repo :=
  Repo.init.after (demoWorld ⟨[], [], []⟩) demoEnv
    [.add ⟨"schemas/t/schema.toml/".toList, [120], none, none⟩,
      .commit "slash".toList ⟨none, none, none⟩]

/-- **A schema that is not valid**: an addition with a slash at its end is not checked, and is
committed where the schema is looked for. -/
theorem Repo.schema_not_valid :
    (Repo.lts (demoWorld ⟨[], [], []⟩)).Reachable (fun _ _ => True) Repo.init slashedRepo ∧
      slashedRepo.store.CollisionFree demo ∧
      ¬ slashedRepo.SchemasValid (demoWorld ⟨[], [], []⟩) := by
  obtain ⟨hcf, hbytes, hparse⟩ : slashedRepo.store.CollisionFree demo ∧
      slashedRepo.schemaBytesAtHead (demoWorld ⟨[], [], []⟩) demoEnv "t".toList =
        .ok (some [120]) ∧
      (Schema.parse (demoWorld ⟨[], [], []⟩) [120] "t".toList).isOk = false := by
    decide +kernel
  refine ⟨Repo.reachable_after _ (.refl _) fun _ _ _ => trivial, hcf, fun hvalid => ?_⟩
  obtain ⟨head, hhead, hbytes⟩ := except_bind_eq_ok.1 hbytes
  obtain ⟨commit, -, hhead⟩ := except_bind_eq_ok.1 hhead
  cases commit with
  | none =>
    cases hhead
    cases hbytes
  | some commit =>
    obtain ⟨root, hroot, hhead⟩ := except_bind_eq_ok.1 hhead
    cases hhead
    obtain ⟨blob, hblob, hbytes⟩ := except_bind_eq_ok.1 hbytes
    obtain ⟨found, hfound, hblob⟩ := except_bind_eq_ok.1 hblob
    rcases found with _ | ⟨_ | _ | _, h⟩
    · cases hblob
      cases hbytes
    · obtain ⟨-, o, hget, -, hok⟩ :=
        hvalid.schemas commit root hroot "t".toList (by decide +kernel) _ hfound
      rw [← Except.ok.inj hblob, hget] at hbytes
      have hcontent : o.content = [120] := Option.some.inj (Except.ok.inj hbytes)
      rw [hcontent, hparse] at hok
      cases hok
    · cases hblob
      cases hbytes
    · cases hblob
      cases hbytes

end Omp
