import Omp.Isolation
import Omp.ManifestCodec

/-!
# A schema that reaches its files

A commit that stages a schema takes every manifest of its type in HEAD to it: the manifest is
rebuilt against the schema, or the file is listed as skipped and stays as it was, and nothing else
that is not staged changes.

There are two gaps.  The pass compares a staged schema with the one that `load_all_schemas` finds,
and where HEAD has none of the type that is the working tree's: when the staged schema is the same
as that one, the pass takes it for unchanged.  And a manifest with a delete character in its text
is written but cannot be read.

## Main definitions

* `Repo.headSchemas`, `Repo.headEntries` : what HEAD's tree holds.
* `Propagated` : what is said of the commit.
* `PassOf` : what the pass of a commit comes to.
* `Repo.Masked` : a schema that the pass takes for unchanged.

## Main results

* `countP_add_countP_of_outcomes` : of each file that is behind its schema something comes.
* `Repo.propagated_iff` : the schemas reach their files exactly when neither gap is met.
* `Repo.schema_not_propagated` : a schema that does not.
-/

namespace Omp

open Lib RepoScript

variable (W : World) (env : Env)

/-! ### What HEAD holds -/

/-- The schemas in HEAD's tree. -/
def Repo.headSchemas (r : Repo) : Except (Fault OmpError) (TextMap Schema) := do
  let committed ← match ← (r.headTree W).mapError .err with
    | some root => treeSchemas W r.store root
    | none => .ok []
  .ok (committed.foldl (fun m s => m.insert s.fileType s) ∅)

/-- The leaves of HEAD's tree. -/
def Repo.headEntries (r : Repo) : Except (Fault OmpError) (List (Text × Entry)) := do
  match ← (r.headTree W).mapError .err with
  | none => .ok []
  | some root => walk W.toPlatform r.store none root

/-- The manifest that is stored under a hash. -/
def Store.manifest? (s : Store) (h : Hash) : Option Manifest :=
  (s.get W.toPlatform h).bind fun o => (Manifest.parse W o.content).toOption

/-- A leaf is a manifest of a type. -/
def Store.hasType (s : Store) (t : Text) (leaf : Text × Entry) : Bool :=
  leaf.2.mode = .manifest && (s.manifest? W leaf.2.hash).any fun m => m.fileType = t

/-- A leaf is a manifest of the type of a schema, and not at the schema. -/
def Store.isBehind (s : Store) (n : NewSchema) (leaf : Text × Entry) : Bool :=
  leaf.2.mode = .manifest &&
    (s.manifest? W leaf.2.hash).any fun m => m.fileType = n.fileType && m.schemaHash ≠ n.hash

theorem isBehind_congr {s : Store} {n n' : NewSchema} (htype : n.fileType = n'.fileType)
    (hhash : n.hash = n'.hash) : s.isBehind W n = s.isBehind W n' := by
  funext leaf
  rw [Store.isBehind, Store.isBehind, htype, hhash]

/-! ### What is said of a commit -/

/-- Nothing is staged at a path, however it is spelled. -/
def Repo.Unstaged (r : Repo) (path : Text) : Prop :=
  ∀ p : Text, p ∈ r.index → ¬ (Over W p path ∧ Over W path p)

/-- No staged path is above or below a file of HEAD. -/
def Repo.NotNested (r : Repo) (leaves : List (Text × Entry)) : Prop :=
  ∀ p : Text, p ∈ r.index → ∀ leaf ∈ leaves, Over W p leaf.1 ∨ Over W leaf.1 p →
    Over W p leaf.1 ∧ Over W leaf.1 p

/-- What a commit reports on a type. -/
def reported (t : Text) (summaries : List ReprobeSummary) : Option ReprobeSummary :=
  summaries.find? fun x => x.fileType = t

/-- The files of a type that were rebuilt, by their number. -/
def countOf (t : Text) (summaries : List ReprobeSummary) : Nat :=
  ((reported t summaries).map ReprobeSummary.count).getD 0

/-- The files that were skipped for a type, by their paths. -/
def skippedOf (t : Text) (summaries : List ReprobeSummary) : List Text :=
  ((reported t summaries).map fun x => x.skipped.map ReprobeSkip.path).getD []

/-- **Every schema that is staged reaches the files of its type**, and nothing else changes. -/
structure Propagated (r : Repo) (heads : TextMap Schema) (leaves : List (Text × Entry))
    (summaries : List ReprobeSummary) (s : Store) (root : Hash) : Prop where
  /-- A file of the type is at the schema, with the source it had, or it is skipped. -/
  reached : ∀ n, Changes W heads r.store (Repo.stagedSchemas (env.order r.index)) n →
    ∀ (path : Text) h m, (path, ⟨.manifest, h⟩) ∈ leaves → r.Unstaged W path →
      r.store.manifest? W h = some m → m.fileType = n.fileType →
      (∃ h' m', getAt W.toPlatform s none path root = .ok (some ⟨.manifest, h'⟩) ∧
        s.manifest? W h' = some m' ∧ m'.schemaHash = n.hash ∧ m'.sourceHash = m.sourceHash) ∨
      ((skippedOf n.fileType summaries).count path = 1 ∧
        getAt W.toPlatform s none path root = .ok (some ⟨.manifest, h⟩))
  /-- Each file that was behind its schema is counted or skipped. -/
  counted : ∀ n, Changes W heads r.store (Repo.stagedSchemas (env.order r.index)) n →
    countOf n.fileType summaries + ((skippedOf n.fileType summaries).countP fun path =>
      leaves.any fun leaf => leaf.1 = path && r.store.hasType W n.fileType leaf) =
        leaves.countP (r.store.isBehind W n)
  /-- Every other path has its entry. -/
  framed : ∀ leaf ∈ leaves, r.Unstaged W leaf.1 →
    (∀ n, Changes W heads r.store (Repo.stagedSchemas (env.order r.index)) n →
      r.store.hasType W n.fileType leaf = false) →
    getAt W.toPlatform s none leaf.1 root = .ok (some leaf.2)

/-- What the pass of a commit comes to. -/
inductive PassOf (r : Repo) : PassOutcomes → Store → Prop
  | kept (h : Repo.stagedSchemas (env.order r.index) = []) : PassOf r [] r.store
  | passed {loaded : TextMap Schema} {ctx : PassContext} {files : List (Text × Hash)}
      {ps : PassOutcomes} {cache : ProbeOutputCache} {s : Store}
      (hinputs : r.passInputs W env = .ok (loaded, ctx, files))
      (hpasses : Passes W ctx loaded files r.store [] (Repo.stagedSchemas (env.order r.index)) ps
        cache s) : PassOf r ps s

/-- A staged schema is the same as the one that is loaded for its type. -/
def Repo.Masked (r : Repo) (n : NewSchema) : Prop :=
  ∃ loaded, r.loadAllSchemas W env = .ok loaded ∧
    loaded[n.fileType]?.any (schemasEqual n.schema) = true

/-- A manifest that is stored has no delete character in its text. -/
def Store.Readable (s : Store) (h : Hash) : Prop :=
  ∀ o t, s.get W.toPlatform h = some o → o.content = utf8 t → del ∉ t

/-! ### The types that are staged -/

section Types

variable {W env} {s s₀ s' : Store} {idx : Index} {heads : TextMap Schema} {ctx : PassContext}
  {files staged : List (Text × Hash)} {cache cache' : ProbeOutputCache} {ps : PassOutcomes}

theorem eq_of_stripSuffix {p t stem : Text} (h : stripSuffix p t = some stem) : t = stem ++ p := by
  rw [stripSuffix] at h
  split_ifs at h with hsuffix
  obtain ⟨u, rfl⟩ := hsuffix
  rw [List.length_append, Nat.add_sub_cancel, List.take_left] at h
  rw [Option.some.inj h]

/-- A type has one path for its schema. -/
theorem path_of_fileType {path t : Text} (h : Repo.schemaFileTypeFromPath path = some t) :
    path = Repo.schemaPath t := by
  unfold Repo.schemaFileTypeFromPath at h
  obtain ⟨rest, hrest, h⟩ := Option.bind_eq_some_iff.1 h
  unfold Repo.schemaFileTypeFromTreeName at h
  obtain ⟨stem, hstem, h⟩ := Option.bind_eq_some_iff.1 h
  have hpath := Commit.stripPrefix_eq_some.1 hrest
  have hname := eq_of_stripSuffix hstem
  have ht : stem = t := by
    by_cases hbad : stem = [] ∨ '/' ∈ stem
    · rw [if_pos hbad] at h
      cases h
    · rw [if_neg hbad] at h
      exact Option.some.inj h
  subst ht
  rw [schemaPath_append, List.append_assoc, ← hname, ← hpath]

theorem path_of_staged {c : StagedChange} {x : Text × Hash} (h : x ∈ Repo.stagedSchemas [c]) :
    c.path = Repo.schemaPath x.1 := by
  obtain ⟨c', hc', hx⟩ := List.mem_filterMap.1 h
  obtain rfl := List.mem_singleton.1 hc'
  dsimp only at hx
  split_ifs at hx
  · cases hx
  obtain ⟨stem, hstem, hx⟩ := Option.bind_eq_some_iff.1 hx
  obtain ⟨hash, -, hx⟩ := Option.bind_eq_some_iff.1 hx
  cases hx
  exact path_of_fileType hstem

/-- **Each type is staged once.** -/
theorem nodup_stagedSchemas (hidx : OrderlyIndex W s idx) :
    ((Repo.stagedSchemas (env.order idx)).map Prod.fst).Nodup := by
  have hpaths : ((env.order idx).map StagedChange.path).Nodup := by
    refine ((env.order_perm idx).map _).nodup_iff.2 ?_
    have hkeys : (idx.toList.map Prod.snd).map StagedChange.path = idx.toList.map Prod.fst := by
      rw [List.map_map]
      refine List.map_congr_left fun x hx => ?_
      exact (hidx x.1 x.2 (TextMap.mem_toList.1 hx)).1
    rw [hkeys]
    exact TextMap.nodup_keys_toList idx
  rw [List.Nodup, List.pairwise_map] at hpaths ⊢
  refine hpaths.filterMap _ fun c d hne x hx y hy heq => hne ?_
  rw [path_of_staged (List.mem_filterMap.2 ⟨c, List.mem_singleton_self c, hx⟩),
    path_of_staged (List.mem_filterMap.2 ⟨d, List.mem_singleton_self d, hy⟩), heq]

/-- The pass goes through the types in their order. -/
theorem Passes.types_sublist (h : Passes W ctx heads files s cache staged ps cache' s') :
    (ps.map fun p => p.1.fileType).Sublist (staged.map Prod.fst) := by
  induction h with
  | nil => exact .slnil
  | unchanged _ _ _ _ ih => exact ih.cons _
  | changed _ _ _ _ _ ih => exact ih.cons_cons _

/-- **A staged schema that changes something is gone through.** -/
theorem Passes.mem_of_changes (h : Passes W ctx heads files s cache staged ps cache' s')
    (hle : s₀ ≤ s) {n : NewSchema} (hn : Changes W heads s₀ staged n) : n ∈ ps.map Prod.fst := by
  obtain ⟨x, hx, o, schema, hget, hparse, hdiff, rfl⟩ := hn
  induction h with
  | nil => cases hx
  | unchanged hget' hparse' hsame _ ih =>
    obtain rfl | hx := List.mem_cons.1 hx
    · cases (Store.get_mono hle hget).symm.trans hget'
      cases hparse.symm.trans hparse'
      exact absurd hsame hdiff
    · exact ih hle hx
  | changed hget' hparse' _ hfiles _ ih =>
    obtain rfl | hx := List.mem_cons.1 hx
    · cases (Store.get_mono hle hget).symm.trans hget'
      cases hparse.symm.trans hparse'
      exact List.mem_cons_self
    · exact List.mem_cons_of_mem _ (ih (hle.trans hfiles.le) hx)

/-- **What is reported on a type** that was gone through is its summary. -/
theorem reported_map_summaryOf {p : NewSchema × List (Text × FileOutcome)}
    (htypes : (ps.map fun p => p.1.fileType).Nodup) (hp : p ∈ ps) :
    reported p.1.fileType (ps.map summaryOf) = some (summaryOf p) := by
  induction ps with
  | nil => cases hp
  | cons p' ps ih =>
    obtain ⟨hnot, htypes⟩ := List.nodup_cons.1 htypes
    rw [reported, List.map_cons, List.find?_cons]
    obtain rfl | hp := List.mem_cons.1 hp
    · rw [show decide ((summaryOf p).fileType = p.1.fileType) = true from decide_eq_true rfl]
    · have hne : (summaryOf p').fileType ≠ p.1.fileType := fun heq =>
        hnot (List.mem_map.2 ⟨p, hp, heq.symm⟩)
      rw [decide_eq_false hne]
      exact ih htypes hp

/-- On another type nothing is reported. -/
theorem reported_eq_none {t : Text} (ht : ∀ p ∈ ps, p.1.fileType ≠ t) :
    reported t (ps.map summaryOf) = none := by
  rw [reported, List.find?_eq_none]
  intro x hx
  obtain ⟨p, hp, rfl⟩ := List.mem_map.1 hx
  exact fun heq => ht p hp (of_decide_eq_true heq)

end Types

/-! ### What comes of a file -/

/-- A file was to be rebuilt, and could not be. -/
def FileOutcome.isFailed : FileOutcome → Bool
  | .failed _ => true
  | .unrelated | .unreadable _ | .rebuilt _ => false

/-- What the pass comes to for a file, by the manifest that HEAD has of it. -/
inductive ComesTo (s₀ : Store) (n : NewSchema) (file : Text × Hash) (s' : Store) :
    FileOutcome → Prop
  | unreadable {reason : Text} (hnone : s₀.manifest? W file.2 = none) :
    ComesTo s₀ n file s' (.unreadable reason)
  | unrelated {m : Manifest} (hm : s₀.manifest? W file.2 = some m)
      (hskip : m.fileType ≠ n.fileType ∨ m.schemaHash = n.hash) : ComesTo s₀ n file s' .unrelated
  | failed {m : Manifest} {e : OmpError} (hm : s₀.manifest? W file.2 = some m)
      (htype : m.fileType = n.fileType) (hhash : m.schemaHash ≠ n.hash) :
    ComesTo s₀ n file s' (.failed e)
  | rebuilt {m m' : Manifest} {bytes : Bytes} (hm : s₀.manifest? W file.2 = some m)
      (htype : m.fileType = n.fileType) (hhash : m.schemaHash ≠ n.hash)
      (hsource : m'.sourceHash = m.sourceHash) (hschema : m'.schemaHash = schemaHash W n.bytes)
      (hbytes : m'.serialize W = .ok bytes) (hmem : ⟨.manifest, bytes⟩ ∈ s'.objects) :
    ComesTo s₀ n file s' (.rebuilt (hashOf W.toPlatform .manifest bytes))

section Comes

variable {W env} {s s₀ s₁ s' : Store} {n : NewSchema} {heads : TextMap Schema} {ctx : PassContext}
  {file : Text × Hash} {files staged : List (Text × Hash)} {cache cache' : ProbeOutputCache}
  {o : FileOutcome} {os : List (Text × FileOutcome)} {ps : PassOutcomes}

theorem manifest?_eq_some {h : Hash} {obj : Object} {m : Manifest}
    (hget : s.get W.toPlatform h = some obj) (hparse : Manifest.parse W obj.content = .ok m) :
    s.manifest? W h = some m := by
  rw [Store.manifest?, hget, Option.bind_some, hparse]
  rfl

theorem manifest?_eq_none {h : Hash} {obj : Object} {e : OmpError}
    (hget : s.get W.toPlatform h = some obj) (hparse : Manifest.parse W obj.content = .error e) :
    s.manifest? W h = none := by
  rw [Store.manifest?, hget, Option.bind_some, hparse]
  rfl

theorem ComesTo.mono (h : ComesTo W s₀ n file s₁ o) (hle : s₁ ≤ s') :
    ComesTo W s₀ n file s' o := by
  cases h with
  | unreadable hnone => exact .unreadable hnone
  | unrelated hm hskip => exact .unrelated hm hskip
  | failed hm htype hhash => exact .failed hm htype hhash
  | rebuilt hm htype hhash hsource hschema hbytes hmem =>
    exact .rebuilt hm htype hhash hsource hschema hbytes (Cas.mem_mono hle hmem)

/-- **What the body of the loop comes to** depends on the manifest that HEAD has. -/
theorem Reprobes.comesTo (h : Reprobes W ctx n s cache file o cache' s') (hle : s₀ ≤ s)
    (hfile : ∃ obj, s₀.get W.toPlatform file.2 = some obj) : ComesTo W s₀ n file s' o := by
  obtain ⟨obj, hold⟩ := hfile
  have hnew := Store.get_mono hle hold
  cases h with
  | missing hget => cases hget.symm.trans hnew
  | unparsable hget hparse =>
    cases hnew.symm.trans hget
    exact .unreadable (manifest?_eq_none hold hparse)
  | unrelated hget hparse hskip =>
    cases hnew.symm.trans hget
    exact .unrelated (manifest?_eq_some hold hparse) hskip
  | failed hget hparse htype hhash =>
    cases hnew.symm.trans hget
    exact .failed (manifest?_eq_some hold hparse) htype hhash
  | unwritten hget hparse htype hhash =>
    cases hnew.symm.trans hget
    exact .failed (manifest?_eq_some hold hparse) htype hhash
  | rebuilt hget hparse htype hhash hbuild hbytes =>
    cases hnew.symm.trans hget
    obtain ⟨-, -, hsource, -, hschema⟩ := reprobeManifest_eq_ok hbuild
    exact .rebuilt (manifest?_eq_some hold hparse) htype hhash hsource hschema hbytes
      (List.mem_append_right _ (List.mem_singleton.2 rfl))

variable (W s₀ s' n) in
/-- The outcomes are those of the files. -/
def ComeTo (files : List (Text × Hash)) (os : List (Text × FileOutcome)) : Prop :=
  List.Forall₂ (fun file q => q.1 = file.1 ∧ ComesTo W s₀ n file s' q.2) files os

theorem Outcomes.comeTo (h : Outcomes W ctx n s cache files os cache' s') (hle : s₀ ≤ s)
    (hfiles : ∀ file ∈ files, ∃ obj, s₀.get W.toPlatform file.2 = some obj) :
    ComeTo W s₀ s' n files os := by
  induction h with
  | nil => exact .nil
  | cons hfile hrest ih =>
    obtain ⟨hobj, hobjs⟩ := List.forall_mem_cons.1 hfiles
    exact .cons ⟨rfl, (hfile.comesTo hle hobj).mono hrest.le⟩ (ih (hle.trans hfile.le) hobjs)

/-- **The outcomes of a pass**, schema by schema. -/
theorem Passes.comeTo (h : Passes W ctx heads files s₀ cache staged ps cache' s')
    (hfiles : ∀ file ∈ files, ∃ obj, s₀.get W.toPlatform file.2 = some obj)
    {p : NewSchema × List (Text × FileOutcome)} (hp : p ∈ ps) :
    ComeTo W s₀ s' p.1 files p.2 := by
  obtain ⟨s₁, c₁, c₂, s₂, hs₁, -, hout, hs₂⟩ := h.exists_changes hp
  exact (hout.comeTo hs₁.le hfiles).imp fun _ _ hq => ⟨hq.1, hq.2.mono hs₂⟩

theorem ComeTo.exists_of_mem (h : ComeTo W s₀ s' n files os) {q : Text × FileOutcome}
    (hq : q ∈ os) : ∃ file ∈ files, q.1 = file.1 ∧ ComesTo W s₀ n file s' q.2 := by
  induction h with
  | nil => cases hq
  | cons hfile _ ih =>
    obtain rfl | hq := List.mem_cons.1 hq
    · exact ⟨_, List.mem_cons_self, hfile⟩
    · obtain ⟨f, hf, hq⟩ := ih hq
      exact ⟨f, List.mem_cons_of_mem _ hf, hq⟩

theorem ComeTo.exists_of_file (h : ComeTo W s₀ s' n files os) (hfile : file ∈ files) :
    ∃ o, (file.1, o) ∈ os ∧ ComesTo W s₀ n file s' o := by
  induction h with
  | nil => cases hfile
  | @cons _ q _ _ hq _ ih =>
    obtain rfl | hfile := List.mem_cons.1 hfile
    · obtain ⟨hpath, hq⟩ := hq
      exact ⟨q.2, hpath ▸ List.mem_cons_self, hq⟩
    · obtain ⟨o, ho, hq⟩ := ih hfile
      exact ⟨o, List.mem_cons_of_mem _ ho, hq⟩

theorem ComeTo.map_fst (h : ComeTo W s₀ s' n files os) :
    os.map Prod.fst = files.map Prod.fst := by
  induction h with
  | nil => rfl
  | cons hq _ ih => rw [List.map_cons, List.map_cons, ih, hq.1]

/-- **Of each file that is behind its schema something comes**: it is rebuilt, or it could not
be. -/
theorem ComeTo.countP_add_countP (h : ComeTo W s₀ s' n files os) :
    (os.countP fun q => q.2.isRebuilt) + (os.countP fun q => q.2.isFailed) =
      files.countP fun file => s₀.isBehind W n (file.1, ⟨.manifest, file.2⟩) := by
  induction h with
  | nil => rfl
  | @cons file q _ _ hq _ ih =>
    rw [List.countP_cons, List.countP_cons, List.countP_cons, ← ih]
    obtain ⟨-, hq⟩ := hq
    have hone : (if q.2.isRebuilt then 1 else 0) + (if q.2.isFailed then 1 else 0) =
        if s₀.isBehind W n (file.1, ⟨.manifest, file.2⟩) then 1 else 0 := by
      generalize q.2 = o at hq
      cases hq with
      | unreadable hnone =>
        simp [FileOutcome.isRebuilt, FileOutcome.isFailed, Store.isBehind, hnone]
      | @unrelated m hm hskip =>
        have hskip : m.fileType = n.fileType → m.schemaHash = n.hash := fun heq =>
          hskip.resolve_left (not_not.2 heq)
        simpa [FileOutcome.isRebuilt, FileOutcome.isFailed, Store.isBehind, hm] using hskip
      | failed hm htype hhash =>
        simp [FileOutcome.isRebuilt, FileOutcome.isFailed, Store.isBehind, hm, htype, hhash]
      | rebuilt hm htype hhash =>
        simp [FileOutcome.isRebuilt, FileOutcome.isFailed, Store.isBehind, hm, htype, hhash]
    omega

end Comes

/-! ### What is loaded -/

section Loaded

variable {W env} {full : Prop} {r : Repo} {s : Store} {heads : TextMap Schema}
  {leaves : List (Text × Entry)} {ps : PassOutcomes}

/-- The working tree does not replace a schema. -/
theorem getElem?_foldl_keep {t : Text} {schema : Schema} (schemas : List Schema)
    {m : TextMap Schema} (h : m[t]? = some schema) :
    (schemas.foldl (fun m s => if m.contains s.fileType then m else m.insert s.fileType s) m)[t]? =
      some schema := by
  induction schemas generalizing m with
  | nil => exact h
  | cons s schemas ih =>
    rw [List.foldl_cons]
    split_ifs with hhas
    · exact ih h
    · refine ih ?_
      rw [TextMap.getElem?_insert, if_neg, h]
      rintro rfl
      rw [Std.ExtTreeMap.getElem?_eq_none (by simpa using hhas)] at h
      cases h

theorem loaded_of_heads (hheads : r.headSchemas W = .ok heads) {loaded : TextMap Schema}
    (hload : r.loadAllSchemas W env = .ok loaded) {t : Text} {schema : Schema}
    (h : heads[t]? = some schema) : loaded[t]? = some schema := by
  obtain ⟨o, ho, hheads⟩ := except_bind_eq_ok.1 hheads
  obtain ⟨o', ho', hload⟩ := except_bind_eq_ok.1 hload
  cases ho.symm.trans ho'
  cases o with
  | none =>
    cases hheads
    cases hload
    exact getElem?_foldl_keep _ h
  | some root =>
    obtain ⟨committed, hcommitted, hheads⟩ := except_bind_eq_ok.1 hheads
    obtain ⟨committed', hcommitted', hload⟩ := except_bind_eq_ok.1 hload
    cases hcommitted.symm.trans hcommitted'
    cases hheads
    cases hload
    exact getElem?_foldl_keep _ h

theorem loadAllSchemas_of_passInputs {ctx : PassContext} {files : List (Text × Hash)}
    {loaded : TextMap Schema} (h : r.passInputs W env = .ok (loaded, ctx, files)) :
    r.loadAllSchemas W env = .ok loaded := by
  obtain ⟨loaded', hload, h⟩ := except_bind_eq_ok.1 h
  obtain ⟨_, -, h⟩ := except_bind_eq_ok.1 h
  obtain ⟨_, -, h⟩ := except_bind_eq_ok.1 h
  obtain ⟨_, -, h⟩ := except_bind_eq_ok.1 h
  cases h
  exact hload

/-- **A staged schema that differs from HEAD's** is gone through, unless it is masked. -/
theorem PassOf.masked_or_mem (hps : PassOf W env r ps s) {n : NewSchema}
    (hn : Changes W heads r.store (Repo.stagedSchemas (env.order r.index)) n) :
    r.Masked W env n ∨ ∃ p ∈ ps, p.1.fileType = n.fileType ∧ p.1.hash = n.hash ∧
      p.1.bytes = n.bytes := by
  obtain ⟨x, hx, o, schema, hget, hparse, -, rfl⟩ := hn
  cases hps with
  | kept h =>
    rw [h] at hx
    cases hx
  | @passed loaded _ _ _ _ _ hinputs hpasses =>
    by_cases hsame : loaded[x.1]?.any (schemasEqual schema) = true
    · exact .inl ⟨loaded, loadAllSchemas_of_passInputs hinputs, hsame⟩
    · obtain ⟨p, hp, heq⟩ := List.mem_map.1
        (hpasses.mem_of_changes (le_refl _) ⟨x, hx, o, schema, hget, hparse, hsame, rfl⟩)
      exact .inr ⟨p, hp, by rw [heq], by rw [heq], by rw [heq]⟩

/-- A manifest that is rebuilt against a blob names it. -/
theorem schemaHash_of_changes {staged : List (Text × Hash)}
    (hblobs : ∀ x ∈ staged, ∃ bytes, s.get W.toPlatform x.2 = some ⟨.blob, bytes⟩) {n : NewSchema}
    (hn : Changes W heads s staged n) : schemaHash W n.bytes = n.hash := by
  obtain ⟨x, hx, o, schema, hget, -, -, rfl⟩ := hn
  obtain ⟨bytes, hblob⟩ := hblobs x hx
  cases hget.symm.trans hblob
  exact Store.hashOf_of_get hblob

/-- The types that are gone through are different. -/
theorem PassOf.nodup_types (hps : PassOf W env r ps s) (hr : r.Orderly W full) :
    (ps.map fun p => p.1.fileType).Nodup := by
  cases hps with
  | kept => exact List.nodup_nil
  | passed _ hpasses => exact hpasses.types_sublist.nodup (nodup_stagedSchemas hr.staged)

/-- Each is of a staged schema that is not masked. -/
theorem PassOf.exists_staged (hps : PassOf W env r ps s) (hr : r.Orderly W full)
    {p : NewSchema × List (Text × FileOutcome)} (hp : p ∈ ps) :
    ∃ loaded, r.loadAllSchemas W env = .ok loaded ∧
      Changes W loaded r.store (Repo.stagedSchemas (env.order r.index)) p.1 := by
  cases hps with
  | kept => cases hp
  | passed hinputs hpasses =>
    obtain ⟨s₁, _, _, _, hs₁, ⟨x, hx, o, schema, hget, hparse, hdiff, heq⟩, -⟩ :=
      hpasses.exists_changes hp
    obtain ⟨o', hold⟩ := hr.staged.exists_get_of_mem hx
    exact ⟨_, loadAllSchemas_of_passInputs hinputs,
      ⟨x, hx, o, schema, hs₁.get_of_some hold hget, hparse, hdiff, heq⟩⟩

/-- **What is gone through differs from HEAD's schema.** -/
theorem PassOf.exists_changes (hps : PassOf W env r ps s) (hr : r.Orderly W full)
    (hheads : r.headSchemas W = .ok heads) {p : NewSchema × List (Text × FileOutcome)}
    (hp : p ∈ ps) : ∃ n, Changes W heads r.store (Repo.stagedSchemas (env.order r.index)) n ∧
      n.fileType = p.1.fileType ∧ n.hash = p.1.hash := by
  obtain ⟨loaded, hload, x, hx, o, schema, hget, hparse, hdiff, heq⟩ := hps.exists_staged hr hp
  refine ⟨⟨x.1, x.2, schema, o.content, heads[x.1]?⟩,
    ⟨x, hx, o, schema, hget, hparse, fun hsame => hdiff ?_, rfl⟩, by rw [heq], by rw [heq]⟩
  obtain ⟨old, hold, hsame⟩ := Option.any_eq_true _ _ |>.1 hsame
  rw [loaded_of_heads hheads hload hold]
  exact hsame

/-- A masked schema is not gone through. -/
theorem PassOf.ne_of_masked (hps : PassOf W env r ps s) (hr : r.Orderly W full) {n : NewSchema}
    (hn : Changes W heads r.store (Repo.stagedSchemas (env.order r.index)) n)
    (hmasked : r.Masked W env n) {p : NewSchema × List (Text × FileOutcome)} (hp : p ∈ ps) :
    p.1.fileType ≠ n.fileType := by
  intro htype
  obtain ⟨loaded, hload, x, hx, o, schema, hget, hparse, hdiff, heq⟩ := hps.exists_staged hr hp
  obtain ⟨y, hy, o', schema', hget', hparse', -, rfl⟩ := hn
  rw [heq] at htype
  obtain rfl := List.inj_on_of_nodup_map (nodup_stagedSchemas hr.staged) hx hy htype
  cases hget.symm.trans hget'
  cases hparse.symm.trans hparse'
  obtain ⟨loaded', hload', hsame⟩ := hmasked
  cases hload.symm.trans hload'
  exact hdiff hsame

/-- The outcomes are those of HEAD's manifests. -/
theorem PassOf.comeTo (hps : PassOf W env r ps s) (hr : r.Orderly W full)
    {files : List (Text × Hash)} (hfiles : r.headManifests W = .ok files)
    {p : NewSchema × List (Text × FileOutcome)} (hp : p ∈ ps) :
    ComeTo W r.store s p.1 files p.2 := by
  cases hps with
  | kept => cases hp
  | passed hinputs hpasses =>
    cases hfiles.symm.trans (Repo.headManifests_of_passInputs hinputs)
    exact hpasses.comeTo (fun file hfile => hr.exists_get_of_mem_files hfiles hfile) hp

end Loaded

/-! ### The tree of the commit -/

section Tree

variable {W env} {full : Prop} {r r' : Repo} {commit : Hash} {summaries : List ReprobeSummary}
  {idx : Index} {s : Store} {head : Option Hash} {L M : Leaves Text Entry} {root : Hash}
  {leaves : List (Text × Entry)} {files : List (Text × Hash)} {os : List (Text × FileOutcome)}

theorem Repo.headManifests_of_headEntries (h : r.headEntries W = .ok leaves) :
    r.headManifests W = .ok (leaves.filterMap fun l =>
      if l.2.mode = .manifest then some (l.1, l.2.hash) else none) := by
  obtain ⟨o, ho, h⟩ := except_bind_eq_ok.1 h
  refine except_bind_eq_ok.2 ⟨o, ho, ?_⟩
  cases o with
  | none =>
    cases h
    rfl
  | some root => exact except_bind_eq_ok.2 ⟨leaves, h, rfl⟩

/-- A file of the pass is a leaf that is a manifest. -/
theorem mem_files_iff (hleaves : r.headEntries W = .ok leaves)
    (hfiles : r.headManifests W = .ok files) {file : Text × Hash} :
    file ∈ files ↔ (file.1, ⟨.manifest, file.2⟩) ∈ leaves := by
  cases hfiles.symm.trans (Repo.headManifests_of_headEntries hleaves)
  rw [List.mem_filterMap]
  constructor
  · rintro ⟨⟨path, mode, hash⟩, hmem, hfile⟩
    split_ifs at hfile with hmode
    cases hfile
    obtain rfl : mode = .manifest := hmode
    exact hmem
  · exact fun hmem => ⟨_, hmem, if_pos rfl⟩

/-- HEAD's leaves have paths of their own. -/
theorem Repo.Orderly.nodup_headEntries (hr : r.Orderly W full)
    (hleaves : r.headEntries W = .ok leaves) : (leaves.map Prod.fst).Nodup := by
  obtain ⟨o, ho, hleaves⟩ := except_bind_eq_ok.1 hleaves
  cases o with
  | none =>
    cases hleaves
    exact List.nodup_nil
  | some top =>
    obtain ⟨L, hL⟩ := hr.headTree (mapError_eq_ok.1 ho) top rfl
    exact nodup_walk hL.rootAt.1 hleaves

/-- **HEAD's leaves** are those the commit starts from. -/
theorem CommitOf.mem_leaves (h : CommitOf W env r r' commit summaries idx s head L M root)
    (hr : r.Orderly W full) (hC : r'.store.CollisionFree W.toPlatform)
    (hleaves : r.headEntries W = .ok leaves) {path : Text} {e : Entry} :
    (path, e) ∈ leaves ↔ ∃ q, L q = some e ∧ path = joinWith '/' q ∧
      split W.toPlatform path = .ok q := by
  have hle : r.store ≤ s := h.reprobed.addsManifests.le
  obtain ⟨o, ho, hleaves⟩ := except_bind_eq_ok.1 hleaves
  rw [mapError_eq_ok] at ho
  cases h.headTree.symm.trans (Repo.headTree_mono hle ho)
  obtain ⟨L', hL'⟩ := hr.exists_leaves ho
  obtain rfl : L' = L := RootAt.det (fun _ => Cas.mem_mono hle) (fun _ => id) (hC.down h.le) hL'
    h.before
  cases head with
  | none =>
    cases hleaves
    obtain rfl : L' = Leaves.empty := hL'
    simp [Leaves.empty]
  | some top => exact mem_walk_iff hL'.1 hleaves

variable (h : CommitOf W env r r' commit summaries (rebuiltIn os r.index) s head L M root)
  (hr : r.Orderly W full) (hC : r'.store.CollisionFree W.toPlatform)
  (hleaves : r.headEntries W = .ok leaves) (hapart : r.NotNested W leaves)
  (hos : ∀ path hash, (path, .rebuilt hash) ∈ os → ∃ old, (path, ⟨.manifest, old⟩) ∈ leaves)
include h hr hC hleaves hapart hos

/-- **What a commit puts at or above a file that is not staged** is its rebuilt manifest. -/
theorem edit_above_leaf {leaf : Text × Entry} (hleaf : leaf ∈ leaves)
    (hfree : r.Unstaged W leaf.1) {parts : List Text}
    (hsplit : split W.toPlatform leaf.1 = .ok parts) {f : Edit Text Entry}
    (hf : f ∈ (env.order (rebuiltIn os r.index)).map (edit W.toPlatform s))
    (habove : f.1 <+: parts) : ∃ hash, (leaf.1, .rebuilt hash) ∈ os ∧
      f = edit W.toPlatform s ⟨leaf.1, .upsert, some hash⟩ := by
  obtain ⟨c, hc, rfl⟩ := List.mem_map.1 hf
  obtain ⟨⟨p, c'⟩, hmem, rfl⟩ := List.mem_map.1 ((env.order_perm _).mem_iff.1 hc)
  have hget := TextMap.mem_toList.1 hmem
  obtain ⟨rfl, happlicable⟩ := h.orderly p c' hget
  obtain ⟨ps, hsplit', -⟩ := happlicable.split
  have hedit : (edit W.toPlatform s c').1 = ps := by simp [edit, hsplit', Except.toOption]
  rw [hedit] at habove
  have hover : Over W c'.path leaf.1 := ⟨_, _, hsplit', hsplit, habove⟩
  obtain hsame | ⟨hash, hbuilt, hnew⟩ := getElem?_rebuiltIn os r.index c'.path
  · -- a staged path is neither above nor below the file, and is not its path
    have hstaged := mem_of_staged (hsame ▸ hget)
    exact absurd (hapart _ hstaged leaf hleaf (.inl hover)) (hfree _ hstaged)
  · -- HEAD's leaves are not above each other
    obtain ⟨old, hold⟩ := hos _ _ hbuilt
    obtain ⟨q, hq, hpath, hq'⟩ := (h.mem_leaves hr hC hleaves).1 hold
    obtain ⟨q₂, hq₂, hpath₂, hq₂'⟩ := (h.mem_leaves hr hC hleaves).1 hleaf
    cases hsplit'.symm.trans hq'
    cases hsplit.symm.trans hq₂'
    obtain rfl := h.before.prefixFree _ _ habove (hq ▸ Option.some_ne_none _)
      (hq₂ ▸ Option.some_ne_none _)
    have heq : c'.path = leaf.1 := hpath.trans hpath₂.symm
    rw [hget, Option.some.injEq] at hnew
    rw [heq] at hbuilt hnew
    exact ⟨hash, hbuilt, by rw [hnew]⟩

/-- **A file that is neither staged nor rebuilt** has its entry. -/
theorem getAt_of_kept {leaf : Text × Entry} (hleaf : leaf ∈ leaves) (hfree : r.Unstaged W leaf.1)
    (hkept : ∀ hash, (leaf.1, .rebuilt hash) ∉ os) :
    getAt W.toPlatform r'.store none leaf.1 root = .ok (some leaf.2) := by
  obtain ⟨q, hq, -, hsplit⟩ := (h.mem_leaves hr hC hleaves).1 hleaf
  have hM : M q = some leaf.2 := (Leaves.applyAll_frame h.edits fun f hf habove => by
    obtain ⟨hash, hbuilt, -⟩ := edit_above_leaf h hr hC hleaves hapart hos hleaf hfree hsplit hf
      habove
    exact hkept hash hbuilt).trans hq
  exact h.after.getAt_of_leaf hsplit hM

/-- **A file that is rebuilt and not staged** has its new manifest. -/
theorem getAt_of_rebuilt {path : Text} {old hash : Hash}
    (hleaf : (path, ⟨.manifest, old⟩) ∈ leaves) (hfree : r.Unstaged W path)
    (hbuilt : (path, .rebuilt hash) ∈ os)
    (honly : ∀ hash', (path, .rebuilt hash') ∈ os → hash' = hash)
    (hmode : storedMode W.toPlatform s hash = .ok .manifest) :
    getAt W.toPlatform r'.store none path root = .ok (some ⟨.manifest, hash⟩) := by
  obtain ⟨q, -, -, hsplit⟩ := (h.mem_leaves hr hC hleaves).1 hleaf
  have hidx : (rebuiltIn os r.index)[path]? = some ⟨path, .upsert, some hash⟩ := by
    obtain ⟨hash', hbuilt', hget⟩ := getElem?_rebuiltIn_of_mem hbuilt r.index
    rw [hget, honly hash' hbuilt']
  have hedit : edit W.toPlatform s ⟨path, .upsert, some hash⟩ = (q, some ⟨.manifest, hash⟩) :=
    edit_of_upsert hsplit rfl rfl hmode
  have hmem := mem_edits W env s hidx
  rw [hedit] at hmem
  have hM : M q = some ⟨.manifest, hash⟩ := Leaves.applyAll_apply h.edits hmem fun f hf habove => by
    obtain ⟨hash', hbuilt', rfl⟩ := edit_above_leaf h hr hC hleaves hapart hos hleaf hfree hsplit hf
      habove
    rw [honly hash' hbuilt', hedit]
  exact h.after.getAt_of_leaf hsplit hM

end Tree

/-! ### Manifests that can be read -/

section Readable

variable {W} {s s' : Store} {m m' : Manifest} {bytes : Bytes}

theorem manifest?_mono (hle : s ≤ s') {h : Hash} (hm : s.manifest? W h = some m) :
    s'.manifest? W h = some m := by
  obtain ⟨o, hget, hparse⟩ := Option.bind_eq_some_iff.1 hm
  exact manifest?_eq_some (Store.get_mono hle hget) (toOption_eq_some.1 hparse)

/-- **A manifest that was written** is read back unless it has a delete character. -/
theorem manifest?_written_iff (hW : W.Lawful) (hbytes : m'.serialize W = .ok bytes)
    (hC : s.CollisionFree W.toPlatform) (hmem : ⟨.manifest, bytes⟩ ∈ s.objects) :
    s.manifest? W (hashOf W.toPlatform .manifest bytes) = some m ↔
      s.Readable W (hashOf W.toPlatform .manifest bytes) ∧ m = m'.normal W := by
  have hget : s.get W.toPlatform (hashOf W.toPlatform .manifest bytes) =
      some ⟨.manifest, bytes⟩ := Cas.find_of_mem hC hmem
  obtain ⟨t, hbytes, hparse⟩ := Manifest.parse_iff hW hbytes
  rw [Store.manifest?, hget, Option.bind_some, toOption_eq_some, hparse]
  refine and_congr_left fun _ => ⟨fun hdel o t' hget' htext => ?_, fun hread =>
    hread _ t hget hbytes⟩
  cases hget.symm.trans hget'
  have htext : utf8 t' = utf8 t := htext.symm.trans hbytes
  rw [Option.some.inj (((fromUtf8_utf8 t').symm.trans (congrArg _ htext)).trans (fromUtf8_utf8 t))]
  exact hdel

theorem storedMode_written (hC : s.CollisionFree W.toPlatform)
    (hmem : ⟨.manifest, bytes⟩ ∈ s.objects) :
    storedMode W.toPlatform s (hashOf W.toPlatform .manifest bytes) = .ok .manifest := by
  have hget : s.get W.toPlatform (hashOf W.toPlatform .manifest bytes) =
      some ⟨.manifest, bytes⟩ := Cas.find_of_mem hC hmem
  rw [storedMode, hget]

end Readable

/-! ### The files of a type -/

section Files

variable {W env} {full : Prop} {r : Repo} {s : Store} {heads : TextMap Schema}
  {leaves : List (Text × Entry)} {ps : PassOutcomes} {path : Text} {old : Hash} {m : Manifest}
  {p : NewSchema × List (Text × FileOutcome)}

/-- What the pass of a commit makes of its index. -/
theorem Reprobed.exists_passOf {idx : Index} {summaries : List ReprobeSummary}
    (h : Reprobed W env r r.index idx summaries s) (hdefer : env.deferReprobe = false) :
    ∃ ps, PassOf W env r ps s ∧ AllRecordable ps ∧
      idx = rebuiltIn (ps.flatMap Prod.snd) r.index ∧ summaries = ps.map summaryOf := by
  cases h with
  | kept h =>
    refine ⟨[], .kept (h.resolve_left ?_), by simp [AllRecordable], rfl, rfl⟩
    rw [hdefer]
    exact Bool.false_ne_true
  | passed _ hinputs hpasses hall => exact ⟨_, .passed hinputs hpasses, hall, rfl, rfl⟩

variable (hps : PassOf W env r ps s) (hr : r.Orderly W full)
  (hleaves : r.headEntries W = .ok leaves)
include hps hr hleaves

/-- The paths of the outcomes are different. -/
theorem PassOf.nodup_outcomes (hp : p ∈ ps) : (p.2.map Prod.fst).Nodup := by
  have hfiles := Repo.headManifests_of_headEntries hleaves
  rw [(hps.comeTo hr hfiles hp).map_fst]
  exact hr.nodup_headManifests hfiles

/-- **A file that is rebuilt** is a manifest of HEAD of the type. -/
theorem PassOf.exists_file (hp : p ∈ ps) {hash : Hash} (hq : (path, .rebuilt hash) ∈ p.2) :
    ∃ old, (path, ⟨.manifest, old⟩) ∈ leaves ∧
      ∃ (m m' : Manifest) (bytes : Bytes), r.store.manifest? W old = some m ∧
        m.fileType = p.1.fileType ∧ m'.serialize W = .ok bytes ∧
        ⟨.manifest, bytes⟩ ∈ s.objects ∧ hash = hashOf W.toPlatform .manifest bytes := by
  have hfiles := Repo.headManifests_of_headEntries hleaves
  obtain ⟨⟨path', old⟩, hfile, rfl, hcomes⟩ := (hps.comeTo hr hfiles hp).exists_of_mem hq
  refine ⟨old, (mem_files_iff hleaves hfiles).1 hfile, ?_⟩
  cases hcomes with
  | rebuilt hm htype _ _ _ hbytes hobj => exact ⟨_, _, _, hm, htype, hbytes, hobj, rfl⟩

/-- **A file of a type has one outcome**, that of its type. -/
theorem PassOf.eq_rebuilt (hp : p ∈ ps) (hleaf : (path, ⟨.manifest, old⟩) ∈ leaves)
    (hm : r.store.manifest? W old = some m) (htype : m.fileType = p.1.fileType) {o : FileOutcome}
    (ho : (path, o) ∈ p.2) {hash : Hash} (hmem : (path, .rebuilt hash) ∈ ps.flatMap Prod.snd) :
    o = .rebuilt hash := by
  obtain ⟨p', hp', hq⟩ := List.mem_flatMap.1 hmem
  obtain ⟨old', hleaf', m', _, _, hm', htype', -⟩ := hps.exists_file hr hleaves hp' hq
  have hnodup := hr.nodup_headEntries hleaves
  cases List.inj_on_of_nodup_map hnodup hleaf hleaf' rfl
  cases hm.symm.trans hm'
  obtain rfl := List.inj_on_of_nodup_map (hps.nodup_types hr) hp hp' (htype.symm.trans htype')
  cases List.inj_on_of_nodup_map (hps.nodup_outcomes hr hleaves hp) ho hq rfl
  rfl

/-- **What becomes of a file of a type.** -/
theorem PassOf.exists_outcome (hp : p ∈ ps) (hleaf : (path, ⟨.manifest, old⟩) ∈ leaves) :
    ∃ o, (path, o) ∈ p.2 ∧ ComesTo W r.store p.1 (path, old) s o := by
  have hfiles := Repo.headManifests_of_headEntries hleaves
  have hfile : (path, old) ∈ leaves.filterMap _ := (mem_files_iff hleaves hfiles).2 hleaf
  exact (hps.comeTo hr hfiles hp).exists_of_file hfile

/-- A file that is skipped and can be read is one that could not be rebuilt. -/
theorem PassOf.isFailed_iff (hp : p ∈ ps) {q : Text × FileOutcome} (hq : q ∈ p.2) :
    (q.2.isFailure = true ∧ (leaves.any fun leaf =>
      leaf.1 = q.1 && r.store.hasType W p.1.fileType leaf) = true) ↔ q.2.isFailed = true := by
  have hfiles := Repo.headManifests_of_headEntries hleaves
  obtain ⟨⟨path, old⟩, hfile, hpath, hcomes⟩ := (hps.comeTo hr hfiles hp).exists_of_mem hq
  have hleaf := (mem_files_iff hleaves hfiles).1 hfile
  have hany : (leaves.any fun leaf => leaf.1 = q.1 && r.store.hasType W p.1.fileType leaf) =
      r.store.hasType W p.1.fileType (path, ⟨.manifest, old⟩) := by
    rw [Bool.eq_iff_iff, List.any_eq_true]
    constructor
    · rintro ⟨leaf, hmem, htype⟩
      obtain ⟨heq, htype⟩ := Bool.and_eq_true_iff.1 htype
      obtain rfl := List.inj_on_of_nodup_map (hr.nodup_headEntries hleaves) hmem hleaf
        ((of_decide_eq_true heq).trans hpath)
      exact htype
    · exact fun htype => ⟨_, hleaf, by rw [htype, hpath]; simp⟩
  rw [hany]
  generalize q.2 = o at hcomes
  cases hcomes with
  | unreadable hnone =>
    simp [FileOutcome.isFailure, FileOutcome.isFailed, Store.hasType, hnone]
  | unrelated | rebuilt => simp [FileOutcome.isFailure, FileOutcome.isFailed]
  | failed hm htype =>
    simp [FileOutcome.isFailure, FileOutcome.isFailed, Store.hasType, hm, htype]

/-- **Each file that was behind its schema is counted or skipped.** -/
theorem PassOf.counted (hall : AllRecordable ps) (hp : p ∈ ps) :
    countOf p.1.fileType (ps.map summaryOf) +
      ((skippedOf p.1.fileType (ps.map summaryOf)).countP fun path =>
        leaves.any fun leaf => leaf.1 = path && r.store.hasType W p.1.fileType leaf) =
      leaves.countP (r.store.isBehind W p.1) := by
  have hreported := reported_map_summaryOf (hps.nodup_types hr) hp
  have hskipped : (summaryOf p).skipped.map ReprobeSkip.path =
      (p.2.filter fun q => q.2.isFailure).map Prod.fst := skipped_paths (hall p hp)
  have hbehind : leaves.countP (r.store.isBehind W p.1) = (leaves.filterMap fun l =>
      if l.2.mode = .manifest then some (l.1, l.2.hash) else none).countP fun file =>
        r.store.isBehind W p.1 (file.1, ⟨.manifest, file.2⟩) := by
    rw [List.countP_filterMap]
    refine List.countP_congr fun leaf _ => ?_
    obtain ⟨path, mode, hash⟩ := leaf
    by_cases hmode : mode = .manifest
    · simp [hmode]
    · simp [Store.isBehind, hmode]
  have hfailed : (((p.2.filter fun q => q.2.isFailure).map Prod.fst).countP fun path =>
      leaves.any fun leaf => leaf.1 = path && r.store.hasType W p.1.fileType leaf) =
        p.2.countP fun q => q.2.isFailed := by
    rw [List.countP_map, List.countP_filter]
    refine List.countP_congr fun q hq => ?_
    rw [← hps.isFailed_iff hr hleaves hp hq, Bool.and_eq_true, and_comm]
    rfl
  rw [hbehind, ← (hps.comeTo hr (Repo.headManifests_of_headEntries hleaves) hp).countP_add_countP,
    countOf, skippedOf, hreported, Option.map_some, Option.map_some, Option.getD_some,
    Option.getD_some, hskipped, hfailed]
  rfl

end Files

/-! ### Schemas that reach their files -/

section Reach

variable {W env} {full : Prop} {r r' : Repo} {commit : Hash} {s : Store} {head : Option Hash}
  {L M : Leaves Text Entry} {root : Hash} {heads : TextMap Schema} {leaves : List (Text × Entry)}
  {ps : PassOutcomes} {path : Text} {old : Hash} {m : Manifest} {n : NewSchema}
  {p : NewSchema × List (Text × FileOutcome)}

variable (h : CommitOf W env r r' commit (ps.map summaryOf)
    (rebuiltIn (ps.flatMap Prod.snd) r.index) s head L M root)
  (hr : r.Orderly W full) (hC : r'.store.CollisionFree W.toPlatform)
  (hleaves : r.headEntries W = .ok leaves) (hapart : r.NotNested W leaves)
  (hps : PassOf W env r ps s)
include h hr hC hleaves hapart hps

/-- What is kept, of the leaves. -/
theorem PassOf.getAt_of_kept {leaf : Text × Entry} (hleaf : leaf ∈ leaves)
    (hfree : r.Unstaged W leaf.1)
    (hkept : ∀ hash, (leaf.1, .rebuilt hash) ∉ ps.flatMap Prod.snd) :
    getAt W.toPlatform r'.store none leaf.1 root = .ok (some leaf.2) := by
  refine Omp.getAt_of_kept h hr hC hleaves hapart (fun path hash hmem => ?_) hleaf hfree hkept
  obtain ⟨p, hp, hq⟩ := List.mem_flatMap.1 hmem
  obtain ⟨old, hold, -⟩ := hps.exists_file hr hleaves hp hq
  exact ⟨old, hold⟩

/-- **What is rebuilt**, of the leaves. -/
theorem PassOf.getAt_of_rebuilt (hp : p ∈ ps) (hleaf : (path, ⟨.manifest, old⟩) ∈ leaves)
    (hfree : r.Unstaged W path) (hm : r.store.manifest? W old = some m)
    (htype : m.fileType = p.1.fileType) {bytes : Bytes} (hmem : ⟨.manifest, bytes⟩ ∈ s.objects)
    (hbuilt : (path, .rebuilt (hashOf W.toPlatform .manifest bytes)) ∈ p.2) :
    getAt W.toPlatform r'.store none path root =
      .ok (some ⟨.manifest, hashOf W.toPlatform .manifest bytes⟩) := by
  refine Omp.getAt_of_rebuilt h hr hC hleaves hapart (fun path hash hmem => ?_) hleaf hfree
    (List.mem_flatMap.2 ⟨p, hp, hbuilt⟩) (fun hash hmem' => ?_)
    (storedMode_written (hC.down h.le) hmem)
  · obtain ⟨p, hp, hq⟩ := List.mem_flatMap.1 hmem
    obtain ⟨old, hold, -⟩ := hps.exists_file hr hleaves hp hq
    exact ⟨old, hold⟩
  · cases hps.eq_rebuilt hr hleaves hp hleaf hm htype hbuilt hmem'
    rfl

/-- A file with an outcome that is no rebuild is kept. -/
theorem PassOf.getAt_of_outcome (hp : p ∈ ps) (hleaf : (path, ⟨.manifest, old⟩) ∈ leaves)
    (hfree : r.Unstaged W path) (hm : r.store.manifest? W old = some m)
    (htype : m.fileType = p.1.fileType) {o : FileOutcome} (ho : (path, o) ∈ p.2)
    (hnot : o.isRebuilt = false) :
    getAt W.toPlatform r'.store none path root = .ok (some ⟨.manifest, old⟩) := by
  refine hps.getAt_of_kept h hr hC hleaves hapart hleaf hfree fun hash hmem => ?_
  rw [hps.eq_rebuilt hr hleaves hp hleaf hm htype ho hmem] at hnot
  cases hnot

/-- A file of a type that is not gone through is kept. -/
theorem PassOf.getAt_of_masked (hmasked : ∀ p ∈ ps, p.1.fileType ≠ m.fileType)
    (hleaf : (path, ⟨.manifest, old⟩) ∈ leaves) (hfree : r.Unstaged W path)
    (hm : r.store.manifest? W old = some m) :
    getAt W.toPlatform r'.store none path root = .ok (some ⟨.manifest, old⟩) := by
  refine hps.getAt_of_kept h hr hC hleaves hapart hleaf hfree fun hash hmem => ?_
  obtain ⟨p, hp, hq⟩ := List.mem_flatMap.1 hmem
  obtain ⟨old', hold, m', _, _, hm', htype, -⟩ := hps.exists_file hr hleaves hp hq
  cases List.inj_on_of_nodup_map (hr.nodup_headEntries hleaves) hleaf hold rfl
  cases hm.symm.trans hm'
  exact hmasked p hp htype.symm

/-- **A file of a type that is gone through** is at the schema, or it is skipped. -/
theorem PassOf.reached (hW : W.Lawful) (hall : AllRecordable ps) (hp : p ∈ ps)
    (hschema : schemaHash W p.1.bytes = p.1.hash) (hleaf : (path, ⟨.manifest, old⟩) ∈ leaves)
    (hfree : r.Unstaged W path) (hm : r.store.manifest? W old = some m)
    (htype : m.fileType = p.1.fileType)
    (hread : ∀ hash, (path, .rebuilt hash) ∈ p.2 → r'.store.Readable W hash) :
    (∃ hash m', getAt W.toPlatform r'.store none path root = .ok (some ⟨.manifest, hash⟩) ∧
      r'.store.manifest? W hash = some m' ∧ m'.schemaHash = p.1.hash ∧
      m'.sourceHash = m.sourceHash) ∨
    ((skippedOf p.1.fileType (ps.map summaryOf)).count path = 1 ∧
      getAt W.toPlatform r'.store none path root = .ok (some ⟨.manifest, old⟩)) := by
  have hle : r.store ≤ r'.store := h.reprobed.addsManifests.le.trans h.le
  obtain ⟨o, ho, hcomes⟩ := hps.exists_outcome hr hleaves hp hleaf
  cases hcomes with
  | unreadable hnone => cases hm.symm.trans hnone
  | unrelated hm' hskip =>
    cases hm.symm.trans hm'
    exact .inl ⟨old, m, hps.getAt_of_outcome h hr hC hleaves hapart hp hleaf hfree hm htype ho rfl,
      manifest?_mono hle hm, hskip.resolve_left (not_not.2 htype), rfl⟩
  | failed =>
    refine .inr ⟨?_, hps.getAt_of_outcome h hr hC hleaves hapart hp hleaf hfree hm htype ho rfl⟩
    rw [skippedOf, reported_map_summaryOf (hps.nodup_types hr) hp]
    exact (recorded_summaryOf hp (hall p hp) (hps.nodup_outcomes hr hleaves hp) r.index).skipped
      _ ho rfl
  | @rebuilt m₀ m' bytes hm' _ _ hsource hschema' hbytes hmem =>
    cases hm.symm.trans hm'
    refine .inl ⟨_, m'.normal W, hps.getAt_of_rebuilt h hr hC hleaves hapart hp hleaf hfree hm htype
      hmem ho, ?_, hschema'.trans hschema, hsource⟩
    exact (manifest?_written_iff hW hbytes hC (Cas.mem_mono h.le hmem)).2 ⟨hread _ ho, rfl⟩

/-- **A file that is rebuilt and found at its schema** can be read. -/
theorem PassOf.readable (hW : W.Lawful) (hp : p ∈ ps) (hleaf : (path, ⟨.manifest, old⟩) ∈ leaves)
    (hfree : r.Unstaged W path) (hm : r.store.manifest? W old = some m)
    (htype : m.fileType = p.1.fileType) {m' : Manifest} {bytes : Bytes}
    (hbytes : m'.serialize W = .ok bytes) (hmem : ⟨.manifest, bytes⟩ ∈ s.objects)
    (hbuilt : (path, .rebuilt (hashOf W.toPlatform .manifest bytes)) ∈ p.2) {hash : Hash}
    {m₂ : Manifest} (hget : getAt W.toPlatform r'.store none path root =
      .ok (some ⟨.manifest, hash⟩)) (hm₂ : r'.store.manifest? W hash = some m₂) :
    r'.store.Readable W (hashOf W.toPlatform .manifest bytes) := by
  have hnew := hps.getAt_of_rebuilt h hr hC hleaves hapart hp hleaf hfree hm htype hmem hbuilt
  cases hget.symm.trans hnew
  exact ((manifest?_written_iff hW hbytes hC (Cas.mem_mono h.le hmem)).1 hm₂).1

end Reach

/-- **A schema that is staged reaches every file of its type and nothing else changes** exactly
when no schema that the working tree has masks files that are behind, and each manifest that is
rebuilt for a file that is not staged can be read. -/
theorem Repo.propagated_iff {W : World} (hW : W.Lawful) {env : Env} {r r' : Repo}
    {message : Text} {author : AuthorOverride} {res : Hash × List ReprobeSummary}
    {heads : TextMap Schema} {leaves : List (Text × Entry)}
    (hreach : (Repo.lts W).Reachable (fun r l => l.2.Clean W False r) Repo.init r)
    (hdefer : env.deferReprobe = false) (hheads : r.headSchemas W = .ok heads)
    (hleaves : r.headEntries W = .ok leaves)
    (hblobs : ∀ x ∈ Repo.stagedSchemas (env.order r.index), ∃ bytes,
      r.store.get W.toPlatform x.2 = some ⟨.blob, bytes⟩)
    (hapart : r.NotNested W leaves)
    (hrun : (Repo.locked ((Repo.commit W env message author).run (Action.op W))).run r =
      (.ok res, r'))
    (hC : r'.store.CollisionFree W.toPlatform) :
    ∃ root ps s, Repo.commitTree W r'.store res.1 = .ok root ∧ PassOf W env r ps s ∧
      (Propagated W env r heads leaves res.2 r'.store root ↔
        (∀ n, Changes W heads r.store (Repo.stagedSchemas (env.order r.index)) n →
          r.Masked W env n → ∀ leaf ∈ leaves, r.store.isBehind W n leaf = false) ∧
        ∀ p ∈ ps, ∀ (path : Text) hash, (path, .rebuilt hash) ∈ p.2 → r.Unstaged W path →
          r'.store.Readable W hash) := by
  have hle : r ≤ r' := Op.le_of_run hrun
  have hr : r.Orderly W False := Repo.orderly_of_reachable hreach (hC.down hle)
  obtain ⟨-, hrun⟩ := Repo.locked_eq_ok.1 hrun
  obtain ⟨commit, summaries⟩ := res
  obtain ⟨idx, s, head, L, M, root, h⟩ := hr.commitOf hrun hC
  obtain ⟨ps, hps, hall, rfl, hsum⟩ := h.reprobed.exists_passOf hdefer
  change summaries = ps.map summaryOf at hsum
  subst hsum
  refine ⟨root, ps, s, h.tree, hps, fun hprop => ⟨fun n hn hmasked leaf hleaf => ?_,
    fun p hp path hash hbuilt hfree => ?_⟩, fun hcond => ⟨fun n hn path old m hleaf hfree hm
      htype => ?_, fun n hn => ?_, fun leaf hleaf hfree hother => ?_⟩⟩
  · -- nothing is reported on the type
    have hnone : reported n.fileType (ps.map summaryOf) = none :=
      reported_eq_none fun p hp => hps.ne_of_masked hr hn hmasked hp
    have hcount := hprop.counted n hn
    rw [countOf, skippedOf, hnone] at hcount
    exact Bool.eq_false_iff.2 (List.countP_eq_zero.1 hcount.symm leaf hleaf)
  · obtain ⟨old, hleaf, m, m', bytes, hm, htype, hbytes, hmem, rfl⟩ :=
      hps.exists_file hr hleaves hp hbuilt
    obtain ⟨n, hn, htype', -⟩ := hps.exists_changes hr hheads hp
    obtain ⟨hash, m₂, hget, hm₂, -⟩ | ⟨-, hget⟩ :=
      hprop.reached n hn path old m hleaf hfree hm (htype.trans htype'.symm)
    · exact hps.readable h hr hC hleaves hapart hW hp hleaf hfree hm htype hbytes hmem hbuilt hget
        hm₂
    · exact hps.readable h hr hC hleaves hapart hW hp hleaf hfree hm htype hbytes hmem hbuilt hget
        (manifest?_mono (Repo.le_iff.1 hle) hm)
  · obtain hmasked | ⟨p, hp, htype', hhash', hbytes'⟩ := hps.masked_or_mem hn
    · -- the file is at the schema, and nothing of its type is rebuilt
      have hbehind := hcond.1 n hn hmasked _ hleaf
      have hhash : m.schemaHash = n.hash := by simpa [Store.isBehind, hm, htype] using hbehind
      refine .inl ⟨old, m, ?_, manifest?_mono (Repo.le_iff.1 hle) hm, hhash, rfl⟩
      exact hps.getAt_of_masked h hr hC hleaves hapart
        (fun p hp => htype ▸ hps.ne_of_masked hr hn hmasked hp) hleaf hfree hm
    · have hschema : schemaHash W p.1.bytes = p.1.hash := by
        rw [hbytes', hhash']
        exact schemaHash_of_changes hblobs hn
      rw [← htype', ← hhash']
      exact hps.reached h hr hC hleaves hapart hW hall hp hschema hleaf hfree hm
        (htype.trans htype'.symm) fun hash hbuilt => hcond.2 p hp path hash hbuilt hfree
  · obtain hmasked | ⟨p, hp, htype', hhash', -⟩ := hps.masked_or_mem hn
    · have hnone : reported n.fileType (ps.map summaryOf) = none :=
        reported_eq_none fun p hp => hps.ne_of_masked hr hn hmasked hp
      rw [countOf, skippedOf, hnone]
      refine (List.countP_eq_zero.2 fun leaf hleaf => ?_).symm
      exact Bool.eq_false_iff.1 (hcond.1 n hn hmasked leaf hleaf)
    · rw [isBehind_congr W htype'.symm hhash'.symm, ← htype']
      exact hps.counted hr hleaves hall hp
  · refine hps.getAt_of_kept h hr hC hleaves hapart hleaf hfree fun hash hmem => ?_
    obtain ⟨p, hp, hq⟩ := List.mem_flatMap.1 hmem
    obtain ⟨old, hold, m, _, _, hm, htype, -⟩ := hps.exists_file hr hleaves hp hq
    obtain ⟨n, hn, htype', -⟩ := hps.exists_changes hr hheads hp
    have hsame : leaf = (leaf.1, ⟨.manifest, old⟩) :=
      List.inj_on_of_nodup_map (hr.nodup_headEntries hleaves) hleaf hold rfl
    have hnot := hother n hn
    rw [hsame, Store.hasType, hm, htype'] at hnot
    simp [htype] at hnot

/-! ### A schema that reaches a file and one that does not -/

section Demo

/-- The files of the examples. -/
def demoPaths : List Text := ["a".toList, "schemas/note/schema.toml".toList]

/-- Only a schema is staged, and HEAD has no file but it and another one. -/
theorem notNested_of_paths {W : World} {r : Repo} {leaves : List (Text × Entry)}
    (hschema : split W.toPlatform "schemas/note/schema.toml".toList =
      .ok ["schemas".toList, "note".toList, "schema.toml".toList])
    (ha : split W.toPlatform "a".toList = .ok ["a".toList])
    (hindex : r.index.toList.map Prod.fst = ["schemas/note/schema.toml".toList])
    (hleaves : ∀ leaf ∈ leaves, leaf.1 ∈ demoPaths) : r.NotNested W leaves := by
  intro p hp leaf hleaf hover
  obtain rfl := List.mem_singleton.1 (hindex ▸ mem_paths_of_mem_index hp)
  have hself : Over W "schemas/note/schema.toml".toList "schemas/note/schema.toml".toList :=
    ⟨_, _, hschema, hschema, List.prefix_rfl⟩
  obtain heq | heq : leaf.1 = "a".toList ∨ leaf.1 = "schemas/note/schema.toml".toList := by
    simpa [demoPaths] using hleaves leaf hleaf
  · rw [heq] at hover
    obtain ⟨qs, ps, hqs, hps, hpre⟩ | ⟨qs, ps, hqs, hps, hpre⟩ := hover
    · cases hschema.symm.trans hqs
      cases ha.symm.trans hps
      exact absurd hpre (by decide)
    · cases ha.symm.trans hqs
      cases hschema.symm.trans hps
      exact absurd hpre (by decide)
  · rw [heq]
    exact ⟨hself, hself⟩

/-- The staged schemas are blobs. -/
def stagedBlobs (W : World) (env : Env) (r : Repo) : Bool :=
  (Repo.stagedSchemas (env.order r.index)).all fun x =>
    (r.store.get W.toPlatform x.2).any fun o => o.type = .blob

theorem exists_blob_of_stagedBlobs {W : World} {env : Env} {r : Repo}
    (h : stagedBlobs W env r = true) {x : Text × Hash}
    (hx : x ∈ Repo.stagedSchemas (env.order r.index)) :
    ∃ bytes, r.store.get W.toPlatform x.2 = some ⟨.blob, bytes⟩ := by
  obtain ⟨⟨type, bytes⟩, hget, htype⟩ := Option.any_eq_true _ _ |>.1 (List.all_eq_true.1 h x hx)
  obtain rfl : type = .blob := of_decide_eq_true htype
  exact ⟨bytes, hget⟩

theorem Repo.propagated_iff_demo : ∃ heads leaves res r' root ps s,
    (Repo.init.after twoSchemaWorld demoEnv pendingCalls).headSchemas twoSchemaWorld = .ok heads ∧
    (Repo.init.after twoSchemaWorld demoEnv pendingCalls).headEntries twoSchemaWorld = .ok leaves ∧
    commitRun (Repo.init.after twoSchemaWorld demoEnv pendingCalls) = (.ok res, r') ∧
    Repo.commitTree twoSchemaWorld r'.store res.1 = .ok root ∧
    PassOf twoSchemaWorld demoEnv (Repo.init.after twoSchemaWorld demoEnv pendingCalls) ps s ∧
    (Propagated twoSchemaWorld demoEnv (Repo.init.after twoSchemaWorld demoEnv pendingCalls)
        heads leaves res.2 r'.store root ↔
      (∀ n, Changes twoSchemaWorld heads
          (Repo.init.after twoSchemaWorld demoEnv pendingCalls).store
          (Repo.stagedSchemas (demoEnv.order
            (Repo.init.after twoSchemaWorld demoEnv pendingCalls).index)) n →
        (Repo.init.after twoSchemaWorld demoEnv pendingCalls).Masked twoSchemaWorld demoEnv n →
          ∀ leaf ∈ leaves, (Repo.init.after twoSchemaWorld demoEnv pendingCalls).store.isBehind
            twoSchemaWorld n leaf = false) ∧
      ∀ p ∈ ps, ∀ (path : Text) hash, (path, .rebuilt hash) ∈ p.2 →
        (Repo.init.after twoSchemaWorld demoEnv pendingCalls).Unstaged twoSchemaWorld path →
          r'.store.Readable twoSchemaWorld hash) := by
  obtain ⟨r, hr⟩ : ∃ r, r = Repo.init.after twoSchemaWorld demoEnv pendingCalls := ⟨_, rfl⟩
  have hreach : (Repo.lts twoSchemaWorld).Reachable
      (fun r l => l.2.Clean twoSchemaWorld False r) Repo.init r := by
    rw [hr]
    exact reachable_pendingCalls _
  obtain ⟨hheads, hentries, hpaths, hblobs, hindex, hok, hC⟩ :
      (r.headSchemas twoSchemaWorld).isOk = true ∧ (r.headEntries twoSchemaWorld).isOk = true ∧
      (r.headEntries twoSchemaWorld).toOption.all (fun leaves =>
        leaves.all fun leaf => leaf.1 ∈ demoPaths) = true ∧
      stagedBlobs twoSchemaWorld demoEnv r = true ∧
      r.index.toList.map Prod.fst = ["schemas/note/schema.toml".toList] ∧
      (commitRun r).1.isOk = true ∧ (commitRun r).2.store.CollisionFree demo := by
    rw [hr]
    decide +kernel
  rw [← hr]
  clear hr
  obtain ⟨heads, hheads⟩ := exists_eq_ok_of_isOk hheads
  obtain ⟨leaves, hleaves⟩ := exists_eq_ok_of_isOk hentries
  obtain ⟨res, hres⟩ := exists_eq_ok_of_isOk hok
  have hrun : commitRun r = (.ok res, (commitRun r).2) := Prod.ext hres rfl
  rw [hleaves] at hpaths
  have hapart : r.NotNested twoSchemaWorld leaves := notNested_of_paths split_schemaFile split_a
    hindex fun leaf hleaf => of_decide_eq_true (List.all_eq_true.1 hpaths leaf hleaf)
  have hW : twoSchemaWorld.Lawful := demoWorld_lawful _
  obtain ⟨root, ps, s, htree, hps, hiff⟩ := Repo.propagated_iff hW hreach rfl hheads hleaves
    (fun x hx => exists_blob_of_stagedBlobs hblobs hx) hapart hrun hC
  exact ⟨heads, leaves, res, _, root, ps, s, hheads, hleaves, hrun, htree, hps, hiff⟩

/-- Surroundings where the working tree has a schema. -/
def workEnv (text : Text) : Env :=
  { demoEnv with
    workFile := fun path =>
      if path = "schemas/note/schema.toml".toList then some (utf8 text) else none
    schemaDirs := ["note".toList] }

/-- A file is committed under the schema of the working tree, which is then changed and staged. -/
def workCalls (W : World) : Repo :=
  ((Repo.init.after W (workEnv "NOTE".toList)
    [addOf "a".toList [1], .commit "file".toList ⟨none, none, none⟩]).after W
      (workEnv "MORE".toList) [addOf "schemas/note/schema.toml".toList (utf8 "MORE".toList)])

theorem reachable_workCalls : (Repo.lts twoSchemaWorld).Reachable
    (fun r l => l.2.Clean twoSchemaWorld False r) Repo.init (workCalls twoSchemaWorld) := by
  refine Repo.reachable_after _ (Repo.reachable_after _ (.refl _) fun r => ?_) fun r => ?_
  · exact List.forall_mem_cons.2 ⟨clean_of_split split_a (by decide +kernel) r,
      List.forall_mem_singleton.2 trivial⟩
  · exact List.forall_mem_singleton.2 (clean_of_split split_schemaFile (by decide +kernel) r)

/-- A file of HEAD is behind a staged schema of a type that HEAD has no schema of. -/
def behindStaged (W : World) (env : Env) (r : Repo) : Bool :=
  (Repo.stagedSchemas (env.order r.index)).any fun x =>
    (r.store.get W.toPlatform x.2).any fun o => (Schema.parse W o.content x.1).isOk &&
      (r.headSchemas W).toOption.all (fun heads => !heads.contains x.1) &&
      (r.headEntries W).toOption.all fun leaves =>
        leaves.any (r.store.isBehind W ⟨x.1, x.2, ⟨[], [], false, []⟩, [], none⟩)

/-- **A schema that does not reach a file**: the one that the working tree has is the same, and the
pass takes it for unchanged. -/
theorem Repo.schema_not_propagated : ∃ r r' res heads leaves root,
    (Repo.lts twoSchemaWorld).Reachable (fun r l => l.2.Clean twoSchemaWorld False r) Repo.init r ∧
      r.headSchemas twoSchemaWorld = .ok heads ∧ r.headEntries twoSchemaWorld = .ok leaves ∧
      r.NotNested twoSchemaWorld leaves ∧
      (Repo.locked ((Repo.commit twoSchemaWorld (workEnv "MORE".toList) "m".toList
        ⟨none, none, none⟩).run (Action.op twoSchemaWorld))).run r = (.ok res, r') ∧
      Repo.commitTree twoSchemaWorld r'.store res.1 = .ok root ∧
      ¬ Propagated twoSchemaWorld (workEnv "MORE".toList) r heads leaves res.2 r'.store root := by
  obtain ⟨r, hr⟩ : ∃ r, r = workCalls twoSchemaWorld := ⟨_, rfl⟩
  have hreach : (Repo.lts twoSchemaWorld).Reachable
      (fun r l => l.2.Clean twoSchemaWorld False r) Repo.init r := by
    rw [hr]
    exact reachable_workCalls
  obtain ⟨out, hout⟩ : ∃ out, out = (Repo.locked ((Repo.commit twoSchemaWorld
      (workEnv "MORE".toList) "m".toList ⟨none, none, none⟩).run
        (Action.op twoSchemaWorld))).run r := ⟨_, rfl⟩
  obtain ⟨hheads, hentries, hpaths, hindex, hbehind, hok, hnone, htree⟩ :
      (r.headSchemas twoSchemaWorld).isOk = true ∧ (r.headEntries twoSchemaWorld).isOk = true ∧
      (r.headEntries twoSchemaWorld).toOption.all (fun leaves =>
        leaves.all fun leaf => leaf.1 ∈ demoPaths) = true ∧
      r.index.toList.map Prod.fst = ["schemas/note/schema.toml".toList] ∧
      behindStaged twoSchemaWorld (workEnv "MORE".toList) r = true ∧
      out.1.isOk = true ∧ out.1.toOption.all (fun res => res.2.isEmpty) = true ∧
      out.1.toOption.all (fun res =>
        (Repo.commitTree twoSchemaWorld out.2.store res.1).isOk) = true := by
    rw [hout, hr]
    decide +kernel
  clear hr
  obtain ⟨heads, hheads⟩ := exists_eq_ok_of_isOk hheads
  obtain ⟨leaves, hleaves⟩ := exists_eq_ok_of_isOk hentries
  obtain ⟨res, hres⟩ := exists_eq_ok_of_isOk hok
  rw [hleaves] at hpaths
  rw [hres] at hnone htree
  obtain ⟨root, htree⟩ := exists_eq_ok_of_isOk htree
  have hapart : r.NotNested twoSchemaWorld leaves := notNested_of_paths split_schemaFile split_a
    hindex fun leaf hleaf => of_decide_eq_true (List.all_eq_true.1 hpaths leaf hleaf)
  refine ⟨r, out.2, res, heads, leaves, root, hreach, hheads, hleaves, hapart, ?_, htree,
    fun hprop => ?_⟩
  · rw [← hout]
    exact Prod.ext hres rfl
  -- nothing is reported, and there is a file that is behind
  obtain ⟨x, hx, hbehind⟩ := List.any_eq_true.1 hbehind
  obtain ⟨o, hget, hbehind⟩ := Option.any_eq_true _ _ |>.1 hbehind
  rw [hheads, hleaves, Bool.and_eq_true, Bool.and_eq_true] at hbehind
  obtain ⟨⟨hparse, hno⟩, hbehind⟩ := hbehind
  obtain ⟨schema, hparse⟩ := exists_eq_ok_of_isOk hparse
  have hno : heads.contains x.1 = false := by simpa [Except.toOption] using hno
  have hno : heads[x.1]? = none := Std.ExtTreeMap.getElem?_eq_none fun hmem =>
    Bool.false_ne_true (hno.symm.trans (Std.ExtTreeMap.mem_iff_contains.1 hmem))
  obtain ⟨leaf, hleaf, hbehind⟩ := List.any_eq_true.1 hbehind
  have hcount := hprop.counted ⟨x.1, x.2, schema, o.content, heads[x.1]?⟩
    ⟨x, hx, o, schema, hget, hparse, by rw [hno]; simp, rfl⟩
  have hsame : r.store.isBehind twoSchemaWorld ⟨x.1, x.2, schema, o.content, heads[x.1]?⟩ =
      r.store.isBehind twoSchemaWorld ⟨x.1, x.2, ⟨[], [], false, []⟩, [], none⟩ :=
    isBehind_congr twoSchemaWorld rfl rfl
  rw [List.isEmpty_iff.1 hnone, hsame] at hcount
  exact List.countP_eq_zero.1 hcount.symm leaf hleaf hbehind

end Demo

end Omp
