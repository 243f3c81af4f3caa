import Omp.Fresh
import Omp.Settles

/-!
# What a pass comes to

The pass goes through the manifests of HEAD, once for every staged schema that differs from HEAD's.
For each file it reads the manifest, leaves it alone if it is of another type or at the schema,
and else rebuilds it; whatever goes wrong there is an outcome and not an error of the pass.  What
can go wrong is the record of it: the text of an error is cut at 200 bytes, and a text that is cut
inside a character panics.

## Main definitions

* `Reprobes` : what the body of the loop comes to for a file.
* `Outcomes`, `Passes` : what the loops come to.
* `FileOutcome.Recordable` : an error that can be cut.

## Main results

* `exists_reprobes` : the body of the loop comes to one of the outcomes.
* `run_files`, `run_pass` : the loops come to their outcomes, or panic.
-/

namespace Omp

open Lib RepoScript

variable (W : World) (ctx : PassContext)

/-! ### One file -/

/-- What the body of the loop over the manifests comes to for a file: an outcome, a cache and a
store. -/
inductive Reprobes (n : NewSchema) (s : Store) (cache : ProbeOutputCache) (file : Text × Hash) :
    FileOutcome → ProbeOutputCache → Store → Prop
  | missing (hget : s.get W.toPlatform file.2 = none) :
    Reprobes n s cache file
      (.unreadable ("manifest blob ".toList ++ file.2.hex ++ " missing".toList)) cache s
  | unparsable {o : Object} {e : OmpError} (hget : s.get W.toPlatform file.2 = some o)
      (hparse : Manifest.parse W o.content = .error e) :
    Reprobes n s cache file (.unreadable ("manifest parse: ".toList ++ e.display)) cache s
  | unrelated {o : Object} {m : Manifest} (hget : s.get W.toPlatform file.2 = some o)
      (hparse : Manifest.parse W o.content = .ok m)
      (hskip : m.fileType ≠ n.fileType ∨ m.schemaHash = n.hash) :
    Reprobes n s cache file .unrelated cache s
  | failed {o : Object} {m : Manifest} {e : OmpError} {cache' : ProbeOutputCache}
      (hget : s.get W.toPlatform file.2 = some o) (hparse : Manifest.parse W o.content = .ok m)
      (htype : m.fileType = n.fileType) (hhash : m.schemaHash ≠ n.hash)
      (hbuild : reprobeManifest W ctx n s file.1 m cache = (.error e, cache')) :
    Reprobes n s cache file (.failed e) cache' s
  | unwritten {o : Object} {m m' : Manifest} {e : OmpError} {cache' : ProbeOutputCache}
      (hget : s.get W.toPlatform file.2 = some o) (hparse : Manifest.parse W o.content = .ok m)
      (htype : m.fileType = n.fileType) (hhash : m.schemaHash ≠ n.hash)
      (hbuild : reprobeManifest W ctx n s file.1 m cache = (.ok m', cache'))
      (hbytes : m'.serialize W = .error e) :
    Reprobes n s cache file (.failed e) cache' s
  | rebuilt {o : Object} {m m' : Manifest} {bytes : Bytes} {cache' : ProbeOutputCache}
      (hget : s.get W.toPlatform file.2 = some o) (hparse : Manifest.parse W o.content = .ok m)
      (htype : m.fileType = n.fileType) (hhash : m.schemaHash ≠ n.hash)
      (hbuild : reprobeManifest W ctx n s file.1 m cache = (.ok m', cache'))
      (hbytes : m'.serialize W = .ok bytes) :
    Reprobes n s cache file (.rebuilt (hashOf W.toPlatform .manifest bytes)) cache'
      ⟨s.objects ++ [⟨.manifest, bytes⟩]⟩

variable {W ctx} {n : NewSchema} {s s' : Store} {cache cache' : ProbeOutputCache}

/-- A rebuild that fails leaves the store. -/
theorem reprobeOne_of_error {path : Text} {m : Manifest} {e : OmpError}
    (hbuild : reprobeManifest W ctx n s path m cache = (.error e, cache')) :
    (reprobeOne W ctx n path m cache).run s = (.ok (.error e, cache'), s) := by
  have hread : (Op.reads fun s => .ok (reprobeManifest W ctx n s path m cache) :
      StoreOp (Except OmpError Manifest × ProbeOutputCache)).run s = (.ok (.error e, cache'), s) :=
    Op.reads_eq_ok.2 ⟨by rw [hbuild], rfl⟩
  rw [reprobeOne, Op.run_bind_of_ok hread]
  rfl

/-- So does a manifest that cannot be written. -/
theorem reprobeOne_of_unwritten {path : Text} {m m' : Manifest} {e : OmpError}
    (hbuild : reprobeManifest W ctx n s path m cache = (.ok m', cache'))
    (hbytes : m'.serialize W = .error e) :
    (reprobeOne W ctx n path m cache).run s = (.ok (.error e, cache'), s) := by
  have hread : (Op.reads fun s => .ok (reprobeManifest W ctx n s path m cache) :
      StoreOp (Except OmpError Manifest × ProbeOutputCache)).run s = (.ok (.ok m', cache'), s) :=
    Op.reads_eq_ok.2 ⟨by rw [hbuild], rfl⟩
  rw [reprobeOne, Op.run_bind_of_ok hread]
  simp only [storeManifest, hbytes]
  rfl

variable (W ctx) in
/-- **The body of the loop comes to one of the outcomes**, and never fails. -/
theorem exists_reprobes (n : NewSchema) (s : Store) (cache : ProbeOutputCache)
    (file : Text × Hash) : ∃ o cache' s', (reprobeFile W ctx n cache file).run s =
      (.ok (o, cache'), s') ∧ Reprobes W ctx n s cache file o cache' s' := by
  have hread : (Op.reads fun s => .ok (s.get W.toPlatform file.2) :
      StoreOp (Option Object)).run s = (.ok (s.get W.toPlatform file.2), s) := rfl
  rw [reprobeFile, Op.run_bind_of_ok hread]
  cases hget : s.get W.toPlatform file.2 with
  | none => exact ⟨_, _, _, rfl, .missing hget⟩
  | some o =>
    dsimp only
    cases hparse : Manifest.parse W o.content with
    | error e => exact ⟨_, _, _, rfl, .unparsable hget hparse⟩
    | ok m =>
      dsimp only
      split_ifs with hskip
      · exact ⟨_, _, _, rfl, .unrelated hget hparse hskip⟩
      obtain ⟨htype, hhash⟩ := not_or.1 hskip
      rw [not_not] at htype
      cases hbuild : reprobeManifest W ctx n s file.1 m cache with
      | mk r cache' =>
        cases r with
        | error e =>
          rw [Op.run_bind_of_ok (reprobeOne_of_error hbuild)]
          exact ⟨_, _, _, rfl, .failed hget hparse htype hhash hbuild⟩
        | ok m' =>
          cases hbytes : m'.serialize W with
          | error e =>
            rw [Op.run_bind_of_ok (reprobeOne_of_unwritten hbuild hbytes)]
            exact ⟨_, _, _, rfl, .unwritten hget hparse htype hhash hbuild hbytes⟩
          | ok bytes =>
            rw [Op.run_bind_of_ok (reprobeOne_of_built hbuild hbytes)]
            exact ⟨_, _, _, rfl, .rebuilt hget hparse htype hhash hbuild hbytes⟩

theorem Reprobes.le {file : Text × Hash} {o : FileOutcome}
    (h : Reprobes W ctx n s cache file o cache' s') : s ≤ s' := by
  cases h with
  | rebuilt => exact ⟨_, rfl⟩
  | missing | unparsable | unrelated | failed | unwritten => exact le_refl s

/-- **What a rebuild is of**: a source that is one blob, and its address. -/
theorem reprobeManifest_eq_ok {path : Text} {m m' : Manifest}
    (h : reprobeManifest W ctx n s path m cache = (.ok m', cache')) :
    ∃ source, s.get W.toPlatform m.sourceHash = some ⟨.blob, source⟩ ∧
      m'.sourceHash = m.sourceHash ∧ m'.fileType = n.schema.fileType ∧
      m'.schemaHash = schemaHash W n.bytes := by
  unfold reprobeManifest at h
  split at h
  · cases h
  · rename_i o hget
    split_ifs at h with htype
    · cases h
    rw [not_not] at htype
    obtain ⟨type, source⟩ := o
    obtain rfl : type = .blob := htype
    refine ⟨source, hget, ?_⟩
    unfold ingestWithCache at h
    split at h
    · cases h
    · split at h
      · cases h
      · cases h
        exact ⟨rfl, rfl, rfl⟩

/-! ### What is recorded -/

/-- An error has a text that can be cut. -/
def FileOutcome.Recordable : FileOutcome → Prop
  | .failed e => truncateReason e.display ≠ none
  | .unrelated | .unreadable _ | .rebuilt _ => True

/-- What is recorded of a file that is skipped. -/
def FileOutcome.skips (path : Text) : FileOutcome → List ReprobeSkip
  | .unreadable reason => [⟨path, reason⟩]
  | .failed e => (truncateReason e.display).toList.map fun reason => ⟨path, reason⟩
  | .unrelated | .rebuilt _ => []

/-- The index with the manifest of a file that is rebuilt. -/
def FileOutcome.stages (path : Text) (idx : Index) : FileOutcome → Index
  | .rebuilt h => idx.insert path ⟨path, .upsert, some h⟩
  | .unrelated | .unreadable _ | .failed _ => idx

/-- A file is rebuilt. -/
def FileOutcome.isRebuilt : FileOutcome → Bool
  | .rebuilt _ => true
  | .unrelated | .unreadable _ | .failed _ => false

/-- What a pass has gathered, with an outcome more. -/
def PassState.add (st : PassState) (path : Text) (o : FileOutcome) : PassState where
  index := o.stages path st.index
  cache := st.cache
  count := st.count + if o.isRebuilt then 1 else 0
  skipped := st.skipped ++ o.skips path

theorem recordOutcome_eq (path : Text) (st : PassState) (o : FileOutcome) :
    (o.Recordable → recordOutcome path st o = some (st.add path o)) ∧
      (¬ o.Recordable → recordOutcome path st o = none) := by
  cases o with
  | unrelated => simp [FileOutcome.Recordable, recordOutcome, PassState.add, FileOutcome.stages,
      FileOutcome.isRebuilt, FileOutcome.skips]
  | unreadable reason => simp [FileOutcome.Recordable, recordOutcome, PassState.add,
      FileOutcome.stages, FileOutcome.isRebuilt, FileOutcome.skips]
  | rebuilt h => simp [FileOutcome.Recordable, recordOutcome, PassState.add, FileOutcome.stages,
      FileOutcome.isRebuilt, FileOutcome.skips]
  | failed e =>
    cases hcut : truncateReason e.display with
    | none => simp [FileOutcome.Recordable, recordOutcome, hcut]
    | some reason => simp [FileOutcome.Recordable, recordOutcome, PassState.add,
        FileOutcome.stages, FileOutcome.isRebuilt, FileOutcome.skips, hcut]

/-- **One turn of the loop.** -/
theorem run_reprobeStep (st : PassState) {file : Text × Hash} {o : FileOutcome}
    (hrun : (reprobeFile W ctx n st.cache file).run s = (.ok (o, cache'), s')) :
    (o.Recordable → (reprobeStep W ctx n st file).run s =
      (.ok ({ st with cache := cache' }.add file.1 o), s')) ∧
    (¬ o.Recordable → (reprobeStep W ctx n st file).run s = (.error .panic, s')) := by
  obtain ⟨hok, hnone⟩ := recordOutcome_eq file.1 { st with cache := cache' } o
  rw [reprobeStep, Op.run_bind_of_ok hrun]
  dsimp only
  exact ⟨fun h => by rw [hok h]; rfl, fun h => by rw [hnone h]; rfl⟩

/-! ### All files -/

variable (W ctx) in
/-- What the loop over the manifests comes to, outcome by outcome. -/
inductive Outcomes (n : NewSchema) : Store → ProbeOutputCache → List (Text × Hash) →
    List (Text × FileOutcome) → ProbeOutputCache → Store → Prop
  | nil {s : Store} {cache : ProbeOutputCache} : Outcomes n s cache [] [] cache s
  | cons {s s₁ s₂ : Store} {cache cache₁ cache₂ : ProbeOutputCache} {file : Text × Hash}
      {files : List (Text × Hash)} {o : FileOutcome} {os : List (Text × FileOutcome)}
      (hfile : Reprobes W ctx n s cache file o cache₁ s₁)
      (hfiles : Outcomes n s₁ cache₁ files os cache₂ s₂) :
    Outcomes n s cache (file :: files) ((file.1, o) :: os) cache₂ s₂

/-- What has been gathered after some outcomes. -/
def PassState.addAll (st : PassState) (os : List (Text × FileOutcome)) : PassState :=
  os.foldl (fun st p => st.add p.1 p.2) st

theorem PassState.addAll_withCache (st : PassState) (cache : ProbeOutputCache)
    (os : List (Text × FileOutcome)) :
    { st with cache := cache }.addAll os = { st.addAll os with cache := cache } := by
  induction os generalizing st with
  | nil => rfl
  | cons p os ih => exact ih (st.add p.1 p.2)

theorem PassState.count_addAll (st : PassState) (os : List (Text × FileOutcome)) :
    (st.addAll os).count = st.count + os.countP fun p => p.2.isRebuilt := by
  induction os generalizing st with
  | nil => rfl
  | cons p os ih =>
    refine (ih (st.add p.1 p.2)).trans ?_
    rw [List.countP_cons]
    dsimp only [PassState.add]
    omega

theorem PassState.skipped_addAll (st : PassState) (os : List (Text × FileOutcome)) :
    (st.addAll os).skipped = st.skipped ++ os.flatMap fun p => p.2.skips p.1 := by
  induction os generalizing st with
  | nil => exact (List.append_nil _).symm
  | cons p os ih =>
    refine (ih (st.add p.1 p.2)).trans ?_
    rw [List.flatMap_cons, PassState.add, List.append_assoc]

/-- The manifests that were rebuilt, by their paths. -/
def rebuiltIn (os : List (Text × FileOutcome)) (idx : Index) : Index :=
  os.foldl (fun idx p => p.2.stages p.1 idx) idx

theorem PassState.index_addAll (st : PassState) (os : List (Text × FileOutcome)) :
    (st.addAll os).index = rebuiltIn os st.index := by
  induction os generalizing st with
  | nil => rfl
  | cons p os ih => exact ih (st.add p.1 p.2)

variable (W ctx) in
/-- **The loop over the manifests** comes to its outcomes, unless there is one that cannot be
recorded. -/
theorem run_files (n : NewSchema) (files : List (Text × Hash)) (st : PassState) (s : Store) :
    ∃ os cache' s', Outcomes W ctx n s st.cache files os cache' s' ∧
      ((∀ p ∈ os, p.2.Recordable) → (files.foldlM (reprobeStep W ctx n) st).run s =
        (.ok { st.addAll os with cache := cache' }, s')) ∧
      ((∃ p ∈ os, ¬ p.2.Recordable) →
        ((files.foldlM (reprobeStep W ctx n) st).run s).1 = .error .panic) := by
  induction files generalizing st s with
  | nil => exact ⟨[], st.cache, s, .nil, fun _ => rfl, by simp⟩
  | cons file files ih =>
    obtain ⟨o, cache₁, s₁, hrun, hfile⟩ := exists_reprobes W ctx n s st.cache file
    obtain ⟨os, cache₂, s₂, hfiles, hok, hpanic⟩ :=
      ih ({ st with cache := cache₁ }.add file.1 o) s₁
    obtain ⟨hstep, hstop⟩ := run_reprobeStep st hrun
    refine ⟨(file.1, o) :: os, cache₂, s₂, .cons hfile hfiles, fun hall => ?_, fun hex => ?_⟩
    · obtain ⟨ho, hos⟩ := List.forall_mem_cons.1 hall
      rw [List.foldlM_cons, Op.run_bind_of_ok (hstep ho), hok hos]
      have hadd : (PassState.add { st with cache := cache₁ } file.1 o) =
          { st.add file.1 o with cache := cache₁ } := rfl
      rw [hadd, PassState.addAll_withCache]
      rfl
    · rw [List.foldlM_cons]
      by_cases ho : o.Recordable
      · rw [Op.run_bind_of_ok (hstep ho)]
        refine hpanic ?_
        obtain ⟨p, hp, hnot⟩ := hex
        obtain rfl | hp := List.mem_cons.1 hp
        · exact absurd ho hnot
        · exact ⟨p, hp, hnot⟩
      · rw [Op.run_bind_of_error (hstop ho)]

/-! ### All schemas -/

variable (W ctx) in
/-- What the pass comes to, for each staged schema that changes something. -/
inductive Passes (heads : TextMap Schema) (files : List (Text × Hash)) :
    Store → ProbeOutputCache → List (Text × Hash) →
      List (NewSchema × List (Text × FileOutcome)) → ProbeOutputCache → Store → Prop
  | nil {s : Store} {cache : ProbeOutputCache} : Passes heads files s cache [] [] cache s
  | unchanged {s s' : Store} {cache cache' : ProbeOutputCache} {staged : Text × Hash}
      {rest : List (Text × Hash)} {ps : List (NewSchema × List (Text × FileOutcome))} {o : Object}
      {schema : Schema} (hget : s.get W.toPlatform staged.2 = some o)
      (hparse : Schema.parse W o.content staged.1 = .ok schema)
      (hsame : heads[staged.1]?.any (schemasEqual schema) = true)
      (hrest : Passes heads files s cache rest ps cache' s') :
    Passes heads files s cache (staged :: rest) ps cache' s'
  | changed {s s₁ s' : Store} {cache cache₁ cache' : ProbeOutputCache} {staged : Text × Hash}
      {rest : List (Text × Hash)} {ps : List (NewSchema × List (Text × FileOutcome))} {o : Object}
      {schema : Schema} {os : List (Text × FileOutcome)}
      (hget : s.get W.toPlatform staged.2 = some o)
      (hparse : Schema.parse W o.content staged.1 = .ok schema)
      (hdiff : ¬ heads[staged.1]?.any (schemasEqual schema) = true)
      (hfiles : Outcomes W ctx ⟨staged.1, staged.2, schema, o.content, heads[staged.1]?⟩ s cache
        files os cache₁ s₁)
      (hrest : Passes heads files s₁ cache₁ rest ps cache' s') :
    Passes heads files s cache (staged :: rest)
      ((⟨staged.1, staged.2, schema, o.content, heads[staged.1]?⟩, os) :: ps) cache' s'

/-- The summary of a schema. -/
def summaryOf (p : NewSchema × List (Text × FileOutcome)) : ReprobeSummary where
  fileType := p.1.fileType
  count := p.2.countP fun q => q.2.isRebuilt
  skipped := p.2.flatMap fun q => q.2.skips q.1

/-- All outcomes can be recorded. -/
def AllRecordable (ps : List (NewSchema × List (Text × FileOutcome))) : Prop :=
  ∀ p ∈ ps, ∀ q ∈ p.2, q.2.Recordable

variable (W) in
/-- A staged schema that can be read. -/
def ValidStaged (s : Store) (staged : Text × Hash) : Prop :=
  ∃ o schema, s.get W.toPlatform staged.2 = some o ∧
    Schema.parse W o.content staged.1 = .ok schema

theorem ValidStaged.mono {staged : Text × Hash} (h : ValidStaged W s staged) (hle : s ≤ s') :
    ValidStaged W s' staged := by
  obtain ⟨o, schema, hget, hparse⟩ := h
  exact ⟨o, schema, Store.get_mono hle hget, hparse⟩

theorem Outcomes.le {files : List (Text × Hash)} {os : List (Text × FileOutcome)}
    (h : Outcomes W ctx n s cache files os cache' s') : s ≤ s' := by
  induction h with
  | nil => exact le_refl _
  | cons hfile _ ih => exact hfile.le.trans ih

variable {heads : TextMap Schema} {files : List (Text × Hash)}

/-- A schema that is HEAD's is passed over. -/
theorem run_schema_unchanged {x : Text × Hash} {o : Object} {schema : Schema}
    (hget : s.get W.toPlatform x.2 = some o) (hparse : Schema.parse W o.content x.1 = .ok schema)
    (hsame : heads[x.1]?.any (schemasEqual schema) = true) (tot : PassTotals) :
    (reprobeSchema W ctx heads files tot x).run s = (.ok tot, s) := by
  have hread : (Op.reads fun s => .ok (s.get W.toPlatform x.2) : StoreOp (Option Object)).run s =
      (.ok (some o), s) := Op.reads_eq_ok.2 ⟨by rw [hget], rfl⟩
  have hlift : (Op.lift (Schema.parse W o.content x.1) : StoreOp Schema).run s = (.ok schema, s) :=
    Op.lift_eq_ok.2 ⟨hparse, rfl⟩
  rw [reprobeSchema, Op.run_bind_of_ok hread]
  dsimp only
  rw [Op.run_bind_of_ok hlift, if_pos hsame]
  rfl

variable (ctx files) in
/-- **One staged schema** that changes something. -/
theorem run_schema_changed {x : Text × Hash} {o : Object} {schema : Schema}
    (hget : s.get W.toPlatform x.2 = some o) (hparse : Schema.parse W o.content x.1 = .ok schema)
    (hdiff : ¬ heads[x.1]?.any (schemasEqual schema) = true) (tot : PassTotals) :
    ∃ os cache₁ s₁, Outcomes W ctx ⟨x.1, x.2, schema, o.content, heads[x.1]?⟩ s tot.cache files
        os cache₁ s₁ ∧
      ((∀ q ∈ os, q.2.Recordable) → (reprobeSchema W ctx heads files tot x).run s =
        (.ok ⟨rebuiltIn os tot.index, cache₁, tot.summaries ++
          [summaryOf (⟨x.1, x.2, schema, o.content, heads[x.1]?⟩, os)]⟩, s₁)) ∧
      ((∃ q ∈ os, ¬ q.2.Recordable) →
        ((reprobeSchema W ctx heads files tot x).run s).1 = .error .panic) := by
  have hread : (Op.reads fun s => .ok (s.get W.toPlatform x.2) : StoreOp (Option Object)).run s =
      (.ok (some o), s) := Op.reads_eq_ok.2 ⟨by rw [hget], rfl⟩
  have hlift : (Op.lift (Schema.parse W o.content x.1) : StoreOp Schema).run s = (.ok schema, s) :=
    Op.lift_eq_ok.2 ⟨hparse, rfl⟩
  obtain ⟨os, cache₁, s₁, hfiles, hok, hpanic⟩ :=
    run_files W ctx ⟨x.1, x.2, schema, o.content, heads[x.1]?⟩ files ⟨tot.index, tot.cache, 0, []⟩ s
  have hloop : (reprobeSchema W ctx heads files tot x).run s =
      ((files.foldlM (reprobeStep W ctx ⟨x.1, x.2, schema, o.content, heads[x.1]?⟩)
        ⟨tot.index, tot.cache, 0, []⟩ >>= fun st => pure (⟨st.index, st.cache,
          tot.summaries ++ [⟨x.1, st.count, st.skipped⟩]⟩ : PassTotals)) :
            StoreOp PassTotals).run s := by
    rw [reprobeSchema, Op.run_bind_of_ok hread]
    dsimp only
    rw [Op.run_bind_of_ok hlift, if_neg hdiff]
  refine ⟨os, cache₁, s₁, hfiles, fun hos => ?_, fun hex => ?_⟩
  · rw [hloop, Op.run_bind_of_ok (hok hos), PassState.index_addAll]
    simp [PassState.count_addAll, PassState.skipped_addAll, summaryOf]
  · -- the loop over the manifests panics, and nothing comes after it
    exact congrArg Prod.fst (hloop.trans (Op.run_bind_of_error (eq_mk_of_fst_eq (hpanic hex)) _))

variable (ctx heads files) in
/-- **The pass** comes to its outcomes, unless there is one that cannot be recorded. -/
theorem run_pass {staged : List (Text × Hash)} (hvalid : ∀ x ∈ staged, ValidStaged W s x)
    (tot : PassTotals) :
    ∃ ps cache' s', Passes W ctx heads files s tot.cache staged ps cache' s' ∧
      (AllRecordable ps →
        (staged.foldlM (reprobeSchema W ctx heads files) tot).run s =
          (.ok ⟨rebuiltIn (ps.flatMap Prod.snd) tot.index, cache',
            tot.summaries ++ ps.map summaryOf⟩, s')) ∧
      (¬ AllRecordable ps →
        ((staged.foldlM (reprobeSchema W ctx heads files) tot).run s).1 = .error .panic) := by
  induction staged generalizing s tot with
  | nil =>
    refine ⟨[], tot.cache, s, .nil, fun _ => ?_, fun h => absurd (by simp [AllRecordable]) h⟩
    simp [rebuiltIn]
  | cons x staged ih =>
    obtain ⟨⟨o, schema, hget, hparse⟩, hrest⟩ := List.forall_mem_cons.1 hvalid
    rw [List.foldlM_cons]
    by_cases hsame : heads[x.1]?.any (schemasEqual schema) = true
    · obtain ⟨ps, cache', s', hps, hok, hpanic⟩ := ih hrest tot
      rw [Op.run_bind_of_ok (run_schema_unchanged hget hparse hsame tot)]
      exact ⟨ps, cache', s', .unchanged hget hparse hsame hps, hok, hpanic⟩
    · obtain ⟨os, cache₁, s₁, hfiles, hok, hpanic⟩ := run_schema_changed ctx files
        hget hparse hsame tot
      obtain ⟨ps, cache', s', hps, hok', hpanic'⟩ := ih
        (fun y hy => (hrest y hy).mono hfiles.le) ⟨rebuiltIn os tot.index, cache₁, tot.summaries ++
          [summaryOf (⟨x.1, x.2, schema, o.content, heads[x.1]?⟩, os)]⟩
      refine ⟨_, cache', s', .changed hget hparse hsame hfiles hps, fun hall => ?_, fun hnot => ?_⟩
      · obtain ⟨hos, hall'⟩ := List.forall_mem_cons.1 hall
        rw [Op.run_bind_of_ok (hok hos), hok' hall']
        simp [rebuiltIn]
      by_cases hos : ∀ q ∈ os, q.2.Recordable
      · rw [Op.run_bind_of_ok (hok hos)]
        exact hpanic' fun hall => hnot (List.forall_mem_cons.2 ⟨hos, hall⟩)
      · push Not at hos
        rw [Op.run_bind_of_error (eq_mk_of_fst_eq (hpanic hos))]

/-- A staged schema that is gone through can be read. -/
theorem validStaged_of_ok {x : Text × Hash} {tot tot' : PassTotals}
    (hrun : (reprobeSchema W ctx heads files tot x).run s = (.ok tot', s')) :
    ValidStaged W s x := by
  obtain ⟨found, s₁, hread, hrun⟩ := Op.bind_eq_ok.1 hrun
  obtain ⟨hget, rfl⟩ := Op.reads_eq_ok.1 hread
  rw [Except.ok.injEq] at hget
  cases found with
  | none => cases hrun
  | some o =>
    obtain ⟨schema, s₂, hparse, -⟩ := Op.bind_eq_ok.1 hrun
    exact ⟨o, schema, hget, (Op.lift_eq_ok.1 hparse).1⟩

/-- **A pass that is over** came to its outcomes. -/
theorem passes_of_ok {staged : List (Text × Hash)} {tot tot' : PassTotals}
    (hrun : (staged.foldlM (reprobeSchema W ctx heads files) tot).run s = (.ok tot', s')) :
    ∃ ps cache', Passes W ctx heads files s tot.cache staged ps cache' s' ∧ AllRecordable ps ∧
      tot' = ⟨rebuiltIn (ps.flatMap Prod.snd) tot.index, cache',
        tot.summaries ++ ps.map summaryOf⟩ := by
  induction staged generalizing s tot with
  | nil =>
    obtain ⟨rfl, rfl⟩ := Op.pure_eq_ok.1 hrun
    exact ⟨[], _, .nil, by simp [AllRecordable], by simp [rebuiltIn]⟩
  | cons x staged ih =>
    rw [List.foldlM_cons] at hrun
    obtain ⟨tot₁, s₁, hstep, hrest⟩ := Op.bind_eq_ok.1 hrun
    obtain ⟨ps, cache', hps, hall, rfl⟩ := ih hrest
    obtain ⟨o, schema, hget, hparse⟩ := validStaged_of_ok hstep
    by_cases hsame : heads[x.1]?.any (schemasEqual schema) = true
    · obtain ⟨heq, rfl⟩ :=
        Prod.mk.inj ((run_schema_unchanged hget hparse hsame tot).symm.trans hstep)
      obtain rfl := Except.ok.inj heq
      exact ⟨ps, cache', .unchanged hget hparse hsame hps, hall, rfl⟩
    · obtain ⟨os, cache₁, s₁', hfiles, hok, hpanic⟩ := run_schema_changed ctx files hget hparse
        hsame tot
      by_cases hos : ∀ q ∈ os, q.2.Recordable
      · obtain ⟨heq, rfl⟩ := Prod.mk.inj ((hok hos).symm.trans hstep)
        obtain rfl := Except.ok.inj heq
        refine ⟨_, cache', .changed hget hparse hsame hfiles hps,
          List.forall_mem_cons.2 ⟨hos, hall⟩, ?_⟩
        simp [rebuiltIn]
      · push Not at hos
        cases (hpanic hos).symm.trans (congrArg Prod.fst hstep)

/-! ### What is rebuilt -/

/-- The store grows by manifests only. -/
def Store.AddsManifests (s s' : Store) : Prop :=
  ∃ ms : List Object, s'.objects = s.objects ++ ms ∧ ∀ o ∈ ms, o.type = .manifest

namespace Store.AddsManifests

theorem refl (s : Store) : s.AddsManifests s := ⟨[], (List.append_nil _).symm, by simp⟩

theorem trans {s₁ s₂ s₃ : Store} (h₁ : s₁.AddsManifests s₂) (h₂ : s₂.AddsManifests s₃) :
    s₁.AddsManifests s₃ := by
  obtain ⟨ms₁, heq₁, hms₁⟩ := h₁
  obtain ⟨ms₂, heq₂, hms₂⟩ := h₂
  refine ⟨ms₁ ++ ms₂, by rw [heq₂, heq₁, List.append_assoc], fun o ho => ?_⟩
  exact (List.mem_append.1 ho).elim (hms₁ o) (hms₂ o)

theorem le (h : s.AddsManifests s') : s ≤ s' := by
  obtain ⟨ms, heq, -⟩ := h
  exact ⟨ms, heq.symm⟩

/-- What is found and is no manifest was there before. -/
theorem get_of_ne (h : s.AddsManifests s') {P : Platform} {hash : Hash} {o : Object}
    (hget : s'.get P hash = some o) (htype : o.type ≠ .manifest) : s.get P hash = some o := by
  obtain ⟨ms, heq, hms⟩ := h
  rw [Store.get, Cas.find, heq, List.find?_append, Option.or_eq_some_iff] at hget
  obtain hget | ⟨-, hnew⟩ := hget
  · exact hget
  · exact absurd (hms o (List.mem_of_find?_eq_some hnew)) htype

/-- So was what is found where something was. -/
theorem get_of_some (h : s.AddsManifests s') {P : Platform} {hash : Hash} {o o' : Object}
    (hold : s.get P hash = some o') (hget : s'.get P hash = some o) : s.get P hash = some o := by
  rw [Store.get_mono h.le hold] at hget
  rw [hold, hget]

end Store.AddsManifests

theorem Reprobes.addsManifests {file : Text × Hash} {o : FileOutcome}
    (h : Reprobes W ctx n s cache file o cache' s') : s.AddsManifests s' := by
  cases h with
  | rebuilt => exact ⟨[_], rfl, by simp⟩
  | missing | unparsable | unrelated | failed | unwritten => exact .refl s

theorem Outcomes.addsManifests {os : List (Text × FileOutcome)}
    (h : Outcomes W ctx n s cache files os cache' s') : s.AddsManifests s' := by
  induction h with
  | nil => exact .refl _
  | cons hfile _ ih => exact hfile.addsManifests.trans ih

theorem Passes.addsManifests {staged : List (Text × Hash)}
    {ps : List (NewSchema × List (Text × FileOutcome))}
    (h : Passes W ctx heads files s cache staged ps cache' s') : s.AddsManifests s' := by
  induction h with
  | nil => exact .refl _
  | unchanged _ _ _ _ ih => exact ih
  | changed _ _ _ hfiles _ ih => exact hfiles.addsManifests.trans ih

/-- The outcomes are those of the files, in their order. -/
theorem Outcomes.map_fst {os : List (Text × FileOutcome)}
    (h : Outcomes W ctx n s cache files os cache' s') : os.map Prod.fst = files.map Prod.fst := by
  induction h with
  | nil => rfl
  | cons _ _ ih => rw [List.map_cons, List.map_cons, ih]

/-- **Each outcome** is that of a file. -/
theorem Outcomes.exists_reprobes {os : List (Text × FileOutcome)}
    (h : Outcomes W ctx n s cache files os cache' s') {q : Text × FileOutcome} (hq : q ∈ os) :
    ∃ file ∈ files, file.1 = q.1 ∧ ∃ s₁ cache₁ cache₂ s₂, s.AddsManifests s₁ ∧
      Reprobes W ctx n s₁ cache₁ file q.2 cache₂ s₂ ∧ s₂ ≤ s' := by
  induction h with
  | nil => cases hq
  | @cons s s₁ s₂ cache cache₁ cache₂ file files o os hfile hfiles ih =>
    obtain rfl | hq := List.mem_cons.1 hq
    · exact ⟨file, List.mem_cons_self, rfl, s, cache, cache₁, s₁, .refl s, hfile, hfiles.le⟩
    · obtain ⟨f, hf, hpath, s₃, c₃, c₄, s₄, hs₃, hout, hs₄⟩ := ih hq
      exact ⟨f, List.mem_cons_of_mem _ hf, hpath, s₃, c₃, c₄, s₄, hfile.addsManifests.trans hs₃,
        hout, hs₄⟩

variable (W heads) in
/-- A staged schema that differs from HEAD's. -/
def Changes (s : Store) (staged : List (Text × Hash)) (n : NewSchema) : Prop :=
  ∃ x ∈ staged, ∃ (o : Object) (schema : Schema), s.get W.toPlatform x.2 = some o ∧
    Schema.parse W o.content x.1 = .ok schema ∧
    ¬ heads[x.1]?.any (schemasEqual schema) = true ∧
    n = ⟨x.1, x.2, schema, o.content, heads[x.1]?⟩

theorem Changes.cons {staged : List (Text × Hash)} {x : Text × Hash}
    (h : Changes W heads s staged n) : Changes W heads s (x :: staged) n := by
  obtain ⟨y, hy, hrest⟩ := h
  exact ⟨y, List.mem_cons_of_mem _ hy, hrest⟩

/-- **Each schema that is gone through** changes something. -/
theorem Passes.exists_changes {staged : List (Text × Hash)}
    {ps : List (NewSchema × List (Text × FileOutcome))}
    (h : Passes W ctx heads files s cache staged ps cache' s')
    {p : NewSchema × List (Text × FileOutcome)} (hp : p ∈ ps) :
    ∃ s₁ cache₁ cache₂ s₂, s.AddsManifests s₁ ∧ Changes W heads s₁ staged p.1 ∧
      Outcomes W ctx p.1 s₁ cache₁ files p.2 cache₂ s₂ ∧ s₂ ≤ s' := by
  induction h with
  | nil => cases hp
  | unchanged _ _ _ _ ih =>
    obtain ⟨s₁, c₁, c₂, s₂, hs₁, hchanges, hout⟩ := ih hp
    exact ⟨s₁, c₁, c₂, s₂, hs₁, hchanges.cons, hout⟩
  | @changed s s₁ s' cache cache₁ cache' x rest ps o schema os hget hparse hdiff hfiles hrest ih =>
    obtain rfl | hp := List.mem_cons.1 hp
    · exact ⟨s, cache, cache₁, s₁, .refl s, ⟨x, List.mem_cons_self, o, schema, hget, hparse,
        hdiff, rfl⟩, hfiles, hrest.addsManifests.le⟩
    · obtain ⟨s₂, c₂, c₃, s₃, hs₂, hchanges, hout⟩ := ih hp
      exact ⟨s₂, c₂, c₃, s₃, hfiles.addsManifests.trans hs₂, hchanges.cons, hout⟩

/-- What is in the index is what was staged, or a manifest that was rebuilt. -/
theorem getElem?_rebuiltIn (os : List (Text × FileOutcome)) (idx : Index) (path : Text) :
    (rebuiltIn os idx)[path]? = idx[path]? ∨ ∃ h, (path, .rebuilt h) ∈ os ∧
      (rebuiltIn os idx)[path]? = some ⟨path, .upsert, some h⟩ := by
  induction os generalizing idx with
  | nil => exact .inl rfl
  | cons q os ih =>
    obtain ⟨p, o⟩ := q
    have hrest := ih (o.stages p idx)
    change (rebuiltIn os (o.stages p idx))[path]? = _ ∨ ∃ h, _ ∧
      (rebuiltIn os (o.stages p idx))[path]? = _
    obtain hrest | ⟨h, hmem, hrest⟩ := hrest
    · rw [hrest]
      cases o with
      | rebuilt h =>
        rw [FileOutcome.stages, TextMap.getElem?_insert]
        split_ifs with hpath
        · subst hpath
          exact .inr ⟨h, List.mem_cons_self, rfl⟩
        · exact .inl rfl
      | unrelated | unreadable _ | failed _ => exact .inl rfl
    · exact .inr ⟨h, List.mem_cons_of_mem _ hmem, hrest⟩

end Omp
