import Omp.Concrete
import Omp.Reprobe

/-!
# Rebuilding against ingesting anew

A rebuilt manifest should be the one a fresh ingest of the same bytes would give.  The two runs
differ in the probe cache only: the fresh one starts without outputs, and a rebuild starts from
the outputs of the files before it, primed with values of the old manifest.  Where all that a run
asks for and finds is what the probes yield on this file, the two agree (`ingest_of_raw`).

Priming does not keep to that.  The values of a manifest are final values: a fallback may have
stood in for the probe, and a type may have turned an integer into a float.  Such a value is then
served as the output of the probe.

## Main definitions

* `asks` : the probe runs an ingest asks for.
* `AgreesWithFresh`, `ServedRaw` : a rebuild agrees with a fresh ingest, and was served only outputs
  of probes.
* `GivenRaw` : what it is given are outputs of probes.

## Main results

* `reprobe_fresh_iff` : a rebuild is fresh exactly when it is given only outputs of probes for
  what a fresh ingest asks for.
* `stand_in_served` : a rebuild that is not.
-/

namespace Omp

open Lib

variable (W : World) (runProbe : RunProbe)

/-! ### What an ingest asks for -/

/-- A probe run that is asked for: its key in the cache and what the probe yields. -/
abbrev ProbeRequest := CacheKey × Except OmpError FieldValue

/-- What a source asks for. -/
def asksSource (input : IngestInput) (view : TreeView) : Source → List ProbeRequest
  | .probe probe args => match view.probes[probe]? with
    | none => []
    | some blob =>
      if input.skipsProbe view blob then []
      else [(input.cacheKey W blob args, input.runOn runProbe view probe blob args)]
  | _ => []

/-- What a field asks for. -/
def asksField (input : IngestInput) (view : TreeView) (resolved : Fields) :
    Field → IngestState → List ProbeRequest
  | .mk _ source _ _ _ none, _ => asksSource W runProbe input view source
  | .mk name source _ _ _ (some fallback), st => asksSource W runProbe input view source ++
    match resolveSource W runProbe name source input view resolved st with
    | (.ok v, st) => if v.isNull then asksField input view resolved fallback st else []
    | (.error _, _) => []

/-- What the fields of a schema ask for in order. -/
def asksFields (input : IngestInput) (view : TreeView) :
    List Field → Fields → IngestState → List ProbeRequest
  | [], _, _ => []
  | f :: fs, resolved, st => asksField W runProbe input view resolved f st ++
    match resolveField W runProbe input view resolved f st with
    | (.error _, _) => []
    | (.ok v, st) => match checkValue W f v with
      | .error _ => []
      | .ok () => asksFields input view fs (resolved.insert f.name (normalizeValue v f.type)) st

/-- What an ingest from a cache asks for. -/
def asks (input : IngestInput) (view : TreeView) (cache : ProbeOutputCache) :
    List ProbeRequest :=
  asksFields W runProbe input view view.schema.fields ∅ ⟨∅, cache⟩

/-! ### Two runs side by side -/

/-- Two outcomes are the same, and leave the same hashes and caches that answer alike. -/
structure Alike {α : Type} (R : Set ProbeRequest) (r r' : Except OmpError α × IngestState) :
    Prop where
  /-- The outcomes are the same. -/
  fst : r.1 = r'.1
  /-- The same probes were used. -/
  probeHashes : r.2.probeHashes = r'.2.probeHashes
  /-- The caches answer alike. -/
  aligned : Memo.Aligned R r.2.cache r'.2.cache

section Lockstep

variable {W runProbe} {input input' : IngestInput} {view : TreeView} {R : Set ProbeRequest}

/-- Two inputs that differ at most in how they name the source. -/
structure SameFile (W : World) (input input' : IngestInput) : Prop where
  /-- All but the way the source is named agrees. -/
  eq : input' = { input with overrideSourceHash := input'.overrideSourceHash }
  /-- The source is the same. -/
  source : input'.sourceHash W = input.sourceHash W

variable (hfile : SameFile W input input')
include hfile

theorem SameFile.cacheKey (blob : ProbeBlob) (args : Fields) :
    input'.cacheKey W blob args = input.cacheKey W blob args := by
  rw [IngestInput.cacheKey, IngestInput.cacheKey, hfile.source, hfile.eq]
  rfl

theorem SameFile.asksSource (source : Source) :
    asksSource W runProbe input' view source = asksSource W runProbe input view source := by
  cases source with
  | probe probe args =>
    rw [Omp.asksSource, Omp.asksSource]
    cases view.probes[probe]? with
    | none => rfl
    | some blob =>
      dsimp only
      rw [hfile.cacheKey, hfile.eq]
      rfl
  | _ => rfl

theorem resolveProbe_alike {name probe : Text} {args : Fields} {st st' : IngestState}
    (hreq : ∀ q ∈ asksSource W runProbe input view (.probe probe args), q ∈ R)
    (hhash : st.probeHashes = st'.probeHashes) (hal : Memo.Aligned R st.cache st'.cache) :
    Alike R (resolveProbe W runProbe name probe args input view st)
      (resolveProbe W runProbe name probe args input' view st') := by
  have hskip : ∀ blob, input'.skipsProbe view blob = input.skipsProbe view blob := fun blob => by
    rw [hfile.eq]
    rfl
  have hrun : ∀ blob, input'.runOn runProbe view probe blob args =
      input.runOn runProbe view probe blob args := fun blob => by
    rw [hfile.eq]
    rfl
  have hbuiltin : input'.builtinValue probe = input.builtinValue probe := by
    rw [hfile.eq]
    rfl
  unfold resolveProbe
  rw [asksSource] at hreq
  cases hblob : view.probes[probe]? with
  | none => exact ⟨rfl, hhash, hal⟩
  | some blob =>
    simp only [hblob] at hreq
    simp only [hfile.cacheKey, hskip, hrun, hbuiltin]
    cases hs : input.skipsProbe view blob with
    | true => exact ⟨rfl, hhash, hal⟩
    | false =>
      simp only [hs, Bool.false_eq_true, if_false] at hreq ⊢
      obtain ⟨hfst, hsnd⟩ := Memo.fetch_aligned hal (hreq _ (List.mem_singleton_self _))
      revert hfst hsnd
      rcases st.cache.fetch (input.cacheKey W blob args)
        (input.runOn runProbe view probe blob args) with ⟨r, c⟩
      rcases st'.cache.fetch (input.cacheKey W blob args)
        (input.runOn runProbe view probe blob args) with ⟨r', c'⟩
      rintro rfl hal'
      cases r with
      | error e => exact ⟨rfl, hhash, hal'⟩
      | ok v => exact ⟨rfl, by rw [hhash], hal'⟩

theorem resolveSource_alike (name : Text) {source : Source} (resolved : Fields)
    {st st' : IngestState} (hreq : ∀ q ∈ asksSource W runProbe input view source, q ∈ R)
    (hhash : st.probeHashes = st'.probeHashes) (hal : Memo.Aligned R st.cache st'.cache) :
    Alike R (resolveSource W runProbe name source input view resolved st)
      (resolveSource W runProbe name source input' view resolved st') := by
  have huser : input'.userFields = input.userFields := by rw [hfile.eq]
  cases source with
  | constant v => exact ⟨rfl, hhash, hal⟩
  | probe probe args => exact resolveProbe_alike hfile hreq hhash hal
  | userProvided =>
    rw [resolveSource, resolveSource, huser]
    exact ⟨rfl, hhash, hal⟩
  | field from_ transform => exact ⟨rfl, hhash, hal⟩

/-- A field is resolved alike when what either run asks for is among the requests. -/
theorem resolveField_alike (resolved : Fields) : ∀ (f : Field) {st st' : IngestState},
    (∀ q ∈ asksField W runProbe input view resolved f st, q ∈ R) ∨
      (∀ q ∈ asksField W runProbe input' view resolved f st', q ∈ R) →
    st.probeHashes = st'.probeHashes → Memo.Aligned R st.cache st'.cache →
    Alike R (resolveField W runProbe input view resolved f st)
      (resolveField W runProbe input' view resolved f st') ∧
      asksField W runProbe input view resolved f st =
        asksField W runProbe input' view resolved f st'
  | .mk name source _ _ _ none, st, st', hreq, hhash, hal => by
    simp only [asksField, hfile.asksSource, or_self] at hreq
    rw [resolveField, resolveField, asksField, asksField, hfile.asksSource]
    exact ⟨resolveSource_alike hfile name resolved hreq hhash hal, rfl⟩
  | .mk name source _ _ _ (some fallback), st, st', hreq, hhash, hal => by
    rw [asksField, asksField, hfile.asksSource, List.forall_mem_append,
      List.forall_mem_append, ← and_or_left] at hreq
    obtain ⟨hsource, hrest⟩ := hreq
    obtain ⟨hfst, hhash', hal'⟩ := resolveSource_alike hfile name resolved
      hsource hhash hal
    rw [resolveField, resolveField, asksField, asksField, hfile.asksSource]
    revert hfst hhash' hal' hrest
    rcases resolveSource W runProbe name source input view resolved st with ⟨r, t⟩
    rcases resolveSource W runProbe name source input' view resolved st' with ⟨r', t'⟩
    intro hrest hfst hhash' hal'
    dsimp only at hfst
    subst hfst
    cases r with
    | error e => exact ⟨⟨rfl, hhash', hal'⟩, rfl⟩
    | ok v =>
      cases hv : v.isNull with
      | true =>
        simp only [hv, if_true] at hrest ⊢
        obtain ⟨halike, hasks⟩ := resolveField_alike resolved fallback hrest hhash' hal'
        exact ⟨halike, by rw [hasks]⟩
      | false =>
        simp only [hv, Bool.false_eq_true, if_false, and_true]
        exact ⟨rfl, hhash', hal'⟩

/-- The same for the fields of a schema. -/
theorem resolveFields_alike {fs : List Field} (resolved : Fields) {st st' : IngestState}
    (hreq : (∀ q ∈ asksFields W runProbe input view fs resolved st, q ∈ R) ∨
      (∀ q ∈ asksFields W runProbe input' view fs resolved st', q ∈ R))
    (hhash : st.probeHashes = st'.probeHashes) (hal : Memo.Aligned R st.cache st'.cache) :
    Alike R (resolveFields W runProbe input view fs resolved st)
      (resolveFields W runProbe input' view fs resolved st') ∧
      asksFields W runProbe input view fs resolved st =
        asksFields W runProbe input' view fs resolved st' := by
  induction fs generalizing resolved st st' with
  | nil => exact ⟨⟨rfl, hhash, hal⟩, rfl⟩
  | cons f fs ih =>
    rw [asksFields, asksFields, List.forall_mem_append, List.forall_mem_append] at hreq
    obtain ⟨⟨hfst, hhash', hal'⟩, hasks⟩ := resolveField_alike hfile resolved f
      (hreq.imp And.left And.left) hhash hal
    have hrest := hreq.imp And.right And.right
    rw [resolveFields, resolveFields, asksFields, asksFields, hasks]
    revert hfst hhash' hal' hrest
    rcases resolveField W runProbe input view resolved f st with ⟨r, t⟩
    rcases resolveField W runProbe input' view resolved f st' with ⟨r', t'⟩
    intro hfst hhash' hal' hrest
    dsimp only at hfst
    subst hfst
    cases r with
    | error e => exact ⟨⟨rfl, hhash', hal'⟩, rfl⟩
    | ok v =>
      dsimp only at hrest ⊢
      cases hcheck : checkValue W f v with
      | error e => exact ⟨⟨rfl, hhash', hal'⟩, rfl⟩
      | ok _ =>
        rw [hcheck] at hrest
        obtain ⟨halike, heq⟩ := ih _ hrest hhash' hal'
        exact ⟨halike, by rw [heq]⟩

/-- **An ingest that is given only outputs of probes is a fresh ingest**: it is enough for what
either of the two asks for. -/
theorem ingest_of_raw {cache : ProbeOutputCache}
    (hraw : Memo.Raw {q | q ∈ asks W runProbe input view cache} cache ∨
      Memo.Raw {q | q ∈ asks W runProbe input' view []} cache) :
    (ingestWithCache W runProbe input view cache).1 = ingest W runProbe input' view ∧
      asks W runProbe input view cache = asks W runProbe input' view [] := by
  have huser : input'.userFields = input.userFields := by rw [hfile.eq]
  have hat : input'.ingestedAt = input.ingestedAt := by rw [hfile.eq]
  obtain ⟨R, hreq, hR⟩ : ∃ R : Set ProbeRequest,
      ((∀ q ∈ asks W runProbe input view cache, q ∈ R) ∨
        (∀ q ∈ asks W runProbe input' view [], q ∈ R)) ∧ Memo.Raw R cache := by
    rcases hraw with h | h
    · exact ⟨_, .inl fun _ hq => hq, h⟩
    · exact ⟨_, .inr fun _ hq => hq, h⟩
  obtain ⟨⟨hfst, hhash, -⟩, hasks⟩ := resolveFields_alike hfile ∅ hreq rfl
    (show Memo.Aligned R (IngestState.mk ∅ cache).cache (IngestState.mk ∅ []).cache from
      Memo.Aligned.of_raw hR)
  refine ⟨?_, hasks⟩
  rw [ingest, ingestWithCache, ingestWithCache]
  revert hfst hhash
  rcases resolveFields W runProbe input view view.schema.fields ∅ ⟨∅, cache⟩ with ⟨r, t⟩
  rcases resolveFields W runProbe input' view view.schema.fields ∅ ⟨∅, []⟩ with ⟨r', t'⟩
  intro hfst hhash
  dsimp only at hfst hhash
  subst hfst
  cases r with
  | error e => rfl
  | ok resolved =>
    dsimp only
    rw [huser, hat, hfile.source, hhash]
    cases addExtras W view.schema input.userFields resolved <;> rfl

end Lockstep

/-! ### Rebuilding -/

section Rebuild

variable (ctx : PassContext) (n : NewSchema)

/-- What a fresh ingest of a file would start from. -/
def freshInput (path : Text) (m : Manifest) (source : Bytes) : IngestInput :=
  { reprobeInput ctx n path m source with overrideSourceHash := none }

/-- If a file is rebuilt, the fields and the probe hashes of what is stored are those a fresh
ingest computes. -/
def AgreesWithFresh (s : Store) (path : Text) (m : Manifest) (source : Bytes)
    (cache : ProbeOutputCache) : Prop :=
  ∀ h cache' s', (reprobeOne W ctx n path m cache).run s = (.ok (.ok h, cache'), s') →
    ∃ (built : Manifest) (bytes : Bytes) (fresh : Manifest),
      reprobeManifest W ctx n s path m cache = (.ok built, cache') ∧
      built.serialize W = .ok bytes ∧ h = hashOf W.toPlatform .manifest bytes ∧
      ingest W ctx.runProbe (freshInput ctx n path m source) (reprobeView ctx n) = .ok fresh ∧
      built.fields = fresh.fields ∧ built.probeHashes = fresh.probeHashes

/-- What a rebuild asks for and was given in the primed cache is what the probes yield. -/
def ServedRaw (path : Text) (m : Manifest) (source : Bytes) (cache : ProbeOutputCache) : Prop :=
  let primed := primeCache W ctx n path m source cache
  Memo.Raw {q | q ∈ asks W ctx.runProbe (reprobeInput ctx n path m source)
    (reprobeView ctx n) primed} primed

/-- The value of the old manifest that stands for a probe run: that of the last field whose source
runs the probe with the same arguments, and has not changed. -/
def reusedFor (path : Text) (m : Manifest) (source : Bytes) (k : CacheKey) : Option FieldValue :=
  Memo.get (n.schema.fields.reverse.filterMap (primedEntry W ctx n path m source)) k

/-- For every probe run a fresh ingest asks for, what the rebuild is given, a value of the old
manifest or else an output of an earlier file, is what the probe yields. -/
def GivenRaw (path : Text) (m : Manifest) (source : Bytes) (cache : ProbeOutputCache) : Prop :=
  ∀ q ∈ asks W ctx.runProbe (freshInput ctx n path m source) (reprobeView ctx n) [], ∀ v,
    (reusedFor W ctx n path m source q.1).or (cache.get q.1) = some v → q.2 = .ok v

variable {W ctx n}

/-- **What the primed cache holds.** -/
theorem get_primeCache (path : Text) (m : Manifest) (source : Bytes) (cache : ProbeOutputCache)
    (k : CacheKey) : (primeCache W ctx n path m source cache).get k =
      (reusedFor W ctx n path m source k).or (cache.get k) := by
  have hprime : primeCache W ctx n path m source cache =
      n.schema.fields.reverse.filterMap (primedEntry W ctx n path m source) ++ cache := by
    unfold primeCache
    induction n.schema.fields generalizing cache with
    | nil => rfl
    | cons f fs ih =>
      rw [List.foldl_cons, ih, List.reverse_cons, List.filterMap_append, List.append_assoc]
      cases hf : primedEntry W ctx n path m source f <;> simp [hf]
  rw [hprime, Memo.get_append, reusedFor]

theorem storeManifest_eq_ok {m : Manifest} {s s' : Store} {h : Hash}
    (hrun : (storeManifest W m).run s = (.ok (.ok h), s')) :
    ∃ bytes, m.serialize W = .ok bytes ∧ h = hashOf W.toPlatform .manifest bytes ∧
      s' = ⟨s.objects ++ [⟨.manifest, bytes⟩]⟩ := by
  rw [storeManifest] at hrun
  cases hbytes : m.serialize W with
  | error e => simp [hbytes] at hrun
  | ok bytes =>
    rw [hbytes] at hrun
    obtain ⟨h', s₁, hput, hpure⟩ := Op.bind_eq_ok.1 hrun
    obtain ⟨rfl, rfl⟩ := Store.put_eq_ok hput
    obtain ⟨heq, rfl⟩ := Op.pure_eq_ok.1 hpure
    cases heq
    exact ⟨bytes, rfl, rfl, rfl⟩

/-- A file is rebuilt when its manifest is built and written. -/
theorem reprobeOne_eq_ok {path : Text} {m : Manifest} {cache cache' : ProbeOutputCache}
    {s s' : Store} {h : Hash}
    (hrun : (reprobeOne W ctx n path m cache).run s = (.ok (.ok h, cache'), s')) :
    ∃ built bytes, reprobeManifest W ctx n s path m cache = (.ok built, cache') ∧
      built.serialize W = .ok bytes ∧ h = hashOf W.toPlatform .manifest bytes ∧
      s' = ⟨s.objects ++ [⟨.manifest, bytes⟩]⟩ := by
  rw [reprobeOne] at hrun
  obtain ⟨⟨r, c⟩, s₁, hreads, hrest⟩ := Op.bind_eq_ok.1 hrun
  obtain ⟨hread, rfl⟩ := Op.reads_eq_ok.1 hreads
  rw [Except.ok.injEq] at hread
  cases r with
  | error e =>
    obtain ⟨heq, -⟩ := Op.pure_eq_ok.1 hrest
    cases heq
  | ok built =>
    obtain ⟨h', s₂, hstore, hpure⟩ := Op.bind_eq_ok.1 hrest
    obtain ⟨heq, rfl⟩ := Op.pure_eq_ok.1 hpure
    cases heq
    obtain ⟨bytes, hbytes, hh, hs⟩ := storeManifest_eq_ok hstore
    exact ⟨built, bytes, hread, hbytes, hh, hs⟩

/-- And it is rebuilt then. -/
theorem reprobeOne_of_built {path : Text} {m built : Manifest} {cache cache' : ProbeOutputCache}
    {s : Store} {bytes : Bytes}
    (hbuilt : reprobeManifest W ctx n s path m cache = (.ok built, cache'))
    (hbytes : built.serialize W = .ok bytes) :
    (reprobeOne W ctx n path m cache).run s =
      (.ok (.ok (hashOf W.toPlatform .manifest bytes), cache'),
        ⟨s.objects ++ [⟨.manifest, bytes⟩]⟩) := by
  have hread : (Op.reads fun s => .ok (reprobeManifest W ctx n s path m cache) :
      StoreOp (Except OmpError Manifest × ProbeOutputCache)).run s = (.ok (.ok built, cache'), s) :=
    Op.reads_eq_ok.2 ⟨by rw [hbuilt], rfl⟩
  rw [reprobeOne, Op.run_bind_of_ok hread]
  simp only [storeManifest, hbytes]
  rfl

/-- **A rebuild is fresh exactly when it is given only outputs of probes.**  For a file kept as
one blob: the rebuilt manifest has the fields and probe hashes of a fresh ingest, and nothing but
outputs of probes was served, if and only if for every probe run the fresh ingest asks for, what
the primed cache holds is what the probe yields. -/
theorem reprobe_fresh_iff {s : Store} {path : Text} {m : Manifest} {source : Bytes}
    {cache : ProbeOutputCache}
    (hsource : s.get W.toPlatform m.sourceHash = some ⟨.blob, source⟩) :
    (AgreesWithFresh W ctx n s path m source cache ∧ ServedRaw W ctx n path m source cache) ↔
      GivenRaw W ctx n path m source cache := by
  have hfile : SameFile W (reprobeInput ctx n path m source) (freshInput ctx n path m source) :=
    ⟨rfl, Store.hashOf_of_get hsource⟩
  constructor
  · rintro ⟨-, hserved⟩ q hq v hv
    obtain ⟨-, hasks⟩ := ingest_of_raw hfile (.inl hserved)
    rw [← hasks] at hq
    exact hserved q hq v ((get_primeCache ..).trans hv)
  · intro hgiven
    simp only [GivenRaw, ← get_primeCache] at hgiven
    obtain ⟨hingest, hasks⟩ := ingest_of_raw hfile (.inr hgiven)
    refine ⟨fun h cache' s' hrun => ?_, fun q hq v hv => hgiven q (hasks ▸ hq) v hv⟩
    obtain ⟨built, bytes, hbuilt, hbytes, hh, -⟩ := reprobeOne_eq_ok hrun
    have hrebuilt := hbuilt
    rw [reprobeManifest, hsource] at hbuilt
    simp only [ne_eq, not_true_eq_false, if_false] at hbuilt
    rw [hbuilt] at hingest
    exact ⟨built, bytes, built, hrebuilt, hbytes, hh, hingest.symm, rfl, rfl⟩

end Rebuild

/-! ### A schema that loses a fallback -/

/-- A field with the value of a probe, and some fallback. -/
def probedField (fallback : Option Field) : Field :=
  .mk ['x'] (.probe ['p'] ∅) .string false none fallback

/-- A schema of that field. -/
def probedSchema (fallback : Option Field) : Schema := ⟨['t'], [['*']], false, [probedField fallback]⟩

/-- What stands in for the probe. -/
def standIn : Field := .mk "x.fallback".toList (.constant (.string ['v'])) .string false none none

/-- The probe yields nothing. -/
def silentContext : PassContext where
  runProbe _ _ _ _ _ := .ok .null
  probes := TextMap.collect [(['p'], ⟨[], ⟨List.replicate 32 0, rfl⟩, none⟩)]
  limits := ⟨0, 0, 0⟩
  now := ['n']

/-- The world of the example. -/
def silentWorld : World := demoWorld ⟨[], [], []⟩

/-- The new schema has no fallback, and the old one has the one given. -/
def fallbackLost (fallback : Option Field) : NewSchema where
  fileType := ['t']
  hash := schemaHash silentWorld []
  schema := probedSchema none
  bytes := []
  old := some (probedSchema fallback)

/-- An empty file, as it was added under the old schema. -/
def addedInput : IngestInput := ⟨[], ∅, ['f'], ['n'], none, 0, none⟩

/-- The view it was added under. -/
def addedView (fallback : Option Field) : TreeView :=
  ⟨probedSchema fallback, [1], silentContext.probes, silentContext.limits⟩

/-- The store with the file. -/
def emptyFileStore : Store := ⟨[⟨.blob, []⟩]⟩

/-- The manifest of the file: its field has the value of the fallback. -/
def stoodInManifest : Manifest where
  sourceHash := hashOf silentWorld.toPlatform .blob []
  fileType := ['t']
  schemaHash := schemaHash silentWorld [1]
  ingestedAt := ['n']
  ingesterVersion := ingesterVersion
  probeHashes := (∅ : TextMap Hash).insert ['p'] ⟨List.replicate 32 0, rfl⟩
  fields := (∅ : Fields).insert ['x'] (.string ['v'])

/-- **What stood in for a probe is taken for its output**: the field keeps the value of a fallback
that the new schema does not have. -/
theorem stand_in_served :
    ingest silentWorld silentContext.runProbe addedInput (addedView (some standIn)) =
        .ok stoodInManifest ∧
      ¬ AgreesWithFresh silentWorld silentContext (fallbackLost (some standIn)) emptyFileStore ['f']
        stoodInManifest [] [] := by
  refine ⟨rfl, fun hagrees => ?_⟩
  -- what it is rebuilt as can be written, and has the value
  obtain ⟨m, hm⟩ := exists_eq_ok_of_isOk (r := (reprobeManifest silentWorld silentContext
    (fallbackLost (some standIn)) emptyFileStore ['f'] stoodInManifest []).1) (by decide +kernel)
  have hcomputed : (reprobeManifest silentWorld silentContext (fallbackLost (some standIn))
      emptyFileStore ['f'] stoodInManifest []).1.toOption.map (fun m =>
        (m.fields[(['x'] : Text)]?, (m.serialize silentWorld).isOk)) =
      some (some (.string ['v']), true) := by
    decide +kernel
  rw [hm] at hcomputed
  obtain ⟨hvalue, hwritten⟩ := Prod.mk.inj (Option.some.inj hcomputed)
  obtain ⟨bytes, hbytes⟩ := exists_eq_ok_of_isOk hwritten
  have hm := eq_mk_of_fst_eq hm
  obtain ⟨built, -, fresh, hbuilt, -, -, hfresh, hfields, -⟩ :=
    hagrees _ _ _ (reprobeOne_of_built hm hbytes)
  obtain rfl : m = built := Except.ok.inj (Prod.mk.inj (hm.symm.trans hbuilt)).1
  -- and anew the field has no value
  have hnull : (ingest silentWorld silentContext.runProbe
      (freshInput silentContext (fallbackLost (some standIn)) ['f'] stoodInManifest [])
      (reprobeView silentContext (fallbackLost (some standIn)))).toOption.map
        (fun m => m.fields[(['x'] : Text)]?) = some (some .null) := by
    decide +kernel
  rw [hfresh] at hnull
  rw [hfields] at hvalue
  cases hvalue.symm.trans (Option.some.inj hnull)

theorem reprobe_fresh_iff_demo : ∃ m,
    ingest silentWorld silentContext.runProbe addedInput (addedView none) = .ok m ∧
      (AgreesWithFresh silentWorld silentContext (fallbackLost none) emptyFileStore ['f'] m [] [] ∧
        ServedRaw silentWorld silentContext (fallbackLost none) ['f'] m [] [] ↔
          GivenRaw silentWorld silentContext (fallbackLost none) ['f'] m [] []) := by
  obtain ⟨m, hm⟩ := exists_eq_ok_of_isOk (r := ingest silentWorld silentContext.runProbe addedInput
    (addedView none)) (by decide +kernel)
  refine ⟨m, hm, reprobe_fresh_iff ?_⟩
  rw [sourceHash_of_ingest hm]
  decide +kernel

end Omp
