import Omp.Concrete
import Omp.Instances

/-!
# Runs of several instances

Each call of an instance has an outline: what the instance has loaded, that it has the lock, what
HEAD is, what tree it has built.  Other instances leave alone what an assertion speaks of: an index
that was loaded is the loader's own, objects stay, and while an instance has the lock, no other
moves a reference.  What they do not leave alone is the index file, which is what the condition on
actions is about.

## Main definitions

* `Instances.contract` : what instances keep and what they guarantee.

## Main results

* `Instances.outline_call` : the outline of each call.
* `Instances.accounted_of_run` : in a run of allowed actions no change is lost, and none is replayed.
* `Instances.lost_change` : in other runs it may be.
-/

namespace Omp

open Lib RepoScript

variable (W : World)

/-! ### Outlines of the calls -/

namespace Instances

variable (ι : Type)

/-- What instances keep and guarantee. -/
def contract (start : Option Hash) : Machine.Contract Action ι (Env × Work) (Shared ι) where
  inv := Shared.Inv W start
  guar := Shared.Guar
  rest i s := s.publishing ≠ some i
  allow i l x s := s.Allows W i l.1 l.2.1.stagedPath x

variable {W} {ι} {start : Option Hash} {i : ι} {l : Env × Work} {α β : Type}

theorem guar_refl (i : ι) (s : Shared ι) : s.Guar i s :=
  ⟨le_refl _, fun _ _ => rfl, fun _ _ h => h, fun _ _ => Iff.rfl, fun _ _ _ => ⟨rfl, rfl, rfl⟩⟩

theorem stable_rest (i : ι) : (contract W ι start).Stable i fun s => s.publishing ≠ some i := by
  intro j hj s s' _ _ hguar hs
  exact fun h => hs ((hguar.publishing i (Ne.symm hj)).1 h)

/-- An assertion on what was computed, which no step touches. -/
theorem stable_and {P : Prop} {Q : Shared ι → Prop} (hQ : (contract W ι start).Stable i Q) :
    (contract W ι start).Stable i fun s => P ∧ Q s :=
  fun j hj s s' hs hs' hguar h => ⟨h.1, hQ j hj s s' hs hs' hguar h.2⟩

/-- An instance has loaded the index. -/
def Loaded (i : ι) (idx : Index) (s : Shared ι) : Prop :=
  idx = changesOf (s.seen i) ∧ s.publishing ≠ some i

theorem stable_loaded (idx : Index) : (contract W ι start).Stable i (Loaded i idx) := by
  intro j hj s s' hs hs' hguar h
  refine ⟨?_, stable_rest i j hj s s' hs hs' hguar h.2⟩
  rw [hguar.seen i (Ne.symm hj)]
  exact h.1

/-- An instance has the lock, and has not published its commit. -/
def Holding (i : ι) (P : Shared ι → Prop) (s : Shared ι) : Prop :=
  s.lock = some i ∧ s.publishing ≠ some i ∧ P s

/-- An assertion on what other instances leave alone while an instance has the lock, and on objects
in the store. -/
def Kept (i : ι) (P : Shared ι → Prop) : Prop :=
  ∀ s s' : Shared ι, s.repo.store ≤ s'.repo.store → s'.repo.refs = s.repo.refs →
    s'.repo.head = s.repo.head → s'.seen i = s.seen i → P s → P s'

theorem stable_holding {P : Shared ι → Prop} (hP : Kept i P) :
    (contract W ι start).Stable i (Holding i P) := by
  intro j hj s s' hs hs' hguar ⟨hlock, hpub, h⟩
  obtain ⟨hrefs, hhead, -⟩ := hguar.refs i (Ne.symm hj) hlock
  exact ⟨hguar.lock i (Ne.symm hj) hlock, stable_rest i j hj s s' hs hs' hguar hpub,
    hP s s' hguar.store hrefs hhead (hguar.seen i (Ne.symm hj)) h⟩

/-- An instance has published its commit, and is about to empty the index. -/
def Publishing (i : ι) (s : Shared ι) : Prop :=
  s.lock = some i ∧ s.publishing = some i ∧ ∃ e ∈ s.log, e.consumed = s.seen i

theorem stable_publishing : (contract W ι start).Stable i (Publishing i) := by
  intro j hj s s' hs hs' hguar ⟨hlock, hpub, e, he, hconsumed⟩
  obtain ⟨-, -, hlog⟩ := hguar.refs i (Ne.symm hj) hlock
  refine ⟨hguar.lock i (Ne.symm hj) hlock, (hguar.publishing i (Ne.symm hj)).2 hpub, e, ?_, ?_⟩
  · rwa [hlog]
  · rw [hguar.seen i (Ne.symm hj)]
    exact hconsumed

/-- What is known once the commit is stored, for an action that moves HEAD to it. -/
def Ready (W : World) (i : ι) (x : Action α) (s : Shared ι) : Prop :=
  ∃ parent commit, s.repo.resolveHead W = .ok parent ∧
    Carries W s.repo.store parent commit (s.seen i) ∧
    ∀ a r, (x.op W).run s.repo = (.ok a, r) → r.resolveHead W = .ok (some commit)

/-! Each action. -/

section Actions

variable [DecidableEq ι]

theorem acts_eq_some {x : Action α} {s s' : Shared ι} {res : Except (Fault OmpError) α} :
    (machine W ι).acts i l x s = some (res, s') ↔ x.waits s = false ∧
      ∃ r, (x.op W).run s.repo = (res, r) ∧
        s' = { s with repo := r }.record W i l.2.1.stagedPath res.isOk x := by
  change s.acts W i l.2.1.stagedPath x = some (res, s') ↔ _
  unfold Shared.acts
  split_ifs with hwaits
  · simp [hwaits]
  · rw [Option.some.injEq, Prod.mk.injEq]
    constructor
    · rintro ⟨rfl, rfl⟩
      exact ⟨by simpa using hwaits, _, rfl, rfl⟩
    · rintro ⟨-, r, hrun, rfl⟩
      obtain rfl : _ = res := congrArg Prod.fst hrun
      obtain rfl : _ = r := congrArg Prod.snd hrun
      exact ⟨rfl, rfl⟩

variable {P : Shared ι → Prop} (hrest : ∀ s, P s → s.publishing ≠ some i)

include hrest

theorem leads_look {f : Repo → Except (Fault OmpError) α} {R : α → Shared ι → Prop}
    (hR : ∀ s a, s.Inv W start → P s → f s.repo = .ok a → R a s) :
    (machine W ι).Leads (contract W ι start) i l P (.look f) R := by
  intro s res s' hs hP _ hacts
  obtain ⟨-, r, hrun, rfl⟩ := acts_eq_some.1 hacts
  cases hrun
  exact ⟨hs, guar_refl i s, fun a ha => hR s a hs hP ha, fun _ _ => hrest s hP⟩

theorem leads_objects {x : StoreOp α} {R : α → Shared ι → Prop}
    (hR : ∀ s a store, s.Inv W start → P s → x.run s.repo.store = (.ok a, store) →
      R a { s with repo := { s.repo with store := store } }) :
    (machine W ι).Leads (contract W ι start) i l P (.objects x) R := by
  intro s res s' hs hP _ hacts
  obtain ⟨-, r, hrun, rfl⟩ := acts_eq_some.1 hacts
  have hle := x.grows s.repo.store
  cases hrun
  refine ⟨hs.withStore hle, ⟨hle, fun _ _ => rfl, fun _ _ h => h, fun _ _ => Iff.rfl,
    fun _ _ _ => ⟨rfl, rfl, rfl⟩⟩, fun a ha => ?_, fun _ _ => hrest s hP⟩
  exact hR s a _ hs hP (Prod.ext ha rfl)

theorem leads_loadIndex {R : Index → Shared ι → Prop}
    (hR : ∀ s, s.Inv W start → P s →
      R (changesOf s.staged) { s with seen := Function.update s.seen i s.staged }) :
    (machine W ι).Leads (contract W ι start) i l P .loadIndex R := by
  intro s res s' hs hP _ hacts
  obtain ⟨-, r, hrun, rfl⟩ := acts_eq_some.1 hacts
  cases hrun
  refine ⟨hs.load i, ⟨le_refl _, fun j hj => Function.update_of_ne hj _ _, fun _ _ h => h,
    fun _ _ => Iff.rfl, fun _ _ _ => ⟨rfl, rfl, rfl⟩⟩, fun idx hidx => ?_, fun _ _ => hrest s hP⟩
  cases hidx
  have h := hR s hs hP
  rwa [← hs.index] at h

end Actions

section Writes

variable [DecidableEq ι]

/-- **Taking the lock.** -/
theorem leads_lockRefs {idx : Index} :
    (machine W ι).Leads (contract W ι start) i l (Loaded i idx) .lockRefs fun _ =>
      Holding i fun s => idx = changesOf (s.seen i) ∧ s.repo.Spares W l.1 idx := by
  intro s res s' hs hP hallow hacts
  obtain ⟨hwaits, r, hrun, rfl⟩ := acts_eq_some.1 hacts
  have hfree : s.lock = none := Option.not_isSome_iff_eq_none.1 (by simpa [Action.waits] using hwaits)
  cases hrun
  have hother : ∀ j, s.lock ≠ some j := fun j hj => by cases hfree.symm.trans hj
  refine ⟨hs.take i hfree, ⟨le_refl _, fun _ _ => rfl, fun j _ hj => (hother j hj).elim,
    fun _ _ => Iff.rfl, fun j _ hj => (hother j hj).elim⟩, fun _ _ => ⟨rfl, hP.2, hP.1, ?_⟩,
    fun _ _ => hP.2⟩
  have hspares : s.repo.Spares W l.1 (changesOf (s.seen i)) := hallow
  rwa [← hP.1] at hspares

/-- What is left alone when a reference or `HEAD` is written. -/
theorem frame_of_movesRef {x : Action α} (hx : x.MovesRef) {r r' : Repo} {a : α}
    (hrun : (x.op W).run r = (.ok a, r')) : r'.store = r.store ∧ r'.index = r.index := by
  cases x with
  | writeRef name commit =>
    obtain ⟨path, r₁, hpath, hwrite⟩ := Op.bind_eq_ok.1 hrun
    obtain ⟨-, rfl⟩ := Op.lift_eq_ok.1 hpath
    cases hwrite
    exact ⟨rfl, rfl⟩
  | writeHead value =>
    cases hrun
    exact ⟨rfl, rfl⟩
  | look _ | objects _ | loadIndex | lockRefs | saveIndex _ => exact hx.elim

theorem record_of_movesRef {x : Action α} (hx : x.MovesRef) (s : Shared ι) (path : Option Text)
    (ok : Bool) : s.record W i path ok x = if ok then s.publish W i else s := by
  cases x with
  | writeRef _ _ | writeHead _ => rfl
  | look _ | objects _ | loadIndex | lockRefs | saveIndex _ => exact hx.elim

omit [DecidableEq ι] in
theorem allows_of_movesRef {x : Action α} (hx : x.MovesRef) {s : Shared ι} {env : Env}
    {path : Option Text} (h : s.Allows W i env path x) : s.staged = s.seen i := by
  cases x with
  | writeRef _ _ | writeHead _ => exact h
  | look _ | objects _ | loadIndex | lockRefs | saveIndex _ => exact hx.elim

/-- **Publishing a commit.** -/
theorem leads_publish {x : Action α} (hx : x.MovesRef) :
    (machine W ι).Leads (contract W ι start) i l (Holding i (Ready W i x)) x
      fun _ => Publishing i := by
  rintro s res s' hs ⟨hlock, hpub, parent, commit, hparent, hcarries, hhead⟩ hallow hacts
  obtain ⟨-, r, hrun, rfl⟩ := acts_eq_some.1 hacts
  rw [record_of_movesRef hx]
  cases res with
  | ok a =>
    obtain ⟨hstore, hindex⟩ := frame_of_movesRef hx hrun
    refine ⟨hs.publish hlock hpub (allows_of_movesRef hx hallow) hstore hindex hparent
      (hhead a r hrun) hcarries, ⟨le_of_eq hstore.symm, fun _ _ => rfl, fun _ _ h => h,
      fun j hj => ?_, fun j hj h => ?_⟩, fun _ _ => ⟨hlock, rfl, _, List.mem_cons_self, rfl⟩,
      fun e he => by cases he⟩
    · -- no other instance is publishing, since this one has the lock
      constructor
      · intro h
        exact absurd (Option.some.inj h).symm hj
      · intro h
        exact absurd (Option.some.inj ((hs.held j h).symm.trans hlock)) hj
    · exact absurd (Option.some.inj (h.symm.trans hlock)) hj
  | error e =>
    obtain rfl := eq_of_movesRef hx hrun
    exact ⟨hs, guar_refl i s, fun a ha => (by cases ha), fun _ _ => hpub⟩

/-- **Emptying the index.** -/
theorem leads_empty (hpath : l.2.1.stagedPath = none) :
    (machine W ι).Leads (contract W ι start) i l (Publishing i) (.saveIndex ∅)
      fun _ s => s.publishing ≠ some i := by
  rintro s res s' hs ⟨hlock, hpub, e, he, hconsumed⟩ hallow hacts
  obtain ⟨-, r, hrun, rfl⟩ := acts_eq_some.1 hacts
  cases hrun
  rw [hpath]
  have hseen : ∀ q : Text, s.staged[q]? = (s.seen i)[q]? :=
    fun q => hallow q (by rw [hpath]; intro h; cases h)
  refine ⟨hs.empty hseen he hconsumed, ⟨le_refl _, fun _ _ => rfl, fun _ _ h => h, fun j hj => ?_,
    fun _ _ _ => ⟨rfl, rfl, rfl⟩⟩, fun _ _ h => (by cases h), fun _ h => (by cases h)⟩
  constructor
  · intro h
    cases h
  · intro h
    exact absurd (Option.some.inj (h.symm.trans hpub)) hj

/-- **Staging a change.** -/
theorem leads_stage {idx : Index} {path : Text} {c : StagedChange}
    (hpath : l.2.1.stagedPath = some path) :
    (machine W ι).Leads (contract W ι start) i l (Loaded i idx) (.saveIndex (idx.insert path c))
      fun _ s => s.publishing ≠ some i := by
  rintro s res s' hs ⟨rfl, hpub⟩ hallow hacts
  obtain ⟨-, r, hrun, rfl⟩ := acts_eq_some.1 hacts
  cases hrun
  rw [hpath]
  have hseen : ∀ q ≠ path, s.staged[q]? = (s.seen i)[q]? :=
    fun q hq => hallow q (by rw [hpath]; exact fun h => hq (Option.some.inj h).symm)
  exact ⟨hs.stage hseen, ⟨le_refl _, fun _ _ => rfl, fun _ _ h => h, fun _ _ => Iff.rfl,
    fun _ _ _ => ⟨rfl, rfl, rfl⟩⟩, fun _ _ => hpub, fun _ _ => hpub⟩

end Writes

/-! Staging. -/

section Staging

variable [DecidableEq ι]

/-- A script that leaves its instance at rest. -/
def Rests (W : World) (start : Option Hash) (i : ι) (l : Env × Work) (t : RepoScript α) : Prop :=
  (machine W ι).Outline (contract W ι start) i l (fun s => s.publishing ≠ some i) t
    fun _ s => s.publishing ≠ some i

theorem rests_pure (a : α) : Rests W start i l (pure a) :=
  .done (stable_rest i) fun _ _ h => h

theorem Rests.bind {t : RepoScript α} {k : α → RepoScript β} (ht : Rests W start i l t)
    (hk : ∀ a, Rests W start i l (k a)) : Rests W start i l (t >>= k) :=
  Machine.Outline.bind ht hk

theorem rests_inspect (f : Repo → Except (Fault OmpError) α) :
    Rests W start i l (inspect f) :=
  .act (stable_rest i) (leads_look (fun _ h => h) fun _ _ _ h _ => h) fun _ => stable_rest i

theorem rests_check (f : Repo → Except OmpError α) : Rests W start i l (check f) :=
  rests_inspect _

theorem rests_objects (x : StoreOp α) : Rests W start i l (Script.act (.objects x)) :=
  .act (stable_rest i) (leads_objects (fun _ h => h) fun _ _ _ _ h _ => h) fun _ => stable_rest i

theorem rests_put (type : ObjectType) (content : Bytes) : Rests W start i l (put W type content) :=
  rests_objects _

theorem outline_loadIndex :
    (machine W ι).Outline (contract W ι start) i l (fun s => s.publishing ≠ some i)
      (.act .loadIndex) (Loaded i) :=
  .act (stable_rest i) (leads_loadIndex (fun _ h => h) fun s _ h =>
    ⟨congrArg changesOf (Function.update_self i s.staged s.seen).symm, h⟩) stable_loaded

/-- **Staging a change at the path of the call.** -/
theorem rests_save {path : Text} (hpath : l.2.1.stagedPath = some path) (c : StagedChange) :
    Rests W start i l (do
      let idx ← .act .loadIndex
      .act (.saveIndex (idx.insert path c))) :=
  outline_loadIndex.bind fun idx =>
    .act (stable_loaded idx) (leads_stage hpath) fun _ => stable_rest i

theorem rests_stageManifest {path : Text} (hpath : l.2.1.stagedPath = some path) (m : Manifest)
    (sourceHash : Hash) : Rests W start i l (Repo.stageManifest W path m sourceHash) :=
  (rests_check _).bind fun _ => (rests_put _ _).bind fun _ => (rests_save hpath _).bind
    fun _ => rests_pure _

theorem rests_addChunked {req : AddRequest} (hpath : l.2.1.stagedPath = some req.path)
    (env : Env) (chunkSize : Nat) : Rests W start i l (Repo.addChunked W env req chunkSize) :=
  (rests_objects _).bind fun _ => (rests_put _ _).bind fun _ => (rests_inspect _).bind fun _ =>
    rests_stageManifest hpath _ _

theorem rests_add {req : AddRequest} (hpath : l.2.1.stagedPath = some req.path) (env : Env) :
    Rests W start i l (Repo.add W env req) := by
  refine (rests_check _).bind fun _ => (rests_check _).bind fun _ => ?_
  split_ifs
  · exact (rests_inspect _).bind fun _ => (rests_put _ _).bind fun _ =>
      (rests_save hpath _).bind fun _ => rests_pure _
  · refine (rests_check _).bind fun config => ?_
    split_ifs
    · exact rests_addChunked hpath env _
    · exact (rests_inspect _).bind fun _ => (rests_put _ _).bind fun _ =>
        rests_stageManifest hpath _ _

theorem rests_patchFields {path : Text} (hpath : l.2.1.stagedPath = some path) (env : Env)
    (updates : Fields) : Rests W start i l (Repo.patchFields W env path updates) :=
  (rests_check _).bind fun _ => (rests_check _).bind fun _ => (rests_inspect _).bind fun _ =>
    (rests_check _).bind fun _ => (rests_put _ _).bind fun _ => (rests_save hpath _).bind
      fun _ => rests_pure _

theorem rests_remove {path : Text} (hpath : l.2.1.stagedPath = some path) :
    Rests W start i l (Repo.remove W path) :=
  (rests_check _).bind fun _ => rests_save hpath _

end Staging

/-! What is known at each place of a commit. -/

section Known

/-- The index was loaded, and the pass would spare it. -/
def Spared (W : World) (i : ι) (env : Env) (idx : Index) (s : Shared ι) : Prop :=
  idx = changesOf (s.seen i) ∧ s.repo.Spares W env idx

/-- An index has the changes that were loaded. -/
def Grown (i : ι) (idx : Index) (s : Shared ι) : Prop := Extends (changesOf (s.seen i)) idx

/-- HEAD's commit. -/
def HeadAt (W : World) (parent : Option Hash) (s : Shared ι) : Prop :=
  s.repo.resolveHead W = .ok parent

theorem headAt_congr {parent : Option Hash} {s s' : Shared ι} (hrefs : s'.repo.refs = s.repo.refs)
    (hhead : s'.repo.head = s.repo.head) (h : HeadAt W parent s) : HeadAt W parent s' := by
  unfold HeadAt Repo.resolveHead Repo.readHead Repo.readRef at h ⊢
  rwa [hrefs, hhead]

theorem spares_mono {env : Env} {r r' : Repo} {idx : Index} (h : r.Spares W env idx)
    (hle : r.store ≤ r'.store) (hrefs : r'.refs = r.refs) (hhead : r'.head = r.head) :
    r'.Spares W env idx := by
  refine h.imp_right fun h s files hs hfiles => h s files (hle.trans hs) ?_
  have hcongr : ({ r' with store := s } : Repo).headManifests W =
      ({ r with store := s } : Repo).headManifests W := by
    unfold Repo.headManifests Repo.headTree Repo.resolveHead Repo.readHead Repo.readRef
    rw [hrefs, hhead]
  rwa [← hcongr]

theorem kept_spared (env : Env) (idx : Index) : Kept i (Spared W i env idx) := by
  intro s s' hle hrefs hhead hseen h
  refine ⟨?_, spares_mono h.2 hle hrefs hhead⟩
  rw [hseen]
  exact h.1

theorem kept_grown (idx : Index) : Kept i (Grown i idx) := by
  intro s s' _ _ _ hseen h
  unfold Grown
  rwa [hseen]

/-- HEAD's commit and its tree. -/
def BaseAt (W : World) (base : Option Hash) (s : Shared ι) : Prop :=
  ∃ parent, HeadAt W parent s ∧ treeOf W s.repo.store parent = .ok base

/-- A tree that is HEAD's with the changes applied. -/
def TreeBuilt (W : World) (i : ι) (tree : Hash) (s : Shared ι) : Prop :=
  ∃ parent, HeadAt W parent s ∧ Applied W s.repo.store parent (s.seen i) tree

theorem kept_baseAt (base : Option Hash) : Kept i (BaseAt W base) := by
  rintro s s' hle hrefs hhead _ ⟨parent, hparent, htree⟩
  exact ⟨parent, headAt_congr hrefs hhead hparent, treeOf_mono hle htree⟩

theorem kept_treeBuilt (tree : Hash) : Kept i (TreeBuilt W i tree) := by
  rintro s s' hle hrefs hhead hseen ⟨parent, hparent, happlied⟩
  refine ⟨parent, headAt_congr hrefs hhead hparent, ?_⟩
  rw [hseen]
  exact happlied.mono hle

theorem Kept.and {P Q : Shared ι → Prop} (hP : Kept i P) (hQ : Kept i Q) :
    Kept i fun s => P s ∧ Q s :=
  fun s s' hle hrefs hhead hseen h => ⟨hP s s' hle hrefs hhead hseen h.1,
    hQ s s' hle hrefs hhead hseen h.2⟩

/-- HEAD's tree is that of HEAD's commit. -/
theorem baseAt_of_headTree {s : Shared ι} {base : Option Hash}
    (h : s.repo.headTree W = .ok base) : BaseAt W base s := by
  obtain ⟨parent, hparent, h⟩ := except_bind_eq_ok.1 h
  refine ⟨parent, hparent, ?_⟩
  cases parent with
  | none => exact h
  | some _ => exact h

/-- The fold builds such a tree. -/
theorem treeBuilt_of_buildTree {env : Env} {s : Shared ι} {idx : Index} {base root : Option Hash}
    {store : Store} (hidx : Grown i idx s) (hbase : BaseAt W base s)
    (hrun : (buildTree W.toPlatform none base (env.order idx)).run s.repo.store = (.ok root, store)) :
    ∀ tree ∈ root, TreeBuilt W i tree { s with repo := { s.repo with store := store } } := by
  rintro tree htree
  obtain rfl : root = some tree := htree
  obtain ⟨parent, hparent, hbase⟩ := hbase
  have hle : s.repo.store ≤ store := Op.le_of_run hrun
  refine ⟨parent, hparent, base, env.order idx, s.repo.store, store, treeOf_mono hle hbase, hrun,
    le_refl _, fun path t ht => ?_, fun c hc => ?_⟩
  · -- the changes are iterated, in some order
    rw [(env.order_perm idx).mem_iff]
    refine List.mem_map.2 ⟨(path, t.change), TextMap.mem_toList.2 (hidx.1 path _ ?_), rfl⟩
    rw [changesOf, Std.ExtTreeMap.getElem?_map, ht]
    rfl
  · rw [(env.order_perm idx).mem_iff] at hc
    obtain ⟨⟨path, c'⟩, hmem, rfl⟩ := List.mem_map.1 hc
    have hget := TextMap.mem_toList.1 hmem
    rcases hidx.2 path c' hget with hold | ⟨hnone, hpath⟩
    · rw [changesOf, Std.ExtTreeMap.getElem?_map] at hold
      obtain ⟨t, ht, hchange⟩ := Option.map_eq_some_iff.1 hold
      exact .inr ⟨path, t, ht, hchange⟩
    · left
      rw [changesOf, Std.ExtTreeMap.getElem?_map, Option.map_eq_none_iff] at hnone
      change (s.seen i)[c'.path]? = none
      rw [hpath]
      exact hnone

/-- A stored commit of such a tree. -/
def CommitStored (W : World) (i : ι) (commit : Hash) (s : Shared ι) : Prop :=
  ∃ parent, HeadAt W parent s ∧ Carries W s.repo.store parent commit (s.seen i)

theorem kept_commitStored (commit : Hash) : Kept i (CommitStored W i commit) := by
  rintro s s' hle hrefs hhead hseen ⟨parent, hparent, hcarries⟩
  refine ⟨parent, headAt_congr hrefs hhead hparent, ?_⟩
  rw [hseen]
  exact hcarries.mono hle

/-- Where `HEAD` points. -/
def HeadReadsAs (W : World) (head : Head) (s : Shared ι) : Prop :=
  parseHead W.toPlatform s.repo.readHead = .ok head

theorem kept_headReadsAs (head : Head) : Kept i (HeadReadsAs W head) := by
  intro s s' _ _ hhead _ h
  unfold HeadReadsAs Repo.readHead
  rwa [hhead]

/-- Writing HEAD's branch moves HEAD. -/
theorem ready_writeRef {s : Shared ι} {name : Text} {commit : Hash}
    (hstored : CommitStored W i commit s) (hhead : HeadReadsAs W (.branch name) s) :
    Ready W i (.writeRef name commit) s := by
  obtain ⟨parent, hparent, hcarries⟩ := hstored
  refine ⟨parent, commit, hparent, hcarries, fun a r hrun => ?_⟩
  obtain ⟨path, r₁, hlift, hwrite⟩ := Op.bind_eq_ok.1 hrun
  obtain ⟨hpath, rfl⟩ := Op.lift_eq_ok.1 hlift
  cases hwrite
  refine except_bind_eq_ok.2 ⟨.branch name, hhead, except_bind_eq_ok.2 ⟨path, hpath, ?_⟩⟩
  rw [TextMap.getElem?_insert, if_pos rfl]

/-- Writing a detached `HEAD` moves it. -/
theorem ready_writeHead {s : Shared ι} {commit : Hash} (hstored : CommitStored W i commit s) :
    Ready W i (.writeHead commit.hex) s := by
  obtain ⟨parent, hparent, hcarries⟩ := hstored
  refine ⟨parent, commit, hparent, hcarries, fun a r hrun => ?_⟩
  cases hrun
  exact except_bind_eq_ok.2 ⟨.detached commit, parseHead_hex W.toPlatform commit, rfl⟩

end Known

/-! Commits. -/

section Commits

variable [DecidableEq ι]

theorem outline_look {P : Shared ι → Prop} {R : α → Shared ι → Prop}
    {f : Repo → Except (Fault OmpError) α} (hP : Kept i P) (hR : ∀ a, Kept i (R a))
    (h : ∀ s a, P s → f s.repo = .ok a → R a s) :
    (machine W ι).Outline (contract W ι start) i l (Holding i P) (inspect f)
      fun a => Holding i (R a) :=
  .act (stable_holding hP) (leads_look (fun _ h => h.2.1) fun s a _ hs hf =>
    ⟨hs.1, hs.2.1, h s a hs.2.2 hf⟩) fun a => stable_holding (hR a)

theorem outline_check {P : Shared ι → Prop} {R : α → Shared ι → Prop}
    {f : Repo → Except OmpError α} (hP : Kept i P) (hR : ∀ a, Kept i (R a))
    (h : ∀ s a, P s → f s.repo = .ok a → R a s) :
    (machine W ι).Outline (contract W ι start) i l (Holding i P) (check f)
      fun a => Holding i (R a) := by
  refine outline_look hP hR fun s a hs hf => h s a hs ?_
  cases hres : f s.repo with
  | ok b =>
    rw [hres] at hf
    cases hf
    rfl
  | error e =>
    rw [hres] at hf
    cases hf

theorem outline_objects {P : Shared ι → Prop} {R : α → Shared ι → Prop} {x : StoreOp α}
    (hP : Kept i P) (hR : ∀ a, Kept i (R a))
    (h : ∀ s a store, P s → x.run s.repo.store = (.ok a, store) →
      R a { s with repo := { s.repo with store := store } }) :
    (machine W ι).Outline (contract W ι start) i l (Holding i P) (.act (.objects x))
      fun a => Holding i (R a) :=
  .act (stable_holding hP) (leads_objects (fun _ h => h.2.1) fun s a store _ hs hx =>
    ⟨hs.1, hs.2.1, h s a store hs.2.2 hx⟩) fun a => stable_holding (hR a)

theorem outline_pure {P : Shared ι → Prop} {R : α → Shared ι → Prop} {a : α} (hP : Kept i P)
    (h : ∀ s, P s → R a s) :
    (machine W ι).Outline (contract W ι start) i l (Holding i P) (pure a)
      fun a => Holding i (R a) :=
  .done (stable_holding hP) fun s _ hs => ⟨hs.1, hs.2.1, h s hs.2.2⟩

/-- The pass, which is spared the staged files, adds to the index. -/
theorem outline_reprobed (env : Env) (idx : Index) :
    (machine W ι).Outline (contract W ι start) i l (Holding i (Spared W i env idx))
      (Repo.reprobed W env idx) fun res => Holding i (Grown i res.1) := by
  have hsame : ∀ s, Spared W i env idx s → Grown i idx s := by
    intro s hs
    rw [Grown, ← hs.1]
    exact Extends.refl idx
  unfold Repo.reprobed
  split_ifs with hdefer
  · exact outline_pure (kept_spared env idx) hsame
  · unfold Repo.autoReprobe
    dsimp only
    split_ifs
    · exact outline_pure (kept_spared env idx) hsame
    · -- the files that are inspected are HEAD's
      let R (inputs : TextMap Schema × PassContext × List (Text × Hash)) (s : Shared ι) : Prop :=
        idx = changesOf (s.seen i) ∧ ∀ schema ∈ Repo.stagedSchemas (env.order idx),
          ∀ file ∈ inputs.2.2, SparesFile W idx schema.1 schema.2 file
      have hR : ∀ inputs, Kept i (R inputs) := by
        intro inputs s s' _ _ _ hseen h
        refine ⟨?_, h.2⟩
        rw [hseen]
        exact h.1
      refine Machine.Outline.bind (Q := fun inputs => Holding i (R inputs))
        (outline_look (kept_spared env idx) hR fun s inputs hs hin => ⟨hs.1, ?_⟩) fun inputs => ?_
      · obtain ⟨heads, -, hin⟩ := except_bind_eq_ok.1 hin
        obtain ⟨probes, -, hin⟩ := except_bind_eq_ok.1 hin
        obtain ⟨files, hfiles, hin⟩ := except_bind_eq_ok.1 hin
        obtain ⟨config, -, hin⟩ := except_bind_eq_ok.1 hin
        cases hin
        exact hs.2.resolve_left hdefer s.repo.store files (le_refl _) hfiles
      · obtain ⟨heads, ctx, files⟩ := inputs
        refine Machine.Outline.bind (Q := fun tot => Holding i (Grown i tot.index))
          (outline_objects (hR _) (fun tot => kept_grown tot.index) fun s tot store hs hrun => ?_)
          fun tot => outline_pure (kept_grown tot.index) fun _ hs => hs
        change Extends (changesOf (s.seen i)) tot.index
        rw [← hs.1]
        exact extends_of_pass hs.2 hrun

/-- Once its tree is built, a commit is stored and published, and the index emptied. -/
theorem outline_publish (hpath : l.2.1.stagedPath = none) (root : Option Hash) (author : Author)
    (message : Text) :
    (machine W ι).Outline (contract W ι start) i l
      (Holding i fun s => ∀ tree ∈ root, TreeBuilt W i tree s) (Repo.publish W root author message)
      fun _ s => s.publishing ≠ some i := by
  have hbuilt : Kept i fun s => ∀ tree ∈ root, TreeBuilt W i tree s :=
    fun s s' hle hrefs hhead hseen h tree htree =>
      kept_treeBuilt tree s s' hle hrefs hhead hseen (h tree htree)
  cases root with
  | none =>
    exact .act (stable_holding hbuilt) (leads_look (fun _ h => h.2.1) fun _ _ _ _ h => by cases h)
      fun _ => stable_rest i
  | some tree =>
    have hheadAt : ∀ parent, Kept i fun s => HeadAt W parent s ∧ TreeBuilt W i tree s :=
      fun parent s s' hle hrefs hhead hseen h =>
        ⟨headAt_congr hrefs hhead h.1, kept_treeBuilt tree s s' hle hrefs hhead hseen h.2⟩
    refine Machine.Outline.bind
      (outline_check (R := fun parent s => HeadAt W parent s ∧ TreeBuilt W i tree s) hbuilt hheadAt
        fun s parent hs hparent => ⟨hparent, hs tree rfl⟩) fun parent => ?_
    refine Machine.Outline.bind
      (outline_objects (R := CommitStored W i) (hheadAt parent) kept_commitStored
        fun s commit store hs hput => ?_) fun commit => ?_
    · obtain ⟨hparent, parent', hparent', happlied⟩ := hs
      obtain rfl : parent = parent' := Except.ok.inj (hparent.symm.trans hparent')
      have hle : s.repo.store ≤ store := Op.le_of_run hput
      obtain ⟨rfl, rfl⟩ := Store.put_eq_ok hput
      exact ⟨parent, hparent, tree, author, message, happlied.mono hle, by simp, rfl⟩
    · refine Machine.Outline.bind
        (outline_check (R := fun head s => CommitStored W i commit s ∧ HeadReadsAs W head s)
          (kept_commitStored commit)
          (fun head => (kept_commitStored commit).and (kept_headReadsAs head))
          fun s head hs hhead => ⟨hs, hhead⟩) fun head => ?_
      have hsave : (machine W ι).Outline (contract W ι start) i l (Publishing i)
          (do .act (.saveIndex ∅); pure commit : RepoScript Hash) fun _ s => s.publishing ≠ some i :=
        Machine.Outline.bind (.act stable_publishing (leads_empty hpath) fun _ => stable_rest i)
          fun _ => rests_pure commit
      have hstable : (contract W ι start).Stable i
          (Holding i fun s => CommitStored W i commit s ∧ HeadReadsAs W head s) :=
        stable_holding ((kept_commitStored commit).and (kept_headReadsAs head))
      cases head with
      | branch name =>
        refine Machine.Outline.step hstable (fun s res s' hs hP => ?_) fun _ => hsave
        exact leads_publish (x := .writeRef name commit) trivial s res s' hs
          ⟨hP.1, hP.2.1, ready_writeRef hP.2.2.1 hP.2.2.2⟩
      | detached g =>
        refine Machine.Outline.step hstable (fun s res s' hs hP => ?_) fun _ => hsave
        exact leads_publish (x := .writeHead commit.hex) trivial s res s' hs
          ⟨hP.1, hP.2.1, ready_writeHead hP.2.2.1⟩

/-- The tree of a commit is built under the lock, of the index that was loaded. -/
theorem outline_buildCommit (author : AuthorOverride) :
    (machine W ι).Outline (contract W ι start) i l (fun s => s.publishing ≠ some i)
      (Repo.buildCommit W l.1 author)
      fun res => Holding i fun s => ∀ tree ∈ res.1, TreeBuilt W i tree s := by
  refine outline_loadIndex.bind fun idx => ?_
  have hloaded : (contract W ι start).Stable i (Loaded i idx) := stable_loaded idx
  refine Machine.Outline.bind (Q := fun _ => Loaded i idx)
    (.act hloaded (leads_look (fun _ h => h.2) fun _ _ _ h _ => h) fun _ => hloaded) fun _ => ?_
  refine Machine.Outline.bind (Q := fun _ => Holding i (Spared W i l.1 idx))
    (.act hloaded leads_lockRefs fun _ => stable_holding (kept_spared l.1 idx)) fun _ => ?_
  refine Machine.Outline.bind (outline_check (R := fun _ => Spared W i l.1 idx)
    (kept_spared l.1 idx) (fun _ => kept_spared l.1 idx) fun _ _ h _ => h) fun author' => ?_
  refine (outline_reprobed l.1 idx).bind fun res => ?_
  have hbase : ∀ base, Kept i fun s => Grown i res.1 s ∧ BaseAt W base s :=
    fun base => (kept_grown res.1).and (kept_baseAt base)
  refine Machine.Outline.bind (outline_check (R := fun base s => Grown i res.1 s ∧ BaseAt W base s)
    (kept_grown res.1) hbase fun s base hs htree => ⟨hs, baseAt_of_headTree htree⟩) fun base => ?_
  have hbuilt : ∀ root : Option Hash, Kept i fun s => ∀ tree ∈ root, TreeBuilt W i tree s :=
    fun root s s' hle hrefs hhead hseen h tree htree =>
      kept_treeBuilt tree s s' hle hrefs hhead hseen (h tree htree)
  exact Machine.Outline.bind (outline_objects (hbase base) hbuilt fun s root store hs hrun =>
    treeBuilt_of_buildTree hs.1 hs.2 hrun) fun root => outline_pure (hbuilt root) fun _ hs => hs

/-- **Each call of an instance has an outline.** -/
theorem outline_call (i : ι) (l : Env × Work) :
    Rests W start i l (l.2.1.script W l.1) := by
  obtain ⟨env, c, hc⟩ := l
  cases c with
  | add req => exact (rests_add rfl env).bind fun _ => rests_pure ()
  | patchFields path updates => exact (rests_patchFields rfl env updates).bind fun _ => rests_pure ()
  | remove path => exact rests_remove rfl
  | commit message author =>
    refine Machine.Outline.bind (?_ : Rests W start i (env, ⟨.commit message author, hc⟩)
      (Repo.commit W env message author)) fun _ => rests_pure ()
    exact (outline_buildCommit author).bind fun ⟨root, author', summaries⟩ =>
      (outline_publish rfl root author' message).bind fun _ => rests_pure _
  | branch _ _ | checkout _ => exact (hc.elim id id).elim

theorem fulfils : (machine W ι).Fulfils (contract W ι start) where
  stable_rest := stable_rest
  leaves i s hs hrest := by
    refine ⟨hs.unlock hrest, ?_, ?_⟩
    · change s.Guar i (s.unlock i)
      unfold Shared.unlock
      split_ifs with hlock
      · exact ⟨le_refl _, fun _ _ => rfl,
          fun j hj h => absurd (Option.some.inj (h.symm.trans hlock)) hj, fun _ _ => Iff.rfl,
          fun _ _ _ => ⟨rfl, rfl, rfl⟩⟩
      · exact guar_refl i s
    · change (s.unlock i).publishing ≠ some i
      unfold Shared.unlock
      split_ifs
      · exact hrest
      · exact hrest
  outline := outline_call

omit [DecidableEq ι] in
/-- The record of a repository that instances open. -/
theorem inv_opened (r : Repo) :
    (Shared.opened r : Shared ι).Inv W (r.resolveHead W).toOption.join where
  index := by
    refine Std.ExtTreeMap.ext_getElem? fun q => ?_
    change r.index[q]? = (changesOf (stampAll r.index))[q]?
    rw [changesOf, stampAll, Std.ExtTreeMap.getElem?_map, Std.ExtTreeMap.getElem?_map,
      Option.map_map]
    exact Option.map_id_fun ▸ rfl
  keyed path t ht := by
    refine ⟨?_, List.mem_map.2 ⟨(path, t), TextMap.mem_toList.2 ht, rfl⟩⟩
    change (stampAll r.index)[path]? = some t at ht
    rw [stampAll, Std.ExtTreeMap.getElem?_map] at ht
    obtain ⟨c, -, rfl⟩ := Option.map_eq_some_iff.1 ht
    rfl
  stamps t ht := by
    obtain ⟨⟨path, t⟩, hmem, rfl⟩ := List.mem_map.1 ht
    have hget := TextMap.mem_toList.1 hmem
    rw [stampAll, Std.ExtTreeMap.getElem?_map] at hget
    obtain ⟨c, -, rfl⟩ := Option.map_eq_some_iff.1 hget
    exact List.length_pos_of_mem ht
  logged e he := by cases he
  accounted t ht := by
    left
    obtain ⟨⟨path, t⟩, hmem, rfl⟩ := List.mem_map.1 ht
    have hget := TextMap.mem_toList.1 hmem
    have hkey : t.path = path := by
      rw [stampAll, Std.ExtTreeMap.getElem?_map] at hget
      obtain ⟨c, -, rfl⟩ := Option.map_eq_some_iff.1 hget
      rfl
    change (stampAll r.index)[t.path]? = some t
    rw [hkey]
    exact hget
  replaced t ht := by cases ht
  once := .nil
  unspent _ e he := by cases he
  held j hj := by cases hj
  chain := trivial
  head h hh := by
    change r.resolveHead W = .ok h at hh
    rw [hh]
    rfl

end Commits

/-! ### Runs -/

/-- The condition on the next action of an instance. -/
def AllowsNext (W : World) (s : Shared ι) (i : ι) : Proc Action (Env × Work) → Prop
  | .running l (.step x _) => s.Allows W i l.1 l.2.1.stagedPath x
  | _ => True

/-- The condition on an event: it is no action, or one that is allowed. -/
def Meets (W : World) (st : Shared ι × (ι → Proc Action (Env × Work))) :
    Event ι (Env × Work) → Prop
  | .acts i => AllowsNext W st.1 i (st.2 i)
  | .begins .. | .ends _ => True

/-- **No change is lost or replayed in a run of allowed actions**, whatever the instances and in
whatever order they act. -/
theorem accounted_of_run [DecidableEq ι] {r : Repo}
    {st : Shared ι × (ι → Proc Action (Env × Work))}
    (h : (machine W ι).lts.Reachable (Meets W) (Machine.start (.opened r)) st) :
    st.1.Accounted W (r.resolveHead W).toOption.join := by
  have hmeets : ∀ (st : Shared ι × (ι → Proc Action (Env × Work))) (e : Event ι (Env × Work)),
      Meets W st e →
        (contract W ι (r.resolveHead W).toOption.join).Meets st.1 e (st.2 e.proc) := by
    intro st e hst
    cases e with
    | acts i =>
      change AllowsNext W st.1 i (st.2 i) at hst
      change Machine.Contract.Meets _ _ _ (st.2 i)
      cases hp : st.2 i with
      | idle | dead => trivial
      | running l t =>
        rw [hp] at hst
        cases t with
        | done _ => trivial
        | step x k => exact hst
    | begins _ _ | ends _ => trivial
  have hinv := Machine.invariant_of_outlines fulfils (h.mono hmeets) (inv_opened r)
    fun i hi => by cases hi
  exact hinv.1.toAccounted

/-- A check that the index is as an instance has loaded it when it writes, and that the pass of its
commit is put off. -/
def inOrder (s : Shared ι) (i : ι) : Proc Action (Env × Work) → Bool
  | .running l (.step x _) =>
    match x with
    | .lockRefs => l.1.deferReprobe
    | .writeRef .. | .writeHead _ | .saveIndex _ => s.staged.toList == (s.seen i).toList
    | .look _ | .objects _ | .loadIndex => true
  | _ => true

/-- The check on events. -/
def inOrderAt (st : Shared ι × (ι → Proc Action (Env × Work))) : Event ι (Env × Work) → Bool
  | .acts i => inOrder st.1 i (st.2 i)
  | .begins .. | .ends _ => true

theorem meets_of_inOrder {st : Shared ι × (ι → Proc Action (Env × Work))}
    {e : Event ι (Env × Work)} (h : inOrderAt st e = true) : Meets W st e := by
  cases e with
  | begins _ _ | ends _ => trivial
  | acts i =>
    change inOrder st.1 i (st.2 i) = true at h
    change AllowsNext W st.1 i (st.2 i)
    cases hp : st.2 i with
    | idle | dead => trivial
    | running l t =>
      rw [hp] at h
      cases t with
      | done _ => trivial
      | step x k =>
        have hsame : (st.1.staged.toList == (st.1.seen i).toList) = true →
            st.1.staged = st.1.seen i := fun hlist =>
          Std.ExtTreeMap.ext_toList (eq_of_beq hlist ▸ List.Perm.refl _)
        cases x with
        | look _ | objects _ | loadIndex => trivial
        | lockRefs => exact .inl h
        | writeRef _ _ | writeHead _ => exact hsame h
        | saveIndex idx =>
          intro q _
          rw [hsame h]

/-- Surroundings in which the pass is put off. -/
def deferring : Env := { demoEnv with deferReprobe := true }

/-- A call that adds a file without content. -/
def adding (path : Text) : Env × Work := (deferring, ⟨.add ⟨path, [], none, none⟩, .inl trivial⟩)

/-- A call that commits. -/
def committing : Env × Work :=
  (deferring, ⟨.commit "first".toList ⟨none, none, none⟩, .inr trivial⟩)

/-- One instance adds a file, and when it is done the other commits. -/
def inTurn : List (Event Bool (Env × Work)) :=
  .begins false (adding "probes/a".toList) :: List.replicate 6 (.acts false) ++
    .ends false :: .begins true committing :: List.replicate 11 (.acts true) ++ [.ends true]

theorem accounted_of_run_demo :
    ∃ st : Shared Bool × (Bool → Proc Action (Env × Work)),
      (machine (demoWorld ⟨[], [], []⟩) Bool).exec inOrderAt (Machine.start (.opened Repo.init))
        inTurn = some st ∧ st.1.log.length = 1 ∧ st.1.Accounted (demoWorld ⟨[], [], []⟩) none := by
  have hrun : ((machine (demoWorld ⟨[], [], []⟩) Bool).exec inOrderAt
      (Machine.start (.opened Repo.init)) inTurn).any (fun st => st.1.log.length == 1) = true := by
    decide +kernel
  obtain ⟨st, hst, hlog⟩ := Option.any_eq_true _ _ |>.1 hrun
  exact ⟨st, hst, by simpa using hlog, accounted_of_run
    (Machine.reachable_of_exec _ (fun _ _ => meets_of_inOrder) hst)⟩

/-- No commit was made, and a change that was staged is neither in the index nor was replaced. -/
def losesChange (s : Shared ι) : Bool :=
  s.log.isEmpty && s.issued.any fun t => s.staged[t.path]? != some t && !s.replaced.contains t

theorem not_accounted_of_losesChange {s : Shared ι} (h : losesChange s = true) :
    ¬ s.Accounted W start := by
  intro hs
  obtain ⟨hlog, hlost⟩ := Bool.and_eq_true_iff.1 h
  obtain ⟨t, ht, hlost⟩ := List.any_eq_true.1 hlost
  obtain ⟨hstaged, hreplaced⟩ := Bool.and_eq_true_iff.1 hlost
  rcases hs.accounted t ht with hin | ⟨e, ⟨he, -⟩, -⟩ | hrep
  · rw [hin] at hstaged
    simp at hstaged
  · rw [List.isEmpty_iff.1 hlog] at he
    cases he
  · simp [hrep] at hreplaced

/-- Two instances add a file each; both have loaded the index before the first saves it. -/
def atOnce : List (Event Bool (Env × Work)) :=
  [.begins false (adding "probes/a".toList), .begins true (adding "probes/b".toList)] ++
    List.replicate 5 (.acts false) ++ List.replicate 5 (.acts true) ++
    [.acts false, .ends false, .acts true, .ends true]

/-- **A change is lost when two instances stage at once**, although both calls have succeeded. -/
theorem lost_change :
    ∃ st : Shared Bool × (Bool → Proc Action (Env × Work)),
      (machine (demoWorld ⟨[], [], []⟩) Bool).lts.Reachable (fun _ _ => True)
        (Machine.start (.opened Repo.init)) st ∧
      (∀ i, (st.2 i).isIdle = true) ∧ ¬ st.1.Accounted (demoWorld ⟨[], [], []⟩) none := by
  have hrun : ((machine (demoWorld ⟨[], [], []⟩) Bool).exec (fun _ _ => true)
      (Machine.start (.opened Repo.init)) atOnce).any
        (fun st => (st.2 false).isIdle && (st.2 true).isIdle && losesChange st.1) = true := by
    decide +kernel
  obtain ⟨st, hst, hlost⟩ := Option.any_eq_true _ _ |>.1 hrun
  obtain ⟨hidle, hlost⟩ := Bool.and_eq_true_iff.1 hlost
  obtain ⟨hfalse, htrue⟩ := Bool.and_eq_true_iff.1 hidle
  refine ⟨st, Machine.reachable_of_exec _ (fun _ _ _ => trivial) hst, fun i => ?_,
    not_accounted_of_losesChange hlost⟩
  cases i with
  | false => exact hfalse
  | true => exact htrue

end Instances

end Omp
