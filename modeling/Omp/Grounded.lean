import Omp.Server
import Omp.Streaming
import Omp.Walk

/-!
# Additions that do not panic

What `add` may panic over is a walk of `HEAD`'s tree that comes back to an address it has passed.
A tree is grounded if no chain of subtrees below it goes on for ever: then the walk ends.

`add` stores blobs, lists of chunks and manifests, but no trees and no commits.  So the trees of a
repository stay grounded, whatever the addresses of the new objects are.

## Main definitions

* `Grounded` : no chain of subtrees goes on for ever.
* `Store.AddsFiles`, `Repo.AddsFiles` : nothing is added but files.
* `Repo.HeadGrounded` : the tree of `HEAD` is grounded.

## Main results

* `walk_calm` : the walk of a grounded tree does not panic.
* `Grounded.of_addsFiles` : trees stay grounded.
* `returns_add` : `add` does not panic, and adds but files.
-/

namespace Omp

open Lib RepoScript

/-! ### Grounded trees -/

section Grounded

variable {P : Platform} {s s' : Store} {key : Option Key} {h : Hash}

variable (P s key) in
/-- **No chain of subtrees goes on for ever.** -/
def Grounded (h : Hash) : Prop := Acc (fun g h => HasSubtree P s key h g) h

variable (P s key) in
/-- The addresses of objects at an address or below it. -/
def reachedFrom (h : Hash) : Set Hash :=
  {g | g ∈ s.objects.map (Object.address P) ∧ Relation.ReflTransGen (HasSubtree P s key) h g}

/-- No address is below itself. -/
theorem Grounded.not_mem_below (hg : Grounded P s key h) : h ∉ hashesBelow P s key h := by
  induction hg with
  | intro h _ ih =>
    intro hcyc
    obtain ⟨g, hsub, hback⟩ := Relation.TransGen.head'_iff.1 hcyc
    exact ih g hsub (Relation.TransGen.tail' hback hsub)

theorem finite_reachedFrom (h : Hash) : (reachedFrom P s key h).Finite :=
  (List.finite_toSet (s.objects.map (Object.address P))).subset fun _ hg => hg.1

theorem ncard_reachedFrom_le (h : Hash) : (reachedFrom P s key h).ncard ≤ s.objects.length := by
  calc (reachedFrom P s key h).ncard
      ≤ {g | g ∈ s.objects.map (Object.address P)}.ncard :=
        Set.ncard_le_ncard (fun _ hg => hg.1) (List.finite_toSet _)
    _ = (s.objects.map (Object.address P)).toFinset.card := by
        rw [← Set.ncard_coe_finset, List.coe_toFinset]
    _ ≤ (s.objects.map (Object.address P)).length := List.toFinset_card_le _
    _ = s.objects.length := List.length_map _

theorem address_of_loadTree {t : Tree} (hload : loadTree P s key h = .ok t) :
    h ∈ s.objects.map (Object.address P) := by
  unfold loadTree at hload
  cases hget : s.get P h with
  | none => rw [hget] at hload; cases hload
  | some o => exact List.mem_map.2 ⟨o, Cas.find_eq_some hget⟩

/-- Fewer addresses are reached from a subtree than from the tree. -/
theorem Grounded.ncard_lt (hg : Grounded P s key h) {g : Hash} (hsub : HasSubtree P s key h g) :
    (reachedFrom P s key g).ncard < (reachedFrom P s key h).ncard := by
  obtain ⟨t, n, e, hload, -⟩ := id hsub
  refine Set.ncard_lt_ncard ⟨fun f hf => ⟨hf.1, .head hsub hf.2⟩, fun hback => ?_⟩
    (finite_reachedFrom h)
  -- else the tree would be below itself
  have hmem := (hback ⟨address_of_loadTree hload, .refl⟩).2
  exact hg.not_mem_below (Relation.TransGen.head' hsub hmem)

/-- The recursion of the walk ends, with enough fuel for the addresses that it reaches. -/
theorem walkInner_calm (hg : Grounded P s key h) {n : Nat}
    (hn : (reachedFrom P s key h).ncard < n) (dir : Text) : Calm (walkInner P s key n dir h) := by
  induction hg generalizing n dir with
  | intro h hacc ih =>
    cases n with
    | zero => omega
    | succ n =>
      rw [walkInner]
      refine (calm_mapError _).bind fun tree hload => Calm.bind (fun hpanic => ?_) fun _ _ => calm_ok _
      obtain ⟨p, hp, hpanic⟩ := exists_of_mapM_error hpanic
      split_ifs at hpanic with hmode
      have hsub : HasSubtree P s key h p.2.hash :=
        ⟨tree, p.1, p.2, mapError_eq_ok.1 hload, Tree.mem_toList.1 hp, hmode, rfl⟩
      have hless := Grounded.ncard_lt (.intro h hacc) hsub
      exact ih _ hsub (by omega) _ hpanic

/-- **The walk of a grounded tree does not panic.** -/
theorem walk_calm (hg : Grounded P s key h) : Calm (walk P s key h) :=
  walkInner_calm hg (Nat.lt_succ_of_le (ncard_reachedFrom_le h)) []

/-! ### Adding files -/

/-- What is added are no trees and no commits. -/
def Store.AddsFiles (s s' : Store) : Prop :=
  ∃ files, s'.objects = s.objects ++ files ∧ ∀ o ∈ files, o.type ≠ .tree ∧ o.type ≠ .commit

theorem Store.AddsFiles.refl (s : Store) : s.AddsFiles s :=
  ⟨[], (List.append_nil _).symm, fun _ ho => absurd ho List.not_mem_nil⟩

theorem Store.AddsFiles.trans {s'' : Store} (h : s.AddsFiles s') (h' : s'.AddsFiles s'') :
    s.AddsFiles s'' := by
  obtain ⟨files, hfiles, htypes⟩ := h
  obtain ⟨files', hfiles', htypes'⟩ := h'
  refine ⟨files ++ files', by rw [hfiles', hfiles, List.append_assoc], fun o ho => ?_⟩
  exact (List.mem_append.1 ho).elim (htypes o) (htypes' o)

/-- A tree or a commit that is found was there before. -/
theorem get_of_addsFiles (hadds : s.AddsFiles s') {o : Object} (hget : s'.get P h = some o)
    (htype : o.type = .tree ∨ o.type = .commit) : s.get P h = some o := by
  obtain ⟨files, hfiles, htypes⟩ := hadds
  have hfind : s'.get P h = (s.get P h).or (files.find? fun o => o.address P = h) := by
    rw [Store.get, Store.get, Cas.find, Cas.find, hfiles, List.find?_append]
  rw [hfind] at hget
  cases hold : s.get P h with
  | some o' => rwa [hold] at hget
  | none =>
    rw [hold] at hget
    obtain ⟨htree, hcommit⟩ := htypes o (List.mem_of_find?_eq_some hget)
    exact (htype.elim htree hcommit).elim

theorem loadTree_of_addsFiles (hadds : s.AddsFiles s') {t : Tree}
    (hload : loadTree P s' key h = .ok t) : loadTree P s key h = .ok t := by
  unfold loadTree at hload ⊢
  cases hget : s'.get P h with
  | none => rw [hget] at hload; cases hload
  | some o =>
    rw [hget] at hload
    dsimp only at hload
    split_ifs at hload with htype
    rw [get_of_addsFiles hadds hget (.inl htype)]
    exact (if_pos htype).trans hload

/-- **Trees stay grounded** when files are added. -/
theorem Grounded.of_addsFiles (hadds : s.AddsFiles s') (hg : Grounded P s key h) :
    Grounded P s' key h := by
  refine Subrelation.accessible (fun {g h} hsub => ?_) hg
  obtain ⟨t, n, e, hload, hrest⟩ := hsub
  exact ⟨t, n, e, loadTree_of_addsFiles hadds hload, hrest⟩

end Grounded

/-! ### Reading `HEAD` -/

variable {W : World} {env : Env} {r r' r₁ : Repo}

variable (W) in
/-- **The tree of `HEAD` is grounded.** -/
def Repo.HeadGrounded (r : Repo) : Prop :=
  ∀ root, r.headTree W = .ok (some root) → Grounded W.toPlatform r.store none root

/-- Nothing changes but the index, and nothing is added but files. -/
structure Repo.AddsFiles (r r' : Repo) : Prop where
  store : r.store.AddsFiles r'.store
  refs : r'.refs = r.refs
  head : r'.head = r.head
  poisoned : r'.poisoned = r.poisoned

theorem Repo.AddsFiles.refl (r : Repo) : r.AddsFiles r := ⟨.refl _, rfl, rfl, rfl⟩

theorem Repo.AddsFiles.trans {r'' : Repo} (h : r.AddsFiles r') (h' : r'.AddsFiles r'') :
    r.AddsFiles r'' :=
  ⟨h.store.trans h'.store, h'.refs.trans h.refs, h'.head.trans h.head,
    h'.poisoned.trans h.poisoned⟩

theorem headTree_of_addsFiles (h : r.AddsFiles r') {root : Hash}
    (hroot : r'.headTree W = .ok (some root)) : r.headTree W = .ok (some root) := by
  unfold Repo.headTree at hroot ⊢
  have hresolve : r'.resolveHead W = r.resolveHead W := by
    simp only [Repo.resolveHead, Repo.readHead, Repo.readRef, h.refs, h.head]
  rw [hresolve] at hroot
  obtain ⟨o, ho, hroot⟩ := except_bind_eq_ok.1 hroot
  refine except_bind_eq_ok.2 ⟨o, ho, ?_⟩
  cases o with
  | none => cases hroot
  | some commit =>
    obtain ⟨t, ht, hroot⟩ := except_bind_eq_ok.1 hroot
    obtain ⟨content, hcontent, ht⟩ := except_bind_eq_ok.1 ht
    obtain ⟨o, hget, htype, rfl⟩ := Repo.exists_of_getCommit hcontent
    have hcommit : Repo.getCommit W r.store commit = .ok o.content := by
      rw [Repo.getCommit, get_of_addsFiles h.store hget (.inr htype)]
      exact if_pos htype
    exact except_bind_eq_ok.2 ⟨t, except_bind_eq_ok.2 ⟨_, hcommit, ht⟩, hroot⟩

theorem Repo.HeadGrounded.of_addsFiles (hr : r.HeadGrounded W) (h : r.AddsFiles r') :
    r'.HeadGrounded W := fun _ hroot => (hr _ (headTree_of_addsFiles h hroot)).of_addsFiles h.store

namespace Repo.HeadGrounded

theorem treeSchemas_calm {s : Store} {root : Hash} (hroot : Grounded W.toPlatform s none root) :
    Calm (Repo.treeSchemas W s root) := by
  refine (calm_mapError _).bind fun e he => ?_
  split
  · next subtree =>
    refine Calm.bind (walk_calm ?_) fun _ _ => calm_ok _
    -- the subtree stands in the tree under one name
    obtain ⟨parts, hparts, he⟩ := except_bind_eq_ok.1 (mapError_eq_ok.1 he)
    cases hparts.symm.trans (split_schemas W.toPlatform)
    obtain ⟨tree, hload, hget⟩ := except_bind_eq_ok.1 he
    exact hroot.inv ⟨tree, _, _, hload, Except.ok.inj hget, rfl, rfl⟩
  · exact calm_ok _

theorem loadAllSchemas_calm (hr : r.HeadGrounded W) : Calm (r.loadAllSchemas W env) := by
  refine (calm_mapError _).bind fun root hroot => ?_
  cases root with
  | none => exact calm_ok _
  | some root =>
    exact (treeSchemas_calm (hr root (mapError_eq_ok.1 hroot))).bind fun _ _ => calm_ok _

theorem headLeaves_calm (hr : r.HeadGrounded W) : Calm (r.headLeaves W) := by
  refine (calm_mapError _).bind fun root hroot => ?_
  cases root with
  | none => exact calm_ok _
  | some root =>
    have hwalk := walk_calm (hr root (mapError_eq_ok.1 hroot))
    dsimp only
    split
    · exact calm_ok _
    · exact calm_ok _
    · next e _ he =>
      intro hpanic
      cases Except.error.inj hpanic
      exact hwalk he

theorem currentProbes_calm (hr : r.HeadGrounded W) : Calm (r.currentProbes W) := by
  refine (calm_mapError _).bind fun out _ => hr.headLeaves_calm.bind fun leaves _ => ?_
  cases leaves with
  | none => exact calm_ok _
  | some leaves => exact calm_mapError _

theorem currentProbeNames_calm (hr : r.HeadGrounded W) : Calm (r.currentProbeNames W) := by
  refine hr.headLeaves_calm.bind fun leaves _ => ?_
  cases leaves with
  | none => exact calm_ok _
  | some leaves => exact calm_mapError _

theorem schemaFor_calm (hr : r.HeadGrounded W) (config : RepoConfig)
    (fileTypeOverride : Option Text) (mime : Text) :
    Calm (r.schemaFor W env config fileTypeOverride mime) := by
  refine hr.loadAllSchemas_calm.bind fun schemas _ => ?_
  split
  · refine (calm_mapError _).bind fun bytes _ => ?_
    split
    · exact calm_ok _
    · exact calm_err _
  · split
    · exact calm_err _
    · exact (calm_mapError _).bind fun _ _ => calm_ok _

theorem buildManifestWith_calm (hr : r.HeadGrounded W) (path : Text) (bytes : Bytes)
    (userFields : Fields) (fileTypeOverride : Option Text) (chunked : Option ChunkedIngest) :
    Calm (r.buildManifestWith W env path bytes userFields fileTypeOverride chunked) := by
  refine (calm_mapError _).bind fun config _ => ?_
  refine (hr.schemaFor_calm _ _ _).bind fun schema _ => ?_
  refine hr.currentProbes_calm.bind fun probes _ => ?_
  exact (calm_mapError _).bind fun _ _ => calm_mapError _

theorem preflight_calm (hr : r.HeadGrounded W) (path : Text) (bytes : Bytes) :
    Calm (r.preflight W path bytes) := by
  unfold Repo.preflight
  split
  · refine (calm_mapError _).bind fun _ _ => ?_
    exact hr.currentProbeNames_calm.bind fun _ _ => calm_mapError _
  · split_ifs
    · exact (calm_mapError _).bind fun _ _ => calm_ok _
    · exact calm_ok _

end Repo.HeadGrounded

/-! ### Adding -/

/-- A script does not panic, and adds but files to a repository. -/
def Tame {α : Type} (W : World) (r : Repo) (t : RepoScript α) (r₁ : Repo) : Prop :=
  (t.run (Action.op W)).Returns r₁ r.AddsFiles fun _ => r.AddsFiles

section Tame

variable {α β : Type} {k : α → RepoScript β}

theorem tame_pure (a : α) (h : r.AddsFiles r₁) : Tame W r (pure a) r₁ := .pure h

theorem tame_inspect {f : Repo → Except (Fault OmpError) α} (hf : Calm (f r₁))
    (h : r.AddsFiles r₁) (hk : ∀ a, f r₁ = .ok a → Tame W r (k a) r₁) :
    Tame W r (inspect f >>= k) r₁ := Op.Returns.bind (.inspects hf h hk)

theorem tame_check {f : Repo → Except OmpError α} (h : r.AddsFiles r₁)
    (hk : ∀ a, f r₁ = .ok a → Tame W r (k a) r₁) : Tame W r (check f >>= k) r₁ :=
  tame_inspect (calm_mapError _) h fun a ha => hk a (mapError_eq_ok.1 ha)

theorem tame_objects {x : StoreOp α} {a : α} {files : List Object}
    (hx : x.run r₁.store = (.ok a, ⟨r₁.store.objects ++ files⟩))
    (hfiles : ∀ o ∈ files, o.type ≠ .tree ∧ o.type ≠ .commit) (h : r.AddsFiles r₁)
    (hk : ∀ r₂, r.AddsFiles r₂ → Tame W r (k a) r₂) :
    Tame W r (Script.act (.objects x) >>= k) r₁ := by
  have hadds : r.AddsFiles { r₁ with store := ⟨r₁.store.objects ++ files⟩ } :=
    h.trans ⟨⟨files, rfl, hfiles⟩, rfl, rfl, rfl⟩
  have hrun : (Repo.onStore x).run r₁ =
      (.ok a, { r₁ with store := ⟨r₁.store.objects ++ files⟩ }) := by
    rw [Repo.run_onStore, hx]
  refine Op.Returns.bind ⟨fun h' => ?_, fun h' => ?_⟩
  · cases hrun.symm.trans h'
    exact hk _ hadds
  · cases hrun.symm.trans h'

theorem tame_put {type : ObjectType} {content : Bytes} {k : Hash → RepoScript β}
    (htype : type ≠ .tree ∧ type ≠ .commit) (h : r.AddsFiles r₁)
    (hk : ∀ hash r₂, r.AddsFiles r₂ → Tame W r (k hash) r₂) :
    Tame W r (put W type content >>= k) r₁ :=
  tame_objects (Store.run_put _ _ _) (List.forall_mem_singleton.2 htype) h (hk _)

theorem tame_stage (path : Text) (hash : Hash) (b : β) (h : r.AddsFiles r₁) :
    Tame W r (stage path hash >>= fun _ => pure b) r₁ := by
  have hadds : r.AddsFiles { r₁ with
      index := r₁.index.insert path ⟨path, .upsert, some hash⟩ } :=
    h.trans ⟨.refl _, rfl, rfl, rfl⟩
  refine ⟨fun hrun => ?_, fun hrun => ?_⟩
  · cases hrun
    exact hadds
  · cases hrun

theorem tame_stageManifest (path : Text) (m : Manifest) (sourceHash : Hash)
    (h : r.AddsFiles r₁) : Tame W r (Repo.stageManifest W path m sourceHash) r₁ :=
  tame_check h fun _ _ => tame_put (by decide) h fun _ _ h => tame_stage _ _ _ h

theorem tame_addChunked (hr : r.HeadGrounded W) (req : AddRequest) (chunkSize : Nat)
    (h : r.AddsFiles r₁) : Tame W r (Repo.addChunked W env req chunkSize) r₁ := by
  refine tame_objects (Repo.run_putSlices _ _) (fun o ho => ?_) h fun r₂ h => ?_
  · obtain ⟨bytes, -, rfl⟩ := List.mem_map.1 ho
    exact ⟨by simp, by simp⟩
  · refine tame_put (by decide) h fun _ r₃ h => ?_
    exact tame_inspect ((hr.of_addsFiles h).buildManifestWith_calm _ _ _ _ _) h fun _ _ =>
      tame_stageManifest _ _ _ h

theorem tame_add (hr : r.HeadGrounded W) (req : AddRequest) :
    Tame W r (Repo.add W env req) r := by
  have h := Repo.AddsFiles.refl r
  refine tame_check h fun _ _ => tame_check h fun _ _ => ?_
  split_ifs
  · exact tame_inspect (hr.preflight_calm _ _) h fun _ _ =>
      tame_put (by decide) h fun _ _ h => tame_stage _ _ _ h
  · refine tame_check h fun config _ => ?_
    split_ifs
    · exact tame_addChunked hr req _ h
    · exact tame_inspect (hr.buildManifestWith_calm _ _ _ _ _) h fun _ _ =>
        tame_put (by decide) h fun _ _ h => tame_stageManifest _ _ _ h

end Tame

/-- **`add` does not panic**, and adds but files. -/
theorem returns_add (hr : r.HeadGrounded W) (hsound : r.poisoned = false) (req : AddRequest) :
    (Repo.under W (Repo.add W env req)).Returns r r.AddsFiles fun _ => r.AddsFiles := by
  have htame : Tame W r (Repo.add W env req) r := tame_add hr req
  have hlocked {res : Except (Fault OmpError) AddResult} {r' : Repo}
      (hrun : ((Repo.add W env req).run (Action.op W)).run r = (res, r'))
      (hres : res ≠ .error .panic) : (Repo.under W (Repo.add W env req)).run r = (res, r') := by
    rw [Repo.under, Repo.locked]
    simp only [hsound, hrun]
    rcases res with (e | _) | a
    · rfl
    · exact absurd rfl hres
    · rfl
  cases hrun : ((Repo.add W env req).run (Action.op W)).run r with
  | mk res r' =>
    cases res with
    | ok a =>
      have hunder := hlocked hrun (by simp)
      refine ⟨fun h => ?_, fun h => ?_⟩
      · cases hunder.symm.trans h
        exact htame.ok hrun
      · cases hunder.symm.trans h
    | error e =>
      obtain ⟨he, hadds⟩ := htame.error hrun
      have hunder := hlocked hrun fun heq => he (Except.error.inj heq)
      refine ⟨fun h => ?_, fun h => ?_⟩
      · cases hunder.symm.trans h
      · cases hunder.symm.trans h
        exact ⟨he, hadds⟩

end Omp
