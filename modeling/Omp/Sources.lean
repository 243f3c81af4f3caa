import Omp.Commits
import Omp.Sessions

/-!
# Sources of manifests

A manifest names the object its file was read from.  Every operation that stores a manifest has
stored its source before, but for one: the fields of a file that was split are patched from the list
of its pieces, which is taken for the bytes of the file, and the new manifest names a blob that
nobody stored.

Runs are of calls to a repository and of requests to upload, on one host.

## Main definitions

* `HostCall`, `Host.calls` : calls and requests.
* `Repo.FromBlob` : the condition on a patch.
* `Repo.Reaches` : what is reached from HEAD, or is staged.
* `Repo.PatchKeeps` : a patch leaves the source.

## Main results

* `Call.keepsSources`, `UploadStep.keepsSources` : what one step keeps.
* `Host.sources_held` : what every run keeps.
* `Host.source_lost` : a patch of a file that was split.
-/

namespace Omp

open Lib RepoScript

variable (W : World)

/-! ### Stores with sources -/

/-- **Every manifest that is stored names a source that is stored.** -/
def SourcesHeld (s : Store) : Prop := ∀ o ∈ s.objects, o.type = .manifest → Sourced W s o.content

/-- The store grows, and its sources stay complete. -/
def Store.KeepsSources (s s' : Store) : Prop :=
  s ≤ s' ∧ (s'.CollisionFree W.toPlatform → SourcesHeld W s → SourcesHeld W s')

section Sources

variable {W} {s s' : Store}

instance : Std.Refl (Store.KeepsSources W) := ⟨fun s => ⟨le_refl s, fun _ hs => hs⟩⟩

instance : IsTrans Store (Store.KeepsSources W) :=
  ⟨fun _ _ _ h h' => ⟨h.1.trans h'.1, fun hC hs => h'.2 hC (h.2 (hC.down h'.1) hs)⟩⟩

theorem SourcesHeld.grow (hs : SourcesHeld W s) (h : s.Widens W True s') : SourcesHeld W s' := by
  intro o ho htype
  obtain ho | ⟨-, hnew⟩ := h.fresh o ho
  · exact (hs o ho htype).mono h.le
  · exact hnew trivial htype

/-- Storing what is no manifest. -/
theorem SourcesHeld.append (hs : SourcesHeld W s) {type : ObjectType} (htype : type ≠ .manifest)
    {content : Bytes} : SourcesHeld W ⟨s.objects ++ [⟨type, content⟩]⟩ := by
  intro o ho hmanifest
  obtain ho | ho := List.mem_append.1 ho
  · exact (hs o ho hmanifest).mono ⟨_, rfl⟩
  · cases List.mem_singleton.1 ho
    exact absurd hmanifest htype

/-- A manifest that is read from its text names the source it was written with. -/
theorem Sourced.of_parse (hW : W.Lawful) {content : Bytes} {m : Manifest} (h : Sourced W s content)
    (hparse : Manifest.parse W content = .ok m) : SourceStored W s m.sourceHash := by
  obtain ⟨m', hbytes, hsource⟩ := h
  obtain ⟨t, rfl, hread⟩ := Manifest.parse_iff hW hbytes
  obtain ⟨-, rfl⟩ := (hread m).1 hparse
  exact hsource

end Sources

/-! ### What the scripts keep -/

section Scripts

variable {W} {env : Env} {r : Repo} {α : Type}

/-- The repositories whose store has all sources. -/
abbrev Repo.Complete (W : World) (r : Repo) : Prop := SourcesHeld W r.store

theorem complete_stage (hr : r.Complete W) (path : Text) (hash : Hash) :
    Settles W (Repo.Complete W) (stage path hash) r fun _ => Repo.Complete W :=
  .bind (.loadIndex hr (.saveIndex hr))

/-- **Storing and staging a manifest** whose source is stored. -/
theorem complete_putManifest (hr : r.Complete W) (path : Text) {m : Manifest} {bytes : Bytes}
    (hbytes : m.serialize W = .ok bytes) (hsource : SourceStored W r.store m.sourceHash)
    (a : Hash → α) :
    Settles W (Repo.Complete W)
      (do
        let manifestHash ← put W .manifest bytes
        stage path manifestHash
        pure (a manifestHash)) r fun _ => Repo.Complete W := by
  refine .bind (.put fun s' hs' _ => .thenPure (complete_stage ?_ _ _))
  exact hr.grow (hs' ▸ .append (by decide) fun _ _ => ⟨m, hbytes, hsource⟩)

theorem complete_stageManifest (hr : r.Complete W) (path : Text) {m : Manifest}
    (sourceHash : Hash) (hsource : SourceStored W r.store m.sourceHash) :
    Settles W (Repo.Complete W) (Repo.stageManifest W path m sourceHash) r
      fun _ => Repo.Complete W :=
  .bind (.require hr fun _ hbytes => complete_putManifest hr path hbytes hsource _)

/-- **A long file.** -/
theorem complete_addChunked (hr : r.Complete W) (req : AddRequest) (chunkSize : Nat) :
    Settles W (Repo.Complete W) (Repo.addChunked W env req chunkSize) r
      fun _ => Repo.Complete W := by
  have hput : ∀ bs, (Store.put W.toPlatform .blob bs).Keeps (Store.Widens W True) := fun bs s => by
    rw [Store.run_put]
    exact .append (by decide) (by simp)
  refine .bind (.objects ((Op.Ensures.of_keeps (Repo.keeps_putSlices hput _)
    fun s' hs' => hs').mono (fun _ => hr.grow) fun entries s₁ _ hs₁ => ?_))
  refine .bind (.put fun s₂ hs₂ hget => .bind ?_)
  have hr₂ : SourcesHeld W s₂ := hs₂ ▸ (hr.grow hs₁).append (by decide)
  refine .inspect hr₂ fun m hm => complete_stageManifest hr₂ _ _ ?_
  rw [Repo.sourceHash_of_buildManifestWith hm]
  exact ⟨_, hget, .inr rfl⟩

/-- **An addition.** -/
theorem complete_add (hr : r.Complete W) (req : AddRequest) :
    Settles W (Repo.Complete W) (Repo.add W env req) r fun _ => Repo.Complete W := by
  refine .bind (.require hr fun _ _ => .bind (.check hr fun _ _ => ?_))
  split_ifs
  · refine .bind (.inspect hr fun _ _ => .bind (.put fun s' hs' _ => .thenPure ?_))
    exact complete_stage (hs' ▸ hr.append (by decide)) _ _
  · refine .bind (.check hr fun config _ => ?_)
    split_ifs
    · exact complete_addChunked hr req _
    · refine .bind (.inspect hr fun m hm => .bind (.put fun s' hs' hget => ?_))
      refine complete_stageManifest (hs' ▸ hr.append (by decide)) _ _ ?_
      rw [Repo.sourceHash_of_buildManifestWith hm]
      exact ⟨_, hget, .inl rfl⟩

variable (W) in
/-- **The condition on a patch**: the file was read from a blob. -/
def Repo.FromBlob (r : Repo) (path : Text) : Prop :=
  ∀ m source, r.manifestToPatch W path = .ok (m, source) →
    r.store.get W.toPlatform m.sourceHash = some ⟨.blob, source⟩

/-- **A patch.** -/
theorem complete_patchFields (hr : r.Complete W) {path : Text} {updates : Fields}
    (hblob : r.FromBlob W path) :
    Settles W (Repo.Complete W) (Repo.patchFields W env path updates) r
      fun _ => Repo.Complete W := by
  refine .bind (.require hr fun _ _ => .bind (.check hr ?_))
  rintro ⟨prev, source⟩ hpatch
  refine .bind (.inspect hr fun m hm => .bind (.require hr fun bytes hbytes => ?_))
  refine complete_putManifest hr path hbytes ?_ _
  have hget := hblob prev source hpatch
  rw [Repo.sourceHash_of_buildManifestWith hm]
  exact ⟨_, Store.hashOf_of_get hget ▸ hget, .inl rfl⟩

theorem keeps_reprobeStep (ctx : PassContext) (n : NewSchema) (st : PassState)
    (file : Text × Hash) : (reprobeStep W ctx n st file).Keeps (Store.Widens W True) := by
  intro s
  obtain ⟨o, cache', s', hrun, hout⟩ := exists_reprobes W ctx n s st.cache file
  obtain ⟨hok, hpanic⟩ := run_reprobeStep st hrun
  by_cases ho : o.Recordable
  · rw [hok ho]
    exact hout.widens
  · rw [hpanic ho]
    exact hout.widens

/-- The pass over one schema rebuilds manifests from their sources. -/
theorem keeps_rebuilt (ctx : PassContext) (heads : TextMap Schema) (files : List (Text × Hash))
    (tot : PassTotals) (staged : Text × Hash) :
    (reprobeSchema W ctx heads files tot staged).Keeps (Store.Widens W True) := by
  refine (Op.Keeps.reads _).bind fun o => ?_
  cases o with
  | none => exact .throw _
  | some o =>
    refine (Op.Keeps.reads _).bind fun schema => ?_
    dsimp only
    split_ifs
    · exact .pure _
    · exact (Op.Keeps.foldlM (keeps_reprobeStep ctx _) files _).bind fun _ => .pure _

theorem complete_reprobed (hr : r.Complete W) (idx : Index) :
    Settles W (Repo.Complete W) (Repo.reprobed W env idx) r fun _ => Repo.Complete W := by
  unfold Repo.reprobed
  split_ifs
  · exact Op.Ensures.pure hr
  · unfold Repo.autoReprobe
    dsimp only
    split_ifs
    · exact Op.Ensures.pure hr
    · refine .bind (.inspect hr fun inputs _ => ?_)
      obtain ⟨heads, ctx, files⟩ := inputs
      exact .thenPure (.objects ((Op.Ensures.of_keeps
        (Op.Keeps.foldlM (keeps_rebuilt ctx heads files) _ _) fun _ hs' => hr.grow hs')))

theorem complete_buildCommit (hr : r.Complete W) (author : AuthorOverride) :
    Settles W (Repo.Complete W) (Repo.buildCommit W env author) r fun _ => Repo.Complete W := by
  refine .bind (.loadIndex hr (.bind (.require hr fun _ _ => .bind (.lockRefs (.bind
    (.require hr fun author' _ => .bind ((complete_reprobed hr _).mono (fun _ hQ => hQ) ?_)))))))
  rintro ⟨idx, summaries⟩ r₁ - hr₁
  refine .bind (.check hr₁ fun head _ => .thenPure (.objects ((Op.Ensures.of_keeps
    (Repo.keeps_buildTree widens_putTree _ _) fun _ hs' => hr₁.grow hs'))))

theorem complete_publish (hr : r.Complete W) (o : Option Hash) (author : Author) (message : Text) :
    Settles W (Repo.Complete W) (Repo.publish W o author message) r fun _ => Repo.Complete W := by
  cases o with
  | none => exact .require hr nofun
  | some root =>
    refine .bind (.check hr fun parent _ => .bind (.put fun s' hs' _ => ?_))
    have hr₁ : SourcesHeld W s' := hs' ▸ hr.append (by decide)
    refine .bind (.check hr₁ fun head _ => ?_)
    cases head with
    | branch name => exact .bind (.writeRef hr₁ fun _ => .thenPure (.saveIndex hr₁))
    | detached g => exact .bind (.writeHead (.thenPure (.saveIndex hr₁)))

/-- The condition on a call. -/
def Call.FromBlob (W : World) (r : Repo) : Call → Prop
  | .patchFields path _ => r.FromBlob W path
  | .add _ | .remove _ | .commit .. | .branch .. | .checkout _ => True

theorem complete_call (hr : r.Complete W) {c : Call} (hc : c.FromBlob W r) :
    Settles W (Repo.Complete W) (c.script W env) r fun _ => Repo.Complete W := by
  cases c with
  | add req => exact .thenPure (complete_add hr req)
  | patchFields path updates => exact .thenPure (complete_patchFields hr hc)
  | remove path => exact .bind (.require hr fun _ _ => .bind (.loadIndex hr (.saveIndex hr)))
  | commit message author =>
    refine .thenPure (.bind ((complete_buildCommit hr author).mono (fun _ hQ => hQ) ?_))
    rintro ⟨root, author', summaries⟩ r₁ - hr₁
    exact .thenPure (complete_publish hr₁ root author' message)
  | branch name start =>
    refine .bind (.check hr fun _ _ => .bind (.check hr fun _ _ => .bind
      (.require hr fun _ _ => ?_)))
    exact .writeRef hr fun _ => hr
  | checkout expr => exact .bind (.check hr fun _ _ => .writeHead hr)

/-- What a script settles on, it keeps under the lock. -/
theorem keepsSources_locked {t : RepoScript α} (r : Repo)
    (ht : r.Complete W → Settles W (Repo.Complete W) t r fun _ => Repo.Complete W) :
    r.store.KeepsSources W ((Repo.locked (t.run (Action.op W))).run r).2.store := by
  refine ⟨(Repo.locked (t.run (Action.op W))).grows r, fun hC hr => ?_⟩
  obtain h | ⟨p, h⟩ := Repo.locked_state (t.run (Action.op W)) r
  · rw [h]
    exact hr
  · rw [h] at hC ⊢
    exact (ht hr).state hC

/-- **A call keeps the sources.** -/
theorem Call.keepsSources {c : Call} (hc : c.FromBlob W r) :
    r.store.KeepsSources W ((c.run W env).run r).2.store :=
  keepsSources_locked r fun hr => complete_call hr hc

end Scripts

/-! ### Requests to upload -/

/-- An operation of a host keeps the sources. -/
def Host.KeepsSources (h h' : Host) : Prop := h.repo.store.KeepsSources W h'.repo.store

section Uploading

variable {W} {C : SessionCodec} {root : Place} {env : Env} {α : Type}

instance : Std.Refl (Host.KeepsSources W) := ⟨fun h => Std.Refl.refl h.repo.store⟩

instance : IsTrans Host (Host.KeepsSources W) :=
  ⟨fun h₁ h₂ h₃ h h' => IsTrans.trans h₁.repo.store h₂.repo.store h₃.repo.store h h'⟩

theorem keepsSources_onDisk (wrap : IoError → UploadError) (f : Disk → Except IoError α × Disk) :
    (HostOp.onDisk wrap f).Keeps (Host.KeepsSources W) := fun h => Std.Refl.refl h.repo.store

theorem keepsSources_of_sameFiles {x : HostOp α} (hx : x.Keeps Host.SameFiles) :
    x.Keeps (Host.KeepsSources W) := by
  intro h
  rw [Host.KeepsSources, (hx h).repo]
  exact Std.Refl.refl h.repo.store

theorem keepsSources_hostLocked {x : HostOp α} (hx : x.Keeps (Host.KeepsSources W)) :
    (HostOp.locked x).Keeps (Host.KeepsSources W) := by
  intro h
  have hkeeps := hx h
  by_cases hpoisoned : h.repo.poisoned = true
  · simp only [HostOp.locked, hpoisoned, if_true]
    exact Std.Refl.refl h
  · rw [Bool.not_eq_true] at hpoisoned
    cases hrun : x.run h with
    | mk res h' =>
      rw [hrun] at hkeeps
      by_cases hres : res = .error .panic
      · subst hres
        rw [HostOp.run_locked_panic hpoisoned hrun]
        exact hkeeps
      · rw [HostOp.run_locked hpoisoned hrun hres]
        exact hkeeps

theorem keepsSources_remove (mgr : UploadManager) (id : Text) :
    (mgr.remove id).Keeps (Host.KeepsSources W) := by
  refine (Op.Keeps.reads _).bind fun present => ?_
  split_ifs
  · exact keepsSources_onDisk _ _
  · exact .pure _

theorem keepsSources_manager : (Repo.uploadManager W env root).Keeps (Host.KeepsSources W) :=
  (Op.Keeps.reads _).bind fun _ => .pure _

theorem keepsSources_commitUpload (A : Allocator) (order : List Text → List Text) (id path : Text)
    (userFields : Option Fields) (fileTypeOverride : Option Text) :
    (Repo.commitUpload W C env root A order id path userFields fileTypeOverride).Keeps
      (Host.KeepsSources W) := by
  refine (Op.Keeps.reads _).bind fun _ => keepsSources_manager.bind fun mgr =>
    (keepsSources_of_sameFiles (keeps_assemble W mgr A order id)).bind fun bytes =>
      (Op.Keeps.reads _).bind fun config => ?_
  split_ifs
  · refine Op.Keeps.bind (fun h => ⟨Op.grows _ h, fun hC hs => ?_⟩) fun _ =>
      (keepsSources_remove mgr id).bind fun _ => .pure _
    exact (complete_addChunked (r := h.repo) hs _ _).state hC
  · exact .pure _

/-- **A request keeps the sources.** -/
theorem UploadStep.keepsSources (l : UploadStep) :
    (l.run W C root).Keeps (Host.KeepsSources W) := by
  unfold UploadStep.run
  cases l.request with
  | open_ declaredSize =>
    refine Op.Keeps.bind ((Op.Keeps.reads _).bind fun _ => keepsSources_manager.bind fun mgr => ?_)
      fun _ => Op.Keeps.bind (fun h => Std.Refl.refl h.repo.store) fun _ => .pure _
    exact (keepsSources_onDisk _ _).bind fun _ => (keepsSources_onDisk _ _).bind fun _ =>
      (Op.Keeps.reads _).bind fun _ => (keepsSources_onDisk _ _).bind fun _ => .pure _
  | write id offset bytes =>
    refine (keepsSources_manager.bind fun mgr => ?_).bind fun _ => .pure _
    refine (keepsSources_of_sameFiles (keeps_requireDir _ _)).bind fun _ =>
      (keepsSources_of_sameFiles (keeps_loadState _ _)).bind fun state => ?_
    split_ifs
    · exact .throw _
    · exact keepsSources_onDisk _ _
  | commit id path userFields fileTypeOverride =>
    refine ((keepsSources_hostLocked (keepsSources_commitUpload _ _ _ _ _ _)).bind fun res => ?_).bind
      fun _ => .pure _
    cases res with
    | inl res => exact .pure _
    | inr bytes => exact fun h => keepsSources_locked h.repo fun hr => complete_add hr _
  | abort id =>
    exact (keepsSources_manager.bind fun mgr =>
      (keepsSources_of_sameFiles (keeps_loadState _ _)).bind fun _ =>
        keepsSources_remove mgr id).bind fun _ => .pure _

end Uploading

/-! ### Runs -/

/-- A call to the repository of a host, or a request to upload to it. -/
inductive HostCall where
  | call (env : Env) (c : Call)
  | upload (l : UploadStep)

/-- The host after a call.  A process that has ended serves nothing. -/
def HostCall.after (C : SessionCodec) (root : Place) (h : Host) : HostCall → Host
  | .call env c => if h.aborted then h else { h with repo := ((c.run W env).run h.repo).2 }
  | .upload l => (l.serve W C root h).2

/-- A host to which calls and requests are made. -/
def Host.calls (C : SessionCodec) (root : Place) : Lts Host HostCall where
  step h l h' := l.after W C root h = h'

/-- **The condition on a run**: what is patched was read from a blob. -/
def HostCall.FromBlob (h : Host) : HostCall → Prop
  | .call _ c => c.FromBlob W h.repo
  | .upload _ => True

/-- What a file of HEAD, or a staged change, names. -/
def Repo.Reaches (r : Repo) (hash : Hash) : Prop :=
  (∃ root path e, r.headTree W = .ok (some root) ∧
    getAt W.toPlatform r.store none path root = .ok (some e) ∧ e.hash = hash) ∨
    ∃ (path : Text) (c : StagedChange), r.index[path]? = some c ∧ c.hash = some hash

/-- **The manifests that are reached name sources** that are stored, as blobs or as lists of
pieces. -/
def Repo.SourcesReached (r : Repo) : Prop :=
  ∀ hash content m, r.Reaches W hash → r.store.get W.toPlatform hash = some ⟨.manifest, content⟩ →
    Manifest.parse W content = .ok m →
    ∃ o, r.store.get W.toPlatform m.sourceHash = some o ∧ (o.type = .blob ∨ o.type = .chunks)

/-- **A patch that succeeds leaves the source** of the file, and what is stored under it: what it
stages is the text of the manifest it yields. -/
def Repo.PatchKeeps (r : Repo) (env : Env) (path : Text) (updates : Fields) : Prop :=
  ∀ m r', (Repo.locked ((Repo.patchFields W env path updates).run (Action.op W))).run r =
      (.ok m, r') →
    ∃ prev source bytes, r.manifestToPatch W path = .ok (prev, source) ∧
      m.serialize W = .ok bytes ∧
      r'.index[path]? = some ⟨path, .upsert, some (hashOf W.toPlatform .manifest bytes)⟩ ∧
      m.sourceHash = prev.sourceHash ∧
      r'.store.get W.toPlatform m.sourceHash = r.store.get W.toPlatform prev.sourceHash

section Runs

variable {W} {C : SessionCodec} {root : Place}

theorem Repo.patchKeeps_of_fromBlob {r : Repo} {env : Env} {path : Text} {updates : Fields}
    (hblob : r.FromBlob W path) : r.PatchKeeps W env path updates := by
  intro m r' hrun
  obtain ⟨-, hrun⟩ := Repo.locked_eq_ok.1 hrun
  obtain ⟨_, -, hrun⟩ := require_eq_ok.1 hrun
  obtain ⟨⟨prev, source⟩, hpatch, hrun⟩ := check_eq_ok.1 hrun
  obtain ⟨m', hm', hrun⟩ := inspect_eq_ok.1 hrun
  obtain ⟨bytes, hbytes, hrun⟩ := require_eq_ok.1 hrun
  cases saveIndex_eq_ok.1 (loadIndex_eq_ok.1 (put_eq_ok.1 hrun))
  have hget := hblob prev source hpatch
  have hsource : m.sourceHash = prev.sourceHash := by
    rw [Repo.sourceHash_of_buildManifestWith hm']
    exact Store.hashOf_of_get hget
  refine ⟨prev, source, bytes, hpatch, hbytes, ?_, hsource, ?_⟩
  · rw [TextMap.getElem?_insert, if_pos rfl]
  · rw [hsource, hget]
    exact Store.get_mono ⟨_, rfl⟩ hget

/-- **A step keeps the sources.** -/
theorem HostCall.keepsSources {h : Host} {l : HostCall} (hl : l.FromBlob W h) :
    Host.KeepsSources W h (l.after W C root h) := by
  cases l with
  | call env c =>
    rw [HostCall.after]
    split_ifs
    · exact Std.Refl.refl h
    · exact Call.keepsSources hl
  | upload l =>
    rw [HostCall.after, UploadStep.serve]
    split_ifs
    · exact Std.Refl.refl h
    · exact l.keepsSources h

/-- A step stores, and removes nothing. -/
theorem HostCall.grows (h : Host) (l : HostCall) : h ≤ l.after W C root h := by
  cases l with
  | call env c =>
    rw [HostCall.after]
    split_ifs
    · exact le_refl h
    · exact (c.run W env).grows h.repo
  | upload l =>
    rw [HostCall.after, UploadStep.serve]
    split_ifs
    · exact le_refl h
    · exact (l.run W C root).grows h

theorem Repo.Complete.sourcesReached (hW : W.Lawful) {r : Repo} (hr : r.Complete W) :
    r.SourcesReached W := by
  intro hash content m _ hget hparse
  exact (hr _ (Cas.find_eq_some hget).1 rfl).of_parse hW hparse

/-- **Every run keeps the sources** of the manifests it stores, where what is patched was read from
a blob; and such a patch leaves the source of its file. -/
theorem Host.sources_held (hW : W.Lawful) {h₀ h : Host} (hempty : h₀.repo = Repo.init)
    (hreach : (Host.calls W C root).Reachable (HostCall.FromBlob W) h₀ h)
    (hC : h.repo.store.CollisionFree W.toPlatform) :
    h.repo.SourcesReached W ∧ ∀ env path updates, h.repo.FromBlob W path →
      h.repo.PatchKeeps W env path updates := by
  refine ⟨Repo.Complete.sourcesReached hW ?_, fun env path updates => Repo.patchKeeps_of_fromBlob⟩
  refine hreach.invariant_of_down (I := fun h => h.repo.Complete W)
    (C := fun h => h.repo.store.CollisionFree W.toPlatform) hC ?_ ?_ ?_
  · rintro h l h' rfl hC'
    exact hC'.down (HostCall.grows h l)
  · rw [hempty]
    exact fun _ ho => absurd ho List.not_mem_nil
  · rintro h l h' hs hl rfl hC'
    exact (HostCall.keepsSources hl).2 hC' hs

end Runs

/-! ### Runs of calls -/

/-- What a call yields does not matter for what it leaves. -/
theorem state_locked_thenPure {W : World} {α : Type} (t : RepoScript α) (r : Repo) :
    ((Repo.locked ((t >>= fun _ => pure ()).run (Action.op W))).run r).2 =
      ((Repo.locked (t.run (Action.op W))).run r).2 := by
  have heq := Script.run_bind (Action.op W) t (fun _ => pure ()) r
  simp only [Repo.locked]
  rw [heq, Op.run_bind]
  split_ifs
  · rfl
  · cases (t.run (Action.op W)).run r with
    | mk res r' => rcases res with (_ | _) | _ <;> rfl

theorem Host.reachable_calls {W : World} {C : SessionCodec} {root : Place} {env : Env}
    {P : Host → HostCall → Prop} (calls : List Call) (h : Host) (hrunning : h.aborted = false)
    (hP : ∀ h, ∀ c ∈ calls, P h (.call env c)) :
    (Host.calls W C root).Reachable P h { h with repo := h.repo.after W env calls } := by
  induction calls generalizing h with
  | nil => exact .refl _
  | cons c calls ih =>
    obtain ⟨hc, hcalls⟩ : (∀ h, P h (.call env c)) ∧ ∀ h, ∀ c ∈ calls, P h (.call env c) :=
      ⟨fun h => hP h c List.mem_cons_self, fun h c' hc' => hP h c' (List.mem_cons_of_mem _ hc')⟩
    have hstep : (HostCall.call env c).after W C root h =
        { h with repo := ((c.run W env).run h.repo).2 } := by
      rw [HostCall.after, hrunning]
      rfl
    exact Relation.ReflTransGen.head ⟨_, hc h, hstep⟩ (ih _ hrunning hcalls)

theorem Host.sources_held_demo :
    (Repo.init.after twoSchemaWorld demoEnv fileCalls).SourcesReached twoSchemaWorld ∧
      (Repo.init.after twoSchemaWorld demoEnv fileCalls).PatchKeeps twoSchemaWorld demoEnv
        "a".toList ∅ := by
  obtain ⟨r, hr⟩ : ∃ r, r = Repo.init.after twoSchemaWorld demoEnv fileCalls := ⟨_, rfl⟩
  have hreach : (Host.calls twoSchemaWorld fourBytesCodec []).Reachable
      (HostCall.FromBlob twoSchemaWorld) emptyHost { emptyHost with repo := r } := by
    rw [hr]
    refine Host.reachable_calls fileCalls emptyHost rfl fun h => ?_
    exact List.forall_mem_cons.2 ⟨trivial, List.forall_mem_cons.2 ⟨trivial,
      List.forall_mem_singleton.2 trivial⟩⟩
  obtain ⟨hC, hblob⟩ : r.store.CollisionFree demo ∧
      (r.manifestToPatch twoSchemaWorld "a".toList).toOption.all (fun p =>
        r.store.get demo p.1.sourceHash = some ⟨.blob, p.2⟩) = true := by
    rw [hr]
    decide +kernel
  rw [← hr]
  clear hr
  have hfrom : r.FromBlob twoSchemaWorld "a".toList := by
    intro m source hread
    rw [hread] at hblob
    exact of_decide_eq_true hblob
  have hW : twoSchemaWorld.Lawful := demoWorld_lawful _
  obtain ⟨hsources, hpatch⟩ := Host.sources_held hW rfl hreach hC
  exact ⟨hsources, hpatch demoEnv "a".toList ∅ hfrom⟩

/-! ### A file that was split -/

/-- A world with a schema, and a configuration that splits files into single bytes. -/
def splitWorld : World :=
  demoWorld ⟨[("NOTE".toList, ⟨"note".toList, ["*/*".toList], none, []⟩)],
    [("BYTES".toList, ⟨none, none, none, none, some 1⟩)], []⟩

/-- The schema and the configuration are committed, and a file of two bytes is staged. -/
def splitCalls : List Call :=
  [addOf "schemas/note/schema.toml".toList (utf8 "NOTE".toList),
    addOf "omp.toml".toList (utf8 "BYTES".toList),
    .commit "schema".toList ⟨none, none, none⟩, addOf "a".toList [1, 2]]

/-- The source of the manifest that is staged at a path. -/
def stagedSource (r : Repo) (path : Text) : Option Hash :=
  r.index[path]?.bind fun c => c.hash.bind fun hash => (r.store.get demo hash).bind fun o =>
    if o.type = .manifest then
      (Manifest.parse splitWorld o.content).toOption.map Manifest.sourceHash
    else none

/-- The patch of the file, without any field. -/
def splitPatch (r : Repo) : Except (Fault OmpError) Manifest × Repo :=
  (Repo.locked ((Repo.patchFields splitWorld demoEnv "a".toList ∅).run
    (Action.op splitWorld))).run r

/-- A source that is reached is stored. -/
theorem Repo.SourcesReached.of_stagedSource {r : Repo} (hr : r.SourcesReached splitWorld)
    {path : Text} {source : Hash} (h : stagedSource r path = some source) :
    (r.store.get demo source).isSome = true := by
  obtain ⟨c, hc, h⟩ := Option.bind_eq_some_iff.1 h
  obtain ⟨hash, hhash, h⟩ := Option.bind_eq_some_iff.1 h
  obtain ⟨⟨type, content⟩, hget, h⟩ := Option.bind_eq_some_iff.1 h
  split_ifs at h with htype
  obtain ⟨m, hm, rfl⟩ := Option.map_eq_some_iff.1 h
  dsimp only at htype
  subst htype
  obtain ⟨o, ho, -⟩ := hr hash content m (.inr ⟨path, c, hc, hhash⟩) hget (toOption_eq_some.1 hm)
  exact Option.isSome_iff_exists.2 ⟨o, ho⟩

/-- **A patch of a file that was split**: the new manifest names a blob that is not stored. -/
theorem Host.source_lost : ∃ h h' : Host,
    (Host.calls splitWorld fourBytesCodec []).Reachable (fun _ _ => True) emptyHost h ∧
      (HostCall.call demoEnv (.patchFields "a".toList ∅)).after splitWorld fourBytesCodec [] h =
        h' ∧
      h'.repo.store.CollisionFree demo ∧ ¬ h.repo.PatchKeeps splitWorld demoEnv "a".toList ∅ ∧
      ¬ h'.repo.SourcesReached splitWorld := by
  obtain ⟨r, hr⟩ : ∃ r, r = Repo.init.after splitWorld demoEnv splitCalls := ⟨_, rfl⟩
  have hreach : (Host.calls splitWorld fourBytesCodec []).Reachable (fun _ _ => True) emptyHost
      { emptyHost with repo := r } := by
    rw [hr]
    exact Host.reachable_calls splitCalls emptyHost rfl fun _ _ _ => trivial
  obtain ⟨hok, hmoved, hC, hsome, hnone⟩ : (splitPatch r).1.isOk = true ∧
      (splitPatch r).1.toOption.map Manifest.sourceHash ≠
        (r.manifestToPatch splitWorld "a".toList).toOption.map
          (Manifest.sourceHash ∘ Prod.fst) ∧
      (splitPatch r).2.store.CollisionFree demo ∧
      (stagedSource (splitPatch r).2 "a".toList).isSome = true ∧
      ((stagedSource (splitPatch r).2 "a".toList).bind ((splitPatch r).2.store.get demo ·)) =
        none := by
    rw [hr]
    decide +kernel
  clear hr
  have hpatched : (((Call.patchFields "a".toList ∅).run splitWorld demoEnv).run r).2 =
      (splitPatch r).2 := state_locked_thenPure _ r
  obtain ⟨m, hm⟩ := exists_eq_ok_of_isOk hok
  obtain ⟨source, hsource⟩ := Option.isSome_iff_exists.1 hsome
  have hafter : (HostCall.call demoEnv (.patchFields "a".toList ∅)).after splitWorld
      fourBytesCodec [] { emptyHost with repo := r } =
        { emptyHost with repo := (splitPatch r).2 } := by
    rw [← hpatched]
    rfl
  refine ⟨_, _, hreach, hafter, hC, fun hkeeps => ?_, fun hreached => ?_⟩
  · obtain ⟨prev, content, bytes, hread, -, -, hsame, -⟩ :=
      hkeeps m (splitPatch r).2 (Prod.ext hm rfl)
    rw [hm, hread] at hmoved
    exact hmoved (congrArg some hsame)
  · have hstored := hreached.of_stagedSource hsource
    rw [hsource, Option.bind_some] at hnone
    rw [hnone] at hstored
    cases hstored

end Omp
