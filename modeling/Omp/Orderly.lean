import Omp.Passes
import Omp.ValidSchemas

/-!
# Repositories in order

In a repository that is in order the commits have trees that can be read, whose leaves are stored
blobs and manifests, and what is staged can be put into a tree.  Calls keep it so, however they end,
as long as the names of what is added are ones that a tree keeps.

Each manifest that is stored names a source that is stored as well, as long as `patch_fields` is not
used on a file that is kept in chunks: it takes the list of the chunks for the content of the file.

## Main definitions

* `Repo.Orderly` : the invariant; with `full`, sources are stored as well.
* `Call.Clean` : what is asked of the calls.

## Main results

* `Repo.Orderly.step` : a call keeps a repository in order.
* `Repo.orderly_of_reachable` : so every run does.
-/

namespace Omp

open Lib RepoScript

variable (W : World)

/-! ### Order -/

/-- A leaf of a tree is a blob or a manifest that is stored. -/
structure Held (s : Store) (e : Entry) : Prop where
  stored : storedMode W.toPlatform s e.hash = .ok e.mode
  leaf : e.mode ≠ .tree

/-- A tree with a leaf map, whose leaves are stored. -/
structure HeldTree (s : Store) (root : Hash) (L : Leaves Text Entry) : Prop where
  rootAt : RootAt W.toPlatform s none True True (some root) L
  held : ∀ q e, L q = some e → Held W s e

/-- A source is stored. -/
def SourceStored (s : Store) (h : Hash) : Prop :=
  ∃ o, s.get W.toPlatform h = some o ∧ (o.type = .blob ∨ o.type = .chunks)

/-- What is written is a manifest whose source is stored. -/
def Sourced (s : Store) (content : Bytes) : Prop :=
  ∃ m : Manifest, m.serialize W = .ok content ∧ SourceStored W s m.sourceHash

/-- What is staged at a path is a change of that path, which can be made. -/
def OrderlyIndex (s : Store) (idx : Index) : Prop :=
  ∀ (path : Text) c, idx[path]? = some c → c.path = path ∧ Applicable W.toPlatform s none c

/-- **Order.**  With `full`, the sources of all manifests are stored. -/
structure Repo.Orderly (full : Prop) (r : Repo) : Prop where
  trees : ∀ o ∈ r.store.objects, o.type = .commit →
    ∃ root L, (∀ h, treeHeader W.toPlatform h o.content = .ok root) ∧ HeldTree W r.store root L
  staged : OrderlyIndex W r.store r.index
  sources : full → ∀ o ∈ r.store.objects, o.type = .manifest → Sourced W r.store o.content

/-- The store grows by objects that are no commits, and manifests whose sources are stored. -/
structure Store.Widens (full : Prop) (s s' : Store) : Prop where
  le : s ≤ s'
  fresh : ∀ o ∈ s'.objects, o ∈ s.objects ∨ o.type ≠ .commit ∧
    (full → o.type = .manifest → Sourced W s' o.content)

section Invariant

variable {W} {full : Prop} {s s' : Store}

theorem Held.mono (hle : s ≤ s') {e : Entry} (h : Held W s e) : Held W s' e :=
  ⟨storedMode_mono hle h.stored, h.leaf⟩

theorem HeldTree.mono (hle : s ≤ s') {root : Hash} {L : Leaves Text Entry}
    (h : HeldTree W s root L) : HeldTree W s' root L :=
  ⟨h.rootAt.mono hle, fun q e hq => (h.held q e hq).mono hle⟩

theorem SourceStored.mono (hle : s ≤ s') {h : Hash} (hs : SourceStored W s h) :
    SourceStored W s' h := by
  obtain ⟨o, hget, htype⟩ := hs
  exact ⟨o, Store.get_mono hle hget, htype⟩

theorem Sourced.mono (hle : s ≤ s') {content : Bytes} (hs : Sourced W s content) :
    Sourced W s' content := by
  obtain ⟨m, hbytes, hsource⟩ := hs
  exact ⟨m, hbytes, hsource.mono hle⟩

theorem OrderlyIndex.mono (hle : s ≤ s') {idx : Index} (h : OrderlyIndex W s idx) :
    OrderlyIndex W s' idx :=
  fun path c hget => ⟨(h path c hget).1, (h path c hget).2.mono hle⟩

theorem OrderlyIndex.insert {idx : Index} (h : OrderlyIndex W s idx) {c : StagedChange}
    (hc : Applicable W.toPlatform s none c) : OrderlyIndex W s (idx.insert c.path c) := by
  intro path c' hget
  rw [TextMap.getElem?_insert] at hget
  split_ifs at hget with hpath
  · cases hget
    exact ⟨hpath, hc⟩
  · exact h path c' hget

/-- What a commit takes out of it, in whatever order. -/
theorem OrderlyIndex.applicable {idx : Index} (h : OrderlyIndex W s idx) {env : Env}
    {c : StagedChange} (hc : c ∈ env.order idx) : Applicable W.toPlatform s none c := by
  obtain ⟨⟨path, c'⟩, hmem, rfl⟩ := List.mem_map.1 ((env.order_perm idx).mem_iff.1 hc)
  exact (h path c' (TextMap.mem_toList.1 hmem)).2

theorem orderlyIndex_empty : OrderlyIndex W s ∅ := by
  intro path c hget
  rw [Std.ExtTreeMap.getElem?_empty] at hget
  cases hget

instance : Std.Refl (Store.Widens W full) := ⟨fun s => ⟨le_refl s, fun _ ho => .inl ho⟩⟩

instance : IsTrans Store (Store.Widens W full) := by
  refine ⟨fun s₁ s₂ s₃ h₁ h₂ => ⟨h₁.le.trans h₂.le, fun o ho => ?_⟩⟩
  obtain ho | hnew := h₂.fresh o ho
  · obtain ho | ⟨hcommit, hsource⟩ := h₁.fresh o ho
    · exact .inl ho
    · exact .inr ⟨hcommit, fun hfull htype => (hsource hfull htype).mono h₂.le⟩
  · exact .inr hnew

/-- Storing one object. -/
theorem Store.Widens.append {type : ObjectType} {content : Bytes} (hcommit : type ≠ .commit)
    (hsource : full → type = .manifest → Sourced W s content) :
    s.Widens W full ⟨s.objects ++ [⟨type, content⟩]⟩ := by
  refine ⟨⟨_, rfl⟩, fun o ho => ?_⟩
  obtain ho | ho := List.mem_append.1 ho
  · exact .inl ho
  · cases List.mem_singleton.1 ho
    exact .inr ⟨hcommit, fun hfull htype => (hsource hfull htype).mono ⟨_, rfl⟩⟩

namespace Repo

variable {r : Repo}

theorem orderly_init : Repo.init.Orderly W full where
  trees _ ho := absurd ho List.not_mem_nil
  staged := orderlyIndex_empty
  sources _ _ ho := absurd ho List.not_mem_nil

theorem Orderly.grow (hr : r.Orderly W full) (h : r.store.Widens W full s') :
    ({ r with store := s' } : Repo).Orderly W full where
  trees o ho htype := by
    obtain ⟨root, L, hheader, hL⟩ :=
      hr.trees o ((h.fresh o ho).resolve_right fun hnew => hnew.1 htype) htype
    exact ⟨root, L, hheader, hL.mono h.le⟩
  staged := hr.staged.mono h.le
  sources hfull o ho htype := by
    obtain ho | hnew := h.fresh o ho
    · exact (hr.sources hfull o ho htype).mono h.le
    · exact hnew.2 hfull htype

/-- Nothing else of a repository matters. -/
theorem Orderly.of_same {r' : Repo} (hr : r.Orderly W full) (hstore : r'.store = r.store)
    (hidx : OrderlyIndex W r.store r'.index) : r'.Orderly W full := by
  obtain ⟨htrees, -, hsources⟩ := hr
  exact ⟨hstore ▸ htrees, hstore ▸ hidx, hstore ▸ hsources⟩

/-- The tree of a commit that is read. -/
theorem Orderly.heldTree (hr : r.Orderly W full) {commit root : Hash}
    (h : commitTree W r.store commit = .ok root) : ∃ L, HeldTree W r.store root L := by
  obtain ⟨content, hget, hheader⟩ := except_bind_eq_ok.1 h
  obtain ⟨o, hstored, htype, rfl⟩ := exists_of_getCommit hget
  obtain ⟨root', L, hheader', hL⟩ := hr.trees o (Cas.find_eq_some hstored).1 htype
  rw [hheader' commit] at hheader
  cases hheader
  exact ⟨L, hL⟩

/-- HEAD's tree is missing, or can be read. -/
theorem Orderly.headTree (hr : r.Orderly W full) {o : Option Hash} (h : r.headTree W = .ok o) :
    ∀ root ∈ o, ∃ L, HeldTree W r.store root L := by
  obtain ⟨commit, hcommit, h⟩ := except_bind_eq_ok.1 h
  rintro root hroot
  cases commit with
  | none =>
    cases h
    cases hroot
  | some commit =>
    obtain ⟨root', htree, h⟩ := except_bind_eq_ok.1 h
    cases h
    cases hroot
    exact hr.heldTree htree

/-- HEAD's leaves. -/
theorem Orderly.exists_leaves (hr : r.Orderly W full) {o : Option Hash}
    (ho : r.headTree W = .ok o) : ∃ L, RootAt W.toPlatform r.store none True True o L := by
  cases o with
  | none => exact ⟨Leaves.empty, RootAt.missing⟩
  | some root =>
    obtain ⟨L, hL⟩ := hr.headTree ho root rfl
    exact ⟨L, hL.rootAt⟩

end Repo

end Invariant

/-! ### Staging -/

/-- A path whose components a tree keeps. -/
def CleanPath (path : Text) : Prop :=
  ∃ parts, split W.toPlatform path = .ok parts ∧ parts ≠ [] ∧ ∀ n ∈ parts, CleanName n

section Staging

variable {W} {full : Prop} {env : Env} {r : Repo}

theorem CleanPath.applicable {path : Text} (h : CleanPath W path) {s : Store} {hash : Hash}
    {o : Object} (hget : s.get W.toPlatform hash = some o)
    (htype : o.type = .blob ∨ o.type = .manifest) :
    Applicable W.toPlatform s none ⟨path, .upsert, some hash⟩ := by
  obtain ⟨parts, hsplit, hne, hclean⟩ := h
  obtain htype | htype := htype
  · exact (applicable_upsert hsplit hne hclean hget (.inl ⟨htype, rfl⟩)).2
  · exact (applicable_upsert hsplit hne hclean hget (.inr ⟨htype, rfl⟩)).2

theorem settles_stage (hr : r.Orderly W full) {path : Text} {hash : Hash}
    (hc : Applicable W.toPlatform r.store none ⟨path, .upsert, some hash⟩) :
    Settles W (Repo.Orderly W full) (stage path hash) r fun _ => Repo.Orderly W full :=
  .bind (.loadIndex hr (.saveIndex (hr.of_same rfl (hr.staged.insert hc))))

/-- **Storing and staging a manifest** whose source is stored. -/
theorem settles_putManifest (hr : r.Orderly W full) {path : Text} (hpath : CleanPath W path)
    {m : Manifest} {bytes : Bytes} (hbytes : m.serialize W = .ok bytes)
    (hsource : full → SourceStored W r.store m.sourceHash) {α : Type} (a : Hash → α) :
    Settles W (Repo.Orderly W full)
      (do
        let manifestHash ← put W .manifest bytes
        stage path manifestHash
        pure (a manifestHash)) r fun _ => Repo.Orderly W full := by
  refine .bind (.put fun s' hs' hget => ?_)
  have hwidens : r.store.Widens W full s' :=
    hs' ▸ Store.Widens.append (by decide) fun hfull _ => ⟨m, hbytes, hsource hfull⟩
  exact .thenPure (settles_stage (hr.grow hwidens) (hpath.applicable hget (.inr rfl)))

theorem settles_stageManifest (hr : r.Orderly W full) {path : Text} (hpath : CleanPath W path)
    {m : Manifest} {sourceHash : Hash} (hsource : full → SourceStored W r.store m.sourceHash) :
    Settles W (Repo.Orderly W full) (Repo.stageManifest W path m sourceHash) r
      fun _ => Repo.Orderly W full :=
  .bind (.require hr fun _ hbytes => settles_putManifest hr hpath hbytes hsource _)

/-- **A long file.** -/
theorem settles_addChunked (hr : r.Orderly W full) {req : AddRequest}
    (hpath : CleanPath W req.path) (chunkSize : Nat) :
    Settles W (Repo.Orderly W full) (Repo.addChunked W env req chunkSize) r
      fun _ => Repo.Orderly W full := by
  have hput : ∀ bs, (Store.put W.toPlatform .blob bs).Keeps (Store.Widens W full) := fun bs s => by
    rw [Store.run_put]
    exact .append (by decide) (by simp)
  refine .bind (.objects ((Op.Ensures.of_keeps (Repo.keeps_putSlices hput _)
    fun s' hs' => hs').mono (fun _ => hr.grow) fun entries s₁ _ hs₁ => ?_))
  refine .bind (.put fun s₂ hs₂ hget => .bind ?_)
  have hwidens : s₁.Widens W full s₂ := hs₂ ▸ Store.Widens.append (by decide) (by simp)
  have hr₂ : ({ r with store := s₂ } : Repo).Orderly W full := (hr.grow hs₁).grow hwidens
  refine .inspect hr₂ fun m hm => settles_stageManifest hr₂ hpath fun _ => ?_
  rw [Repo.sourceHash_of_buildManifestWith hm]
  exact ⟨_, hget, .inr rfl⟩

/-- **An addition.** -/
theorem settles_add (hr : r.Orderly W full) {req : AddRequest}
    (hclean : ∀ parts, split W.toPlatform req.path = .ok parts → ∀ n ∈ parts, CleanName n) :
    Settles W (Repo.Orderly W full) (Repo.add W env req) r fun _ => Repo.Orderly W full := by
  refine .bind (.require hr fun _ hvalid => .bind (.check hr fun _ _ => ?_))
  have hpath : CleanPath W req.path := by
    obtain ⟨-, parts, hsplit, hne⟩ := of_validatePath hvalid
    exact ⟨parts, hsplit, hne, hclean parts hsplit⟩
  split_ifs
  · refine .bind (.inspect hr fun _ _ => .bind (.put fun s' hs' hget => .thenPure ?_))
    exact settles_stage (hr.grow (hs' ▸ .append (by decide) (by simp)))
      (hpath.applicable hget (.inl rfl))
  · refine .bind (.check hr fun config _ => ?_)
    split_ifs
    · exact settles_addChunked hr hpath _
    · refine .bind (.inspect hr fun m hm => .bind (.put fun s' hs' hget => ?_))
      refine settles_stageManifest (hr.grow (hs' ▸ .append (by decide) (by simp))) hpath fun _ => ?_
      rw [Repo.sourceHash_of_buildManifestWith hm]
      exact ⟨_, hget, .inl rfl⟩

/-- **A removal.** -/
theorem settles_remove (hr : r.Orderly W full) (path : Text) :
    Settles W (Repo.Orderly W full) (Repo.remove W path) r fun _ => Repo.Orderly W full := by
  refine .bind (.require hr fun _ hvalid => .bind (.loadIndex hr (.saveIndex ?_)))
  obtain ⟨-, parts, hsplit, hne⟩ := of_validatePath hvalid
  exact hr.of_same rfl (hr.staged.insert (c := ⟨path, .delete, none⟩) (applicable_delete hsplit hne))

/-- A leaf that is read has a path whose components a tree keeps. -/
theorem HeldTree.cleanPath {s : Store} {root : Hash} {L : Leaves Text Entry}
    (hL : HeldTree W s root L) {path : Text} {e : Entry}
    (hget : getAt W.toPlatform s none path root = .ok (some e)) (hmode : e.mode ≠ .tree) :
    ∃ parts, split W.toPlatform path = .ok parts ∧ parts ≠ [] ∧ L parts = some e ∧
      ∀ n ∈ parts, CleanName n := by
  have hget' := hget
  obtain ⟨parts, hsplit, -⟩ := except_bind_eq_ok.1 hget
  have hne : parts ≠ [] := by
    rintro rfl
    simp only [getAt, hsplit, bind, Except.bind, if_pos] at hget
    cases hget
    exact hmode rfl
  obtain ⟨res, hres, hreads⟩ := getAt_spec hsplit hne hL.rootAt.1
  rw [hget', Except.ok.injEq] at hres
  subst hres
  have hleaf : L parts = some e := hreads.leaf_iff.2 ⟨rfl, hmode⟩
  have hne' : L parts ≠ none := by rw [hleaf]; exact Option.some_ne_none e
  exact ⟨parts, hsplit, hne, hleaf, fun n hn => (hL.rootAt.1.names hne' n hn).2 rfl⟩

/-- What is staged or stands at a path of HEAD has such a path. -/
theorem Repo.Orderly.cleanPath (hr : r.Orderly W full) {path : Text} {e : Entry}
    (h : r.resolveStagedOrHead W path = .ok e) (hmode : e.mode ≠ .tree) : CleanPath W path := by
  unfold Repo.resolveStagedOrHead at h
  dsimp only at h
  cases hidx : r.index[path]? with
  | some c =>
    obtain ⟨hpath, happlicable⟩ := hr.staged path c hidx
    obtain ⟨parts, hsplit, hne, hnames⟩ := happlicable.split
    rw [hidx] at h
    cases hkind : c.kind with
    | delete => simp [hkind] at h
    | upsert => exact ⟨parts, hpath ▸ hsplit, hne, fun n hn => hnames hkind n hn rfl⟩
  | none =>
    rw [hidx] at h
    obtain ⟨head, hhead, h⟩ := except_bind_eq_ok.1 h
    cases head with
    | none => cases h
    | some root =>
      obtain ⟨found, hfound, h⟩ := except_bind_eq_ok.1 h
      cases found with
      | none => cases h
      | some e' =>
        cases h
        obtain ⟨L, hL⟩ := hr.headTree hhead root rfl
        obtain ⟨parts, hsplit, hne, -, hnames⟩ := hL.cleanPath hfound hmode
        exact ⟨parts, hsplit, hne, hnames⟩

/-- **A patch.**  With `full`, the source that is taken is one blob. -/
theorem settles_patchFields (hr : r.Orderly W full) {path : Text} {updates : Fields}
    (hblob : full → ∀ m source, r.manifestToPatch W path = .ok (m, source) →
      r.store.get W.toPlatform m.sourceHash = some ⟨.blob, source⟩) :
    Settles W (Repo.Orderly W full) (Repo.patchFields W env path updates) r
      fun _ => Repo.Orderly W full := by
  refine .bind (.require hr fun _ _ => .bind (.check hr ?_))
  rintro ⟨prev, source⟩ hpatch
  have hpath : CleanPath W path := by
    obtain ⟨e, he, hrest⟩ := except_bind_eq_ok.1 hpatch
    split_ifs at hrest with hmode
    exact hr.cleanPath he (by rw [not_not.1 hmode]; decide)
  refine .bind (.inspect hr fun m hm => .bind (.require hr fun bytes hbytes => ?_))
  refine settles_putManifest hr hpath hbytes (fun hfull => ?_) _
  have hget := hblob hfull prev source hpatch
  rw [Repo.sourceHash_of_buildManifestWith hm]
  exact ⟨_, Store.hashOf_of_get hget ▸ hget, .inl rfl⟩

end Staging

/-! ### The pass -/

section Pass

variable {W} {full : Prop} {ctx : PassContext} {n : NewSchema} {s s' s₀ : Store}
  {cache cache' : ProbeOutputCache}

/-- A rebuilt manifest has the source of the old one. -/
theorem Reprobes.widens {file : Text × Hash} {o : FileOutcome}
    (h : Reprobes W ctx n s cache file o cache' s') : s.Widens W full s' := by
  cases h with
  | missing | unparsable | unrelated | failed | unwritten => exact Std.Refl.refl s
  | rebuilt _ _ _ _ hbuild hbytes =>
    refine .append (by decide) fun _ _ => ⟨_, hbytes, ?_⟩
    obtain ⟨source, hget, hsource, -⟩ := reprobeManifest_eq_ok hbuild
    exact ⟨_, hsource ▸ hget, .inl rfl⟩

/-- What is staged for a file is its new manifest. -/
theorem Reprobes.orderlyIndex {file : Text × Hash} {o : FileOutcome}
    (h : Reprobes W ctx n s cache file o cache' s') (hC : s'.CollisionFree W.toPlatform)
    (hfile : CleanPath W file.1) {idx : Index} (hidx : OrderlyIndex W s idx) :
    OrderlyIndex W s' (o.stages file.1 idx) := by
  have hidx' : OrderlyIndex W s' idx := hidx.mono h.le
  cases h with
  | missing | unparsable | unrelated | failed | unwritten => exact hidx'
  | rebuilt =>
    exact hidx'.insert (c := ⟨file.1, .upsert, some _⟩) (hfile.applicable
      (Store.get_of_put (Store.run_put ..) (le_refl _) hC) (.inr rfl))

/-- A turn of the loop over the manifests. -/
theorem ensures_turn {st : PassState} {file : Text × Hash} (hfile : CleanPath W file.1)
    (hs : s₀.Widens W full s) (hidx : OrderlyIndex W s st.index) :
    (reprobeStep W ctx n st file).Ensures (fun s => s.CollisionFree W.toPlatform) s
      (s₀.Widens W full) fun st' s' => s₀.Widens W full s' ∧ OrderlyIndex W s' st'.index := by
  obtain ⟨o, cache', s', hrun, hout⟩ := exists_reprobes W ctx n s st.cache file
  obtain ⟨hok, hpanic⟩ := run_reprobeStep st hrun
  have hs' : s₀.Widens W full s' := IsTrans.trans _ _ _ hs hout.widens
  by_cases ho : o.Recordable
  · refine ⟨fun h hC => ?_, fun h _ => ?_⟩
    · obtain ⟨heq, rfl⟩ := Prod.mk.inj ((hok ho).symm.trans h)
      obtain rfl := Except.ok.inj heq
      exact ⟨hs', hout.orderlyIndex hC hfile hidx⟩
    · cases (hok ho).symm.trans h
  · refine ⟨fun h _ => ?_, fun h _ => ?_⟩
    · cases (hpanic ho).symm.trans h
    · obtain ⟨-, rfl⟩ := Prod.mk.inj ((hpanic ho).symm.trans h)
      exact hs'

theorem ensures_schema {heads : TextMap Schema} {files : List (Text × Hash)}
    (hfiles : ∀ file ∈ files, CleanPath W file.1) {tot : PassTotals} {staged : Text × Hash}
    (hs : s₀.Widens W full s) (hidx : OrderlyIndex W s tot.index) :
    (reprobeSchema W ctx heads files tot staged).Ensures (fun s => s.CollisionFree W.toPlatform) s
      (s₀.Widens W full) fun tot' s' => s₀.Widens W full s' ∧ OrderlyIndex W s' tot'.index := by
  have hC := collisionFree_le W.toPlatform
  refine .bind hC (.reads hs fun found _ => ?_)
  cases found with
  | none => exact .throw hs
  | some o =>
    refine .bind hC (.reads hs fun schema _ => ?_)
    dsimp only
    split_ifs
    · exact .pure ⟨hs, hidx⟩
    · refine .bind hC (Op.Ensures.mono (Op.Ensures.foldlM hC (I := fun rest st s =>
        s₀.Widens W full s ∧ OrderlyIndex W s st.index ∧ ∀ file ∈ rest, CleanPath W file.1)
        ?_ ⟨hs, hidx, hfiles⟩) (fun _ hQ => hQ) fun st s' _ hst => .pure ⟨hst.1, hst.2.1⟩)
      rintro file rest st s₁ ⟨hs₁, hidx₁, hrest⟩
      exact (ensures_turn (hrest file List.mem_cons_self) hs₁ hidx₁).mono (fun _ hQ => hQ)
        fun st' s' _ hst' => ⟨hst'.1, hst'.2, fun f hf => hrest f (List.mem_cons_of_mem _ hf)⟩

/-- The loop over the staged schemas. -/
theorem ensures_schemas {heads : TextMap Schema} {files staged : List (Text × Hash)}
    (hfiles : ∀ file ∈ files, CleanPath W file.1) {idx : Index} (hidx : OrderlyIndex W s idx) :
    (staged.foldlM (reprobeSchema W ctx heads files) ⟨idx, [], []⟩).Ensures
      (fun s => s.CollisionFree W.toPlatform) s (s.Widens W full)
      fun tot s' => s.Widens W full s' ∧ OrderlyIndex W s' tot.index :=
  Op.Ensures.foldlM (collisionFree_le W.toPlatform)
    (I := fun _ (tot : PassTotals) s' => s.Widens W full s' ∧ OrderlyIndex W s' tot.index)
    (fun _ _ _ _ h => ensures_schema hfiles h.1 h.2) ⟨Std.Refl.refl s, hidx⟩

/-- The manifests of HEAD have paths whose components a tree keeps. -/
theorem Repo.Orderly.cleanFiles {r : Repo} (hr : r.Orderly W full) {files : List (Text × Hash)}
    (h : r.headManifests W = .ok files) : ∀ file ∈ files, CleanPath W file.1 := by
  obtain ⟨head, hhead, h⟩ := except_bind_eq_ok.1 h
  rw [mapError_eq_ok] at hhead
  cases head with
  | none =>
    cases h
    exact nofun
  | some root =>
    obtain ⟨L, hL⟩ := hr.headTree hhead root rfl
    obtain ⟨leaves, hwalk, h⟩ := except_bind_eq_ok.1 h
    cases h
    intro file hfile
    obtain ⟨⟨path, e⟩, hmem, hmode⟩ := List.mem_filterMap.1 hfile
    split_ifs at hmode with hmanifest
    cases hmode
    obtain ⟨q, hq, -, hsplit⟩ := (mem_walk_iff hL.rootAt.1 hwalk).1 hmem
    have hq' : L q ≠ none := by rw [hq]; exact Option.some_ne_none e
    refine ⟨q, hsplit, ?_, fun n hn => (hL.rootAt.1.names hq' n hn).2 rfl⟩
    rintro rfl
    exact hq' hL.rootAt.1.nil

variable {env : Env} {r : Repo}

/-- **The pass** leaves an index that can be committed. -/
theorem settles_reprobed (hr : r.Orderly W full) {idx : Index}
    (hidx : OrderlyIndex W r.store idx) :
    Settles W (Repo.Orderly W full) (Repo.reprobed W env idx) r fun res r' =>
      r'.Orderly W full ∧ OrderlyIndex W r'.store res.1 := by
  unfold Repo.reprobed
  split_ifs
  · exact Op.Ensures.pure ⟨hr, hidx⟩
  · unfold Repo.autoReprobe
    dsimp only
    split_ifs
    · exact Op.Ensures.pure ⟨hr, hidx⟩
    · refine .bind (.inspect hr fun inputs hinputs => ?_)
      obtain ⟨heads, ctx, files⟩ := inputs
      have hfiles := Repo.headManifests_of_passInputs hinputs
      refine .bind (.objects ((ensures_schemas (hr.cleanFiles hfiles) hidx).mono
        (fun _ => hr.grow) fun tot s' _ htot => ?_))
      exact Op.Ensures.pure ⟨hr.grow htot.1, htot.2⟩

end Pass

/-! ### Committing -/

section Committing

variable {W} {full : Prop} {env : Env} {r : Repo}

theorem widens_putTree (t : Tree) :
    (storeTree W.toPlatform none t).Keeps (Store.Widens W full) := by
  intro s
  rw [storeTree, Store.run_put]
  exact .append (by decide) (by simp)

/-- A tree that is built of changes that can be made. -/
theorem ensures_built {s : Store} {o : Option Hash}
    (ho : ∀ root ∈ o, ∃ L, HeldTree W s root L) {changes : List StagedChange}
    (hchanges : ∀ c ∈ changes, Applicable W.toPlatform s none c) :
    (buildTree W.toPlatform none o changes).Ensures (fun s => s.CollisionFree W.toPlatform) s
      (s.Widens W full) fun o' s' => s.Widens W full s' ∧
        ∀ root ∈ o', ∃ L, HeldTree W s' root L := by
  have hkeeps : (buildTree W.toPlatform none o changes).Keeps (Store.Widens W full) :=
    Repo.keeps_buildTree widens_putTree o changes
  obtain ⟨L, hroot, hL⟩ : ∃ L, RootAt W.toPlatform s none True True o L ∧
      ∀ q e, L q = some e → Held W s e := by
    cases o with
    | none => exact ⟨Leaves.empty, RootAt.missing, fun q e hq => by cases hq⟩
    | some root =>
      obtain ⟨L, hL⟩ := ho root rfl
      exact ⟨L, hL.rootAt, hL.held⟩
  refine ⟨fun {o' s'} hrun hC => ?_, fun hrun _ => ?_⟩
  · have hwidens := hkeeps s
    rw [hrun] at hwidens
    refine ⟨hwidens, ?_⟩
    rintro root rfl
    obtain ⟨o', M, ho', hM, hrootM⟩ | ⟨⟨_, herr⟩, -⟩ :=
      buildTree_spec (fun h => absurd rfl h) hchanges hroot hrun hC
    · cases ho'
      refine ⟨M, hrootM, fun q e hq => Held.mono hwidens.le ?_⟩
      -- a leaf of the new tree was there, or is what some change puts there
      refine Leaves.forall_of_applyAll (Q := fun _ => Held W s) hM hL (fun f hf e he => ?_) q e hq
      obtain ⟨c, hc, rfl⟩ := List.mem_map.1 hf
      obtain ⟨parts, hsplit, -⟩ := (hchanges c hc).split
      cases hkind : c.kind with
      | delete =>
        rw [edit_of_delete hsplit hkind] at he
        cases he
      | upsert =>
        obtain ⟨hash, mode, hhash, hmode, hleaf⟩ := (hchanges c hc).stored hkind
        rw [edit_of_upsert hsplit hkind hhash hmode] at he
        cases he
        exact ⟨hmode, hleaf⟩
    · cases herr
  · have hwidens := hkeeps s
    rwa [hrun] at hwidens

theorem settles_buildCommit (hr : r.Orderly W full) (author : AuthorOverride) :
    Settles W (Repo.Orderly W full) (Repo.buildCommit W env author) r fun res r' =>
      r'.Orderly W full ∧ ∀ root ∈ res.1, ∃ L, HeldTree W r'.store root L := by
  refine .bind (.loadIndex hr (.bind (.require hr fun _ _ => .bind (.lockRefs (.bind
    (.require hr fun author' _ => .bind ((settles_reprobed hr hr.staged).mono
      (fun _ hQ => hQ) ?_)))))))
  rintro ⟨idx, summaries⟩ r₁ - ⟨hr₁, hidx⟩
  refine .bind (.check hr₁ fun o ho => .bind (.objects ((ensures_built (hr₁.headTree ho)
    fun _ => hidx.applicable).mono (fun _ => hr₁.grow) fun root s' _ hroot => ?_)))
  exact Op.Ensures.pure ⟨hr₁.grow hroot.1, hroot.2⟩

/-- Storing a commit of such a tree. -/
theorem Repo.Orderly.commit (hr : r.Orderly W full) {c : Commit} {L : Leaves Text Entry}
    (hc : HeldTree W r.store c.tree L) {s' : Store}
    (hs' : s' = ⟨r.store.objects ++ [⟨.commit, c.serialize⟩]⟩) :
    ({ r with store := s' } : Repo).Orderly W full := by
  subst hs'
  have hle : r.store ≤ ⟨r.store.objects ++ [⟨.commit, c.serialize⟩]⟩ := ⟨_, rfl⟩
  refine ⟨fun o ho htype => ?_, hr.staged.mono hle, fun hfull o ho htype => ?_⟩
  · obtain ho | ho := List.mem_append.1 ho
    · obtain ⟨root, L', hheader, hL'⟩ := hr.trees o ho htype
      exact ⟨root, L', hheader, hL'.mono hle⟩
    · cases List.mem_singleton.1 ho
      exact ⟨c.tree, L, fun h => treeHeader_serialize _ h c, hc.mono hle⟩
  · obtain ho | ho := List.mem_append.1 ho
    · exact (hr.sources hfull o ho htype).mono hle
    · cases List.mem_singleton.1 ho
      cases htype

theorem settles_publish (hr : r.Orderly W full) {o : Option Hash}
    (ho : ∀ root ∈ o, ∃ L, HeldTree W r.store root L) (author : Author) (message : Text) :
    Settles W (Repo.Orderly W full) (Repo.publish W o author message) r
      fun _ => Repo.Orderly W full := by
  cases o with
  | none => exact .require hr nofun
  | some root =>
    obtain ⟨L, hL⟩ := ho root rfl
    refine .bind (.check hr fun parent _ => .bind (.put fun s' hs' _ => ?_))
    have hr₁ := hr.commit (c := ⟨root, parent.toList, author, message⟩) hL hs'
    refine .bind (.check hr₁ fun head _ => ?_)
    cases head with
    | branch name =>
      exact .bind (.writeRef hr₁ fun path => .thenPure
        (.saveIndex (hr₁.of_same rfl orderlyIndex_empty)))
    | detached g =>
      exact .bind (.writeHead (.thenPure (.saveIndex (hr₁.of_same rfl orderlyIndex_empty))))

theorem settles_commit (hr : r.Orderly W full) (message : Text) (author : AuthorOverride) :
    Settles W (Repo.Orderly W full) (Repo.commit W env message author) r
      fun _ => Repo.Orderly W full := by
  refine .bind ((settles_buildCommit hr author).mono (fun _ hQ => hQ) ?_)
  rintro ⟨root, author', summaries⟩ r₁ - ⟨hr₁, hroot⟩
  exact .thenPure (settles_publish hr₁ hroot author' message)

end Committing

/-! ### Runs -/

/-- What is asked of a call: an addition has names that a tree keeps; and with `full`, a patch is
of a file that is kept as one blob. -/
def Call.Clean (full : Prop) (r : Repo) : Call → Prop
  | .add req => ∀ parts, split W.toPlatform req.path = .ok parts → ∀ n ∈ parts, CleanName n
  | .patchFields path _ => full → ∀ m source, r.manifestToPatch W path = .ok (m, source) →
      r.store.get W.toPlatform m.sourceHash = some ⟨.blob, source⟩
  | .remove _ | .commit .. | .branch .. | .checkout _ => True

section Runs

variable {W} {full : Prop} {r : Repo}

theorem settles_call (hr : r.Orderly W full) {l : Env × Call} (hl : l.2.Clean W full r) :
    Settles W (Repo.Orderly W full) (l.2.script W l.1) r fun _ => Repo.Orderly W full := by
  obtain ⟨env, c⟩ := l
  cases c with
  | add req => exact .thenPure (settles_add hr hl)
  | patchFields path updates => exact .thenPure (settles_patchFields hr hl)
  | remove path => exact settles_remove hr path
  | commit message author => exact .thenPure (settles_commit hr message author)
  | branch name start =>
    refine .bind (.check hr fun _ _ => .bind (.check hr fun _ _ => .bind (.require hr fun _ _ => ?_)))
    exact .writeRef hr fun path => hr.of_same rfl hr.staged
  | checkout expr => exact .bind (.check hr fun _ _ => .writeHead (hr.of_same rfl hr.staged))

/-- **A call keeps a repository in order**, however it ends. -/
theorem Repo.Orderly.step (hr : r.Orderly W full) {l : Env × Call} (hl : l.2.Clean W full r)
    (hC : ((l.2.run W l.1).run r).2.store.CollisionFree W.toPlatform) :
    ((l.2.run W l.1).run r).2.Orderly W full := by
  obtain h | ⟨p, h⟩ := Repo.locked_state ((l.2.script W l.1).run (Action.op W)) r
  · rw [Call.run, h]
    exact hr
  · rw [Call.run, h] at hC ⊢
    have hr' := (settles_call hr hl).state hC
    exact hr'.of_same rfl hr'.staged

/-- **Every run keeps a repository in order.** -/
theorem Repo.Orderly.of_reachable {r₀ : Repo} (hr₀ : r₀.Orderly W full)
    (hr : (Repo.lts W).Reachable (fun r l => l.2.Clean W full r) r₀ r)
    (hC : r.store.CollisionFree W.toPlatform) : r.Orderly W full := by
  refine hr.invariant_of_down (I := Repo.Orderly W full)
    (C := fun r => r.store.CollisionFree W.toPlatform) hC ?_ hr₀ ?_
  · rintro r l r' rfl hC'
    exact hC'.down ((l.2.run W l.1).grows r)
  · rintro r l r' hr hl rfl hC'
    exact hr.step hl hC'

theorem Repo.orderly_of_reachable
    (hr : (Repo.lts W).Reachable (fun r l => l.2.Clean W full r) Repo.init r)
    (hC : r.store.CollisionFree W.toPlatform) : r.Orderly W full :=
  orderly_init.of_reachable hr hC

end Runs

end Omp
