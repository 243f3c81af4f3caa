import Mathlib.Data.List.Permutation
import Omp.Merkle

/-!
# Staged changes and the tree a commit builds

The staging index maps path strings to changes, and a commit folds the changes into HEAD's
tree in the order the hash map happens to yield them.  This module models the fold and shows
that it carries out the corresponding edits on the leaf map, and from that when its order
matters: two changes race when one of them writes at or below the path of the other.

## Main definitions

* `StagedChange`, `Index` : the staging index.
* `buildTree` : the fold of a commit.
* `edit` : the edit of the leaf map a change stands for.

## Main results

* `buildTree_spec` : the fold carries out the edits.
* `buildTree_order_iff` : when the order of the changes does not matter.
-/

namespace Omp

open Lib

/-! ### The index -/

/-- What is done to a path. -/
inductive StagedKind where
  | upsert | delete
  deriving DecidableEq

/-- One entry of the staging index. -/
structure StagedChange where
  /-- The path, as the caller spelled it. -/
  path : Text
  /-- What is done to it. -/
  kind : StagedKind
  /-- The object that is put there. -/
  hash : Option Hash
  deriving DecidableEq

/-- The staging index, by path string. -/
abbrev Index := TextMap StagedChange

/-! ### The fold of a commit -/

variable (P : Platform)

/-- `stored_mode` : the tree mode an object is entered with. -/
def storedMode (s : Store) (hash : Hash) : Except OmpError Mode :=
  match s.get P hash with
  | none => .error (.notFound ("object ".toList ++ hash.hex))
  | some o =>
    match o.type with
    | .blob => .ok .blob
    | .manifest => .ok .manifest
    | .tree => .ok .tree
    | other => .error (.corrupt
        ("unexpected object type for staged entry: ".toList ++ other.asStr))

/-- The body of the loop over the staged changes. -/
def applyChange (key : Option Key) (root : Option Hash) (change : StagedChange) :
    StoreOp (Option Hash) :=
  match change.kind with
  | .upsert =>
    match change.hash with
    | none => Op.throw (.internal "upsert without hash".toList)
    | some hash => do
      let mode ← Op.reads fun s => storedMode P s hash
      let newRoot ← putAt P key root change.path ⟨mode, hash⟩
      pure (some newRoot)
  | .delete =>
    match root with
    | none => pure none
    | some r => deleteAt P key r change.path

/-- The loop: fold the changes into a tree. -/
def buildTree (key : Option Key) (root : Option Hash) (changes : List StagedChange) :
    StoreOp (Option Hash) :=
  changes.foldlM (applyChange P key) root

/-! ### The edits the changes stand for -/

/-- The edit of the leaf map a change stands for. -/
def edit (s : Store) (change : StagedChange) : Edit Text Entry :=
  ((split P change.path).toOption.getD [],
    match change.kind with
    | .upsert => do
      let hash ← change.hash
      let mode ← (storedMode P s hash).toOption
      some ⟨mode, hash⟩
    | .delete => none)

/-- A change as `add` and `remove` stage it: its path has components the codec keeps, and what
is put there is a stored blob or manifest. -/
structure WellStaged (s : Store) (key : Option Key) (change : StagedChange) : Prop where
  /-- The path was validated. -/
  split : ∃ parts, split P change.path = .ok parts ∧ parts ≠ [] ∧
    ∀ n ∈ parts, Tree.NameKept key n
  /-- The object was stored. -/
  stored : change.kind = .upsert → ∃ hash mode, change.hash = some hash ∧
    storedMode P s hash = .ok mode ∧ mode ≠ .tree

/-- A change that can be made to a leaf map: its path was validated, and an upsert puts a stored
blob or manifest under names the codec keeps. -/
structure Applicable (s : Store) (key : Option Key) (change : StagedChange) : Prop where
  /-- The path was validated. -/
  split : ∃ parts, split P change.path = .ok parts ∧ parts ≠ [] ∧
    (change.kind = .upsert → ∀ n ∈ parts, Tree.NameKept key n)
  /-- The object was stored. -/
  stored : change.kind = .upsert → ∃ hash mode, change.hash = some hash ∧
    storedMode P s hash = .ok mode ∧ mode ≠ .tree

variable {P} {s s' : Store} {key : Option Key} {full canon : Prop}

theorem WellStaged.applicable {c : StagedChange} (hc : WellStaged P s key c) :
    Applicable P s key c := by
  obtain ⟨parts, hsplit, hne, hkept⟩ := hc.split
  exact ⟨⟨parts, hsplit, hne, fun _ => hkept⟩, hc.stored⟩

theorem storedMode_mono (hle : s ≤ s') {hash : Hash} {mode : Mode}
    (h : storedMode P s hash = .ok mode) : storedMode P s' hash = .ok mode := by
  unfold storedMode at h ⊢
  cases hg : s.get P hash with
  | none => simp [hg] at h
  | some o => rw [hg] at h; rwa [Store.get_mono hle hg]

/-- What can be entered is stored. -/
theorem exists_get_of_storedMode {hash : Hash} {mode : Mode} (h : storedMode P s hash = .ok mode) :
    ∃ o, s.get P hash = some o := by
  unfold storedMode at h
  cases hg : s.get P hash with
  | none => simp [hg] at h
  | some o => exact ⟨o, rfl⟩

theorem Applicable.mono (hle : s ≤ s') {c : StagedChange} (hc : Applicable P s key c) :
    Applicable P s' key c := by
  refine ⟨hc.split, fun hk => ?_⟩
  obtain ⟨hash, mode, hh, hmode, hne⟩ := hc.stored hk
  exact ⟨hash, mode, hh, storedMode_mono hle hmode, hne⟩

theorem edit_of_upsert {c : StagedChange} {parts : List Text} {hash : Hash} {mode : Mode}
    (hsplit : Omp.split P c.path = .ok parts) (hk : c.kind = .upsert) (hh : c.hash = some hash)
    (hmode : storedMode P s hash = .ok mode) :
    edit P s c = (parts, some ⟨mode, hash⟩) := by
  simp [edit, hsplit, hk, hh, hmode, Except.toOption]

theorem edit_of_delete {c : StagedChange} {parts : List Text}
    (hsplit : Omp.split P c.path = .ok parts) (hk : c.kind = .delete) :
    edit P s c = (parts, none) := by
  simp [edit, hsplit, hk, Except.toOption]

/-- The edit of a change that can be made stays the same as the store grows. -/
theorem Applicable.edit_eq (hle : s ≤ s') {c : StagedChange} (hc : Applicable P s key c) :
    edit P s' c = edit P s c := by
  obtain ⟨parts, hsplit, -⟩ := hc.split
  cases hk : c.kind with
  | upsert =>
    obtain ⟨hash, mode, hh, hmode, -⟩ := hc.stored hk
    rw [edit_of_upsert hsplit hk hh hmode, edit_of_upsert hsplit hk hh (storedMode_mono hle hmode)]
  | delete => rw [edit_of_delete hsplit hk, edit_of_delete hsplit hk]

/-! ### The fold on leaf maps -/

/-- Paths whose names are all valid, the ones that can be written to. -/
def Writable (parts : List Text) : Prop := ∀ n ∈ parts, ValidName n

/-- **One change carries out its edit**, or fails where the edit is refused. -/
theorem applyChange_spec (hP : key ≠ none → P.AeadLawful) {c : StagedChange}
    (hc : Applicable P s key c) {o : Option Hash} {L : Leaves Text Entry}
    (hroot : RootAt P s key full canon o L) {r : Except (Fault OmpError) (Option Hash)}
    (hrun : (applyChange P key o c).run s = (r, s')) (hcf : s'.CollisionFree P) :
    (∃ o' M, r = .ok o' ∧ L.apply Writable (edit P s c) = some M ∧
      RootAt P s' key full canon o' M) ∨
    (∃ e, r = .error (.err e)) ∧ L.apply Writable (edit P s c) = none := by
  obtain ⟨parts, hsplit, hne, hkept⟩ := hc.split
  cases hk : c.kind with
  | upsert =>
    obtain ⟨hash, mode, hh, hmode, hleaf⟩ := hc.stored hk
    rw [edit_of_upsert hsplit hk hh hmode]
    have hread : (Op.reads fun s => storedMode P s hash : StoreOp Mode).run s = (.ok mode, s) := by
      simp [hmode, Except.mapError]
    simp only [applyChange, hk, hh] at hrun
    rw [Op.run_bind_of_ok hread, Op.run_bind, run_putAt hsplit hne] at hrun
    cases hput : (putInner P key ⟨mode, hash⟩ parts o).run s with
    | mk rput s₁ =>
      have hs₁ : s₁ = s' := by
        rw [hput] at hrun
        cases rput <;> exact (Prod.mk.inj hrun).2
      subst hs₁
      rcases putInner_spec hP hleaf hne (hkept hk) hroot hput hcf with
        ⟨hv, hb, h, rfl, hL⟩ | ⟨hbad, e, rfl⟩
      · rw [hput] at hrun
        exact .inl ⟨some h, _, (Prod.mk.inj hrun).1.symm, Leaves.apply_put_of _ hv hb, hL⟩
      · rw [hput] at hrun
        exact .inr ⟨⟨e, (Prod.mk.inj hrun).1.symm⟩, Leaves.apply_put_eq_none.2 hbad⟩
  | delete =>
    rw [edit_of_delete hsplit hk, Leaves.apply_del]
    simp only [applyChange, hk] at hrun
    cases o with
    | none =>
      obtain ⟨rfl, rfl⟩ := Prod.mk.inj hrun
      refine .inl ⟨none, _, rfl, rfl, ?_⟩
      rw [show L = Leaves.empty from hroot, Leaves.del_empty]
      exact RootAt.missing
    | some root =>
      rw [run_deleteAt hsplit hne] at hrun
      obtain ⟨o', rfl, hL, -⟩ := deleteInner_spec hP hne hroot hrun hcf
      exact .inl ⟨o', _, rfl, rfl, hL⟩

/-- **The fold of a commit carries out the edits of the changes**, and fails exactly when one
of them is refused. -/
theorem buildTree_spec (hP : key ≠ none → P.AeadLawful) {cs : List StagedChange}
    (hcs : ∀ c ∈ cs, Applicable P s key c) {o : Option Hash} {L : Leaves Text Entry}
    (hroot : RootAt P s key full canon o L) {r : Except (Fault OmpError) (Option Hash)}
    (hrun : (buildTree P key o cs).run s = (r, s')) (hcf : s'.CollisionFree P) :
    (∃ o' M, r = .ok o' ∧ L.applyAll Writable (cs.map (edit P s)) = some M ∧
      RootAt P s' key full canon o' M) ∨
    (∃ e, r = .error (.err e)) ∧ L.applyAll Writable (cs.map (edit P s)) = none := by
  induction cs generalizing s o L with
  | nil =>
    obtain ⟨rfl, rfl⟩ := Prod.mk.inj hrun
    exact .inl ⟨o, L, rfl, rfl, hroot⟩
  | cons c cs ih =>
    obtain ⟨hc, hrest⟩ := List.forall_mem_cons.1 hcs
    rw [buildTree, List.foldlM_cons, Op.run_bind] at hrun
    cases hone : (applyChange P key o c).run s with
    | mk r₁ s₁ =>
      have hle : s ≤ s₁ := Op.le_of_run hone
      rw [List.map_cons, Leaves.applyAll_cons]
      cases r₁ with
      | error f =>
        rw [hone] at hrun
        obtain ⟨rfl, rfl⟩ := Prod.mk.inj hrun
        rcases applyChange_spec hP hc hroot hone hcf with ⟨_, _, h, -⟩ | ⟨herr, hnone⟩
        · cases h
        · exact .inr ⟨herr, by rw [hnone, Option.bind_none]⟩
      | ok o₁ =>
        rw [hone] at hrun
        have hcf₁ : s₁.CollisionFree P := hcf.down (Op.le_of_run hrun)
        rcases applyChange_spec hP hc hroot hone hcf₁ with ⟨_, M, h, hM, hL⟩ | ⟨⟨_, h⟩, -⟩
        · cases h
          have hedits : cs.map (edit P s₁) = cs.map (edit P s) :=
            List.map_congr_left fun c' hc' => (hrest c' hc').edit_eq hle
          rw [hM, Option.bind_some, ← hedits]
          exact ih (fun c' hc' => (hrest c' hc').mono hle) hL hrun
        · cases h

/-! ### The order of the changes -/

variable (P key) in
/-- All objects that some order of the changes leaves in the store. -/
def everyOrder (o : Option Hash) (cs : List StagedChange) (s : Store) : Store :=
  ⟨cs.permutations'.flatMap fun l => ((buildTree P key o l).run s).2.objects⟩

theorem subset_everyOrder {o : Option Hash} {cs l : List StagedChange} (hl : l.Perm cs)
    (s : Store) :
    ((buildTree P key o l).run s).2.objects ⊆ (everyOrder P key o cs s).objects :=
  fun _ hobj => List.mem_flatMap.2 ⟨l, List.mem_permutations'.2 hl, hobj⟩

/-- Two outcomes agree: both succeed with one root, or both fail. -/
def SameOutcome (r r' : Except (Fault OmpError) (Option Hash)) : Prop :=
  (∃ o, r = .ok o ∧ r' = .ok o) ∨ r.isOk = false ∧ r'.isOk = false

/-- A change writes exactly when it is an upsert. -/
theorem Applicable.edit_ne_none_iff {c : StagedChange} (hc : Applicable P s key c) :
    (edit P s c).2 ≠ none ↔ c.kind = .upsert := by
  obtain ⟨parts, hsplit, -⟩ := hc.split
  cases hk : c.kind with
  | upsert =>
    obtain ⟨hash, mode, hh, hmode, -⟩ := hc.stored hk
    simp [edit_of_upsert hsplit hk hh hmode]
  | delete => simp [edit_of_delete hsplit hk]

/-- The root of a tree in one store means what it means in another without collisions. -/
theorem RootAt.det {s₁ s₂ s₃ : Store} (h₁ : s₁.objects ⊆ s₃.objects)
    (h₂ : s₂.objects ⊆ s₃.objects) (hcf : s₃.CollisionFree P) {o : Option Hash}
    {L M : Leaves Text Entry} (hL : RootAt P s₁ key full canon o L)
    (hM : RootAt P s₂ key full canon o M) : L = M := by
  cases o with
  | none => rw [show L = Leaves.empty from hL, show M = Leaves.empty from hM]
  | some h => exact (hL.1.of_subset h₁ hcf).det (hM.1.of_subset h₂ hcf)

/-- Two orders of the changes agree exactly when the lists of their edits do. -/
theorem sameOutcome_iff (hP : key ≠ none → P.AeadLawful) {cs : List StagedChange}
    (hcs : ∀ c ∈ cs, WellStaged P s key c) {o : Option Hash} {L : Leaves Text Entry}
    (hroot : RootAt P s key True True o L) (hcf : (everyOrder P key o cs s).CollisionFree P)
    {l₁ l₂ : List StagedChange} (h₁ : l₁.Perm cs) (h₂ : l₂.Perm cs) :
    SameOutcome ((buildTree P key o l₁).run s).1 ((buildTree P key o l₂).run s).1 ↔
      L.applyAll Writable (l₁.map (edit P s)) = L.applyAll Writable (l₂.map (edit P s)) := by
  have hspec : ∀ {l : List StagedChange}, l.Perm cs → _ := fun {l} hl =>
    buildTree_spec hP (fun c hc => (hcs c (hl.mem_iff.1 hc)).applicable) hroot
      (Prod.mk.eta (p := (buildTree P key o l).run s)).symm
      (Set.InjOn.mono (fun _ hobj => subset_everyOrder hl s hobj) hcf)
  rcases hspec h₁ with ⟨o₁, M₁, hr₁, hM₁, hL₁⟩ | ⟨⟨e₁, hr₁⟩, hM₁⟩ <;>
    rcases hspec h₂ with ⟨o₂, M₂, hr₂, hM₂, hL₂⟩ | ⟨⟨e₂, hr₂⟩, hM₂⟩ <;>
    rw [hM₁, hM₂, hr₁, hr₂]
  · rw [Option.some.injEq]
    constructor
    · rintro (⟨o', h, h'⟩ | ⟨h, -⟩)
      · cases h
        cases h'
        exact hL₁.det (subset_everyOrder h₁ s) (subset_everyOrder h₂ s) hcf hL₂
      · cases h
    · rintro rfl
      exact .inl ⟨o₁, rfl, by rw [hL₁.unique trivial trivial hL₂]⟩
  · simp [SameOutcome, Except.isOk, Except.toBool]
  · simp [SameOutcome, Except.isOk, Except.toBool]
  · simp [SameOutcome, Except.isOk, Except.toBool]

/-- **When the order of the staged changes does not matter.**  For changes whose names the codec
keeps: folding them into a tree in any two orders succeeds with the same root or fails both
times, exactly when no change writes at or below the path of a different one, or when some
write is refused in every order. -/
theorem buildTree_order_iff (hP : key ≠ none → P.AeadLawful) {cs : List StagedChange}
    (hcs : ∀ c ∈ cs, WellStaged P s key c) {o : Option Hash} {L : Leaves Text Entry}
    (hroot : RootAt P s key True True o L)
    (hcf : (everyOrder P key o cs s).CollisionFree P) :
    (∀ l₁ l₂ : List StagedChange, l₁.Perm cs → l₂.Perm cs →
      SameOutcome ((buildTree P key o l₁).run s).1 ((buildTree P key o l₂).run s).1) ↔
    (∀ c ∈ cs, ∀ d ∈ cs, ¬ Leaves.Races (edit P s c) (edit P s d)) ∨
      ∃ c ∈ cs, c.kind = .upsert ∧
        Leaves.Doomed Writable L (cs.map (edit P s)) (edit P s c).1 := by
  have hlift : ∀ {fs : List (Edit Text Entry)}, fs.Perm (cs.map (edit P s)) →
      ∃ l : List StagedChange, fs = l.map (edit P s) ∧ l.Perm cs := fun {fs} hfs =>
    (iff_of_eq (congrFun (congrFun (List.eq_map_comp_perm (edit P s)) fs) cs)).2 hfs
  have hiff := Leaves.applyAll_perm_iff Writable L (cs.map (edit P s))
  simp only [List.mem_map, forall_exists_index, and_imp, forall_apply_eq_imp_iff₂,
    exists_exists_and_eq_and] at hiff
  have hdoomed : (∃ c ∈ cs, (edit P s c).2 ≠ none ∧
        Leaves.Doomed Writable L (cs.map (edit P s)) (edit P s c).1) ↔
      ∃ c ∈ cs, c.kind = .upsert ∧
        Leaves.Doomed Writable L (cs.map (edit P s)) (edit P s c).1 :=
    exists_congr fun c => and_congr_right fun hc => by rw [(hcs c hc).applicable.edit_ne_none_iff]
  rw [← hdoomed, ← hiff]
  constructor
  · intro hall fs gs hfs hgs
    obtain ⟨l₁, rfl, h₁⟩ := hlift hfs
    obtain ⟨l₂, rfl, h₂⟩ := hlift hgs
    exact (sameOutcome_iff hP hcs hroot hcf h₁ h₂).1 (hall l₁ l₂ h₁ h₂)
  · intro hall l₁ l₂ h₁ h₂
    exact (sameOutcome_iff hP hcs hroot hcf h₁ h₂).2 (hall _ _ (h₁.map _) (h₂.map _))

/-- A store with two blobs. -/
def demoBlobs : Store := ⟨[⟨.blob, [1]⟩, ⟨.blob, [2]⟩]⟩

/-- The change that puts the blob with the content `b` at a path. -/
def demoUpsert (path : String) (b : UInt8) : StagedChange :=
  ⟨path.toList, .upsert, some (hashOf demo .blob [b])⟩

theorem wellStaged_demoUpsert {path : String} {b : UInt8} (parts : List Text)
    (hsplit : split demo path.toList = .ok parts ∧ parts ≠ [] ∧
      ∀ n ∈ parts, Tree.NameKept none n)
    (hmode : storedMode demo demoBlobs (hashOf demo .blob [b]) = .ok .blob) :
    WellStaged demo demoBlobs none (demoUpsert path b) :=
  ⟨⟨parts, hsplit⟩, fun _ => ⟨_, .blob, rfl, hmode, by decide⟩⟩

theorem buildTree_order_iff_demo :
    SameOutcome
      ((buildTree demo none none [demoUpsert "a/b" 1, demoUpsert "c" 2]).run demoBlobs).1
      ((buildTree demo none none [demoUpsert "c" 2, demoUpsert "a/b" 1]).run demoBlobs).1 := by
  have hcs : ∀ c ∈ [demoUpsert "a/b" 1, demoUpsert "c" 2],
      WellStaged demo demoBlobs none c := by
    refine List.forall_mem_cons.2 ⟨?_, List.forall_mem_cons.2 ⟨?_, nofun⟩⟩
    · exact wellStaged_demoUpsert ["a".toList, "b".toList] (by decide +kernel)
        (by decide +kernel)
    · exact wellStaged_demoUpsert ["c".toList] (by decide +kernel)
        (by decide +kernel)
  exact (buildTree_order_iff (fun h => absurd rfl h) hcs RootAt.missing
    (by decide +kernel)).2 (.inl (by decide +kernel)) _ _ (.refl _) (.swap _ _ _)

/-- Two spellings of one path, staged with different contents: the content that is committed is
the one whose change comes last. -/
theorem buildTree_order_matters :
    (∀ c ∈ [demoUpsert "a" 1, demoUpsert "a/" 2], WellStaged demo demoBlobs none c) ∧
      ¬ SameOutcome
        ((buildTree demo none none [demoUpsert "a" 1, demoUpsert "a/" 2]).run demoBlobs).1
        ((buildTree demo none none [demoUpsert "a/" 2, demoUpsert "a" 1]).run demoBlobs).1 := by
  refine ⟨List.forall_mem_cons.2 ⟨?_, List.forall_mem_cons.2 ⟨?_, nofun⟩⟩, ?_⟩
  · exact wellStaged_demoUpsert ["a".toList] (by decide +kernel) (by decide +kernel)
  · exact wellStaged_demoUpsert ["a".toList] (by decide +kernel) (by decide +kernel)
  · have hne : ((buildTree demo none none [demoUpsert "a" 1, demoUpsert "a/" 2]).run demoBlobs).1 ≠
        ((buildTree demo none none [demoUpsert "a/" 2, demoUpsert "a" 1]).run demoBlobs).1 := by
      decide +kernel
    have hok : ((buildTree demo none none
        [demoUpsert "a" 1, demoUpsert "a/" 2]).run demoBlobs).1.isOk = true := by
      decide +kernel
    rintro (⟨o, h, h'⟩ | ⟨h, -⟩)
    · exact hne (h.trans h'.symm)
    · rw [hok] at h
      cases h

end Omp
