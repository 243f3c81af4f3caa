import Omp.CommitReaders
import Omp.Encrypted

/-!
# Encrypted history without keys

The hashes in trees and in the headers of commits are plain, so history is meant to be walked by
who holds no key: the collector marks what is reachable, and references are followed back to
earlier commits.  What reads a tree refuses one with sealed names unless it is given their key, and
what reads a commit refuses a sealed message.

## Main definitions

* `Gc.walk` : the collector's walk over what is reachable from some commits.
* `Repo.nthAncestorWithKey`, `Repo.log` : following parents, with the key that the reader of
  commits is given.
* `Repo.Walkable` : what reads history does the same without keys as with them.
* `KeyedCall`, `Repo.keyedLts` : the calls on an encrypted repository.

## Main results

* `Repo.walkable_iff` : history is walkable exactly as long as there is none.
* `Repo.resolveRef_ancestor_iff`, `Repo.log_iff` : what of it is read behind a sealed commit.
-/

namespace Omp

open Lib RepoScript

/-! ### The collector -/

/-- What is reachable, by type. -/
structure LiveSet where
  commits : Finset Hash
  trees : Finset Hash
  manifests : Finset Hash
  chunksObjects : Finset Hash
  blobs : Finset Hash
  shares : Finset Hash
  deriving DecidableEq

namespace Gc

variable (K : KeyedWorld)

/-- The content of the object of a type at an address. -/
def fetch (s : Store) (type : ObjectType) (h : Hash) : Except OmpError Bytes :=
  match s.get K.toPlatform h with
  | none => .error (.notFound (type.asStr ++ ' ' :: h.hex))
  | some o =>
    if o.type = type then .ok o.content
    else .error (.corrupt ("expected ".toList ++ type.asStr ++ ", got ".toList ++ o.type.asStr ++
      " for ".toList ++ h.hex))

/-- `walk_source`. -/
def walkSource (s : Store) (h : Hash) (live : LiveSet) : Except OmpError LiveSet :=
  match s.get K.toPlatform h with
  | none => .error (.notFound ("source ".toList ++ h.hex))
  | some ⟨.blob, _⟩ => .ok { live with blobs := insert h live.blobs }
  | some ⟨.chunks, body⟩ => do
    let parsed ← ChunksBody.parse K.toWorld body
    .ok { live with
      chunksObjects := insert h live.chunksObjects
      blobs := parsed.foldl (fun blobs e => insert e.hash blobs) live.blobs }
  | some ⟨type, _⟩ => .error (.corrupt ("source ".toList ++ h.hex ++
      " is unexpected type ".toList ++ K.debugStr type.asStr))

/-- The manifest in an object, if it is plain or there are keys to open it. -/
def readManifest (keys : Option TenantKeys) (body : Bytes) : Except OmpError (Option Manifest) :=
  match Manifest.parse K.toWorld body with
  | .ok m => .ok (some m)
  | .error _ => match keys with
    | none => .ok none
    | some keys => do
      let envelope ← EncryptedManifestEnvelope.parse K body
      let (m, _) ← envelope.open_ K keys
      .ok (some m)

/-- `walk_manifest`. -/
def walkManifest (keys : Option TenantKeys) (s : Store) (h : Hash) (live : LiveSet) :
    Except OmpError LiveSet :=
  if h ∈ live.manifests then .ok live
  else do
    let body ← fetch K s .manifest h
    let live := { live with manifests := insert h live.manifests }
    match ← readManifest K keys body with
    | none => .ok live
    | some m =>
      let blobs := m.probeHashes.toList.foldl (fun blobs p => insert p.2 blobs) live.blobs
      walkSource K s m.sourceHash { live with blobs := blobs }

/-- `walk_tree`.  A tree that was passed is not entered again, so the recursion is no deeper than
the store has objects; `fuel` counts the depth. -/
def walkTree (keys : Option TenantKeys) (s : Store) :
    Nat → Hash → LiveSet → Except (Fault OmpError) LiveSet
  | 0, _, _ => .error .panic
  | fuel + 1, h, live =>
    if h ∈ live.trees then .ok live
    else do
      let body ← (fetch K s .tree h).mapError .err
      let tree ← (Tree.parseWithPathKey K.toPlatform (keys.map TenantKeys.pathKey) body).mapError
        .err
      tree.entries.toList.foldlM (fun live p => match p.2.mode with
        | .tree => walkTree keys s fuel p.2.hash live
        | .manifest => (walkManifest K keys s p.2.hash live).mapError .err
        | .blob => .ok { live with blobs := insert p.2.hash live.blobs })
        { live with trees := insert h live.trees }

/-- The loop of `walk`; the last of the queue comes first.  `fuel` counts the rounds. -/
def walkCommits (keys : Option TenantKeys) (s : Store) :
    Nat → List Hash → LiveSet → Except (Fault OmpError) LiveSet
  | 0, _, _ => .error .panic
  | _ + 1, [], live => .ok live
  | fuel + 1, h :: queue, live =>
    if h ∈ live.commits then walkCommits keys s fuel queue live
    else do
      let body ← (fetch K s .commit h).mapError .err
      let commit ← (Commit.parseCommitHeaders K.toPlatform body).mapError .err
      let live ← walkTree K keys s (s.objects.length + 1) commit.tree
        { live with commits := insert h live.commits }
      walkCommits keys s fuel (commit.parents.reverse ++ queue) live

/-- `walk`. -/
def walk (fuel : Nat) (keys : Option TenantKeys) (s : Store) (roots alsoIncludeShares : List Hash) :
    Except (Fault OmpError) LiveSet := do
  let live ← walkCommits K keys s fuel roots.reverse ⟨∅, ∅, ∅, ∅, ∅, ∅⟩
  .ok { live with shares := alsoIncludeShares.foldl (fun shares h => insert h shares) live.shares }

end Gc

namespace Repo

/-! ### Following parents -/

variable (W : World) (key : Option Key)

/-- `nth_ancestor`, with the key that the reader of commits is given. -/
def nthAncestorWithKey (s : Store) : Hash → Nat → Except OmpError Hash
  | cur, 0 => .ok cur
  | cur, n + 1 => do
    let content ← getCommit W s cur
    let commit ← Commit.parseWithCommitKey W.toPlatform key content
    match commit.parents with
    | [] => .error (.notFound "no further ancestors".toList)
    | parent :: _ => nthAncestorWithKey s parent n

/-- An ancestor of HEAD's commit. -/
def headAncestor (r : Repo) (n : Nat) : Except OmpError Hash := do
  match ← r.resolveHead W with
  | some h => nthAncestorWithKey W key r.store h n
  | none => .error (.notFound "HEAD has no commits".toList)

/-- The loop of `log`; the last of the queue comes first.  `fuel` counts the rounds. -/
def logFrom (s : Store) (max : Nat) : Nat → List Hash → Finset Hash → List (Hash × Commit) →
    Except (Fault OmpError) (List (Hash × Commit))
  | 0, _, _, _ => .error .panic
  | _ + 1, [], _, out => .ok out
  | fuel + 1, h :: queue, seen, out =>
    if max ≤ out.length then .ok out
    else if h ∈ seen then logFrom s max fuel queue seen out
    else match s.get W.toPlatform h with
      | none => .ok out
      | some o =>
        if o.type ≠ .commit then .ok out
        else do
          let commit ← (Commit.parseWithCommitKey W.toPlatform key o.content).mapError .err
          logFrom s max fuel (commit.parents ++ queue) (insert h seen) (out ++ [(h, commit)])

/-- `log`, with the key that the reader of commits is given. -/
def log (s : Store) (fuel : Nat) (head : Hash) (max : Nat) :
    Except (Fault OmpError) (List (Hash × Commit)) :=
  logFrom W key s max fuel [head] ∅ []

/-- The commits of a log, in order. -/
def logHashes (s : Store) (fuel : Nat) (head : Hash) (max : Nat) :
    Except (Fault OmpError) (List Hash) := (log W key s fuel head max).map (·.map Prod.fst)

variable {W}

/-- Without a key, the ancestors are those that `nth_ancestor` finds. -/
theorem nthAncestorWithKey_none (s : Store) (h : Hash) (n : Nat) :
    nthAncestorWithKey W none s h n = nthAncestor W s h n := by
  induction n generalizing h with
  | zero => rfl
  | succ n ih =>
    unfold nthAncestorWithKey nthAncestor
    simp only [Commit.parseWithCommitKey_none]
    congr
    funext content
    congr
    funext commit
    cases commit.parents with
    | nil => rfl
    | cons parent rest => exact ih parent

/-- **What stands behind `HEAD~`** is an ancestor of HEAD's commit. -/
theorem resolveRef_ancestor (r : Repo) {n : Nat} (hn : n < 2 ^ 64) :
    r.resolveRef W ("HEAD~".toList ++ decimal n) = headAncestor W none r n := by
  have hsplit : splitAncestor ("HEAD~".toList ++ decimal n) = ("HEAD".toList, n) := by
    have honce : splitOnce '~' ("HEAD".toList ++ '~' :: decimal n) = some ("HEAD".toList, decimal n) :=
      splitOnce_append (by decide) _
    have htext : "HEAD~".toList ++ decimal n = "HEAD".toList ++ '~' :: decimal n := rfl
    rw [splitAncestor, htext, honce]
    dsimp only
    rw [parseUsize_decimal hn]
    rfl
  unfold resolveRef headAncestor
  rw [hsplit]
  dsimp only
  rw [if_pos rfl]
  cases r.resolveHead W with
  | error e => rfl
  | ok o =>
    cases o with
    | none => rfl
    | some h => exact (nthAncestorWithKey_none r.store h n).symm

end Repo

/-! ### Calls on an encrypted repository -/

/-- A call that changes an encrypted repository.  Schemas and probes are staged in plain. -/
inductive KeyedCall where
  | add (req : AddRequest)
  | remove (path : Text)
  | addEncrypted (rnd : Randomness) (req : AddRequest)
  | commitEncrypted (message : Text) (author : AuthorOverride)

/-- The script of a call, whose result does not matter here. -/
def KeyedCall.script (W : World) (env : Env) (keys : TenantKeys) : KeyedCall → RepoScript Unit
  | add req => do
    let _ ← Repo.add W env req
    pure ()
  | remove path => Repo.remove W path
  | addEncrypted rnd req => do
    let _ ← Repo.addEncrypted W env keys rnd req
    pure ()
  | commitEncrypted message author => do
    let _ ← Repo.commitEncrypted W env keys message author
    pure ()

/-- A call on a repository, under its write lock. -/
def KeyedCall.run (W : World) (env : Env) (keys : TenantKeys) (c : KeyedCall) : RepoOp Unit :=
  Repo.locked ((c.script W env keys).run (Action.op W))

/-- An encrypted repository to which calls are made, each ending in one way or the other. -/
def Repo.keyedLts (W : World) (keys : TenantKeys) : Lts Repo (Env × KeyedCall) where
  step r l r' := ((l.2.run W l.1 keys).run r).2 = r'

/-- The repository after a call. -/
def KeyedCall.after (W : World) (env : Env) (keys : TenantKeys) (c : KeyedCall) (r : Repo) : Repo :=
  ((c.run W env keys).run r).2

theorem Repo.reachable_after_keyed {W : World} {keys : TenantKeys}
    {P : Repo → Env × KeyedCall → Prop} {r₀ r : Repo} (hr : (Repo.keyedLts W keys).Reachable P r₀ r)
    {env : Env} {c : KeyedCall} (hc : P r (env, c)) :
    (Repo.keyedLts W keys).Reachable P r₀ (c.after W env keys r) :=
  hr.tail (l := (env, c)) hc rfl

/-! ### Sealed trees -/

/-- The names in every tree are sealed. -/
def SealedTrees (W : World) (s : Store) : Prop :=
  ∀ o ∈ s.objects, o.type = .tree →
    ∃ key t, o.content = Tree.serializeWithPathKey W.toPlatform (some key) t

/-- Sealed trees stay sealed, and are joined by no others. -/
def StaySealed (W : World) (s s' : Store) : Prop := SealedTrees W s → SealedTrees W s'

instance (W : World) : Std.Refl (StaySealed W) := ⟨fun _ => id⟩

instance (W : World) : IsTrans Store (StaySealed W) := ⟨fun _ _ _ h₁ h₂ => h₂ ∘ h₁⟩

section Sealed

variable {W : World} {env : Env} {keys : TenantKeys}

theorem staySealed_put {type : ObjectType} {content : Bytes}
    (hnew : type = .tree → ∃ key t, content = Tree.serializeWithPathKey W.toPlatform (some key) t) :
    (Store.put W.toPlatform type content).Keeps (StaySealed W) := by
  intro s hs o ho htree
  rw [Store.run_put] at ho
  rcases List.mem_append.1 ho with ho | ho
  · exact hs o ho htree
  · cases List.mem_singleton.1 ho
    exact hnew htree

theorem staySealed_storeTree (key : Key) (t : Tree) :
    (storeTree W.toPlatform (some key) t).Keeps (StaySealed W) :=
  staySealed_put fun _ => ⟨key, t, rfl⟩

theorem staySealed_put_of_ne {type : ObjectType} (htype : type ≠ .tree) (content : Bytes) :
    (Store.put W.toPlatform type content).Keeps (StaySealed W) :=
  staySealed_put fun h => absurd h htype

theorem staySealed_sealSlices (contentKey : Key) (total : Nat) : ∀ (index : Nat)
    (pieces : List Bytes), (sealSlices W.toPlatform contentKey total index pieces).Keeps
      (StaySealed W)
  | _, [] => Op.Keeps.pure _
  | _, _ :: rest => (staySealed_put_of_ne (by decide) _).bind fun _ =>
      (staySealed_sealSlices contentKey total _ rest).bind fun _ => Op.Keeps.pure _

theorem staySealed_sealChunked (contentKey : Key) (plaintext : Bytes) (chunkSize : Nat) :
    (sealChunked W.toPlatform contentKey plaintext chunkSize).Keeps (StaySealed W) := by
  unfold sealChunked
  dsimp only
  split_ifs
  · exact Op.Keeps.panic
  · exact Op.Keeps.throw _
  · exact (staySealed_sealSlices contentKey _ _ _).bind fun _ =>
      (staySealed_put_of_ne (by decide) _).bind fun _ => Op.Keeps.pure _

theorem staySealed_sealSource (contentKey : Key) (plaintext : Bytes) (chunkSize : Nat) :
    (Repo.sealSource W.toPlatform contentKey plaintext chunkSize).Keeps (StaySealed W) := by
  unfold Repo.sealSource
  split_ifs
  · exact staySealed_sealChunked contentKey plaintext chunkSize
  · exact (staySealed_put_of_ne (by decide) _).bind fun _ => Op.Keeps.pure _

/-- What the actions of a call on an encrypted repository may do. -/
abbrev Action.Sealing (W : World) {α : Type} (x : Action α) : Prop :=
  x.Quiet (StaySealed W) ∨ x.SavesIndex ∨ x.MovesRef

theorem within_of_quiet {α : Type} {t : RepoScript α}
    (ht : Script.Within (Action.Quiet (StaySealed W)) t) : Script.Within (Action.Sealing W) t :=
  ht.mono .inl

theorem within_stageSealed (rnd : Randomness) (req : AddRequest) :
    Script.Within (Action.Sealing W) (Repo.stageSealed W env keys rnd req) := by
  refine (within_of_quiet (quiet_check _)).bind fun config =>
    (within_of_quiet (quiet_objects (staySealed_sealSource _ _ _))).bind fun source =>
      (within_of_quiet (quiet_inspect _)).bind fun m =>
        (within_of_quiet (quiet_check _)).bind fun bytes =>
          (within_of_quiet (quiet_objects (staySealed_put_of_ne (by decide) _))).bind fun h =>
            Script.Within.bind ?_ fun _ => .done _
  exact (writesOnce_stage _ _).toWithin .inl (fun hx => .inr (.inl hx)) False.elim

theorem within_commitEncrypted (message : Text) (author : AuthorOverride) :
    Script.Within (Action.Sealing W) (Repo.commitEncrypted W env keys message author) := by
  refine Script.Within.bind (Script.Within.bind ?_ fun built => ?_) fun _ => .done _
  · -- the tree of the commit is built with the key of the names
    refine within_of_quiet (quiet_loadIndex.bind fun idx => (quiet_check _).bind fun _ =>
      quiet_lockRefs.bind fun _ => (quiet_check _).bind fun author => ?_)
    exact Script.Within.bind (.done _) fun _ => (quiet_check _).bind fun o =>
      (quiet_objects (Repo.keeps_buildTree (staySealed_storeTree _) o _)).bind fun _ => .done _
  · refine Script.Within.bind ?_ fun _ => .done _
    obtain ⟨root, author', summaries⟩ := built
    cases root with
    | none => exact within_of_quiet (quiet_check _)
    | some root =>
      refine (within_of_quiet (quiet_check _)).bind fun parent =>
        (within_of_quiet (quiet_objects (staySealed_put_of_ne (by decide) _))).bind fun h =>
          (within_of_quiet (quiet_check _)).bind fun head => ?_
      have hsave : Script.Within (Action.Sealing W)
          (do .act (.saveIndex ∅); pure h : RepoScript Hash) :=
        .step (x := Action.saveIndex ∅) (.inr (.inl trivial)) fun _ => .done h
      cases head with
      | branch name => exact .step (.inr (.inr trivial)) fun _ => hsave
      | detached g => exact .step (.inr (.inr trivial)) fun _ => hsave

theorem KeyedCall.within (c : KeyedCall) :
    Script.Within (Action.Sealing W) (c.script W env keys) := by
  have hput : ∀ type bs, type ≠ .commit → type ≠ .tree →
      (Store.put W.toPlatform type bs).Keeps (StaySealed W) :=
    fun _ bs _ htree => staySealed_put_of_ne htree bs
  cases c with
  | add req =>
    exact ((Repo.stagesWithin_add hput env req).toWithin .inl (fun hx => .inr (.inl hx))
      False.elim).bind fun _ => .done _
  | remove path =>
    exact (Repo.stagesWithin_remove path).toWithin .inl (fun hx => .inr (.inl hx)) False.elim
  | addEncrypted rnd req =>
    exact Script.Within.bind ((within_of_quiet (quiet_check _)).bind fun _ =>
      (within_of_quiet (quiet_check _)).bind fun _ => (within_of_quiet (quiet_check _)).bind fun _ =>
        (within_stageSealed rnd req).bind fun _ => .done _) fun _ => .done _
  | commitEncrypted message author =>
    exact (within_commitEncrypted message author).bind fun _ => .done _

instance : Std.Refl fun r r' : Repo => StaySealed W r.store r'.store := ⟨fun _ => id⟩

instance : IsTrans Repo fun r r' : Repo => StaySealed W r.store r'.store :=
  ⟨fun _ _ _ h₁ h₂ => h₂ ∘ h₁⟩

theorem keeps_of_sealing {α : Type} {x : Action α} (hx : x.Sealing W) :
    (x.op W).Keeps fun r r' => StaySealed W r.store r'.store := by
  intro r
  cases x with
  | look f => exact id
  | objects x => exact (hx.resolve_right fun h => h.elim id id) r.store
  | loadIndex => exact id
  | lockRefs => exact id
  | writeRef name commit =>
    have hkeeps : (Repo.writeRef W name commit).Keeps
        fun r r' => StaySealed W r.store r'.store := Op.Keeps.bind (fun _ => id) fun _ _ => id
    exact hkeeps r
  | writeHead value => exact id
  | saveIndex idx => exact id

/-- **In every encrypted repository the trees are sealed**, whatever was called. -/
theorem sealedTrees_of_reachable {P : Repo → Env × KeyedCall → Prop} {r : Repo}
    (hr : (Repo.keyedLts W keys).Reachable P Repo.init r) : SealedTrees W r.store := by
  refine hr.invariant (I := fun r => SealedTrees W r.store) (fun o ho => by cases ho) ?_
  rintro r ⟨env, c⟩ r' hs - rfl
  have hkeeps : ((c.script W env keys).run (Action.op W)).Keeps
      fun r r' => StaySealed W r.store r'.store := (KeyedCall.within c).keeps keeps_of_sealing
  rcases Repo.locked_state ((c.script W env keys).run (Action.op W)) r with h | ⟨p, h⟩
  · rw [KeyedCall.run, h]
    exact hs
  · rw [KeyedCall.run, h]
    exact hkeeps r hs

/-! ### What the readers do without keys -/

/-- A tree with sealed names is refused. -/
theorem parse_sealed_none (key : Key) (t : Tree) :
    ∃ m, Tree.parseWithPathKey W.toPlatform none (t.serializeWithPathKey W.toPlatform (some key)) =
      .error (.unauthorized m) := by
  have hmarker : '\n' ∉ Tree.marker := by decide
  have hfirst : ∀ body, (lines (Tree.marker ++ '\n' :: body)).head? = some Tree.marker := by
    intro body
    rw [lines_cons_lf hmarker]
    rfl
  unfold Tree.parseWithPathKey Tree.serializeWithPathKey
  rw [fromUtf8_utf8]
  exact ⟨_, if_pos (hfirst _)⟩

theorem Gc.exists_of_fetch {K : KeyedWorld} {s : Store} {type : ObjectType} {h : Hash}
    {body : Bytes} (hfetch : Gc.fetch K s type h = .ok body) :
    ∃ o ∈ s.objects, o.type = type ∧ o.content = body := by
  unfold Gc.fetch at hfetch
  cases hget : s.get K.toPlatform h with
  | none => rw [hget] at hfetch; cases hfetch
  | some o =>
    rw [hget] at hfetch
    dsimp only at hfetch
    split_ifs at hfetch with htype
    cases hfetch
    exact ⟨o, (Cas.find_eq_some hget).1, htype, rfl⟩

variable {K : KeyedWorld}

theorem Gc.walkTree_none {s : Store} (hs : SealedTrees K.toWorld s) {h : Hash} {live live' : LiveSet}
    (hnew : h ∉ live.trees) (fuel : Nat) : Gc.walkTree K none s fuel h live ≠ .ok live' := by
  intro hwalk
  cases fuel with
  | zero => cases hwalk
  | succ fuel =>
    rw [Gc.walkTree, if_neg hnew, except_bind_eq_ok] at hwalk
    obtain ⟨body, hbody, hwalk⟩ := hwalk
    obtain ⟨t, ht, -⟩ := except_bind_eq_ok.1 hwalk
    obtain ⟨o, ho, htype, rfl⟩ := Gc.exists_of_fetch (mapError_eq_ok.1 hbody)
    -- the tree is stored with sealed names
    obtain ⟨key, t', hcontent⟩ := hs o ho htype
    obtain ⟨m, hrefused⟩ := parse_sealed_none (W := K.toWorld) key t'
    rw [mapError_eq_ok, hcontent, Option.map_none, hrefused] at ht
    cases ht

/-- **Without keys, the walk from a commit does not succeed.** -/
theorem Gc.walk_none {s : Store} (hs : SealedTrees K.toWorld s) (h : Hash) (fuel : Nat)
    (live : LiveSet) : Gc.walk K fuel none s [h] [] ≠ .ok live := by
  intro hwalk
  obtain ⟨live', hcommits, -⟩ := except_bind_eq_ok.1 hwalk
  cases fuel with
  | zero => cases hcommits
  | succ fuel =>
    rw [List.reverse_singleton, Gc.walkCommits, if_neg (Finset.notMem_empty h),
      except_bind_eq_ok] at hcommits
    obtain ⟨body, -, hcommits⟩ := hcommits
    obtain ⟨commit, -, hcommits⟩ := except_bind_eq_ok.1 hcommits
    obtain ⟨live₁, htree, -⟩ := except_bind_eq_ok.1 hcommits
    exact Gc.walkTree_none hs (Finset.notMem_empty _) _ htree

/-! ### Walkable history -/

/-- What reads the history of a repository does the same without keys as with them. -/
structure Repo.Walkable (K : KeyedWorld) (keys : TenantKeys) (r : Repo) : Prop where
  /-- The collector marks the same commits, trees and manifests. -/
  walk : ∀ h, r.resolveHead K.toWorld = .ok (some h) → ∃ fuel live live',
    Gc.walk K fuel none r.store [h] [] = .ok live ∧
    Gc.walk K fuel (some keys) r.store [h] [] = .ok live' ∧
    live.commits = live'.commits ∧ live.trees = live'.trees ∧ live.manifests = live'.manifests
  /-- The ancestors of HEAD are those that are found with the messages opened. -/
  ancestor : ∀ n < 2 ^ 64, r.resolveRef K.toWorld ("HEAD~".toList ++ decimal n) =
    r.headAncestor K.toWorld (some keys.commitKey) n
  /-- So are the commits that are listed. -/
  log : ∀ h, r.resolveHead K.toWorld = .ok (some h) → ∀ fuel max,
    Repo.logHashes K.toWorld none r.store fuel h max =
      Repo.logHashes K.toWorld (some keys.commitKey) r.store fuel h max

/-- **The history of an encrypted repository is walkable without keys exactly as long as there is
no commit.** -/
theorem Repo.walkable_iff {P : Repo → Env × KeyedCall → Prop} {r : Repo}
    (hr : (Repo.keyedLts K.toWorld keys).Reachable P Repo.init r) :
    r.Walkable K keys ↔ ∀ h, r.resolveHead K.toWorld ≠ .ok (some h) := by
  constructor
  · intro hwalkable h hhead
    obtain ⟨fuel, live, -, hnone, -⟩ := hwalkable.walk h hhead
    exact Gc.walk_none (sealedTrees_of_reachable hr) h fuel live hnone
  · intro hunborn
    refine ⟨fun h hhead => absurd hhead (hunborn h), fun n hn => ?_,
      fun h hhead => absurd hhead (hunborn h)⟩
    rw [Repo.resolveRef_ancestor r hn]
    unfold Repo.headAncestor
    cases hhead : r.resolveHead K.toWorld with
    | error e => rfl
    | ok o =>
      cases o with
      | none => rfl
      | some h => exact absurd hhead (hunborn h)

end Sealed

/-! ### Behind a sealed commit -/

namespace Commit

variable {P : Platform}

/-- What a reader of commits says who is given no key for a sealed message. -/
def noCommitKey : OmpError :=
  .unauthorized "commit message is encrypted but no commit_key supplied".toList

theorem parse_author_ne (t : Text) (m : Text) : Author.parse t ≠ .error (.unauthorized m) := by
  unfold Author.parse
  split
  · nofun
  · dsimp only
    split
    · nofun
    · nofun
    · split_ifs
      · nofun
      · nofun

theorem readHeader_ne (hs : Headers) (l m : Text) :
    readHeader P hs l ≠ .error (.unauthorized m) := by
  unfold readHeader
  split
  · split
    · simp
    · simp
  · split
    · split
      · simp
      · simp
    · split
      · next rest _ =>
        intro h
        cases hparse : Author.parse rest with
        | ok a => rw [hparse] at h; cases h
        | error e =>
          rw [hparse] at h
          cases h
          exact parse_author_ne rest m hparse
      · simp

theorem readHeaders_ne (ls : List Text) (hs : Headers) (m : Text) :
    readHeaders P ls hs ≠ .error (.unauthorized m) := by
  induction ls generalizing hs with
  | nil => simp [readHeaders]
  | cons l ls ih =>
    rw [readHeaders]
    split_ifs
    · simp
    · intro h
      rcases except_bind_eq_error.1 h with h | ⟨hs', -, h⟩
      · exact readHeader_ne hs l m h
      · exact ih hs' h

/-- **A reader who has a key does not say that none was given.** -/
theorem parseWithCommitKey_ne (key : Key) (bytes : Bytes) :
    parseWithCommitKey P (some key) bytes ≠ .error noCommitKey := by
  intro h
  unfold parseWithCommitKey at h
  split at h
  · cases h
  rcases except_bind_eq_error.1 h with h | ⟨⟨hs, body⟩, -, h⟩
  · exact readHeaders_ne _ _ _ h
  rcases except_bind_eq_error.1 h with h | ⟨message, -, h⟩
  · -- the message is opened with the key, or not
    unfold openMessage at h
    split at h
    · cases h
    rcases except_bind_eq_error.1 h with h | ⟨sealed, -, h⟩
    · unfold hexDecodeField at h
      split_ifs at h
      · cases h
      · split at h
        · cases h
        · cases h
    · split at h
      · exact absurd h (by decide)
      · split at h
        · cases h
        · cases h
  · split at h
    · cases h
    · cases h
    · cases h

/-- **A commit that was sealed is refused without a key**, when its author is kept. -/
theorem parse_sealed {key : Key} {c : Commit} (h : c.author.Kept) :
    parse P (c.serializeWithCommitKey P (some key)) = .error noCommitKey := by
  have hopen : openMessage P none ((messageField P (some key) c.message ++ ['\n']).rdropWhile
      (· == '\n')) = .error noCommitKey := by
    rw [rdropWhile_messageField, messageField, openMessage, stripPrefix_append]
    rfl
  rw [← parseWithCommitKey_none, serializeWithCommitKey, parseWithCommitKey_utf8,
    readHeaders_serialize h]
  dsimp only [bind, Except.bind]
  rw [hopen]

end Commit

namespace Repo

variable {W : World} {r : Repo} {h : Hash} {content : Bytes}

/-- HEAD names a commit that is refused without a key. -/
structure HeadSealed (W : World) (r : Repo) (h : Hash) (content : Bytes) : Prop where
  head : r.resolveHead W = .ok (some h)
  stored : getCommit W r.store h = .ok content
  refused : Commit.parse W.toPlatform content = .error Commit.noCommitKey

theorem nthAncestorWithKey_ne (s : Store) (key : Key) (h : Hash) (n : Nat) :
    nthAncestorWithKey W (some key) s h n ≠ .error Commit.noCommitKey := by
  induction n generalizing h with
  | zero => nofun
  | succ n ih =>
    intro herror
    rcases except_bind_eq_error.1 herror with herror | ⟨content, -, herror⟩
    · unfold getCommit at herror
      split at herror
      · cases herror
      · split_ifs at herror
        cases herror
    rcases except_bind_eq_error.1 herror with herror | ⟨commit, -, herror⟩
    · exact Commit.parseWithCommitKey_ne key content herror
    · split at herror
      · cases herror
      · exact ih _ herror

/-- **Behind a sealed commit, no ancestor is found without a key.** -/
theorem resolveRef_ancestor_iff (hsealed : HeadSealed W r h content) (key : Key) {n : Nat}
    (hn : n < 2 ^ 64) :
    r.resolveRef W ("HEAD~".toList ++ decimal n) = r.headAncestor W (some key) n ↔ n = 0 := by
  rw [resolveRef_ancestor r hn]
  unfold headAncestor
  rw [hsealed.head]
  cases n with
  | zero => exact iff_of_true rfl rfl
  | succ n =>
    refine iff_of_false (fun heq => ?_) (Nat.succ_ne_zero n)
    have hrefused : nthAncestorWithKey W none r.store h (n + 1) = .error Commit.noCommitKey := by
      rw [nthAncestorWithKey_none]
      exact except_bind_eq_error.2 (.inr ⟨content, hsealed.stored,
        except_bind_eq_error.2 (.inl hsealed.refused)⟩)
    exact nthAncestorWithKey_ne r.store key h (n + 1) (heq.symm.trans hrefused)

theorem logFrom_ne (s : Store) (key : Key) (max fuel : Nat) (queue : List Hash)
    (seen : Finset Hash) (out : List (Hash × Commit)) :
    logFrom W (some key) s max fuel queue seen out ≠ .error (.err Commit.noCommitKey) := by
  induction fuel generalizing queue seen out with
  | zero => nofun
  | succ fuel ih =>
    cases queue with
    | nil => nofun
    | cons h queue =>
      rw [logFrom]
      split_ifs
      · nofun
      · exact ih queue seen out
      · split
        · nofun
        · split_ifs
          · nofun
          · intro herror
            rcases except_bind_eq_error.1 herror with herror | ⟨commit, -, herror⟩
            · obtain ⟨e, herror, he⟩ := mapError_eq_error.1 herror
              cases he
              exact Commit.parseWithCommitKey_ne key _ herror
            · exact ih _ _ _ herror

/-- **Behind a sealed commit, no commit is listed without a key.** -/
theorem log_iff (hsealed : HeadSealed W r h content) (key : Key) (max : Nat) :
    (∀ fuel, logHashes W none r.store fuel h max = logHashes W (some key) r.store fuel h max) ↔
      max = 0 := by
  constructor
  · intro hsame
    by_contra hmax
    -- one round is enough to be refused
    have hrefused : log W none r.store 1 h max = .error (.err Commit.noCommitKey) := by
      obtain ⟨o, hget, htype, rfl⟩ := exists_of_getCommit hsealed.stored
      rw [log, logFrom, if_neg (by simpa using hmax), if_neg (Finset.notMem_empty h), hget]
      dsimp only
      rw [if_neg (not_not.2 htype), Commit.parseWithCommitKey_none, hsealed.refused]
      rfl
    have hlog := hsame 1
    rw [logHashes, logHashes, hrefused] at hlog
    cases hkeyed : log W (some key) r.store 1 h max with
    | ok l => rw [hkeyed] at hlog; cases hlog
    | error e =>
      rw [hkeyed] at hlog
      cases hlog
      exact logFrom_ne _ _ _ _ _ _ _ hkeyed
  · rintro rfl fuel
    cases fuel with
    | zero => rfl
    | succ fuel => rfl

end Repo

/-! ### A history -/

/-- The strings of an envelope. -/
def readEnvelope (doc : Toml.Doc) : Except Text EncryptedManifestEnvelope :=
  match doc.get "alg".toList, doc.get "wrapped_content_key".toList, doc.get "sealed_body".toList with
  | some (.value (.str alg)), some (.value (.str wrapped)), some (.value (.str body)) =>
    .ok ⟨alg, wrapped, body⟩
  | _, _, _ => .error "missing field".toList

/-- A world with one schema, `note`, in which envelopes are read. -/
def demoKeyed : KeyedWorld :=
  let W := demoWorld ⟨[("NOTE".toList, ⟨"note".toList, ["*/*".toList], none, []⟩)], [], []⟩
  { W with rawEnvelope := fun t => W.toml.parse t >>= readEnvelope }

/-- The keys of the tenant. -/
def demoKeys : TenantKeys :=
  ⟨⟨List.replicate 32 1, by decide⟩, ⟨List.replicate 32 2, by decide⟩,
    ⟨List.replicate 32 3, by decide⟩, ⟨List.replicate 32 4, by decide⟩⟩

/-- Surroundings with that schema in the working tree. -/
def demoNotes : Env :=
  { demoEnv with
    workFile := fun path => if path = Repo.schemaPath "note".toList then some (utf8 "NOTE".toList)
      else none
    schemaDirs := ["note".toList] }

/-- What is drawn for a file. -/
def demoRandomness : Randomness :=
  ⟨⟨List.replicate 32 5, by decide⟩, ⟨List.replicate 12 6, by decide⟩,
    ⟨List.replicate 12 7, by decide⟩⟩

/-- An encrypted file is staged. -/
def demoStaging : KeyedCall :=
  .addEncrypted demoRandomness ⟨"a.txt".toList, [104, 105], none, none⟩

/-- It is committed. -/
def demoCommitting : KeyedCall := .commitEncrypted "first".toList ⟨none, none, none⟩

/-- The repository after that. -/
def demoHistory : Repo :=
  demoCommitting.after demoKeyed.toWorld demoNotes demoKeys
    (demoStaging.after demoKeyed.toWorld demoNotes demoKeys Repo.init)

theorem reachable_demoHistory :
    (Repo.keyedLts demoKeyed.toWorld demoKeys).Reachable (fun _ _ => True) Repo.init demoHistory :=
  Repo.reachable_after_keyed (Repo.reachable_after_keyed (.refl Repo.init) trivial) trivial

/-- The commit of the file. -/
def demoHead : Hash :=
  ((demoHistory.resolveHead demoKeyed.toWorld).toOption.join).getD (Hash.ofNat 0)

/-- What a walk is refused with. -/
def refusal {α : Type} : Except (Fault OmpError) α → Option OmpError
  | .error (.err e) => some e
  | _ => none

theorem refusal_eq_some {α : Type} {x : Except (Fault OmpError) α} {e : OmpError}
    (h : refusal x = some e) : x = .error (.err e) := by
  unfold refusal at h
  split at h
  · cases h
    rfl
  · cases h

/-- What the collector finds in it: without keys, and with them. -/
theorem demoHistory_walks :
    demoHistory.resolveHead demoKeyed.toWorld = .ok (some demoHead) ∧
    refusal (Gc.walk demoKeyed 3 none demoHistory.store [demoHead] []) =
      some (.unauthorized "tree has encrypted names but no path_key supplied".toList) ∧
    (Gc.walk demoKeyed 3 (some demoKeys) demoHistory.store [demoHead] []).toOption.map
      (fun live => (live.commits.card, live.trees.card, live.manifests.card)) = some (1, 1, 1) := by
  decide +kernel

/-- Before anything is called, history is walkable; once a file was committed, it is not. -/
theorem Repo.walkable_iff_demo :
    Repo.init.Walkable demoKeyed demoKeys ∧ ¬ demoHistory.Walkable demoKeyed demoKeys := by
  have hunborn : Repo.init.resolveHead demoKeyed.toWorld = .ok none := by decide +kernel
  refine ⟨(Repo.walkable_iff (P := fun _ _ => True) (.refl _)).2 fun h hhead => ?_,
    fun hwalkable => ?_⟩
  · cases hunborn.symm.trans hhead
  · exact (Repo.walkable_iff reachable_demoHistory).1 hwalkable _ demoHistory_walks.1

/-- **The collector is refused the first tree** of a repository with one encrypted file, whose
commit, tree and manifest it marks with the keys. -/
theorem Repo.history_not_walkable :
    (Repo.keyedLts demoKeyed.toWorld demoKeys).Reachable (fun _ _ => True) Repo.init demoHistory ∧
    demoHistory.resolveHead demoKeyed.toWorld = .ok (some demoHead) ∧
    Gc.walk demoKeyed 3 none demoHistory.store [demoHead] [] =
      .error (.err (.unauthorized "tree has encrypted names but no path_key supplied".toList)) ∧
    (∃ live, Gc.walk demoKeyed 3 (some demoKeys) demoHistory.store [demoHead] [] = .ok live ∧
      live.commits.card = 1 ∧ live.trees.card = 1 ∧ live.manifests.card = 1) ∧
    ¬ demoHistory.Walkable demoKeyed demoKeys := by
  obtain ⟨-, hnone, hkeys⟩ := demoHistory_walks
  refine ⟨reachable_demoHistory, demoHistory_walks.1, refusal_eq_some hnone, ?_,
    fun hwalkable => ?_⟩
  · obtain ⟨live, hlive, hcards⟩ := Option.map_eq_some_iff.1 hkeys
    obtain ⟨hc, ht, hm⟩ := Prod.mk.inj hcards |>.imp id Prod.mk.inj
    cases hwalk : Gc.walk demoKeyed 3 (some demoKeys) demoHistory.store [demoHead] [] with
    | error e => rw [hwalk] at hlive; cases hlive
    | ok live' =>
      rw [hwalk] at hlive
      cases hlive
      exact ⟨_, rfl, hc, ht, hm⟩
  · obtain ⟨fuel, live, -, hwalk, -⟩ := hwalkable.walk _ demoHistory_walks.1
    exact Gc.walk_none (sealedTrees_of_reachable reachable_demoHistory) _ _ _ hwalk

end Omp
