import Omp.Branches

/-!
# Scripts that keep an invariant

A script settles on an invariant if it leaves a repository that keeps to it however it ends.  The
rules follow the actions of a script.  Only what happens without collisions of hashes counts.

## Main definitions

* `Settles` : the triples.

## Main results

* `Settles.bind`, `Settles.put` : what comes after what, and storing an object.
-/

namespace Omp

open Lib RepoScript

variable (W : World)

/-- A script leaves a repository that keeps to an invariant however it ends, and `K` holds if it
succeeds. -/
abbrev Settles (I : Repo → Prop) {α : Type} (t : RepoScript α) (r : Repo) (K : α → Repo → Prop) :
    Prop :=
  (t.run (Action.op W)).Ensures (fun r => r.store.CollisionFree W.toPlatform) r I K

section Rules

variable {W} {I : Repo → Prop} {α β : Type} {r : Repo} {K : α → Repo → Prop}

theorem collisionFree_down (P : Platform) (r r' : Repo) (hle : r ≤ r')
    (h : r'.store.CollisionFree P) : r.store.CollisionFree P := h.down hle

theorem collisionFree_le (P : Platform) (s s' : Store) (hle : s ≤ s') (h : s'.CollisionFree P) :
    s.CollisionFree P := h.down hle

theorem Settles.bind {t : RepoScript β} {f : β → RepoScript α}
    (h : Settles W I t r fun b r' => Settles W I (f b) r' K) : Settles W I (t >>= f) r K := by
  have hbind := Op.Ensures.bind (collisionFree_down W.toPlatform) h
  have heq := Script.run_bind (Action.op W) t f r
  exact ⟨fun hrun => hbind.ok (heq.symm.trans hrun), fun hrun => hbind.error (heq.symm.trans hrun)⟩

/-- A script whose result does not matter. -/
theorem Settles.thenPure {J : Repo → Prop} {t : RepoScript β} {f : β → α}
    (h : Settles W I t r fun _ => J) : Settles W I (t >>= fun b => pure (f b)) r fun _ => J :=
  .bind (h.mono (fun _ hQ => hQ) fun _ _ _ hJ => Op.Ensures.pure hJ)

theorem Settles.act {x : Action α}
    (h : (x.op W).Ensures (fun r => r.store.CollisionFree W.toPlatform) r I K) :
    Settles W I (.act x) r K :=
  Op.Ensures.bind (collisionFree_down W.toPlatform)
    (h.mono (fun _ hQ => hQ) fun _ _ _ hK => Op.Ensures.pure hK)

theorem Settles.inspect (hr : I r) {f : Repo → Except (Fault OmpError) α}
    (hK : ∀ a, f r = .ok a → K a r) : Settles W I (inspect f) r K :=
  .act (.inspects hr hK)

theorem Settles.check (hr : I r) {f : Repo → Except OmpError α}
    (hK : ∀ a, f r = .ok a → K a r) : Settles W I (check f) r K :=
  .inspect hr fun a ha => hK a (mapError_eq_ok.1 ha)

theorem Settles.require (hr : I r) {x : Except OmpError α}
    (hK : ∀ a, x = .ok a → K a r) : Settles W I (require x) r K :=
  .check hr hK

theorem Settles.objects {x : StoreOp α}
    (h : x.Ensures (fun s => s.CollisionFree W.toPlatform) r.store
      (fun s' => I { r with store := s' }) fun a s' => K a { r with store := s' }) :
    Settles W I (.act (.objects x)) r K := by
  refine .act ⟨fun hrun hC => ?_, fun hrun hC => ?_⟩
  · obtain ⟨s', hx, rfl⟩ := Repo.onStore_eq_ok.1 hrun
    exact h.ok hx hC
  · cases hx : x.run r.store with
    | mk res s' =>
      have hrun' : (Repo.onStore x).run r = (res, { r with store := s' }) := by
        rw [Repo.run_onStore, hx]
      cases hrun'.symm.trans hrun
      exact h.error hx hC

/-- **Storing an object.** -/
theorem Settles.put {type : ObjectType} {content : Bytes} {K : Hash → Repo → Prop}
    (hK : ∀ s', s' = ⟨r.store.objects ++ [⟨type, content⟩]⟩ →
      s'.get W.toPlatform (hashOf W.toPlatform type content) = some ⟨type, content⟩ →
      K (hashOf W.toPlatform type content) { r with store := s' }) :
    Settles W I (put W type content) r K := by
  refine .objects ⟨fun hrun hC => ?_, fun hrun hC => ?_⟩
  · obtain ⟨rfl, rfl⟩ := Store.put_eq_ok hrun
    exact hK _ rfl (Store.get_of_put hrun (le_refl _) hC)
  · rw [Store.run_put] at hrun
    cases hrun

theorem Settles.loadIndex (hr : I r) {K : Index → Repo → Prop} (h : K r.index r) :
    Settles W I (.act .loadIndex) r K :=
  .act (.inspects hr fun a ha => by cases ha; exact h)

theorem Settles.lockRefs {K : Unit → Repo → Prop} (h : K () r) :
    Settles W I (.act .lockRefs) r K :=
  .act (.pure h)

theorem Settles.saveIndex {K : Unit → Repo → Prop} {idx : Index}
    (h : K () { r with index := idx }) : Settles W I (.act (.saveIndex idx)) r K := by
  refine .act ⟨fun hrun _ => ?_, fun hrun _ => ?_⟩
  · cases hrun
    exact h
  · cases hrun

theorem Settles.writeHead {K : Unit → Repo → Prop} {value : Text}
    (h : K () { r with head := value }) : Settles W I (.act (.writeHead value)) r K := by
  refine .act ⟨fun hrun _ => ?_, fun hrun _ => ?_⟩
  · cases hrun
    exact h
  · cases hrun

theorem Settles.writeRef (hr : I r) {K : Unit → Repo → Prop} {name : Text} {commit : Hash}
    (h : ∀ path, K () { r with refs := r.refs.insert path commit }) :
    Settles W I (.act (.writeRef name commit)) r K := by
  refine .act ⟨fun hrun _ => ?_, fun hrun _ => ?_⟩
  · obtain ⟨path, r₁, hlift, hrun⟩ := Op.bind_eq_ok.1 hrun
    obtain ⟨-, rfl⟩ := Op.lift_eq_ok.1 hlift
    cases hrun
    exact h path
  · obtain rfl := eq_of_movesRef (x := Action.writeRef name commit) trivial hrun
    exact hr

end Rules

end Omp
