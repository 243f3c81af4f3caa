import Mathlib.Data.Set.Card
import Omp.Lib.Dfs
import Omp.RefExprs

/-!
# The log

`log` goes through the commits from a head with a worklist.  It takes from the end of the list and
puts the parents of a commit there, so it lists depth first: a commit that two parents of a merge
share is listed with the first of them, before the second.

## Main definitions

* `logLoop`, `log` : the listing, with a bound on the rounds of the loop.
* `commitAt`, `parentsOf` : the graph of commits.
* `LogMeets` : what is asked of the log from a head.

## Main results

* `logLoop_of_runs` : the loop goes through the graph as a worklist does.
* `log_meets_iff` : the loop ends and lists commits from the head, each once; children come before
  parents exactly if the parents of every commit are apart.
-/

namespace Omp

open Lib Dfs

variable (W : World)

/-! ### The listing -/

/-- The loop of `log`; the worklist is written from its end, and `fuel` counts the rounds. -/
def logLoop (s : Store) (max : Nat) : Nat → List Hash → List Hash → List (Hash × Commit) →
    Option (Except OmpError (List (Hash × Commit)))
  | 0, _, _, _ => none
  | _ + 1, [], _, out => some (.ok out)
  | fuel + 1, h :: queue, seen, out =>
    if max ≤ out.length then some (.ok out)
    else if h ∈ seen then logLoop s max fuel queue seen out
    else match s.get W.toPlatform h with
      | none => some (.ok out)
      | some o =>
        if o.type = .commit then
          match Commit.parse W.toPlatform o.content with
          | .error e => some (.error e)
          | .ok commit =>
            logLoop s max fuel (commit.parents ++ queue) (h :: seen) (out ++ [(h, commit)])
        else some (.ok out)

/-- `refs::log`. -/
def log (s : Store) (head : Hash) (max fuel : Nat) :
    Option (Except OmpError (List (Hash × Commit))) :=
  logLoop W s max fuel [head] [] []

/-! ### The graph of commits -/

/-- The commit at an address. -/
def commitAt (s : Store) (h : Hash) : Option Commit :=
  match s.get W.toPlatform h with
  | none => none
  | some o => if o.type = .commit then (Commit.parse W.toPlatform o.content).toOption else none

/-- The parents of the commit at an address. -/
def parentsOf (s : Store) (h : Hash) : List Hash :=
  match commitAt W s h with
  | none => []
  | some c => c.parents

/-- All commits from the head are present. -/
def Present (s : Store) (head : Hash) : Prop :=
  ∀ h, Reaches (parentsOf W s) head h → commitAt W s h ≠ none

/-- What is asked of the log from a head: for every bound the loop ends, with commits from the
head, each once, as many as there are or as are asked for, and none before one that it is an
ancestor of. -/
def LogMeets (s : Store) (head : Hash) : Prop :=
  ∀ max, ∃ out n, (∀ fuel, n ≤ fuel → log W s head max fuel = some (.ok out)) ∧
    (out.map Prod.fst).Nodup ∧
    (∀ c ∈ out, Reaches (parentsOf W s) head c.1 ∧ commitAt W s c.1 = some c.2) ∧
    out.length = min max (cone (parentsOf W s) head).ncard ∧
    Ordered (parentsOf W s) (out.map Prod.fst)

variable {W} {s : Store} {head : Hash}

/-- What the loop does with an address it has not seen. -/
theorem logLoop_new {max : Nat} {h : Hash} (queue : List Hash) {seen : List Hash}
    {out : List (Hash × Commit)} (hmax : ¬ max ≤ out.length) (hseen : h ∉ seen) :
    (∃ c, commitAt W s h = some c ∧ ∀ fuel, logLoop W s max (fuel + 1) (h :: queue) seen out =
        logLoop W s max fuel (c.parents ++ queue) (h :: seen) (out ++ [(h, c)])) ∨
      commitAt W s h = none ∧ ∃ res, (∀ out', res = .ok out' → out' = out) ∧
        ∀ fuel, logLoop W s max (fuel + 1) (h :: queue) seen out = some res := by
  simp only [logLoop, if_neg hmax, if_neg hseen, commitAt]
  cases s.get W.toPlatform h with
  | none => exact .inr ⟨rfl, .ok out, by simp, fun _ => rfl⟩
  | some o =>
    by_cases htype : o.type = .commit
    · simp only [if_pos htype]
      cases Commit.parse W.toPlatform o.content with
      | error e => exact .inr ⟨rfl, .error e, by simp, fun _ => rfl⟩
      | ok c => exact .inl ⟨c, rfl, fun _ => rfl⟩
    · simp only [if_neg htype]
      exact .inr ⟨trivial, .ok out, by simp, fun _ => rfl⟩

/-- **The loop goes through the graph as a worklist does**, up to the bound or a commit that is
not there. -/
theorem logLoop_of_runs {queue S F : List Hash} (hr : Runs (parentsOf W s) queue S F) (max : Nat)
    (seen : List Hash) (out : List (Hash × Commit)) (hout : out.map Prod.fst = S)
    (hseen : ∀ x, x ∈ seen ↔ x ∈ S) (hlength : out.length ≤ max)
    (hcommits : ∀ c ∈ out, commitAt W s c.1 = some c.2) :
    ∃ res n, (∀ fuel, n ≤ fuel → logLoop W s max fuel queue seen out = some res) ∧
      (∀ out', res = .ok out' → (∀ c ∈ out', commitAt W s c.1 = some c.2) ∧
        out'.map Prod.fst <+: F ∧ out'.length ≤ max) ∧
      ((∀ x ∈ F, commitAt W s x ≠ none) →
        ∃ out', res = .ok out' ∧ out'.map Prod.fst = F.take max) := by
  -- the loop ends as soon as the bound is reached
  have hfull : ∀ (h : Hash) (l seen : List Hash) {S F : List Hash} {out : List (Hash × Commit)},
      out.map Prod.fst = S → S <+: F → max ≤ out.length → out.length ≤ max →
      (∀ fuel, 1 ≤ fuel → logLoop W s max fuel (h :: l) seen out = some (.ok out)) ∧
        out.map Prod.fst = F.take max := by
    intro h l seen S F out hout hS hmax hlength
    constructor
    · intro fuel hfuel
      obtain ⟨k, rfl⟩ : ∃ k, fuel = k + 1 := ⟨fuel - 1, by omega⟩
      simp only [logLoop, if_pos hmax]
    · have hS' := List.prefix_iff_eq_take.1 hS
      have hlen : S.length = max := by
        rw [← hout, List.length_map]
        omega
      rw [hout, hS', hlen]
  induction hr generalizing seen out with
  | nil S =>
    refine ⟨.ok out, 1, fun fuel hfuel => ?_, ?_, fun _ => ⟨out, rfl, ?_⟩⟩
    · obtain ⟨k, rfl⟩ : ∃ k, fuel = k + 1 := ⟨fuel - 1, by omega⟩
      rfl
    · rintro _ ⟨⟩
      exact ⟨hcommits, hout ▸ List.prefix_rfl, hlength⟩
    · rw [hout, List.take_of_length_le]
      rwa [← hout, List.length_map]
  | @skip h l S F hs hl ih =>
    by_cases hmax : max ≤ out.length
    · obtain ⟨hrun, htake⟩ := hfull h l seen hout hl.extends hmax hlength
      refine ⟨.ok out, 1, hrun, ?_, fun _ => ⟨out, rfl, htake⟩⟩
      rintro _ ⟨⟩
      exact ⟨hcommits, hout ▸ hl.extends, hlength⟩
    · obtain ⟨res, n, hrun, hres⟩ := ih seen out hout hseen hlength hcommits
      refine ⟨res, n + 1, fun fuel hfuel => ?_, hres⟩
      obtain ⟨k, rfl⟩ : ∃ k, fuel = k + 1 := ⟨fuel - 1, by omega⟩
      simp only [logLoop, if_neg hmax, if_pos ((hseen h).2 hs)]
      exact hrun k (by omega)
  | @visit h l S F hs hl ih =>
    have hS : S <+: F := (List.prefix_append S [h]).trans hl.extends
    by_cases hmax : max ≤ out.length
    · obtain ⟨hrun, htake⟩ := hfull h l seen hout hS hmax hlength
      refine ⟨.ok out, 1, hrun, ?_, fun _ => ⟨out, rfl, htake⟩⟩
      rintro _ ⟨⟩
      exact ⟨hcommits, hout ▸ hS, hlength⟩
    · rcases logLoop_new (W := W) (s := s) l hmax (fun hmem => hs ((hseen h).1 hmem)) with
        ⟨c, hc, hstep⟩ | ⟨hnone, res, hres, hstep⟩
      · have hparents : parentsOf W s h = c.parents := by rw [parentsOf, hc]
        obtain ⟨res, n, hrun, hres⟩ := ih (h :: seen) (out ++ [(h, c)])
          (by simp [hout]) (by simp [hseen, or_comm])
          (by
            rw [List.length_append, List.length_singleton]
            omega)
          (by
            intro d hd
            rcases List.mem_append.1 hd with hd | hd
            · exact hcommits d hd
            · rw [List.mem_singleton.1 hd]
              exact hc)
        refine ⟨res, n + 1, fun fuel hfuel => ?_, hres⟩
        obtain ⟨k, rfl⟩ : ∃ k, fuel = k + 1 := ⟨fuel - 1, by omega⟩
        rw [hstep, ← hparents]
        exact hrun k (by omega)
      · refine ⟨res, 1, fun fuel hfuel => ?_, fun out' hout' => ?_, fun hpresent => ?_⟩
        · obtain ⟨k, rfl⟩ : ∃ k, fuel = k + 1 := ⟨fuel - 1, by omega⟩
          exact hstep k
        · obtain rfl := hres out' hout'
          exact ⟨hcommits, hout ▸ hS, hlength⟩
        · exact absurd hnone (hpresent h (hl.extends.subset (by simp)))

/-- More rounds change nothing. -/
theorem logLoop_mono {max n m : Nat} (hle : n ≤ m) {queue seen : List Hash}
    {out : List (Hash × Commit)} {res : Except OmpError (List (Hash × Commit))}
    (h : logLoop W s max n queue seen out = some res) :
    logLoop W s max m queue seen out = some res := by
  induction n generalizing m queue seen out with
  | zero => cases h
  | succ n ih =>
    obtain ⟨m, rfl⟩ : ∃ k, m = k + 1 := ⟨m - 1, by omega⟩
    cases queue with
    | nil => exact h
    | cons x queue =>
      have hle' : n ≤ m := by omega
      by_cases hmax : max ≤ out.length
      · simp only [logLoop, if_pos hmax] at h ⊢
        exact h
      by_cases hseen : x ∈ seen
      · simp only [logLoop, if_neg hmax, if_pos hseen] at h ⊢
        exact ih hle' h
      · rcases logLoop_new (W := W) (s := s) queue hmax hseen with
          ⟨c, -, hstep⟩ | ⟨-, res', -, hstep⟩
        · rw [hstep] at h ⊢
          exact ih hle' h
        · rw [hstep] at h ⊢
          exact h

/-- The commits from a head are finitely many, and the loop goes through them. -/
theorem exists_visits_log (W : World) (s : Store) (head : Hash) :
    ∃ F, Visits (parentsOf W s) [head] [] F := by
  -- an address with parents is one of the store
  have haddress : ∀ x, ∀ y ∈ parentsOf W s x, x ∈ s.objects.map (Object.address W.toPlatform) := by
    intro x y hy
    unfold parentsOf commitAt at hy
    cases hget : s.get W.toPlatform x with
    | none => simp [hget] at hy
    | some o => exact List.mem_map.2 ⟨o, Cas.find_eq_some hget⟩
  refine exists_visits
    (head :: (s.objects.map (Object.address W.toPlatform)).flatMap (parentsOf W s)).toFinset
    (fun x _ y hy => ?_) [head] [] (by simp)
  rw [List.mem_toFinset]
  exact List.mem_cons_of_mem _ (List.mem_flatMap.2 ⟨x, haddress x y hy, hy⟩)

/-- **When the log lists children before parents.**  From every head and for every bound the loop
ends; what it lists are commits from the head, each once and no more than are asked for.  Where all
commits are present and none is its own ancestor, it lists as many as there are or as are asked for
with children before parents, for every bound, exactly if the parents of every commit are apart:
each one, in turn, is reached from an earlier one or has no ancestor in common with those. -/
theorem log_meets_iff (s : Store) (head : Hash) :
    (∀ max, ∃ res n, (∀ fuel, n ≤ fuel → log W s head max fuel = some res) ∧
      ∀ out, res = .ok out → (out.map Prod.fst).Nodup ∧ out.length ≤ max ∧
        ∀ c ∈ out, Reaches (parentsOf W s) head c.1 ∧ commitAt W s c.1 = some c.2) ∧
    (Present W s head → Acyclic (parentsOf W s) head →
      (LogMeets W s head ↔
        ∀ m, Reaches (parentsOf W s) head m → Apart (parentsOf W s) (parentsOf W s m) ∅)) := by
  obtain ⟨F, hF⟩ := exists_visits_log W s head
  have hnodup : F.Nodup := hF.nodup .nil
  have hrun := fun max => logLoop_of_runs (W := W) hF.runs max [] [] rfl
    (by simp) (Nat.zero_le max) (by simp)
  constructor
  · intro max
    obtain ⟨res, n, hlog, hres, -⟩ := hrun max
    refine ⟨res, n, hlog, fun out hout => ?_⟩
    obtain ⟨hcommits, hpre, hlength⟩ := hres out hout
    refine ⟨hnodup.sublist hpre.sublist, hlength, fun c hc => ⟨?_, hcommits c hc⟩⟩
    exact hF.mem_iff.1 (hpre.subset (List.mem_map_of_mem hc))
  · intro hpresent hacyclic
    have hall : ∀ x ∈ F, commitAt W s x ≠ none := fun x hx => hpresent x (hF.mem_iff.1 hx)
    have hcard : (cone (parentsOf W s) head).ncard = F.length := by
      have hset : cone (parentsOf W s) head = ↑F.toFinset :=
        Set.ext fun x => by simpa using hF.mem_iff.symm
      rw [hset, Set.ncard_coe_finset, List.toFinset_card_of_nodup hnodup]
    rw [← hF.ordered_iff hacyclic]
    constructor
    · intro hmeets
      -- with the number of commits as the bound, all are listed
      obtain ⟨out, n, hlog, -, -, -, hordered⟩ := hmeets F.length
      obtain ⟨res, n', hlog', -, hres⟩ := hrun F.length
      obtain ⟨out', rfl, htake⟩ := hres hall
      have hsame := (hlog (n + n') (by omega)).symm.trans (hlog' (n + n') (by omega))
      rw [Option.some.injEq, Except.ok.injEq] at hsame
      rwa [hsame, htake, List.take_length] at hordered
    · intro hordered max
      obtain ⟨res, n, hlog, hfacts, hres⟩ := hrun max
      obtain ⟨out, rfl, htake⟩ := hres hall
      obtain ⟨hcommits, hpre, -⟩ := hfacts out rfl
      refine ⟨out, n, hlog, hnodup.sublist hpre.sublist, fun c hc => ⟨?_, hcommits c hc⟩, ?_,
        hordered.of_extends hpre⟩
      · exact hF.mem_iff.1 (hpre.subset (List.mem_map_of_mem hc))
      · rw [hcard, ← List.length_take, ← htake, List.length_map]

/-! ### A merge -/

/-- A commit with these parents. -/
def demoCommit (parents : List Hash) (message : Text) : Object where
  type := .commit
  content := Commit.serialize ⟨Hash.ofNat 0, parents, ⟨"a".toList, "a@a".toList, "0".toList⟩,
    message⟩

/-- Its address. -/
def demoAddress (parents : List Hash) (message : Text) : Hash :=
  (demoCommit parents message).address demo

/-- A root. -/
def rootHash : Hash := demoAddress [] "root".toList

/-- The one side of a merge. -/
def leftHash : Hash := demoAddress [rootHash] "left".toList

/-- The other side. -/
def rightHash : Hash := demoAddress [rootHash] "right".toList

/-- The merge of the sides. -/
def mergeHash : Hash := demoAddress [leftHash, rightHash] "merge".toList

/-- A store with a merge of two commits that have the same parent. -/
def diamond : Store :=
  ⟨[demoCommit [] "root".toList, demoCommit [rootHash] "left".toList,
    demoCommit [rootHash] "right".toList, demoCommit [leftHash, rightHash] "merge".toList]⟩

theorem parentsOf_diamond :
    (parentsOf (demoWorld ⟨[], [], []⟩) diamond mergeHash = [leftHash, rightHash] ∧
      parentsOf (demoWorld ⟨[], [], []⟩) diamond leftHash = [rootHash]) ∧
    parentsOf (demoWorld ⟨[], [], []⟩) diamond rightHash = [rootHash] ∧
      parentsOf (demoWorld ⟨[], [], []⟩) diamond rootHash = [] := by
  decide +kernel

theorem log_meets_iff_demo : LogMeets (demoWorld ⟨[], [], []⟩) diamond leftHash := by
  obtain ⟨⟨-, hleft⟩, -, hroot⟩ := parentsOf_diamond
  have hreach : ∀ m, Reaches (parentsOf (demoWorld ⟨[], [], []⟩) diamond) leftHash m →
      m = leftHash ∨ m = rootHash := by
    intro m hm
    induction hm with
    | refl => exact .inl rfl
    | tail _ hz ih =>
      rcases ih with rfl | rfl
      · rw [hleft] at hz
        exact .inr (List.mem_singleton.1 hz)
      · rw [hroot] at hz
        cases hz
  have hpresent : Present (demoWorld ⟨[], [], []⟩) diamond leftHash := by
    intro m hm
    rw [← Option.isSome_iff_ne_none]
    rcases hreach m hm with rfl | rfl <;> decide +kernel
  have hacyclic : Acyclic (parentsOf (demoWorld ⟨[], [], []⟩) diamond) leftHash := by
    intro m hm q hq hback
    have hne : rootHash ≠ leftHash := by decide +kernel
    rcases hreach m hm with rfl | rfl
    · rw [hleft] at hq
      rw [List.mem_singleton.1 hq] at hback
      rcases Relation.ReflTransGen.cases_head hback with heq | ⟨x, hx, -⟩
      · exact hne heq
      · rw [hroot] at hx
        cases hx
    · rw [hroot] at hq
      cases hq
  refine ((log_meets_iff diamond leftHash).2 hpresent hacyclic).2 fun m hm => ?_
  rcases hreach m hm with rfl | rfl
  · rw [hleft]
    exact ⟨.inr (Set.disjoint_empty _), trivial⟩
  · rw [hroot]
    trivial

/-- **A merge of two commits with one parent** lists that parent before the second of them. -/
theorem log_lists_parent_first : ¬ LogMeets (demoWorld ⟨[], [], []⟩) diamond mergeHash := by
  intro hmeets
  obtain ⟨out, n, hlog, -, -, -, hordered⟩ := hmeets 4
  have heval : (log (demoWorld ⟨[], [], []⟩) diamond mergeHash 4 20).map
      (fun res => res.toOption.map (List.map Prod.fst)) =
        some (some [mergeHash, leftHash, rootHash, rightHash]) := by
    decide +kernel
  cases hres : log (demoWorld ⟨[], [], []⟩) diamond mergeHash 4 20 with
  | none =>
    rw [hres] at heval
    cases heval
  | some res =>
    have hsame : some res = some (.ok out) :=
      (logLoop_mono (Nat.le_add_left 20 n) hres).symm.trans (hlog (n + 20) (by omega))
    rw [hres, hsame] at heval
    have hout : out.map Prod.fst = [mergeHash, leftHash, rootHash, rightHash] :=
      Option.some.inj (Option.some.inj heval)
    rw [hout] at hordered
    have hright : rootHash ∈ parentsOf (demoWorld ⟨[], [], []⟩) diamond rightHash := by
      rw [parentsOf_diamond.2.1]
      exact List.mem_singleton_self _
    have hafter := (List.pairwise_cons.1 (List.pairwise_cons.1 (List.pairwise_cons.1 hordered).2).2).1
    exact hafter rightHash (List.mem_singleton_self _) (.single hright)

end Omp
