import Mathlib.Data.Set.Basic

/-!
# Tables of remembered results

A table remembers the results of requests.  A request is a key and the computation that answers
it; computations may fail, and failures are not remembered.  Two different requests may share a
key, and then the first that is answered answers the other.

A table is *raw* for a set of requests when what it holds under the key of a request is what the
request computes.  A raw table answers like an empty one (`Aligned.of_raw`), and goes on doing so
after any requests of the set (`fetch_aligned`).

## Main definitions

* `Memo`, `Memo.get`, `Memo.fetch` : tables and answering a request from one.
* `Memo.Raw`, `Memo.Aligned` : what a table holds, and when two tables answer alike.

## Main results

* `Memo.fetch_aligned` : aligned tables give one answer, and stay aligned.
-/

namespace Lib

/-- A table of results, the newest first. -/
abbrev Memo (K V : Type) := List (K × V)

namespace Memo

variable {K V ε : Type} [DecidableEq K]

/-- The result under a key. -/
def get (c : Memo K V) (k : K) : Option V := (c.find? fun p => p.1 = k).map Prod.snd

@[simp] theorem get_nil (k : K) : get ([] : Memo K V) k = none := rfl

theorem get_cons (c : Memo K V) (k key : K) (v : V) :
    get ((k, v) :: c) key = if k = key then some v else c.get key := by
  by_cases h : k = key <;> simp [get, h]

theorem get_append (c d : Memo K V) (k : K) : get (c ++ d) k = (get c k).or (get d k) := by
  rw [get, List.find?_append, Option.map_or]
  rfl

/-- Answer a request: from the table, or by computing the answer and remembering it. -/
def fetch (c : Memo K V) (k : K) (compute : Except ε V) : Except ε V × Memo K V :=
  match c.get k with
  | some v => (.ok v, c)
  | none => match compute with
    | .error e => (.error e, c)
    | .ok v => (.ok v, (k, v) :: c)

/-- What the table holds under the key of a request is what the request computes. -/
def Raw (R : Set (K × Except ε V)) (c : Memo K V) : Prop :=
  ∀ q ∈ R, ∀ v, c.get q.1 = some v → q.2 = .ok v

/-- For every request, two tables hold the same, or the second holds nothing and the first what
the request computes. -/
def Aligned (R : Set (K × Except ε V)) (c d : Memo K V) : Prop :=
  ∀ q ∈ R, c.get q.1 = d.get q.1 ∨ d.get q.1 = none ∧ ∃ v, c.get q.1 = some v ∧ q.2 = .ok v

/-- A raw table is aligned with the empty one. -/
theorem Aligned.of_raw {R : Set (K × Except ε V)} {c : Memo K V} (h : Raw R c) :
    Aligned R c [] := by
  intro q hq
  cases hc : c.get q.1 with
  | none => exact .inl rfl
  | some v => exact .inr ⟨rfl, v, rfl, h q hq v hc⟩

theorem Aligned.cons {R : Set (K × Except ε V)} {c d : Memo K V} (h : Aligned R c d) (k : K)
    (v : V) : Aligned R ((k, v) :: c) ((k, v) :: d) := by
  intro q hq
  rw [get_cons, get_cons]
  by_cases hk : k = q.1
  · exact .inl (by rw [if_pos hk, if_pos hk])
  · rw [if_neg hk, if_neg hk]
    exact h q hq

/-- Remembering in the second table what the first already holds. -/
theorem Aligned.cons_right {R : Set (K × Except ε V)} {c d : Memo K V} (h : Aligned R c d)
    {k : K} {v : V} (hc : c.get k = some v) : Aligned R c ((k, v) :: d) := by
  intro q hq
  rw [get_cons]
  by_cases hk : k = q.1
  · exact .inl (by rw [if_pos hk, ← hk, hc])
  · rw [if_neg hk]
    exact h q hq

/-- **Aligned tables give one answer and stay aligned.** -/
theorem fetch_aligned {R : Set (K × Except ε V)} {c d : Memo K V} (h : Aligned R c d)
    {q : K × Except ε V} (hq : q ∈ R) :
    (c.fetch q.1 q.2).1 = (d.fetch q.1 q.2).1 ∧
      Aligned R (c.fetch q.1 q.2).2 (d.fetch q.1 q.2).2 := by
  obtain ⟨k, compute⟩ := q
  rcases h _ hq with heq | ⟨hd, v, hc, hv⟩
  · dsimp only at heq
    cases hd : d.get k with
    | some v => simp [fetch, heq, hd, h]
    | none =>
      cases compute with
      | error e => simp [fetch, heq, hd, h]
      | ok v =>
        simp only [fetch, heq, hd, true_and]
        exact h.cons k v
  · dsimp only at hd hc hv
    subst hv
    simp only [fetch, hd, hc, true_and]
    exact h.cons_right hc

end Memo

end Lib
