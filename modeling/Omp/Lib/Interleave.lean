import Omp.Lib.Lts
import Omp.Lib.Script
import Mathlib.Logic.Function.Basic

/-!
# Processes that run scripts on a shared state

Several processes run scripts of atomic actions on one state, and the actions of different
processes come in any order.  Which actions a process may take, and what they do to the state, is
the `Machine`.  A process ends when its script is done or an action of it fails, and a process that
panics stays dead.

A script is reasoned about with what holds of the state between its actions: an `Outline` gives an
assertion for each place in the script.  It must be stable, that is, kept by every step the other
processes guarantee, and each action must lead from one assertion to the next, keep the invariant
of the state and do no more than its process guarantees.

## Main definitions

* `Machine`, `Machine.next` : processes on a shared state, and what an event leads to.
* `Contract`, `Machine.Outline` : the invariant and the guarantees, and scripts with assertions.

## Main results

* `Machine.Outline.bind` : outlines of a sequence.
* `Machine.invariant_of_outlines` : along every run the invariant holds, and with it the assertion
  at which each process stands.
-/

namespace Lib

/-- What a process does: nothing, the rest of the script of a call, or nothing ever again. -/
inductive Proc (A : Type → Type 1) (C : Type) : Type 1
  | idle
  | running (c : C) (t : Script A Unit)
  | dead

/-- Whether a process is between two calls. -/
def Proc.isIdle {A : Type → Type 1} {C : Type} : Proc A C → Bool
  | idle => true
  | running .. | dead => false

/-- Something that happens: a process begins a call, takes the next action of one, or ends it. -/
inductive Event (ι C : Type)
  | begins (i : ι) (c : C)
  | acts (i : ι)
  | ends (i : ι)

/-- The process an event is of. -/
def Event.proc {ι C : Type} : Event ι C → ι
  | begins i _ | acts i | ends i => i

/-- Processes `ι` that run scripts of actions `A`, for calls `C`, on a state `σ`. -/
structure Machine (A : Type → Type 1) (ι C σ ε : Type) where
  /-- The script of a call. -/
  script : C → Script A Unit
  /-- What an action does, unless it has to wait. -/
  acts : ∀ {β : Type}, ι → C → A β → σ → Option (Except (Fault ε) β × σ)
  /-- What a process lets go of when its call ends. -/
  leaves : ι → σ → σ

namespace Machine

variable {A : Type → Type 1} {ι C σ ε : Type} (M : Machine A ι C σ ε)

/-! ### Runs -/

/-- What an action and its outcome make of the state and of the process that took it. -/
def settle {β : Type} (i : ι) (c : C) (k : β → Script A Unit) :
    Except (Fault ε) β × σ → σ × Proc A C
  | (.ok b, s) => (s, .running c (k b))
  | (.error (.err _), s) => (M.leaves i s, .idle)
  | (.error .panic, s) => (M.leaves i s, .dead)

/-- What an event makes of the state and of the process it is of, unless it cannot happen. -/
def advance (s : σ) : Event ι C → Proc A C → Option (σ × Proc A C)
  | .begins _ c, .idle => some (s, .running c (M.script c))
  | .acts i, .running c (.step x k) => (M.acts i c x s).map (M.settle i c k)
  | .ends i, .running _ (.done _) => some (M.leaves i s, .idle)
  | _, _ => none

section Runs

variable [DecidableEq ι]

/-- What an event leads to, unless it cannot happen. -/
def next (st : σ × (ι → Proc A C)) (e : Event ι C) : Option (σ × (ι → Proc A C)) :=
  (M.advance st.1 e (st.2 e.proc)).map fun res => (res.1, Function.update st.2 e.proc res.2)

/-- The transitions the events are. -/
def lts : Lts (σ × (ι → Proc A C)) (Event ι C) where
  step st e st' := M.next st e = some st'

/-- A state in which no process has begun a call. -/
def start (s : σ) : σ × (ι → Proc A C) := (s, fun _ => .idle)

/-- What a list of events leads to, unless one of them cannot happen or a check refuses it. -/
def exec (check : σ × (ι → Proc A C) → Event ι C → Bool) (st : σ × (ι → Proc A C))
    (es : List (Event ι C)) : Option (σ × (ι → Proc A C)) :=
  es.foldlM (fun st e => if check st e then M.next st e else none) st

theorem reachable_of_exec {check : σ × (ι → Proc A C) → Event ι C → Bool}
    {P : σ × (ι → Proc A C) → Event ι C → Prop} (hP : ∀ st e, check st e = true → P st e)
    {st₀ st : σ × (ι → Proc A C)} {es : List (Event ι C)} (h : M.exec check st₀ es = some st) :
    M.lts.Reachable P st₀ st :=
  Lts.reachable_of_exec hP h

end Runs

/-! ### Outlines -/

/-- What processes keep and what they guarantee to each other. -/
structure Contract (A : Type → Type 1) (ι C σ : Type) where
  /-- What holds of the state between any two actions. -/
  inv : σ → Prop
  /-- What the steps of a process keep to. -/
  guar : ι → σ → σ → Prop
  /-- What holds when a process is between two calls. -/
  rest : ι → σ → Prop
  /-- The condition under which a process takes an action. -/
  allow : ∀ {β : Type}, ι → C → A β → σ → Prop

variable (K : Contract A ι C σ) {α β : Type} (i : ι) (c : C)

/-- The other processes keep to an assertion. -/
def Contract.Stable (P : σ → Prop) : Prop :=
  ∀ j ≠ i, ∀ s s', K.inv s → K.inv s' → K.guar j s s' → P s → P s'

/-- An action that is taken under the condition keeps the invariant and does what its process
guarantees.  If it succeeds it leads to the second assertion, and else to a process at rest. -/
def Leads (P : σ → Prop) (x : A β) (R : β → σ → Prop) : Prop :=
  ∀ s r s', K.inv s → P s → K.allow i c x s → M.acts i c x s = some (r, s') →
    K.inv s' ∧ K.guar i s s' ∧ (∀ b, r = .ok b → R b s') ∧ (∀ e, r = .error e → K.rest i s')

/-- A script with an assertion at each of its places. -/
inductive Outline : {α : Type} → (σ → Prop) → Script A α → (α → σ → Prop) → Prop
  | done {α : Type} {P : σ → Prop} {a : α} {Q : α → σ → Prop} (hP : K.Stable i P)
      (hQ : ∀ s, K.inv s → P s → Q a s) : Outline P (.done a) Q
  | step {α δ : Type} {P : σ → Prop} {x : A δ} {k : δ → Script A α} {R : δ → σ → Prop}
      {Q : α → σ → Prop} (hP : K.Stable i P) (hx : M.Leads K i c P x R)
      (hk : ∀ b, Outline (R b) (k b) Q) : Outline P (.step x k) Q

variable {M K i c}

namespace Outline

variable {P P' : σ → Prop} {Q Q' : α → σ → Prop}

theorem stable {t : Script A α} (h : M.Outline K i c P t Q) : K.Stable i P := by
  cases h with
  | done hP _ => exact hP
  | step hP _ _ => exact hP

/-- An outline from a stronger assertion. -/
theorem strengthen {t : Script A α} (h : M.Outline K i c P t Q) (hP' : K.Stable i P')
    (hPP' : ∀ s, K.inv s → P' s → P s) : M.Outline K i c P' t Q := by
  cases h with
  | done hP hQ => exact .done hP' fun s hs hp => hQ s hs (hPP' s hs hp)
  | step hP hx hk => exact .step hP' (fun s r s' hs hp => hx s r s' hs (hPP' s hs hp)) hk

/-- **Outlines of a sequence.** -/
theorem bind {t : Script A α} {f : α → Script A β} {Q' : β → σ → Prop}
    (h : M.Outline K i c P t Q) (hf : ∀ a, M.Outline K i c (Q a) (f a) Q') :
    M.Outline K i c P (t >>= f) Q' := by
  induction h with
  | done hP hQ => exact (hf _).strengthen hP hQ
  | step hP hx _ ih => exact .step hP hx fun b => ih b hf

/-- An outline of one action. -/
theorem act {x : A α} (hP : K.Stable i P) (hx : M.Leads K i c P x Q)
    (hQ : ∀ a, K.Stable i (Q a)) : M.Outline K i c P (Script.act x) Q :=
  .step hP hx fun a => .done (hQ a) fun _ _ h => h

end Outline

/-! ### Along a run -/

section Soundness

variable (M K)

/-- What is needed of a contract for the processes to keep to it. -/
structure Fulfils : Prop where
  stable_rest : ∀ i, K.Stable i (K.rest i)
  /-- A process at rest may let go of what it holds. -/
  leaves : ∀ i s, K.inv s → K.rest i s →
    K.inv (M.leaves i s) ∧ K.guar i s (M.leaves i s) ∧ K.rest i (M.leaves i s)
  /-- Each call has an outline. -/
  outline : ∀ i c, M.Outline K i c (K.rest i) (M.script c) fun _ => K.rest i

/-- Where a process stands: at rest, or at a place in an outline. -/
def Stands (s : σ) (i : ι) : Proc A C → Prop
  | .idle => K.rest i s
  | .running c t => ∃ P, P s ∧ M.Outline K i c P t fun _ => K.rest i
  | .dead => True

/-- The condition on an event of a process. -/
def Contract.Meets (s : σ) : Event ι C → Proc A C → Prop
  | .acts i, .running c (.step x _) => K.allow i c x s
  | _, _ => True

variable {M K} {s s' : σ}

/-- A process stands where it stood after a step of another. -/
theorem Stands.frame (hM : M.Fulfils K) {i j : ι} (hji : j ≠ i) (hs : K.inv s) (hs' : K.inv s')
    (hguar : K.guar j s s') {p : Proc A C} (hp : M.Stands K s i p) : M.Stands K s' i p := by
  cases p with
  | idle => exact hM.stable_rest i j hji s s' hs hs' hguar hp
  | running c t =>
    obtain ⟨P, hP, hout⟩ := hp
    exact ⟨P, hout.stable j hji s s' hs hs' hguar hP, hout⟩
  | dead => trivial

/-- **One event keeps the invariant**, leaves its process standing, and leaves the others where
they stood. -/
theorem Stands.advance (hM : M.Fulfils K) {e : Event ι C} {p p' : Proc A C} (hs : K.inv s)
    (hp : M.Stands K s e.proc p) (hmeets : K.Meets s e p) (h : M.advance s e p = some (s', p')) :
    K.inv s' ∧ M.Stands K s' e.proc p' ∧
      ∀ j ≠ e.proc, ∀ q, M.Stands K s j q → M.Stands K s' j q := by
  cases e with
  | begins i c =>
    cases p with
    | idle =>
      cases h
      exact ⟨hs, ⟨K.rest i, hp, hM.outline i c⟩, fun _ _ _ hq => hq⟩
    | running _ _ | dead => cases h
  | acts i =>
    cases p with
    | idle | dead => cases h
    | running c t =>
      cases t with
      | done _ => cases h
      | step x k =>
        obtain ⟨P, hP, hout⟩ := hp
        obtain ⟨⟨r, s₁⟩, hacts, hsettle⟩ := Option.map_eq_some_iff.1 h
        cases hout with
        | step _ hx hk =>
          obtain ⟨hinv, hguar, hok, herror⟩ := hx s r s₁ hs hP hmeets hacts
          have hframe : ∀ j ≠ i, ∀ q, M.Stands K s j q → M.Stands K s₁ j q :=
            fun j hj q hq => hq.frame hM (Ne.symm hj) hs hinv hguar
          cases r with
          | ok b =>
            cases hsettle
            exact ⟨hinv, ⟨_, hok b rfl, hk b⟩, hframe⟩
          | error e =>
            -- a call that fails lets go of what it holds
            obtain ⟨hinv', hguar', hrest'⟩ := hM.leaves i s₁ hinv (herror e rfl)
            have hframe' : ∀ j ≠ i, ∀ q, M.Stands K s j q → M.Stands K (M.leaves i s₁) j q :=
              fun j hj q hq => (hframe j hj q hq).frame hM (Ne.symm hj) hinv hinv' hguar'
            cases e with
            | err e =>
              cases hsettle
              exact ⟨hinv', hrest', hframe'⟩
            | panic =>
              cases hsettle
              exact ⟨hinv', trivial, hframe'⟩
  | ends i =>
    cases p with
    | idle | dead => cases h
    | running c t =>
      cases t with
      | step _ _ => cases h
      | done u =>
        obtain ⟨P, hP, hout⟩ := hp
        cases h
        cases hout with
        | done _ hQ =>
          obtain ⟨hinv, hguar, hrest⟩ := hM.leaves i s hs (hQ s hs hP)
          exact ⟨hinv, hrest, fun j hj q hq => hq.frame hM (Ne.symm hj) hs hinv hguar⟩

/-- **The invariant holds along every run whose events meet the condition**, and every process
stands at a place of its outline. -/
theorem invariant_of_outlines [DecidableEq ι] (hM : M.Fulfils K) {st₀ st : σ × (ι → Proc A C)}
    (h : M.lts.Reachable (fun st e => K.Meets st.1 e (st.2 e.proc)) st₀ st) (hinv : K.inv st₀.1)
    (hstands : ∀ i, M.Stands K st₀.1 i (st₀.2 i)) :
    K.inv st.1 ∧ ∀ i, M.Stands K st.1 i (st.2 i) := by
  refine h.invariant (I := fun st => K.inv st.1 ∧ ∀ i, M.Stands K st.1 i (st.2 i))
    ⟨hinv, hstands⟩ ?_
  rintro st e st' ⟨hst, hall⟩ hmeets hstep
  obtain ⟨⟨s', p'⟩, hadv, rfl⟩ := Option.map_eq_some_iff.1 hstep
  obtain ⟨hinv', hproc, hothers⟩ := Stands.advance hM hst (hall e.proc) hmeets hadv
  refine ⟨hinv', fun j => ?_⟩
  change M.Stands K s' j (Function.update st.2 e.proc p' j)
  by_cases hj : j = e.proc
  · subst hj
    rwa [Function.update_self]
  · rw [Function.update_of_ne hj]
    exact hothers j hj _ (hall j)

end Soundness

end Machine

end Lib
