import Mathlib.Data.List.Basic
import Mathlib.Logic.Relation
import Mathlib.Order.Basic

/-!
# Runs of a labelled system

A system moves from state to state by labelled steps.  Claims about it are about every run
all of whose steps meet a condition, which may look at the state before the step and at the
label.  The invariant rule comes in the form needed when the states only grow: a side
condition that is inherited by every earlier state needs to be assumed of the last one only.

## Main results

* `Lts.Reachable.invariant` : what the first state has and every step keeps, every reached
  state has.
* `Lts.Reachable.invariant_of_down` : the same, when steps keep it only under a side condition
  that every earlier state inherits.
-/

namespace Lib

/-- A labelled system with states `S` and labels `L`. -/
structure Lts (S L : Type*) where
  /-- `step s l s'` : the system can move from `s` to `s'` performing `l`. -/
  step : S → L → S → Prop

namespace Lts

variable {S L : Type*} (A : Lts S L) (P : S → L → Prop)

/-- One step that meets the condition `P`. -/
def Step (s s' : S) : Prop := ∃ l, P s l ∧ A.step s l s'

/-- `s` is reachable from `s₀` by steps that meet the condition `P`. -/
def Reachable (s₀ s : S) : Prop := Relation.ReflTransGen (A.Step P) s₀ s

variable {A P}

namespace Reachable

theorem refl (s : S) : A.Reachable P s s := Relation.ReflTransGen.refl

theorem tail {s₀ s s' : S} {l : L} (h : A.Reachable P s₀ s) (hl : P s l) (hs : A.step s l s') :
    A.Reachable P s₀ s' :=
  Relation.ReflTransGen.tail h ⟨l, hl, hs⟩

theorem mono {Q : S → L → Prop} (hPQ : ∀ s l, P s l → Q s l) {s₀ s : S}
    (h : A.Reachable P s₀ s) : A.Reachable Q s₀ s :=
  Relation.ReflTransGen.mono (fun _ _ ⟨l, hl, hs⟩ => ⟨l, hPQ _ _ hl, hs⟩) _ _ h

/-- **The invariant rule.** -/
theorem invariant {I : S → Prop} {s₀ s : S} (h : A.Reachable P s₀ s) (h₀ : I s₀)
    (hstep : ∀ s l s', I s → P s l → A.step s l s' → I s') : I s := by
  induction h with
  | refl => exact h₀
  | tail _ hst ih => obtain ⟨l, hl, hs⟩ := hst; exact hstep _ _ _ ih hl hs

/-- **The invariant rule under a condition that earlier states inherit.** -/
theorem invariant_of_down {I C : S → Prop} {s₀ s : S} (h : A.Reachable P s₀ s) (hC : C s)
    (hdown : ∀ s l s', A.step s l s' → C s' → C s) (h₀ : I s₀)
    (hstep : ∀ s l s', I s → P s l → A.step s l s' → C s' → I s') : I s := by
  induction h with
  | refl => exact h₀
  | tail _ hst ih =>
    obtain ⟨l, hl, hs⟩ := hst
    exact hstep _ _ _ (ih (hdown _ _ _ hs hC)) hl hs hC

end Reachable

/-! ### Systems that compute -/

/-- The system of a function that says what a step leads to, if it can be taken. -/
def ofNext (next : S → L → Option S) : Lts S L := ⟨fun s l s' => next s l = some s'⟩

/-- What a list of steps leads to, unless one cannot be taken or a check refuses it. -/
def exec (next : S → L → Option S) (check : S → L → Bool) (s : S) (ls : List L) : Option S :=
  ls.foldlM (fun s l => if check s l then next s l else none) s

/-- What is computed is reachable. -/
theorem reachable_of_exec {next : S → L → Option S} {check : S → L → Bool} {P : S → L → Prop}
    (hP : ∀ s l, check s l = true → P s l) {s₀ s : S} {ls : List L}
    (h : exec next check s₀ ls = some s) : (ofNext next).Reachable P s₀ s := by
  induction ls generalizing s₀ with
  | nil =>
    cases h
    exact .refl _
  | cons l ls ih =>
    rw [exec, List.foldlM_cons, Option.bind_eq_bind, Option.bind_eq_some_iff] at h
    obtain ⟨s₁, hnext, h⟩ := h
    split_ifs at hnext with hcheck
    exact Relation.ReflTransGen.head ⟨l, hP _ _ hcheck, hnext⟩ (ih h)

end Lts

end Lib
