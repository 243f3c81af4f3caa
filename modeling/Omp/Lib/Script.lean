import Omp.Lib.Op

/-!
# Scripts of atomic steps

An operation that takes several steps on a state which others may see, or may be interrupted, in
between.  A script lists its actions; what an action does to the state is an interpretation, which
turns the script into an operation again.

A script can end early, because one of its actions fails, or because a fault strikes one of them.
What a fault leaves behind is a parameter: `Fails` collects all the ways.

## Main definitions

* `Script`, `Script.run` : scripts, and the operation a script is when nothing comes between.
* `Script.Fails` : the ways a script ends early, and the state each leaves.
* `Script.WritesOnce` : scripts that write once, at their end.

## Main results

* `Script.run_bind` : a sequence of scripts is run in sequence.
* `Script.Within.keeps` : what a script of actions from a set keeps to.
* `Script.Frame.same_of_fails` : when a script with one write leaves the state as it was.
-/

namespace Lib

/-- A script of actions `A` with results `α`. -/
inductive Script (A : Type → Type 1) (α : Type) : Type 1
  | done (a : α)
  | step {β : Type} (x : A β) (k : β → Script A α)

namespace Script

variable {A : Type → Type 1} {α β γ : Type}

/-- Run a script, then the one its result asks for. -/
protected def bind : Script A α → (α → Script A β) → Script A β
  | done a, f => f a
  | step x k, f => step x fun b => (k b).bind f

instance : Monad (Script A) where
  pure := done
  bind := Script.bind

/-- The script of one action. -/
def act (x : A α) : Script A α := step x done

@[simp] theorem done_bind (a : α) (f : α → Script A β) : (done a >>= f) = f a := rfl

@[simp] theorem step_bind (x : A γ) (k : γ → Script A α) (f : α → Script A β) :
    (step x k >>= f) = step x fun c => k c >>= f := rfl

@[simp] theorem act_bind (x : A α) (f : α → Script A β) : (act x >>= f) = step x f := rfl

@[simp] theorem pure_eq_done (a : α) : (pure a : Script A α) = done a := rfl

/-! ### Running -/

section Run

variable {σ ε : Type} [Preorder σ] (op : ∀ {β : Type}, A β → Op σ ε β)

/-- The operation a script is when nothing comes between its actions. -/
def run : Script A α → Op σ ε α
  | done a => pure a
  | step x k => op x >>= fun b => (k b).run

@[simp] theorem run_done (a : α) : (done a : Script A α).run op = pure a := rfl

@[simp] theorem run_step (x : A β) (k : β → Script A α) :
    (step x k).run op = op x >>= fun b => (k b).run op := rfl

/-- **A sequence of scripts is run in sequence.** -/
theorem run_bind (t : Script A α) (f : α → Script A β) (s : σ) :
    ((t >>= f).run op).run s = (t.run op >>= fun a => (f a).run op).run s := by
  induction t generalizing s with
  | done a => rfl
  | step x k ih =>
    rw [step_bind, run_step, run_step, Op.run_bind, Op.run_bind, Op.run_bind]
    cases h : (op x).run s with
    | mk r s₁ => cases r with
      | error e => rfl
      | ok b => exact (ih b s₁).trans (Op.run_bind _ _ _)

theorem run_step_eq_ok {x : A β} {k : β → Script A α} {s s' : σ} {a : α} :
    ((step x k).run op).run s = (.ok a, s') ↔
      ∃ b s₁, (op x).run s = (.ok b, s₁) ∧ ((k b).run op).run s₁ = (.ok a, s') :=
  Op.bind_eq_ok

theorem run_act_eq_ok {x : A α} {s s' : σ} {a : α} :
    ((act x : Script A α).run op).run s = (.ok a, s') ↔ (op x).run s = (.ok a, s') := by
  rw [act, run_step_eq_ok]
  constructor
  · rintro ⟨b, s₁, hx, hb⟩
    obtain ⟨rfl, rfl⟩ := Op.pure_eq_ok.1 hb
    exact hx
  · exact fun hx => ⟨a, s', hx, rfl⟩

theorem run_bind_eq_ok {t : Script A α} {f : α → Script A β} {s s' : σ} {b : β} :
    ((t >>= f).run op).run s = (.ok b, s') ↔
      ∃ a s₁, (t.run op).run s = (.ok a, s₁) ∧ ((f a).run op).run s₁ = (.ok b, s') := by
  rw [run_bind, Op.bind_eq_ok]

/-- A sequence goes on where its first part has ended. -/
theorem run_bind_of_ok {t : Script A α} {s s₁ : σ} {a : α} (h : (t.run op).run s = (.ok a, s₁))
    (f : α → Script A β) : ((t >>= f).run op).run s = ((f a).run op).run s₁ := by
  rw [run_bind, Op.run_bind_of_ok h]

/-- What the first part of a sequence leaves stays. -/
theorem le_run_bind (t : Script A α) (f : α → Script A β) (s : σ) :
    ((t.run op).run s).2 ≤ (((t >>= f).run op).run s).2 := by
  rw [run_bind]
  exact Op.le_run_bind _ _ s

end Run

/-! ### Actions from a set -/

section Within

variable (S U T : ∀ {β : Type}, A β → Prop)

/-- A script of actions from a set. -/
inductive Within : Script A α → Prop
  | done (a : α) : Within (done a)
  | step {δ : Type} {x : A δ} {k : δ → Script A α} (hx : S x) (hk : ∀ b, Within (k b)) :
      Within (step x k)

/-- A script of actions from a set, then one from a second set, and after it only actions from a
third. -/
inductive WritesOnce : Script A α → Prop
  | within {t : Script A α} (ht : Within S t) : WritesOnce t
  | write {δ : Type} {x : A δ} {k : δ → Script A α} (hx : U x) (hk : ∀ b, Within T (k b)) :
      WritesOnce (step x k)
  | step {δ : Type} {x : A δ} {k : δ → Script A α} (hx : S x) (hk : ∀ b, WritesOnce (k b)) :
      WritesOnce (step x k)

variable {S U T}

theorem Within.act {x : A α} (hx : S x) : Within S (act x : Script A α) := .step hx .done

theorem Within.bind {t : Script A α} {f : α → Script A β} (ht : Within S t)
    (hf : ∀ a, Within S (f a)) : Within S (t >>= f) := by
  induction ht with
  | done a => exact hf a
  | step hx _ ih => exact .step hx ih

theorem Within.mono (h : ∀ {β : Type} {x : A β}, S x → T x) {t : Script A α} (ht : Within S t) :
    Within T t := by
  induction ht with
  | done a => exact .done a
  | step hx _ ih => exact .step (h hx) ih

theorem Within.bind_writesOnce {t : Script A α} {f : α → Script A β} (ht : Within S t)
    (hf : ∀ a, WritesOnce S U T (f a)) : WritesOnce S U T (t >>= f) := by
  induction ht with
  | done a => exact hf a
  | step hx _ ih => exact .step hx ih

theorem WritesOnce.act {x : A α} (hx : U x) : WritesOnce S U T (act x : Script A α) :=
  .write hx .done

theorem WritesOnce.mono {S' U' T' : ∀ {β : Type}, A β → Prop}
    (hS : ∀ {β : Type} {x : A β}, S x → S' x) (hU : ∀ {β : Type} {x : A β}, U x → U' x)
    (hT : ∀ {β : Type} {x : A β}, T x → T' x) {t : Script A α} (ht : WritesOnce S U T t) :
    WritesOnce S' U' T' t := by
  induction ht with
  | within ht => exact .within (ht.mono hS)
  | write hx hk => exact .write (hU hx) fun b => (hk b).mono hT
  | step hx _ ih => exact .step (hS hx) ih

/-- A result that is only passed on. -/
theorem WritesOnce.bind_done {t : Script A α} {f : α → β} (ht : WritesOnce S U T t) :
    WritesOnce S U T (t >>= fun a => done (f a)) := by
  induction ht with
  | within ht => exact .within (ht.bind fun a => .done (f a))
  | write hx hk => exact .write hx fun b => (hk b).bind fun a => .done (f a)
  | step hx _ ih => exact .step hx ih

theorem WritesOnce.toWithin {V : ∀ {β : Type}, A β → Prop}
    (hS : ∀ {β : Type} {x : A β}, S x → V x) (hU : ∀ {β : Type} {x : A β}, U x → V x)
    (hT : ∀ {β : Type} {x : A β}, T x → V x) {t : Script A α} (ht : WritesOnce S U T t) :
    Within V t := by
  induction ht with
  | within ht => exact ht.mono hS
  | write hx hk => exact .step (hU hx) fun b => (hk b).mono hT
  | step hx _ ih => exact .step (hS hx) ih

/-- **A relation that the actions of a set keep to is kept to by a script of them**, however it
ends. -/
theorem Within.keeps {σ ε : Type} [Preorder σ] {op : ∀ {β : Type}, A β → Op σ ε β}
    {R : σ → σ → Prop} [Std.Refl R] [IsTrans σ R]
    (hop : ∀ {β : Type} {x : A β}, S x → (op x).Keeps R) {t : Script A α} (ht : Within S t) :
    (t.run op).Keeps R := by
  induction ht with
  | done a => exact Op.Keeps.pure a
  | step hx _ ih => exact (hop hx).bind ih

/-- A script of actions that do not fail does not. -/
theorem Within.ne_error {σ ε : Type} [Preorder σ] {op : ∀ {β : Type}, A β → Op σ ε β}
    (hT : ∀ {β : Type} {x : A β}, T x → ∀ s s' e, (op x).run s ≠ (.error e, s')) {t : Script A α}
    (ht : Within T t) (s s' : σ) (e : Fault ε) : (t.run op).run s ≠ (.error e, s') := by
  intro h
  induction ht generalizing s with
  | done a => cases h
  | @step δ x k hx _ ih =>
    rw [run_step, Op.run_bind] at h
    cases hrun : (op x).run s with
    | mk r s₁ =>
      rw [hrun] at h
      cases r with
      | error e' => exact hT hx s s₁ e' hrun
      | ok b => exact ih b s₁ h

/-- **What a script with one write keeps to when it fails**: what the actions before the write keep
to, and the write when it fails. -/
theorem WritesOnce.keeps_of_error {σ ε : Type} [Preorder σ] {op : ∀ {β : Type}, A β → Op σ ε β}
    {R : σ → σ → Prop} [Std.Refl R] [IsTrans σ R]
    (hS : ∀ {β : Type} {x : A β}, S x → (op x).Keeps R)
    (hU : ∀ {β : Type} {x : A β}, U x → ∀ s s' e, (op x).run s = (.error e, s') → R s s')
    (hT : ∀ {β : Type} {x : A β}, T x → ∀ s s' e, (op x).run s ≠ (.error e, s')) {t : Script A α}
    (ht : WritesOnce S U T t) {s s' : σ} {e : Fault ε} (h : (t.run op).run s = (.error e, s')) :
    R s s' := by
  induction ht generalizing s with
  | within ht =>
    have hkeeps := ht.keeps hS s
    rwa [h] at hkeeps
  | @write δ x k hx hk =>
    rw [run_step, Op.run_bind] at h
    cases hrun : (op x).run s with
    | mk r s₁ =>
      rw [hrun] at h
      cases r with
      | error e' =>
        cases h
        exact hU hx s s' e hrun
      | ok b => exact ((hk b).ne_error hT s₁ s' e h).elim
  | @step δ x k hx _ ih =>
    have hfirst := hS hx s
    rw [run_step, Op.run_bind] at h
    cases hrun : (op x).run s with
    | mk r s₁ =>
      rw [hrun] at h hfirst
      cases r with
      | error e' =>
        cases h
        exact hfirst
      | ok b => exact IsTrans.trans _ _ _ hfirst (ih b h)

end Within

/-! ### Ending early -/

section Fails

variable {σ ε τ F : Type} [Preorder σ] (op : ∀ {β : Type}, A β → Op σ ε β) (whole : σ → τ)
  (left : ∀ {β : Type}, A β → σ → F → τ → Prop)

/-- The ways a script ends early, and what each leaves: an action fails of its own, or a fault
strikes it and leaves what `left` says. -/
inductive Fails : Script A α → σ → Option F → τ → Prop
  | own {δ : Type} {x : A δ} {k : δ → Script A α} {s s' : σ} {e : ε}
      (h : (op x).run s = (.error (.err e), s')) : Fails (step x k) s none (whole s')
  | struck {δ : Type} {x : A δ} {k : δ → Script A α} {s : σ} {f : F} {t : τ} (h : left x s f t) :
      Fails (step x k) s (some f) t
  | later {δ : Type} {x : A δ} {k : δ → Script A α} {s s₁ : σ} {b : δ} {f : Option F} {t : τ}
      (h : (op x).run s = (.ok b, s₁)) (hk : Fails (k b) s₁ f t) : Fails (step x k) s f t

section Bind

variable {op whole left} {t : Script A α} {g : α → Script A β} {s s₁ : σ} {f : Option F} {u : τ}

theorem Fails.bind_left (h : Fails op whole left t s f u) :
    Fails op whole left (t >>= g) s f u := by
  induction h with
  | own h => exact .own h
  | struck h => exact .struck h
  | later h _ ih => exact .later h ih

theorem Fails.bind_right {a : α} (ht : (t.run op).run s = (.ok a, s₁))
    (h : Fails op whole left (g a) s₁ f u) : Fails op whole left (t >>= g) s f u := by
  induction t generalizing s with
  | done b =>
    obtain ⟨rfl, rfl⟩ := Op.pure_eq_ok.1 ht
    exact h
  | step x k ih =>
    obtain ⟨b, s₂, hx, hk⟩ := (run_step_eq_ok op).1 ht
    exact .later hx (ih b hk)

theorem Fails.of_bind (h : Fails op whole left (t >>= g) s f u) :
    Fails op whole left t s f u ∨
      ∃ a s₁, (t.run op).run s = (.ok a, s₁) ∧ Fails op whole left (g a) s₁ f u := by
  induction t generalizing s with
  | done a => exact .inr ⟨a, s, rfl, h⟩
  | step x k ih =>
    cases h with
    | own h => exact .inl (.own h)
    | struck h => exact .inl (.struck h)
    | later hx hk =>
      rcases ih _ hk with h | ⟨a, s₂, hrun, h⟩
      · exact .inl (.later hx h)
      · exact .inr ⟨a, s₂, (run_step_eq_ok op).2 ⟨_, _, hx, hrun⟩, h⟩

/-- A fault that strikes a script of actions from a set strikes one of them. -/
theorem Within.struck {S : ∀ {β : Type}, A β → Prop} {f : F} (ht : Within S t)
    (h : Fails op whole left t s (some f) u) :
    ∃ (δ : Type) (x : A δ) (s₁ : σ), left x s₁ f u ∧ S x := by
  induction ht generalizing s with
  | done a => cases h
  | step hx _ ih =>
    cases h with
    | struck h => exact ⟨_, _, s, h, hx⟩
    | later _ hk => exact ih _ hk

end Bind

/-- What is needed of a relation between states for a script to keep to it when it fails. -/
structure Frame (same : σ → σ → Prop) (good : F → Prop) (S T : ∀ {β : Type}, A β → Prop) :
    Prop where
  trans : ∀ {s s' s''}, same s s' → same s' s'' → same s s''
  /-- Actions of the first set keep to it. -/
  keeps : ∀ {β : Type} {x : A β}, S x → (op x).Keeps same
  /-- An action that fails of its own keeps to it. -/
  own : ∀ {β : Type} {x : A β} {s s' : σ} {e : ε}, (op x).run s = (.error (.err e), s') → same s s'
  /-- So does one that is struck by a good fault. -/
  struck : ∀ {β : Type} {x : A β} {s : σ} {f : F} {t : τ}, left x s f t → good f →
    ∃ s', same s s' ∧ t = whole s'
  /-- Actions of the second set do not fail of their own, and no good fault strikes them. -/
  sure : ∀ {β : Type} {x : A β}, T x → ∀ s s' e, (op x).run s ≠ (.error (.err e), s')
  safe : ∀ {β : Type} {x : A β}, T x → ∀ s f t, left x s f t → ¬ good f

variable {op whole left} {same : σ → σ → Prop} {good : F → Prop}
  {S U T : ∀ {β : Type}, A β → Prop}

/-- A script of actions that cannot fail in a good way does not. -/
theorem Frame.not_fails (hF : Frame op whole left same good S T) {t : Script A α}
    (ht : Within T t) {s : σ} {f : Option F} {u : τ} (h : Fails op whole left t s f u)
    (hgood : ∀ f' ∈ f, good f') : False := by
  induction h with
  | own h => cases ht with | step hx _ => exact hF.sure hx _ _ _ h
  | struck h => cases ht with | step hx _ => exact hF.safe hx _ _ _ h (hgood _ rfl)
  | later _ _ ih => cases ht with | step _ hk => exact ih (hk _) hgood

/-- **A script with one write leaves the state as it was** when it fails in a good way. -/
theorem Frame.same_of_fails (hF : Frame op whole left same good S T) {t : Script A α}
    (ht : WritesOnce S U T t) {s : σ} {f : Option F} {u : τ} (h : Fails op whole left t s f u)
    (hgood : ∀ f' ∈ f, good f') : ∃ s', same s s' ∧ u = whole s' := by
  induction h with
  | own h => exact ⟨_, hF.own h, rfl⟩
  | struck h => exact hF.struck h (hgood _ rfl)
  | @later δ x k s s₁ b f u h hk ih =>
    have hsame : S x → same s s₁ := fun hx => by
      have := hF.keeps hx s
      rwa [h] at this
    have hnext : S x → WritesOnce S U T (k b) → ∃ s', same s s' ∧ u = whole s' := by
      intro hx hrest
      obtain ⟨s', hs', hu⟩ := ih hrest hgood
      exact ⟨s', hF.trans (hsame hx) hs', hu⟩
    cases ht with
    | within ht => cases ht with | step hx hrest => exact hnext hx (.within (hrest b))
    | write _ hrest => exact (hF.not_fails (hrest b) hk hgood).elim
    | step hx hrest => exact hnext hx (hrest b)

/-- A fault strikes a script with one write while the state is still as it was, or an action that
comes after the write. -/
theorem Frame.struck_of_fails (hF : Frame op whole left same good S T) (hrefl : ∀ s, same s s)
    {t : Script A α} (ht : WritesOnce S U T t) {s : σ} {f : F} {u : τ}
    (h : Fails op whole left t s (some f) u) :
    ∃ (δ : Type) (x : A δ) (s₁ : σ), left x s₁ f u ∧ (same s s₁ ∨ T x) := by
  generalize hg : some f = g at h
  induction h with
  | own h => cases hg
  | struck h =>
    cases hg
    exact ⟨_, _, _, h, .inl (hrefl _)⟩
  | @later δ x k s s₁ b _ u h hk ih =>
    have hnext : S x → WritesOnce S U T (k b) →
        ∃ (δ : Type) (x : A δ) (s₁ : σ), left x s₁ f u ∧ (same s s₁ ∨ T x) := by
      intro hx hrest
      have hsame := hF.keeps hx s
      rw [h] at hsame
      obtain ⟨δ', y, s₂, hleft, hy⟩ := ih hrest hg
      exact ⟨δ', y, s₂, hleft, hy.imp_left (hF.trans hsame)⟩
    cases ht with
    | within ht => cases ht with | step hx hrest => exact hnext hx (.within (hrest b))
    | write _ hrest =>
      subst hg
      obtain ⟨δ', y, s₂, hleft, hy⟩ := (hrest b).struck hk
      exact ⟨δ', y, s₂, hleft, .inr hy⟩
    | step hx hrest => exact hnext hx (hrest b)

end Fails

end Script

end Lib
