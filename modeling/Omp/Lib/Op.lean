import Mathlib.Order.Basic
import Mathlib.Data.List.Basic

/-!
# Operations that may fail and that only ever grow a state

An operation reads and updates a state, and ends with a value, with an error it reports, or
with a panic.  The states are preordered, and an operation carries the proof that it never
goes down in that order, whether it succeeds or not.  A store that objects are only ever added
to is the intended instance.

A condition that goes down with the order (`s ≤ s'` and `C s'` give `C s`) is therefore
inherited by every state an operation passes through: it is enough to assume it of the state
the operation ends in.

## Main definitions

* `Fault` : how an operation ends early.
* `Op` : an operation, with its growth.

## Main results

* `Op.bind_eq_ok` : a sequence succeeds exactly when both parts do.
* `Op.foldlM_induction` : a fold keeps what each of its steps keeps.
-/

namespace Lib

/-- How an operation ends early: an error it returns, or a panic. -/
inductive Fault (ε : Type) where
  /-- An error handed to the caller. -/
  | err (e : ε)
  /-- The thread panics. -/
  | panic
  deriving DecidableEq, Repr

theorem eq_mk_of_fst_eq {α β : Type} {r : α × β} {a : α} (h : r.1 = a) : r = (a, r.2) := by
  rw [← h]

theorem eq_ok_of_isOk {ε α : Type} {r : Except ε α} {d : α} (h : r.isOk = true) :
    r = .ok (r.toOption.getD d) := by
  cases r with
  | ok a => rfl
  | error e => cases h

theorem exists_eq_ok_of_isOk {ε α : Type} {r : Except ε α} (h : r.isOk = true) :
    ∃ a, r = .ok a := by
  cases r with
  | ok a => exact ⟨a, rfl⟩
  | error e => cases h

theorem toOption_eq_some {ε α : Type} {x : Except ε α} {a : α} :
    x.toOption = some a ↔ x = .ok a := by
  cases x with
  | ok b => simp [Except.toOption]
  | error e => simp [Except.toOption]

theorem except_bind_eq_ok {ε α β : Type} {x : Except ε α} {f : α → Except ε β} {b : β} :
    (x >>= f) = .ok b ↔ ∃ a, x = .ok a ∧ f a = .ok b := by
  cases x with
  | ok a => exact ⟨fun h => ⟨a, rfl, h⟩, fun ⟨_, ha, h⟩ => Except.ok.inj ha ▸ h⟩
  | error e => exact ⟨nofun, fun ⟨_, ha, _⟩ => nomatch ha⟩

theorem except_bind_eq_error {ε α β : Type} {x : Except ε α} {f : α → Except ε β} {e : ε} :
    x >>= f = .error e ↔ x = .error e ∨ ∃ a, x = .ok a ∧ f a = .error e := by
  cases x with
  | error e' => simp [bind, Except.bind]
  | ok a => simp [bind, Except.bind]

theorem exists_of_mapM {ε α β : Type} {f : α → Except ε β} {l : List α} {m : List β}
    (h : l.mapM f = .ok m) {a : α} (ha : a ∈ l) : ∃ b, f a = .ok b ∧ b ∈ m := by
  induction l generalizing m with
  | nil => cases ha
  | cons c l ih =>
    rw [List.mapM_cons] at h
    cases hc : f c with
    | error e => rw [hc] at h; cases h
    | ok b =>
      cases hrest : l.mapM f with
      | error e => rw [hc, hrest] at h; cases h
      | ok bs =>
        rw [hc, hrest] at h
        cases h
        rcases List.mem_cons.1 ha with rfl | ha
        · exact ⟨b, hc, List.mem_cons_self⟩
        · obtain ⟨b', hb', hmem⟩ := ih hrest ha
          exact ⟨b', hb', List.mem_cons_of_mem _ hmem⟩

theorem exists_mem_of_mapM {ε α β : Type} {f : α → Except ε β} {l : List α} {m : List β}
    (h : l.mapM f = .ok m) {b : β} (hb : b ∈ m) : ∃ a ∈ l, f a = .ok b := by
  induction l generalizing m with
  | nil =>
    rw [List.mapM_nil] at h
    cases h
    cases hb
  | cons a l ih =>
    rw [List.mapM_cons, except_bind_eq_ok] at h
    obtain ⟨c, hc, h⟩ := h
    obtain ⟨cs, hcs, h⟩ := except_bind_eq_ok.1 h
    cases h
    rcases List.mem_cons.1 hb with rfl | hb
    · exact ⟨a, List.mem_cons_self, hc⟩
    · obtain ⟨a', ha', hf⟩ := ih hcs hb
      exact ⟨a', List.mem_cons_of_mem _ ha', hf⟩

theorem length_of_mapM {ε α β : Type} {f : α → Except ε β} {l : List α} {m : List β}
    (h : l.mapM f = .ok m) : m.length = l.length := by
  induction l generalizing m with
  | nil =>
    rw [List.mapM_nil] at h
    cases h
    rfl
  | cons a l ih =>
    rw [List.mapM_cons, except_bind_eq_ok] at h
    obtain ⟨b, -, h⟩ := h
    obtain ⟨bs, hbs, h⟩ := except_bind_eq_ok.1 h
    cases h
    rw [List.length_cons, List.length_cons, ih hbs]

theorem mapM_mono {ε α β : Type} {f g : α → Except ε β} {l : List α} {m : List β}
    (h : ∀ a ∈ l, ∀ b, f a = .ok b → g a = .ok b) (hm : l.mapM f = .ok m) : l.mapM g = .ok m := by
  induction l generalizing m with
  | nil => exact hm
  | cons a l ih =>
    rw [List.mapM_cons] at hm ⊢
    obtain ⟨b, hb, hm⟩ := except_bind_eq_ok.1 hm
    obtain ⟨bs, hbs, hm⟩ := except_bind_eq_ok.1 hm
    refine except_bind_eq_ok.2 ⟨b, h a List.mem_cons_self b hb, except_bind_eq_ok.2 ⟨bs, ?_, hm⟩⟩
    exact ih (fun a' ha' => h a' (List.mem_cons_of_mem _ ha')) hbs

theorem mapM_ok {ε α β : Type} {f : α → Except ε β} {g : α → β} {l : List α}
    (h : ∀ a ∈ l, f a = .ok (g a)) : l.mapM f = .ok (l.map g) := by
  induction l with
  | nil => rfl
  | cons a l ih =>
    rw [List.mapM_cons, h a List.mem_cons_self, ih fun b hb => h b (List.mem_cons_of_mem _ hb)]
    rfl

theorem forM_eq_ok {ε α : Type} {f : α → Except ε Unit} {l : List α} :
    l.forM f = .ok () ↔ ∀ a ∈ l, f a = .ok () := by
  induction l with
  | nil => exact ⟨fun _ _ ha => absurd ha List.not_mem_nil, fun _ => rfl⟩
  | cons a l ih =>
    have hcons : (a :: l).forM f = f a >>= fun _ => l.forM f := rfl
    rw [hcons, except_bind_eq_ok, List.forall_mem_cons, ← ih]
    exact ⟨fun ⟨_, ha, hl⟩ => ⟨ha, hl⟩, fun ⟨ha, hl⟩ => ⟨(), ha, hl⟩⟩

theorem exists_of_mapM_error {ε α β : Type} {f : α → Except ε β} {l : List α} {e : ε}
    (h : l.mapM f = .error e) : ∃ a ∈ l, f a = .error e := by
  induction l with
  | nil =>
    rw [List.mapM_nil] at h
    cases h
  | cons a l ih =>
    rw [List.mapM_cons] at h
    rcases except_bind_eq_error.1 h with ha | ⟨b, -, h⟩
    · exact ⟨a, List.mem_cons_self, ha⟩
    · rcases except_bind_eq_error.1 h with hl | ⟨bs, -, h⟩
      · obtain ⟨a', ha', hf⟩ := ih hl
        exact ⟨a', List.mem_cons_of_mem _ ha', hf⟩
      · cases h

theorem mapM_drop {ε α β : Type} {f : α → Except ε β} {l : List α} {m : List β} (n : Nat)
    (h : l.mapM f = .ok m) : (l.drop n).mapM f = .ok (m.drop n) := by
  induction l generalizing m n with
  | nil =>
    rw [List.mapM_nil] at h
    cases h
    rw [List.drop_nil, List.drop_nil]
    rfl
  | cons a l ih =>
    cases n with
    | zero => exact h
    | succ n =>
      rw [List.mapM_cons] at h
      obtain ⟨b, -, h⟩ := except_bind_eq_ok.1 h
      obtain ⟨bs, hbs, h⟩ := except_bind_eq_ok.1 h
      cases h
      exact ih n hbs

theorem mapError_eq_ok {ε ε' α : Type} {f : ε → ε'} {x : Except ε α} {a : α} :
    x.mapError f = .ok a ↔ x = .ok a := by
  cases x with
  | ok b =>
    rw [Except.mapError, Except.ok.injEq, Except.ok.injEq]
  | error e =>
    refine ⟨fun h => ?_, fun h => ?_⟩
    · cases h
    · cases h

theorem mapError_eq_error {ε ε' α : Type} {f : ε → ε'} {x : Except ε α} {e' : ε'} :
    x.mapError f = .error e' ↔ ∃ e, x = .error e ∧ f e = e' := by
  cases x with
  | ok b =>
    refine ⟨fun h => ?_, fun ⟨_, h, _⟩ => ?_⟩
    · cases h
    · cases h
  | error e => simp [Except.mapError]

theorem map_eq_error {ε α β : Type} {f : α → β} {x : Except ε α} {e : ε} :
    x.map f = .error e ↔ x = .error e := by
  cases x <;> simp [Except.map]

theorem map_eq_ok {ε α β : Type} {f : α → β} {x : Except ε α} {b : β} :
    x.map f = .ok b ↔ ∃ a, x = .ok a ∧ f a = b := by
  cases x with
  | ok a =>
    rw [Except.map, Except.ok.injEq]
    exact ⟨fun h => ⟨a, rfl, h⟩, fun ⟨_, ha, h⟩ => Except.ok.inj ha ▸ h⟩
  | error e =>
    refine ⟨fun h => ?_, fun h => ?_⟩
    · cases h
    · obtain ⟨a, ha, -⟩ := h
      cases ha

/-! ### Panics -/

section Calm

variable {ε ε' α β : Type}

/-- A computation does not panic. -/
def Calm (x : Except (Fault ε) α) : Prop := x ≠ .error .panic

theorem calm_ok (a : α) : Calm (.ok a : Except (Fault ε) α) := by
  intro h
  cases h

theorem calm_err (e : ε) : Calm (.error (.err e) : Except (Fault ε) α) := by
  intro h
  cases h

theorem calm_mapError (x : Except ε α) : Calm (x.mapError Fault.err) := by
  intro h
  obtain ⟨e, -, he⟩ := mapError_eq_error.1 h
  cases he

theorem Calm.bind {x : Except (Fault ε) α} {f : α → Except (Fault ε) β} (hx : Calm x)
    (hf : ∀ a, x = .ok a → Calm (f a)) : Calm (x >>= f) := by
  intro h
  rcases except_bind_eq_error.1 h with h | ⟨a, ha, h⟩
  · exact hx h
  · exact hf a ha h

end Calm

/-- An operation on states `σ` with errors `ε` and results `α`. -/
structure Op (σ : Type) [Preorder σ] (ε α : Type) where
  /-- The outcome and the state left behind. -/
  run : σ → Except (Fault ε) α × σ
  /-- The state left behind is above the one found. -/
  grows : ∀ s, s ≤ (run s).2

namespace Op

variable {σ ε α β : Type} [Preorder σ]

/-! ### The operations everything is built from -/

/-- Succeed with `a`. -/
protected def pure (a : α) : Op σ ε α := ⟨fun s => (.ok a, s), fun s => le_refl s⟩

/-- Run `x`, then `f` on its result unless `x` ended early. -/
protected def bind (x : Op σ ε α) (f : α → Op σ ε β) : Op σ ε β where
  run s := match x.run s with
    | (.ok a, s₁) => (f a).run s₁
    | (.error e, s₁) => (.error e, s₁)
  grows s := by
    cases h : x.run s with
    | mk r s₁ =>
      have h₁ : s ≤ s₁ := by simpa [h] using x.grows s
      cases r with
      | ok a => exact h₁.trans ((f a).grows s₁)
      | error e => exact h₁

instance : Monad (Op σ ε) where
  pure := Op.pure
  bind := Op.bind

/-- End with an error. -/
def throw (e : ε) : Op σ ε α := ⟨fun s => (.error (.err e), s), fun s => le_refl s⟩

/-- End with a panic. -/
def panic : Op σ ε α := ⟨fun s => (.error .panic, s), fun s => le_refl s⟩

/-- A computation that only looks at the state. -/
def reads (f : σ → Except ε α) : Op σ ε α :=
  ⟨fun s => ((f s).mapError .err, s), fun s => le_refl s⟩

/-- A computation that only looks at the state and may panic. -/
def inspects (f : σ → Except (Fault ε) α) : Op σ ε α := ⟨fun s => (f s, s), fun s => le_refl s⟩

/-- A computation that does not look at the state. -/
def lift (r : Except ε α) : Op σ ε α := reads fun _ => r

/-- Look at the state. -/
def get : Op σ ε σ := reads .ok

/-- Run an operation and hand its error, if it ends with one, to the caller as a value. -/
def attempt (x : Op σ ε α) : Op σ ε (Except ε α) where
  run s := match x.run s with
    | (.ok a, s₁) => (.ok (.ok a), s₁)
    | (.error (.err e), s₁) => (.ok (.error e), s₁)
    | (.error .panic, s₁) => (.error .panic, s₁)
  grows s := by
    have h := x.grows s
    split <;> simp_all

/-! ### Running -/

@[simp] theorem run_pure (a : α) (s : σ) : (pure a : Op σ ε α).run s = (.ok a, s) := rfl

theorem run_bind (x : Op σ ε α) (f : α → Op σ ε β) (s : σ) :
    (x >>= f).run s = match x.run s with
      | (.ok a, s₁) => (f a).run s₁
      | (.error e, s₁) => (.error e, s₁) := rfl

@[simp] theorem run_throw (e : ε) (s : σ) :
    (throw e : Op σ ε α).run s = (.error (.err e), s) := rfl

@[simp] theorem run_panic (s : σ) : (panic : Op σ ε α).run s = (.error .panic, s) := rfl

@[simp] theorem run_reads (f : σ → Except ε α) (s : σ) :
    (reads f).run s = ((f s).mapError .err, s) := rfl

@[simp] theorem run_inspects (f : σ → Except (Fault ε) α) (s : σ) :
    (inspects f).run s = (f s, s) := rfl

@[simp] theorem run_lift (r : Except ε α) (s : σ) :
    (lift r : Op σ ε α).run s = (r.mapError .err, s) := rfl

@[simp] theorem run_get (s : σ) : (get : Op σ ε σ).run s = (.ok s, s) := rfl

theorem le_of_run {x : Op σ ε α} {s s' : σ} {r : Except (Fault ε) α} (h : x.run s = (r, s')) :
    s ≤ s' := by
  have := x.grows s
  rwa [h] at this

omit [Preorder σ] in
theorem exists_of_isOk {r : Except (Fault ε) α × σ} (h : r.1.isOk = true) :
    ∃ a, r = (.ok a, r.2) := by
  obtain ⟨_ | a, s⟩ := r
  · cases h
  · exact ⟨a, rfl⟩

theorem run_bind_of_ok {x : Op σ ε α} {s s₁ : σ} {a : α} (h : x.run s = (.ok a, s₁))
    (f : α → Op σ ε β) : (x >>= f).run s = (f a).run s₁ := by
  rw [run_bind, h]

theorem run_bind_of_error {x : Op σ ε α} {s s₁ : σ} {e : Fault ε}
    (h : x.run s = (.error e, s₁)) (f : α → Op σ ε β) :
    (x >>= f).run s = (.error e, s₁) := by
  rw [run_bind, h]

/-- What the first part of a sequence leaves stays. -/
theorem le_run_bind (x : Op σ ε α) (f : α → Op σ ε β) (s : σ) :
    (x.run s).2 ≤ ((x >>= f).run s).2 := by
  rw [run_bind]
  cases x.run s with
  | mk r s₁ =>
    cases r with
    | error e => exact le_refl s₁
    | ok a => exact (f a).grows s₁

/-- **A sequence succeeds exactly when both parts do.** -/
theorem bind_eq_ok {x : Op σ ε α} {f : α → Op σ ε β} {s s' : σ} {b : β} :
    (x >>= f).run s = (.ok b, s') ↔
      ∃ a s₁, x.run s = (.ok a, s₁) ∧ (f a).run s₁ = (.ok b, s') := by
  rw [run_bind]
  cases h : x.run s with
  | mk r s₁ =>
    cases r with
    | ok a => simp
    | error e => simp

theorem pure_eq_ok {a b : α} {s s' : σ} :
    (pure a : Op σ ε α).run s = (.ok b, s') ↔ a = b ∧ s = s' := by
  simp

theorem reads_eq_ok {f : σ → Except ε α} {s s' : σ} {a : α} :
    (reads f).run s = (.ok a, s') ↔ f s = .ok a ∧ s = s' := by
  rw [run_reads]
  cases f s <;> simp [Except.mapError]

theorem inspects_eq_ok {f : σ → Except (Fault ε) α} {s s' : σ} {a : α} :
    (inspects f).run s = (.ok a, s') ↔ f s = .ok a ∧ s = s' := by
  rw [run_inspects, Prod.mk.injEq]

theorem lift_eq_ok {r : Except ε α} {s s' : σ} {a : α} :
    (lift r : Op σ ε α).run s = (.ok a, s') ↔ r = .ok a ∧ s = s' :=
  reads_eq_ok

theorem attempt_run_snd (x : Op σ ε α) (s : σ) : (x.attempt.run s).2 = (x.run s).2 := by
  simp only [attempt]
  split <;> simp_all

/-! ### Relations that operations keep to -/

/-- The state left behind stands in a relation to the one found, however the operation ends. -/
def Keeps (R : σ → σ → Prop) (x : Op σ ε α) : Prop := ∀ s, R s (x.run s).2

section Keeps

variable {R : σ → σ → Prop}

theorem Keeps.reads [Std.Refl R] (f : σ → Except ε α) : Keeps R (reads f) :=
  fun s => Std.Refl.refl s

theorem Keeps.inspects [Std.Refl R] (f : σ → Except (Fault ε) α) : Keeps R (inspects f) :=
  fun s => Std.Refl.refl s

theorem Keeps.pure [Std.Refl R] (a : α) : Keeps R (pure a : Op σ ε α) := fun s => Std.Refl.refl s

theorem Keeps.throw [Std.Refl R] (e : ε) : Keeps R (throw e : Op σ ε α) :=
  fun s => Std.Refl.refl s

theorem Keeps.panic [Std.Refl R] : Keeps R (panic : Op σ ε α) := fun s => Std.Refl.refl s

theorem Keeps.bind [IsTrans σ R] {x : Op σ ε α} {f : α → Op σ ε β} (hx : Keeps R x)
    (hf : ∀ a, Keeps R (f a)) : Keeps R (x >>= f) := by
  intro s
  have hs := hx s
  rw [run_bind]
  cases h : x.run s with
  | mk r s₁ =>
    rw [h] at hs
    cases r with
    | error e => exact hs
    | ok a => exact IsTrans.trans _ _ _ hs (hf a s₁)

theorem Keeps.foldlM {γ : Type} [Std.Refl R] [IsTrans σ R] {f : β → γ → Op σ ε β}
    (hf : ∀ b c, Keeps R (f b c)) (cs : List γ) (b : β) : Keeps R (cs.foldlM f b) := by
  induction cs generalizing b with
  | nil => exact .pure b
  | cons c cs ih =>
    rw [List.foldlM_cons]
    exact (hf b c).bind ih

end Keeps

/-! ### What holds however an operation ends -/

/-- If the state left behind meets the condition `C`, then `K` holds of it and of the result if
there is one, and `Q` of it otherwise. -/
structure Ensures (C : σ → Prop) (x : Op σ ε α) (s : σ) (Q : σ → Prop) (K : α → σ → Prop) :
    Prop where
  ok : ∀ {a s'}, x.run s = (.ok a, s') → C s' → K a s'
  error : ∀ {e s'}, x.run s = (.error e, s') → C s' → Q s'

section Ensures

variable {C Q : σ → Prop} {s : σ}

theorem Ensures.inspects {f : σ → Except (Fault ε) α} {K : α → σ → Prop} (hQ : Q s)
    (hK : ∀ a, f s = .ok a → K a s) : (inspects f).Ensures C s Q K := by
  refine ⟨fun hrun _ => ?_, fun hrun _ => ?_⟩
  · obtain ⟨ha, rfl⟩ := inspects_eq_ok.1 hrun
    exact hK _ ha
  · rw [run_inspects] at hrun
    exact (Prod.mk.inj hrun).2 ▸ hQ

theorem Ensures.reads {f : σ → Except ε α} {K : α → σ → Prop} (hQ : Q s)
    (hK : ∀ a, f s = .ok a → K a s) : (reads f).Ensures C s Q K :=
  Ensures.inspects (f := fun s => (f s).mapError .err) hQ fun a ha => hK a (mapError_eq_ok.1 ha)

theorem Ensures.pure {a : α} {K : α → σ → Prop} (h : K a s) :
    (pure a : Op σ ε α).Ensures C s Q K := by
  refine ⟨fun hrun _ => ?_, fun hrun _ => ?_⟩
  · obtain ⟨rfl, rfl⟩ := pure_eq_ok.1 hrun
    exact h
  · cases hrun

theorem Ensures.throw {e : ε} {K : α → σ → Prop} (h : Q s) :
    (throw e : Op σ ε α).Ensures C s Q K := by
  refine ⟨fun hrun _ => ?_, fun hrun _ => ?_⟩
  · cases hrun
  · exact (Prod.mk.inj hrun).2 ▸ h

theorem Ensures.panic {K : α → σ → Prop} (h : Q s) : (panic : Op σ ε α).Ensures C s Q K := by
  refine ⟨fun hrun _ => ?_, fun hrun _ => ?_⟩
  · cases hrun
  · exact (Prod.mk.inj hrun).2 ▸ h

/-- An operation that keeps to a relation ensures what follows from it. -/
theorem Ensures.of_keeps {R : σ → σ → Prop} {x : Op σ ε α} (hx : x.Keeps R)
    (hQ : ∀ s', R s s' → Q s') : x.Ensures C s Q fun _ => Q := by
  have hs := hx s
  refine ⟨fun hrun _ => hQ _ ?_, fun hrun _ => hQ _ ?_⟩
  · rwa [hrun] at hs
  · rwa [hrun] at hs

theorem Ensures.mono {x : Op σ ε α} {Q' : σ → Prop} {K K' : α → σ → Prop}
    (h : x.Ensures C s Q K) (hQ : ∀ s', Q s' → Q' s') (hK : ∀ a s', C s' → K a s' → K' a s') :
    x.Ensures C s Q' K' :=
  ⟨fun hrun hC => hK _ _ hC (h.ok hrun hC), fun hrun hC => hQ _ (h.error hrun hC)⟩

/-- **The rule for sequences.**  Earlier states inherit the condition. -/
theorem Ensures.bind (hC : ∀ s s' : σ, s ≤ s' → C s' → C s) {x : Op σ ε α} {f : α → Op σ ε β}
    {K : β → σ → Prop} (h : x.Ensures C s Q fun a s' => (f a).Ensures C s' Q K) :
    (x >>= f).Ensures C s Q K := by
  refine ⟨fun hrun hs' => ?_, fun hrun hs' => ?_⟩
  · obtain ⟨a, s₁, hx, hf⟩ := bind_eq_ok.1 hrun
    exact (h.ok hx (hC _ _ (le_of_run hf) hs')).ok hf hs'
  · rw [run_bind] at hrun
    cases hx : x.run s with
    | mk r s₁ =>
      rw [hx] at hrun
      cases r with
      | error e =>
        cases hrun
        exact h.error hx hs'
      | ok a => exact (h.ok hx (hC _ _ (le_of_run hrun) hs')).error hrun hs'

/-- **The rule for folds.**  The motive sees what is left to fold. -/
theorem Ensures.foldlM (hC : ∀ s s' : σ, s ≤ s' → C s' → C s) {γ : Type} {f : β → γ → Op σ ε β}
    {I : List γ → β → σ → Prop}
    (hstep : ∀ c cs b s, I (c :: cs) b s → (f b c).Ensures C s Q (I cs)) :
    ∀ {cs : List γ} {b : β} {s : σ}, I cs b s → (cs.foldlM f b).Ensures C s Q (I [])
  | [], _, _, h => .pure h
  | c :: cs, b, s, h => by
    rw [List.foldlM_cons]
    refine .bind hC ((hstep c cs b s h).mono (fun _ hQ => hQ) fun b' s' _ h' => ?_)
    exact Ensures.foldlM hC hstep h'

/-- What holds of the state however the operation ends. -/
theorem Ensures.state {x : Op σ ε α} (h : x.Ensures C s Q fun _ => Q) (hC : C (x.run s).2) :
    Q (x.run s).2 := by
  cases hrun : x.run s with
  | mk r s' =>
    rw [hrun] at hC
    cases r with
    | ok a => exact h.ok hrun hC
    | error e => exact h.error hrun hC

end Ensures

/-! ### What returns -/

/-- The operation does not panic; `K` holds of the state left behind and of the result if there is
one, and `Q` of it otherwise. -/
structure Returns (x : Op σ ε α) (s : σ) (Q : σ → Prop) (K : α → σ → Prop) : Prop where
  ok : ∀ {a s'}, x.run s = (.ok a, s') → K a s'
  error : ∀ {e s'}, x.run s = (.error e, s') → e ≠ .panic ∧ Q s'

section Returns

variable {s : σ} {Q : σ → Prop}

theorem Returns.pure {a : α} {K : α → σ → Prop} (h : K a s) :
    (pure a : Op σ ε α).Returns s Q K := by
  refine ⟨fun hrun => ?_, fun hrun => ?_⟩
  · obtain ⟨rfl, rfl⟩ := pure_eq_ok.1 hrun
    exact h
  · cases hrun

theorem Returns.throw {e : ε} {K : α → σ → Prop} (h : Q s) :
    (throw e : Op σ ε α).Returns s Q K := by
  refine ⟨fun hrun => ?_, fun hrun => ?_⟩
  · cases hrun
  · cases hrun
    exact ⟨by simp, h⟩

/-- An operation whose result is known. -/
theorem Returns.of_ok {x : Op σ ε α} {a : α} {s' : σ} {K : α → σ → Prop}
    (hrun : x.run s = (.ok a, s')) (hK : K a s') : x.Returns s Q K := by
  refine ⟨fun h => ?_, fun h => ?_⟩
  · cases hrun.symm.trans h
    exact hK
  · cases hrun.symm.trans h

/-- An operation that is known to fail. -/
theorem Returns.of_err {x : Op σ ε α} {e : ε} {s' : σ} {K : α → σ → Prop}
    (hrun : x.run s = (.error (.err e), s')) (hQ : Q s') : x.Returns s Q K := by
  refine ⟨fun h => ?_, fun h => ?_⟩
  · cases hrun.symm.trans h
  · cases hrun.symm.trans h
    exact ⟨by simp, hQ⟩

theorem Returns.inspects {f : σ → Except (Fault ε) α} {K : α → σ → Prop} (hf : Calm (f s))
    (hQ : Q s) (hK : ∀ a, f s = .ok a → K a s) : (inspects f).Returns s Q K := by
  refine ⟨fun hrun => ?_, fun hrun => ?_⟩
  · obtain ⟨ha, rfl⟩ := inspects_eq_ok.1 hrun
    exact hK _ ha
  · obtain ⟨he, rfl⟩ := Prod.mk.inj hrun
    exact ⟨fun hpanic => hf (hpanic ▸ he), hQ⟩

theorem Returns.reads {f : σ → Except ε α} {K : α → σ → Prop} (hQ : Q s)
    (hK : ∀ a, f s = .ok a → K a s) : (reads f).Returns s Q K :=
  Returns.inspects (calm_mapError _) hQ fun a ha => hK a (mapError_eq_ok.1 ha)

theorem Returns.mono {x : Op σ ε α} {Q' : σ → Prop} {K K' : α → σ → Prop}
    (h : x.Returns s Q K) (hQ : ∀ s', Q s' → Q' s') (hK : ∀ a s', K a s' → K' a s') :
    x.Returns s Q' K' :=
  ⟨fun hrun => hK _ _ (h.ok hrun), fun hrun => (h.error hrun).imp_right (hQ _)⟩

/-- What holds in either case holds after the operation. -/
theorem Returns.holds {x : Op σ ε α} (h : x.Returns s Q fun _ => Q) : Q (x.run s).2 := by
  cases hx : x.run s with
  | mk r s₁ =>
    cases r with
    | error e => exact (h.error hx).2
    | ok a => exact h.ok hx

/-- **The rule for sequences.** -/
theorem Returns.bind {x : Op σ ε α} {f : α → Op σ ε β} {K : β → σ → Prop}
    (h : x.Returns s Q fun a s' => (f a).Returns s' Q K) : (x >>= f).Returns s Q K := by
  refine ⟨fun hrun => ?_, fun hrun => ?_⟩
  · obtain ⟨a, s₁, hx, hf⟩ := bind_eq_ok.1 hrun
    exact (h.ok hx).ok hf
  · rw [run_bind] at hrun
    cases hx : x.run s with
    | mk r s₁ =>
      rw [hx] at hrun
      cases r with
      | error e =>
        cases hrun
        exact h.error hx
      | ok a => exact (h.ok hx).error hrun

end Returns

/-! ### Folds -/

/-- **A fold keeps what each of its steps keeps.**  The motive `I` sees what is left to fold;
a step may rely on a condition `C` of the state it ends in, when `C` is inherited by earlier
states and holds at the end of the fold. -/
theorem foldlM_induction {γ : Type} {f : β → γ → Op σ ε β} {I : List γ → β → σ → Prop}
    {C : σ → Prop} (hC : ∀ s s' : σ, s ≤ s' → C s' → C s)
    (hstep : ∀ c cs b s b' s', I (c :: cs) b s → (f b c).run s = (.ok b', s') → C s' →
      I cs b' s')
    {cs : List γ} {b b' : β} {s s' : σ} (h₀ : I cs b s)
    (h : (cs.foldlM f b).run s = (.ok b', s')) (hs' : C s') : I [] b' s' := by
  induction cs generalizing b s with
  | nil =>
    rw [List.foldlM_nil, pure_eq_ok] at h
    obtain ⟨rfl, rfl⟩ := h
    exact h₀
  | cons c cs ih =>
    rw [List.foldlM_cons, bind_eq_ok] at h
    obtain ⟨b₁, s₁, h₁, h₂⟩ := h
    exact ih (hstep c cs b s b₁ s₁ h₀ h₁ (hC _ _ (le_of_run h₂) hs')) h₂

end Op

end Lib
