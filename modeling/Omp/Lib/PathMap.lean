import Mathlib.Data.List.Infix
import Mathlib.Data.List.Perm.Basic
import Mathlib.Data.List.Sort

/-!
# Leaves of a directory tree, and edits of them

A directory tree without empty directories is determined by its leaves: the map from paths,
which are lists of names, to what is stored there.  Writing at a path replaces whatever was at
or below it and is refused when a leaf stands strictly above it; deleting a path removes it
and everything below.

This module develops these two edits on maps from paths, and lists of edits.  The question
it settles is when the order of a list of edits matters.

## Main definitions

* `Leaves` : the leaf map of a tree.
* `Leaves.put`, `Leaves.del` : the two edits.
* `Leaves.apply`, `Leaves.applyAll` : one edit that may be refused, and a list of them.
* `Leaves.Races`, `Leaves.Doomed` : the two ways the order of a list of edits is decided.

## Main results

* `Leaves.applyAll_frame` : an edit list changes nothing at a path no edit is at or above.
* `Leaves.applyAll_perm_iff` : the outcome is the same in every order exactly when no two
  edits race, or some write is refused in every order.
-/

namespace Lib

/-- The leaves of a tree: what is stored at a path, where a leaf stands. -/
abbrev Leaves (α β : Type) := List α → Option β

/-- An edit: a path, and the new leaf, or nothing for a deletion. -/
abbrev Edit (α β : Type) := List α × Option β

namespace Leaves

variable {α β : Type}

/-- The tree without leaves. -/
def empty : Leaves α β := fun _ => none

/-- Some leaf stands strictly above `p`. -/
def Blocked (L : Leaves α β) (p : List α) : Prop :=
  ∃ q, q <+: p ∧ q ≠ p ∧ L q ≠ none

/-- The leaves below the name `a`. -/
def child (L : Leaves α β) (a : α) : Leaves α β := fun q => L (a :: q)

/-- No leaf stands strictly above another. -/
def PrefixFree (L : Leaves α β) : Prop :=
  ∀ p q, p <+: q → L p ≠ none → L q ≠ none → p = q

@[simp] theorem child_apply (L : Leaves α β) (a : α) (q : List α) : L.child a q = L (a :: q) :=
  rfl

theorem not_blocked_empty (p : List α) : ¬ (empty : Leaves α β).Blocked p := by
  rintro ⟨q, -, -, h⟩
  exact h rfl

theorem not_blocked_nil (L : Leaves α β) : ¬ L.Blocked [] := by
  rintro ⟨q, hq, hne, -⟩
  exact hne (List.prefix_nil.1 hq)

/-- A leaf map is determined by what stands at the root and below each name. -/
theorem ext_child {L M : Leaves α β} (hroot : L [] = M []) (h : ∀ a, L.child a = M.child a) :
    L = M := by
  funext q
  cases q with
  | nil => exact hroot
  | cons a q => exact congrFun (h a) q

theorem blocked_cons {L : Leaves α β} (hroot : L [] = none) (a : α) (p : List α) :
    L.Blocked (a :: p) ↔ (L.child a).Blocked p := by
  constructor
  · rintro ⟨q, hq, hne, hv⟩
    cases q with
    | nil => exact absurd hroot hv
    | cons b q =>
      obtain ⟨rfl, hqp⟩ := List.cons_prefix_cons.1 hq
      exact ⟨q, hqp, fun h => hne (by rw [h]), hv⟩
  · rintro ⟨q, hq, hne, hv⟩
    exact ⟨a :: q, List.cons_prefix_cons.2 ⟨rfl, hq⟩, fun h => hne (List.cons.inj h).2, hv⟩

variable [DecidableEq α]

/-! ### The two edits -/

/-- Put a leaf at `p`, in place of everything at or below `p`. -/
def put (L : Leaves α β) (p : List α) (v : β) : Leaves α β :=
  fun q => if q = p then some v else if p <+: q then none else L q

/-- Remove everything at or below `p`. -/
def del (L : Leaves α β) (p : List α) : Leaves α β :=
  fun q => if p <+: q then none else L q

/-! ### Reading an edited map -/

@[simp] theorem put_self (L : Leaves α β) (p : List α) (v : β) : L.put p v p = some v :=
  if_pos rfl

theorem put_below (L : Leaves α β) {p q : List α} (v : β) (h : p <+: q) (hne : q ≠ p) :
    L.put p v q = none := by
  simp [put, h, hne]

theorem put_frame (L : Leaves α β) {p q : List α} (v : β) (h : ¬ p <+: q) :
    L.put p v q = L q := by
  have hne : q ≠ p := fun he => h (he ▸ List.prefix_rfl)
  simp [put, h, hne]

theorem del_below (L : Leaves α β) {p q : List α} (h : p <+: q) : L.del p q = none := if_pos h

theorem del_frame (L : Leaves α β) {p q : List α} (h : ¬ p <+: q) : L.del p q = L q := if_neg h

@[simp] theorem del_empty (p : List α) : (empty : Leaves α β).del p = empty := by
  funext q
  simp [del, empty]

/-- Deleting where nothing stands at or below changes nothing. -/
theorem del_eq_self {L : Leaves α β} {p : List α} (h : ∀ q, p <+: q → L q = none) :
    L.del p = L := by
  funext q
  by_cases hq : p <+: q
  · rw [del_below L hq, h q hq]
  · rw [del_frame L hq]

/-- **A write on free ground is undone by a deletion.** -/
theorem del_put {L : Leaves α β} {p : List α} (v : β) (h : ∀ q, p <+: q → L q = none) :
    (L.put p v).del p = L := by
  funext q
  by_cases hq : p <+: q
  · rw [del_below _ hq, h q hq]
  · rw [del_frame _ hq, put_frame _ v hq]

theorem PrefixFree.put {L : Leaves α β} (hL : L.PrefixFree) {p : List α} (v : β)
    (hb : ¬ L.Blocked p) : (L.put p v).PrefixFree := by
  intro q r hqr hq hr
  by_cases hpr : p <+: r
  · have hrp : r = p := by
      by_contra hne
      exact hr (put_below L v hpr hne)
    subst hrp
    by_cases hpq : r <+: q
    · exact (hqr.eq_of_length (le_antisymm hqr.length_le hpq.length_le))
    · by_contra hne
      rw [put_frame L v hpq] at hq
      exact hb ⟨q, hqr, hne, hq⟩
  · have hpq : ¬ p <+: q := fun h => hpr (h.trans hqr)
    rw [put_frame L v hpr] at hr
    rw [put_frame L v hpq] at hq
    exact hL q r hqr hq hr

theorem PrefixFree.del {L : Leaves α β} (hL : L.PrefixFree) (p : List α) :
    (L.del p).PrefixFree := by
  intro q r hqr hq hr
  have hpr : ¬ p <+: r := fun h => hr (del_below L h)
  have hpq : ¬ p <+: q := fun h => hpr (h.trans hqr)
  rw [del_frame L hpr] at hr
  rw [del_frame L hpq] at hq
  exact hL q r hqr hq hr

/-! ### One name at a time -/

theorem child_put_self (L : Leaves α β) (a : α) (p : List α) (v : β) :
    (L.put (a :: p) v).child a = (L.child a).put p v := by
  funext q
  simp [put, List.cons_prefix_cons]

theorem child_put_ne (L : Leaves α β) {a b : α} (h : b ≠ a) (p : List α) (v : β) :
    (L.put (a :: p) v).child b = L.child b := by
  funext q
  simp [put, List.cons_prefix_cons, h, Ne.symm h]

theorem put_cons_nil (L : Leaves α β) (a : α) (p : List α) (v : β) :
    L.put (a :: p) v [] = L [] := put_frame L v (by simp)

theorem del_cons_nil (L : Leaves α β) (a : α) (p : List α) : L.del (a :: p) [] = L [] :=
  del_frame L (by simp)

@[simp] theorem del_nil (L : Leaves α β) : L.del [] = empty := by
  funext q
  simp [del, empty]

theorem child_del_self (L : Leaves α β) (a : α) (p : List α) :
    (L.del (a :: p)).child a = (L.child a).del p := by
  funext q
  simp [del, List.cons_prefix_cons]

theorem child_del_ne (L : Leaves α β) {a b : α} (h : b ≠ a) (p : List α) :
    (L.del (a :: p)).child b = L.child b := by
  funext q
  simp [del, List.cons_prefix_cons, Ne.symm h]

/-! ### Lists of edits -/

section Apply

variable (Ok : List α → Prop)

open Classical in
/-- Carry out one edit.  A write is refused at a path that is not `Ok` and below a leaf. -/
noncomputable def apply (L : Leaves α β) : Edit α β → Option (Leaves α β)
  | (p, some v) => if Ok p ∧ ¬ L.Blocked p then some (L.put p v) else none
  | (p, none) => some (L.del p)

/-- Carry out a list of edits from the left; one refusal refuses the list. -/
noncomputable def applyAll (L : Leaves α β) (es : List (Edit α β)) : Option (Leaves α β) :=
  es.foldl (fun o e => o.bind fun M => M.apply Ok e) (some L)

variable {Ok}

theorem apply_put_of {L : Leaves α β} {p : List α} (v : β) (hok : Ok p) (hb : ¬ L.Blocked p) :
    L.apply Ok (p, some v) = some (L.put p v) := if_pos ⟨hok, hb⟩

theorem apply_put_eq_none {L : Leaves α β} {p : List α} {v : β} :
    L.apply Ok (p, some v) = none ↔ ¬ Ok p ∨ L.Blocked p := by
  simp only [apply, ite_eq_right_iff, reduceCtorEq, imp_false, not_and, not_not]
  exact imp_iff_not_or

theorem apply_put_eq_some {L M : Leaves α β} {p : List α} {v : β} :
    L.apply Ok (p, some v) = some M ↔ (Ok p ∧ ¬ L.Blocked p) ∧ L.put p v = M := by
  simp [apply]

@[simp] theorem apply_del (L : Leaves α β) (p : List α) :
    L.apply Ok (p, none) = some (L.del p) := rfl

theorem foldl_bind_none (es : List (Edit α β)) :
    es.foldl (fun o e => o.bind fun M => M.apply Ok e) (none : Option (Leaves α β)) = none := by
  induction es with
  | nil => rfl
  | cons e es ih => exact ih

@[simp] theorem applyAll_nil (L : Leaves α β) : L.applyAll Ok [] = some L := rfl

theorem applyAll_cons (L : Leaves α β) (e : Edit α β) (es : List (Edit α β)) :
    L.applyAll Ok (e :: es) = (L.apply Ok e).bind fun M => M.applyAll Ok es := by
  rw [applyAll, List.foldl_cons, Option.bind_some]
  cases L.apply Ok e with
  | none => exact foldl_bind_none es
  | some M => rfl

theorem applyAll_append (L : Leaves α β) (es fs : List (Edit α β)) :
    L.applyAll Ok (es ++ fs) = (L.applyAll Ok es).bind fun M => M.applyAll Ok fs := by
  induction es generalizing L with
  | nil => rfl
  | cons e es ih =>
    rw [List.cons_append, applyAll_cons, applyAll_cons]
    cases L.apply Ok e with
    | none => rfl
    | some M => exact ih M

/-- An edit changes nothing at a path it is not at or above. -/
theorem apply_frame {L M : Leaves α β} {e : Edit α β} (h : L.apply Ok e = some M) {q : List α}
    (hq : ¬ e.1 <+: q) : M q = L q := by
  obtain ⟨p, v⟩ := e
  cases v with
  | none =>
    obtain rfl : L.del p = M := by simpa using h
    exact del_frame L hq
  | some v =>
    obtain ⟨-, rfl⟩ := apply_put_eq_some.1 h
    exact put_frame L v hq

/-- **An edit list changes nothing at a path no edit is at or above.** -/
theorem applyAll_frame {L M : Leaves α β} {es : List (Edit α β)} (h : L.applyAll Ok es = some M)
    {q : List α} (hq : ∀ e ∈ es, ¬ e.1 <+: q) : M q = L q := by
  induction es generalizing L with
  | nil => rw [applyAll_nil, Option.some.injEq] at h; rw [h]
  | cons e es ih =>
    rw [applyAll_cons, Option.bind_eq_some_iff] at h
    obtain ⟨N, hN, hM⟩ := h
    rw [ih hM fun f hf => hq f (List.mem_cons_of_mem _ hf),
      apply_frame hN (hq e List.mem_cons_self)]

/-- What an edit leaves at its own path. -/
theorem apply_self {L M : Leaves α β} {e : Edit α β} (h : L.apply Ok e = some M) :
    M e.1 = e.2 := by
  obtain ⟨p, v⟩ := e
  cases v with
  | none =>
    obtain rfl : L.del p = M := by simpa using h
    exact del_below L List.prefix_rfl
  | some v =>
    obtain ⟨-, rfl⟩ := apply_put_eq_some.1 h
    exact put_self L p v

/-- **An edit survives when no other edit of the list is at or above its path.** -/
theorem applyAll_apply {L M : Leaves α β} {es : List (Edit α β)}
    (h : L.applyAll Ok es = some M) {e : Edit α β} (he : e ∈ es)
    (hother : ∀ f ∈ es, f.1 <+: e.1 → f = e) : M e.1 = e.2 := by
  induction es generalizing L with
  | nil => cases he
  | cons f es ih =>
    rw [applyAll_cons, Option.bind_eq_some_iff] at h
    obtain ⟨N, hN, hM⟩ := h
    by_cases hin : e ∈ es
    · exact ih hM hin fun g hg => hother g (List.mem_cons_of_mem _ hg)
    · obtain rfl : e = f := (List.mem_cons.1 he).resolve_right hin
      rw [applyAll_frame hM ?_, apply_self hN]
      intro g hg hpre
      exact hin (hother g (List.mem_cons_of_mem _ hg) hpre ▸ hg)

/-- What an edit leaves below its own path. -/
theorem apply_below {L M : Leaves α β} {e : Edit α β} (h : L.apply Ok e = some M) {q : List α}
    (hq : e.1 <+: q) (hne : q ≠ e.1) : M q = none := by
  obtain ⟨p, v⟩ := e
  cases v with
  | none =>
    obtain rfl : L.del p = M := by simpa using h
    exact del_below L hq
  | some v =>
    obtain ⟨-, rfl⟩ := apply_put_eq_some.1 h
    exact put_below L v hq hne

/-- A place where nothing stands stays so under edits that write nowhere below it. -/
theorem apply_bare {L M : Leaves α β} {e : Edit α β} (h : L.apply Ok e = some M) {q : List α}
    (hwrite : e.2 ≠ none → ¬ q <+: e.1) (hL : ∀ q', q <+: q' → L q' = none) :
    ∀ q', q <+: q' → M q' = none := by
  intro q' hq'
  obtain ⟨p, v⟩ := e
  by_cases hpre : p <+: q'
  · cases v with
    | none =>
      obtain rfl : L.del p = M := by simpa using h
      exact del_below L hpre
    | some v =>
      refine apply_below h hpre ?_
      rintro rfl
      exact hwrite (Option.some_ne_none v) hq'
  · rw [apply_frame h hpre]
    exact hL q' hq'

theorem applyAll_bare {L M : Leaves α β} {es : List (Edit α β)} (h : L.applyAll Ok es = some M)
    {q : List α} (hwrites : ∀ e ∈ es, e.2 ≠ none → ¬ q <+: e.1)
    (hL : ∀ q', q <+: q' → L q' = none) : ∀ q', q <+: q' → M q' = none := by
  induction es generalizing L with
  | nil =>
    rw [applyAll_nil, Option.some.injEq] at h
    rwa [← h]
  | cons e es ih =>
    rw [applyAll_cons, Option.bind_eq_some_iff] at h
    obtain ⟨N, hN, hM⟩ := h
    obtain ⟨hwrite, hrest⟩ := List.forall_mem_cons.1 hwrites
    exact ih hM hrest (apply_bare hN hwrite hL)

/-- **A deletion survives when nothing is written at or below its path.** -/
theorem applyAll_del {L M : Leaves α β} {es : List (Edit α β)} (h : L.applyAll Ok es = some M)
    {q : List α} (hq : (q, none) ∈ es) (hwrites : ∀ e ∈ es, e.2 ≠ none → ¬ q <+: e.1) :
    ∀ q', q <+: q' → M q' = none := by
  obtain ⟨fs, gs, rfl⟩ := List.append_of_mem hq
  rw [applyAll_append, Option.bind_eq_some_iff] at h
  obtain ⟨N, -, hM⟩ := h
  rw [applyAll_cons, apply_del, Option.bind_some] at hM
  refine applyAll_bare hM (fun e he => hwrites e ?_) fun q' hq' => del_below N hq'
  exact List.mem_append_right _ (List.mem_cons_of_mem _ he)

/-- What holds of every leaf and of every write of a list holds of every leaf it leaves. -/
theorem forall_of_applyAll {Q : List α → β → Prop} {L M : Leaves α β} {es : List (Edit α β)}
    (h : L.applyAll Ok es = some M) (hL : ∀ p v, L p = some v → Q p v)
    (hes : ∀ e ∈ es, ∀ v, e.2 = some v → Q e.1 v) : ∀ p v, M p = some v → Q p v := by
  induction es generalizing L with
  | nil =>
    rw [applyAll_nil, Option.some.injEq] at h
    rwa [← h]
  | cons e es ih =>
    rw [applyAll_cons, Option.bind_eq_some_iff] at h
    obtain ⟨N, hN, hM⟩ := h
    refine ih hM (fun p v hp => ?_) fun f hf => hes f (List.mem_cons_of_mem _ hf)
    by_cases hpath : p = e.1
    · subst hpath
      rw [apply_self hN] at hp
      exact hes e List.mem_cons_self v hp
    · -- below the path of the edit nothing is left, and elsewhere nothing has changed
      by_cases hpre : e.1 <+: p
      · rw [apply_below hN hpre hpath] at hp
        cases hp
      · rw [apply_frame hN hpre] at hp
        exact hL p v hp

theorem PrefixFree.apply {L M : Leaves α β} (hL : L.PrefixFree) {e : Edit α β}
    (h : L.apply Ok e = some M) : M.PrefixFree := by
  obtain ⟨p, v⟩ := e
  cases v with
  | none =>
    obtain rfl : L.del p = M := by simpa using h
    exact hL.del p
  | some v =>
    obtain ⟨⟨-, hb⟩, rfl⟩ := apply_put_eq_some.1 h
    exact hL.put v hb

/-! ### The order of a list of edits -/

/-- The edit `e` undoes the write `f` when it comes later, and does not when it comes before:
`f` writes at or below the path of `e`, and the two are not the same write. -/
def Races (e f : Edit α β) : Prop := e ≠ f ∧ f.2 ≠ none ∧ e.1 <+: f.1

instance [DecidableEq β] (e f : Edit α β) : Decidable (Races e f) :=
  inferInstanceAs (Decidable (_ ∧ _ ∧ _))

/-- A write at `q` is refused in every order: `q` is no path to write at, or a leaf stands
strictly above it that no deletion of the list removes. -/
def Doomed (Ok : List α → Prop) (L : Leaves α β) (es : List (Edit α β)) (q : List α) : Prop :=
  ¬ Ok q ∨ ∃ r, r <+: q ∧ r ≠ q ∧ L r ≠ none ∧ ∀ p, (p, none) ∈ es → ¬ p <+: r

theorem put_put_comm (L : Leaves α β) {p q : List α} (v w : β) (hpq : ¬ p <+: q)
    (hqp : ¬ q <+: p) : (L.put p v).put q w = (L.put q w).put p v := by
  funext r
  by_cases hp : p <+: r
  · have hq : ¬ q <+: r := fun hq => by
      rcases List.prefix_or_prefix_of_prefix hp hq with h | h
      exacts [hpq h, hqp h]
    rw [put_frame _ w hq]
    by_cases hrp : r = p
    · subst hrp; rw [put_self, put_self]
    · rw [put_below _ v hp hrp, put_below _ v hp hrp]
  · rw [put_frame (L.put q w) v hp]
    by_cases hrq : r = q
    · subst hrq; rw [put_self, put_self]
    · by_cases hq : q <+: r
      · rw [put_below _ w hq hrq, put_below _ w hq hrq]
      · rw [put_frame _ w hq, put_frame _ w hq, put_frame _ v hp]

theorem del_del_comm (L : Leaves α β) (p q : List α) : (L.del p).del q = (L.del q).del p := by
  funext r
  by_cases hp : p <+: r <;> by_cases hq : q <+: r <;> simp [del, hp, hq]

theorem put_del_comm (L : Leaves α β) {p q : List α} (w : β) (hpq : ¬ p <+: q) :
    (L.put q w).del p = (L.del p).put q w := by
  funext r
  by_cases hp : p <+: r
  · have hrq : r ≠ q := fun h => hpq (h ▸ hp)
    rw [del_below _ hp]
    by_cases hq : q <+: r
    · rw [put_below _ w hq hrq]
    · rw [put_frame _ w hq, del_below _ hp]
  · rw [del_frame _ hp]
    by_cases hrq : r = q
    · subst hrq; rw [put_self, put_self]
    · by_cases hq : q <+: r
      · rw [put_below _ w hq hrq, put_below _ w hq hrq]
      · rw [put_frame _ w hq, put_frame _ w hq, del_frame _ hp]

theorem blocked_del {L : Leaves α β} {p q : List α} (hpq : ¬ p <+: q) :
    (L.del p).Blocked q ↔ L.Blocked q := by
  constructor
  · rintro ⟨r, hr, hne, hv⟩
    exact ⟨r, hr, hne, by rwa [del_frame _ fun h => hpq (h.trans hr)] at hv⟩
  · rintro ⟨r, hr, hne, hv⟩
    exact ⟨r, hr, hne, by rwa [del_frame _ fun h => hpq (h.trans hr)]⟩

theorem blocked_put {L : Leaves α β} {p q : List α} (v : β) (hpq : ¬ p <+: q) :
    (L.put p v).Blocked q ↔ L.Blocked q := by
  constructor
  · rintro ⟨r, hr, hne, hv⟩
    exact ⟨r, hr, hne, by rwa [put_frame _ v fun h => hpq (h.trans hr)] at hv⟩
  · rintro ⟨r, hr, hne, hv⟩
    exact ⟨r, hr, hne, by rwa [put_frame _ v fun h => hpq (h.trans hr)]⟩

/-- A deletion and a write that do not race can be exchanged. -/
theorem apply_del_put_comm (L : Leaves α β) {p q : List α} {w : β}
    (h : ¬ Races (p, none) (q, some w)) :
    (L.apply Ok (p, none)).bind (fun M => M.apply Ok (q, some w)) =
      (L.apply Ok (q, some w)).bind (fun M => M.apply Ok (p, none)) := by
  have hpq : ¬ p <+: q := fun hpq => h ⟨by simp, by simp, hpq⟩
  rw [apply_del, Option.bind_some]
  by_cases hc : Ok q ∧ ¬ L.Blocked q
  · rw [apply_put_of w hc.1 hc.2, Option.bind_some, apply_del,
      apply_put_of w hc.1 (mt (blocked_del hpq).1 hc.2), put_del_comm L w hpq]
  · have h₁ : L.apply Ok (q, some w) = none := if_neg hc
    have h₂ : (L.del p).apply Ok (q, some w) = none :=
      if_neg fun hd => hc ⟨hd.1, mt (blocked_del hpq).2 hd.2⟩
    rw [h₁, h₂, Option.bind_none]

open Classical in
/-- Two writes of which the first is not at or above the second: both are judged on the map
they started from. -/
theorem apply_put_put (L : Leaves α β) {p q : List α} (v w : β) (hpq : ¬ p <+: q) :
    (L.apply Ok (p, some v)).bind (fun M => M.apply Ok (q, some w)) =
      if (Ok p ∧ ¬ L.Blocked p) ∧ (Ok q ∧ ¬ L.Blocked q) then
        some ((L.put p v).put q w) else none := by
  by_cases hp : Ok p ∧ ¬ L.Blocked p
  · rw [apply_put_of v hp.1 hp.2, Option.bind_some]
    simp [apply, blocked_put v hpq, hp]
  · have h₁ : L.apply Ok (p, some v) = none := if_neg hp
    rw [h₁, Option.bind_none, if_neg fun h => hp h.1]

/-- Two edits that do not race, either way round, can be exchanged. -/
theorem apply_comm (L : Leaves α β) {e f : Edit α β} (hef : ¬ Races e f) (hfe : ¬ Races f e) :
    (L.apply Ok e).bind (fun M => M.apply Ok f) =
      (L.apply Ok f).bind (fun M => M.apply Ok e) := by
  by_cases heq : e = f
  · rw [heq]
  obtain ⟨p, v⟩ := e
  obtain ⟨q, w⟩ := f
  cases v with
  | none =>
    cases w with
    | none => simp [del_del_comm L p q]
    | some w => exact apply_del_put_comm L hef
  | some v =>
    cases w with
    | none => exact (apply_del_put_comm L hfe).symm
    | some w =>
      have hpq : ¬ p <+: q := fun h => hef ⟨heq, by simp, h⟩
      have hqp : ¬ q <+: p := fun h => hfe ⟨fun h' => heq h'.symm, by simp, h⟩
      rw [apply_put_put L v w hpq, apply_put_put L w v hqp, put_put_comm L v w hpq hqp]
      classical exact if_congr and_comm rfl rfl

/-- **Without a race the order does not matter.** -/
theorem applyAll_perm {L : Leaves α β} {es fs : List (Edit α β)} (hp : es.Perm fs)
    (hrace : ∀ e ∈ es, ∀ f ∈ es, ¬ Races e f) : L.applyAll Ok es = L.applyAll Ok fs := by
  refine hp.foldl_eq' (fun e he f hf o => ?_) (some L)
  cases o with
  | none => rfl
  | some M => exact apply_comm M (hrace e he f hf) (hrace f hf e he)

/-! ### Lists of edits whose order matters -/

/-- A leaf at or above `r` stays until a deletion at or above `r`. -/
theorem exists_leaf_above {L M : Leaves α β} {es : List (Edit α β)}
    (h : L.applyAll Ok es = some M) {r : List α} (hdel : ∀ p, (p, none) ∈ es → ¬ p <+: r)
    (hr : ∃ q, q <+: r ∧ L q ≠ none) : ∃ q, q <+: r ∧ M q ≠ none := by
  induction es generalizing L with
  | nil => rw [applyAll_nil, Option.some.injEq] at h; rwa [← h]
  | cons e es ih =>
    rw [applyAll_cons, Option.bind_eq_some_iff] at h
    obtain ⟨N, hN, hM⟩ := h
    refine ih hM (fun p hp => hdel p (List.mem_cons_of_mem _ hp)) ?_
    obtain ⟨q, hqr, hq⟩ := hr
    by_cases hpre : e.1 <+: q
    · -- only a write can be at or above the leaf, and it leaves one in its place
      refine ⟨e.1, hpre.trans hqr, ?_⟩
      rw [apply_self hN]
      intro hnone
      refine hdel e.1 ?_ (hpre.trans hqr)
      rw [← hnone]
      exact List.mem_cons_self
    · exact ⟨q, hqr, by rwa [apply_frame hN hpre]⟩

/-- A doomed write refuses every list it is in. -/
theorem applyAll_eq_none_of_doomed {L : Leaves α β} {es : List (Edit α β)} {q : List α} {v : β}
    (hmem : (q, some v) ∈ es) (hd : Doomed Ok L es q) : L.applyAll Ok es = none := by
  obtain ⟨fs, gs, rfl⟩ := List.append_of_mem hmem
  rw [applyAll_append]
  cases hM : L.applyAll Ok fs with
  | none => rfl
  | some M =>
    rw [Option.bind_some, applyAll_cons]
    have hq : M.apply Ok (q, some v) = none := by
      rw [apply_put_eq_none]
      rcases hd with hok | ⟨r, hrq, hne, hr, hdel⟩
      · exact .inl hok
      · obtain ⟨t, htr, ht⟩ := exists_leaf_above hM
          (fun p hp => hdel p (List.mem_append_left _ hp)) ⟨r, List.prefix_rfl, hr⟩
        refine .inr ⟨t, htr.trans hrq, ?_, ht⟩
        rintro rfl
        exact hne (hrq.eq_of_length (le_antisymm hrq.length_le htr.length_le))
    rw [hq, Option.bind_none]

/-- Deletions succeed, and what is left stood before and is below none of them. -/
theorem applyAll_dels {L : Leaves α β} {ds : List (Edit α β)} (hds : ∀ e ∈ ds, e.2 = none) :
    ∃ M, L.applyAll Ok ds = some M ∧
      ∀ q, M q ≠ none → L q ≠ none ∧ ∀ p, (p, none) ∈ ds → ¬ p <+: q := by
  induction ds generalizing L with
  | nil => exact ⟨L, rfl, fun q hq => ⟨hq, fun p hp => by cases hp⟩⟩
  | cons e ds ih =>
    obtain ⟨p, v⟩ := e
    obtain rfl : v = none := hds _ List.mem_cons_self
    obtain ⟨M, hM, hleaf⟩ := ih (L := L.del p) fun e he => hds e (List.mem_cons_of_mem _ he)
    refine ⟨M, by rw [applyAll_cons, apply_del, Option.bind_some, hM], fun q hq => ?_⟩
    obtain ⟨hLq, hdel⟩ := hleaf q hq
    have hpq : ¬ p <+: q := fun h => hLq (del_below L h)
    refine ⟨by rwa [del_frame L hpq] at hLq, fun r hr => ?_⟩
    rcases List.mem_cons.1 hr with heq | hr
    · obtain rfl : r = p := congrArg Prod.fst heq
      exact hpq
    · exact hdel r hr

/-- Writes succeed when none is strictly above a later one and none is blocked to begin with. -/
theorem applyAll_puts {L : Leaves α β} {us : List (Edit α β)}
    (hus : ∀ e ∈ us, e.2 ≠ none ∧ Ok e.1 ∧ ¬ L.Blocked e.1)
    (hord : us.Pairwise fun e f => e.1 <+: f.1 → e.1 = f.1) :
    ∃ M, L.applyAll Ok us = some M := by
  induction us generalizing L with
  | nil => exact ⟨L, rfl⟩
  | cons e us ih =>
    obtain ⟨p, v⟩ := e
    obtain ⟨hv, hok, hb⟩ := hus _ List.mem_cons_self
    obtain ⟨v, rfl⟩ := Option.ne_none_iff_exists'.1 hv
    rw [List.pairwise_cons] at hord
    rw [applyAll_cons, apply_put_of v hok hb, Option.bind_some]
    refine ih (fun f hf => ?_) hord.2
    obtain ⟨hf₁, hf₂, hf₃⟩ := hus f (List.mem_cons_of_mem _ hf)
    refine ⟨hf₁, hf₂, ?_⟩
    rintro ⟨r, hrf, hne, hr⟩
    by_cases hpr : p <+: r
    · have hpf : p = f.1 := hord.1 f hf (hpr.trans hrf)
      subst hpf
      exact hne (hrf.eq_of_length (le_antisymm hrf.length_le hpr.length_le))
    · rw [put_frame L v hpr] at hr
      exact hf₃ ⟨r, hrf, hne, hr⟩

/-- Without a doomed write, some order of the edits succeeds: the deletions first, then the
writes from the longest path to the shortest. -/
theorem exists_applyAll {L : Leaves α β} {es : List (Edit α β)}
    (hd : ∀ e ∈ es, e.2 ≠ none → ¬ Doomed Ok L es e.1) :
    ∃ fs M, fs.Perm es ∧ L.applyAll Ok fs = some M := by
  let ds := es.filter fun e => e.2.isNone
  let us := (es.filter fun e => !e.2.isNone).insertionSort fun e f => f.1.length ≤ e.1.length
  have hus : us.Perm (es.filter fun e => !e.2.isNone) := List.perm_insertionSort _ _
  have hmem : ∀ {e}, e ∈ us → e ∈ es ∧ e.2 ≠ none := fun {e} he => by
    have := hus.mem_iff.1 he
    simpa [Option.isSome_iff_ne_none] using this
  obtain ⟨N, hN, hleaf⟩ : ∃ N, L.applyAll Ok ds = some N ∧
      ∀ q, N q ≠ none → L q ≠ none ∧ ∀ p, (p, none) ∈ ds → ¬ p <+: q :=
    applyAll_dels (by simp [ds])
  obtain ⟨M, hM⟩ : ∃ M, N.applyAll Ok us = some M := by
    refine applyAll_puts (fun e he => ?_) ?_
    · obtain ⟨hes, hv⟩ := hmem he
      have hnd := hd e hes hv
      simp only [Doomed, not_or, not_not, not_exists, not_and, not_forall] at hnd
      refine ⟨hv, hnd.1, ?_⟩
      rintro ⟨r, hr, hne, hleafr⟩
      obtain ⟨hLr, hdel⟩ := hleaf r hleafr
      obtain ⟨p, hp, hpr⟩ := hnd.2 r hr hne hLr
      exact hdel p (by simp [ds, hp]) hpr
    · have hsorted := List.pairwise_insertionSort
        (fun e f : Edit α β => f.1.length ≤ e.1.length) (es.filter fun e => !e.2.isNone)
      exact hsorted.imp fun hle hpre => hpre.eq_of_length (le_antisymm hpre.length_le hle)
  refine ⟨ds ++ us, M, ?_, by rw [applyAll_append, hN, Option.bind_some, hM]⟩
  exact (hus.append_left ds).trans (List.filter_append_perm _ es)

/-- An edit of the list can be the last one. -/
theorem exists_apply_last {L M : Leaves α β} {es : List (Edit α β)}
    (hall : ∀ fs : List (Edit α β), fs.Perm es → L.applyAll Ok fs = some M) {e : Edit α β}
    (he : e ∈ es) : ∃ N : Leaves α β, N.apply Ok e = some M := by
  classical
  have hperm : (es.erase e ++ [e]).Perm es :=
    (List.perm_append_singleton e _).trans (List.perm_cons_erase he).symm
  have h := hall _ hperm
  rw [applyAll_append, Option.bind_eq_some_iff] at h
  obtain ⟨N, -, hN⟩ := h
  rw [applyAll_cons, Option.bind_eq_some_iff] at hN
  obtain ⟨M', hM', hlast⟩ := hN
  rw [applyAll_nil, Option.some.injEq] at hlast
  exact ⟨N, hlast ▸ hM'⟩

/-- **Edits that do not race and of which none is doomed succeed**, in any order. -/
theorem exists_applyAll_of_calm {L : Leaves α β} {es : List (Edit α β)}
    (hrace : ∀ e ∈ es, ∀ f ∈ es, ¬ Races e f)
    (hd : ∀ e ∈ es, e.2 ≠ none → ¬ Doomed Ok L es e.1) : ∃ M, L.applyAll Ok es = some M := by
  obtain ⟨fs, M, hperm, hM⟩ := exists_applyAll hd
  exact ⟨M, (applyAll_perm hperm.symm hrace).trans hM⟩

variable (Ok) in
/-- **When the order of a list of edits does not matter.**  The outcome, refusals included, is
the same in every order exactly when no two edits of the list race, or when some write is
refused in every order. -/
theorem applyAll_perm_iff (L : Leaves α β) (es : List (Edit α β)) :
    (∀ fs gs : List (Edit α β), fs.Perm es → gs.Perm es →
        L.applyAll Ok fs = L.applyAll Ok gs) ↔
      (∀ e ∈ es, ∀ f ∈ es, ¬ Races e f) ∨ ∃ e ∈ es, e.2 ≠ none ∧ Doomed Ok L es e.1 := by
  constructor
  · intro hall
    by_contra hcon
    simp only [not_or, not_exists, not_and] at hcon
    obtain ⟨hrace, hdoom⟩ := hcon
    refine hrace fun e he f hf hef => ?_
    obtain ⟨fs, M, hfs, hM⟩ := exists_applyAll hdoom
    have hsome : ∀ gs : List (Edit α β), gs.Perm es → L.applyAll Ok gs = some M :=
      fun gs hgs => (hall gs fs hgs hfs).trans hM
    obtain ⟨hne, hwrite, hpre⟩ := hef
    obtain ⟨Ne, hNe⟩ := exists_apply_last hsome he
    obtain ⟨Nf, hNf⟩ := exists_apply_last hsome hf
    -- the write `f` stands when it comes last, and the edit `e` removes it when that does
    by_cases hpath : f.1 = e.1
    · have hval : e.2 = f.2 := by rw [← apply_self hNe, ← apply_self hNf, hpath]
      exact hne (Prod.ext hpath.symm hval)
    · rw [← apply_self hNf, apply_below hNe hpre hpath] at hwrite
      exact hwrite rfl
  · rintro (hrace | ⟨⟨q, v⟩, he, hv, hdoom⟩) fs gs hfs hgs
    · rw [← applyAll_perm hfs.symm hrace, ← applyAll_perm hgs.symm hrace]
    · obtain ⟨v, rfl⟩ := Option.ne_none_iff_exists'.1 hv
      have key : ∀ hs : List (Edit α β), hs.Perm es → L.applyAll Ok hs = none := fun hs hperm => by
        refine applyAll_eq_none_of_doomed (hperm.mem_iff.2 he) ?_
        rcases hdoom with hok | ⟨r, hr, hne, hleaf, hdel⟩
        · exact .inl hok
        · exact .inr ⟨r, hr, hne, hleaf, fun p hp => hdel p (hperm.mem_iff.1 hp)⟩
      rw [key fs hfs, key gs hgs]

end Apply

end Leaves

end Lib
