import Mathlib.Data.Set.Function
import Omp.Lib.Op

/-!
# Content-addressed stores

A store keeps objects under an address computed from the object.  Writing an object whose
address is taken leaves what is stored there.  Here a store is the list of all objects ever
written, oldest first, and an address denotes the oldest object that has it; that is the same
store, and it remembers the objects a collision of the address function would shadow.

Addresses are too short to be injective, so what a reader may rely on is that no two different
objects *that were written* have the same address (`Cas.CollisionFree`).  The condition is
inherited by every earlier store.

## Main results

* `Cas.find_mono` : what an address denotes it denotes in every later store.
* `Cas.find_of_mem` : without a collision, every object written is found at its address.
-/

namespace Lib

/-- A content-addressed store: the objects ever written, oldest first. -/
structure Cas (O : Type) where
  /-- The objects, in the order they were written. -/
  objects : List O
  deriving DecidableEq

namespace Cas

variable {O H : Type} [DecidableEq H] (addr : O → H)

/-- A store is below another when the other was reached from it by writing objects. -/
instance : Preorder (Cas O) where
  le s s' := s.objects <+: s'.objects
  le_refl _ := List.prefix_rfl
  le_trans _ _ _ := List.IsPrefix.trans

omit [DecidableEq H] in
theorem mem_mono {s s' : Cas O} (h : s ≤ s') {o : O} (ho : o ∈ s.objects) : o ∈ s'.objects :=
  List.IsPrefix.subset h ho

/-- The store without objects. -/
def empty : Cas O := ⟨[]⟩

/-- The object at an address. -/
def find (s : Cas O) (h : H) : Option O := s.objects.find? fun o => addr o = h

/-- No two different objects written have the same address. -/
def CollisionFree (s : Cas O) : Prop := Set.InjOn addr {o | o ∈ s.objects}

/-- Write an object and return its address. -/
def put (ε : Type) (o : O) : Op (Cas O) ε H where
  run s := (.ok (addr o), ⟨s.objects ++ [o]⟩)
  grows _ := List.prefix_append _ _

omit [DecidableEq H] in
@[simp] theorem run_put {ε : Type} (o : O) (s : Cas O) :
    (put addr ε o).run s = (.ok (addr o), ⟨s.objects ++ [o]⟩) := rfl

variable {addr}

instance [DecidableEq O] (s : Cas O) : Decidable (CollisionFree addr s) :=
  inferInstanceAs (Decidable (∀ o ∈ s.objects, ∀ o' ∈ s.objects, addr o = addr o' → o = o'))

omit [DecidableEq H] in
theorem CollisionFree.down {s s' : Cas O} (h : s ≤ s') (hcf : CollisionFree addr s') :
    CollisionFree addr s :=
  Set.InjOn.mono (fun _ ho => mem_mono h ho) hcf

theorem find_eq_some {s : Cas O} {h : H} {o : O} (hf : s.find addr h = some o) :
    o ∈ s.objects ∧ addr o = h :=
  ⟨List.mem_of_find?_eq_some hf, by simpa using List.find?_some hf⟩

theorem find_mono {s s' : Cas O} (hle : s ≤ s') {h : H} {o : O} (hf : s.find addr h = some o) :
    s'.find addr h = some o := by
  obtain ⟨t, ht⟩ := hle
  rw [find, ← ht, List.find?_append]
  rw [find] at hf
  rw [hf, Option.some_or]

/-- **Every object written is found at its address**, as long as no address collides. -/
theorem find_of_mem {s : Cas O} (hcf : CollisionFree addr s) {o : O} (ho : o ∈ s.objects) :
    s.find addr (addr o) = some o := by
  cases hf : s.find addr (addr o) with
  | none =>
    have := List.find?_eq_none.1 hf o ho
    simp at this
  | some o' =>
    obtain ⟨ho', haddr⟩ := find_eq_some hf
    rw [hcf ho' ho haddr]

theorem find_eq_some_iff {s : Cas O} (hcf : CollisionFree addr s) {h : H} {o : O} :
    s.find addr h = some o ↔ o ∈ s.objects ∧ addr o = h := by
  refine ⟨find_eq_some, ?_⟩
  rintro ⟨ho, rfl⟩
  exact find_of_mem hcf ho

/-- Without a collision, stores that share their history agree where both have an object. -/
theorem find_eq_of_le {s s' : Cas O} (hle : s ≤ s') {h : H} {o : O}
    (hf : s'.find addr h = some o) (hex : ∃ o', s.find addr h = some o') :
    s.find addr h = some o := by
  obtain ⟨o', ho'⟩ := hex
  have := find_mono hle ho'
  rw [hf, Option.some.injEq] at this
  rw [ho', this]

end Cas

end Lib
