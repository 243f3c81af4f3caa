import Mathlib.Data.Set.Finite.List
import Omp.Repo

/-!
# Stores that are not trusted

Whoever reads a store takes its answers as they come: the bytes under an address may have been
changed since they were written, and a server may answer what it likes.

## Main definitions

* `StoreView` : the answers of a store.
* `Repo.view` : those of an honest one.
* `StoreView.alter` : those of a store one object of which was changed.
-/

namespace Omp

open Lib

/-- What a store answers when it is read, be it true or not. -/
structure StoreView where
  /-- `ObjectStore::get`. -/
  get : Hash → Except OmpError (Option Object)
  /-- `ObjectStore::read_ref`. -/
  readRef : Text → Except OmpError (Option Hash)

/-- The answers of the store of a repository. -/
def Repo.view (W : World) (r : Repo) : StoreView :=
  ⟨fun h => .ok (r.store.get W.toPlatform h), r.readRef W⟩

namespace StoreView

/-- Put another answer in the place of the one for an address. -/
def alter (s : StoreView) (a : Hash) (answer : Except OmpError (Option Object)) : StoreView :=
  { s with get := fun h => if h = a then answer else s.get h }

variable {s : StoreView} {a : Hash} {answer : Except OmpError (Option Object)}

@[simp] theorem readRef_alter (name : Text) : (s.alter a answer).readRef name = s.readRef name := rfl

@[simp] theorem get_alter_self : (s.alter a answer).get a = answer := if_pos rfl

theorem get_alter_of_ne {h : Hash} (hne : h ≠ a) : (s.alter a answer).get h = s.get h := if_neg hne

end StoreView

/-- There are finitely many addresses. -/
instance : Finite Hash := by
  have hbyte : Finite UInt8 := Finite.of_injective UInt8.toFin fun _ _ => UInt8.toFin_inj.1
  have hlist : Finite {l : List UInt8 | l.length = 32} := (List.finite_length_eq UInt8 32).to_subtype
  refine Finite.of_injective
    (fun h => (⟨h.bytes, h.length_eq⟩ : {l : List UInt8 | l.length = 32})) fun g h heq => ?_
  cases g
  cases h
  cases heq
  rfl

end Omp
