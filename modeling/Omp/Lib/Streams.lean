import Omp.Lib.Text

/-!
# Computations over what comes in pieces

A hasher is fed its input piece by piece and asked for a digest at the end.  An encoder writes out
some of its output at each piece, and the rest at the end.  What is computed should not depend on
how the input was cut.

## Main definitions

* `Hasher`, `Hasher.Computes` : the digest is a function of the whole input.
* `Encoder`, `Encoder.DecodedBy` : the output is decoded to the whole input.
-/

namespace Lib

/-- What is fed bytes, and yields a digest. -/
structure Hasher (α : Type) where
  State : Type
  new : State
  update : State → Bytes → State
  finalize : State → α

namespace Hasher

variable {α : Type} (H : Hasher α)

/-- The state after some pieces. -/
def after (pieces : List Bytes) : H.State := pieces.foldl H.update H.new

theorem after_concat (pieces : List Bytes) (piece : Bytes) :
    H.after (pieces ++ [piece]) = H.update (H.after pieces) piece := List.foldl_concat ..

/-- **The digest is that of the whole input**, however it was cut. -/
def Computes (f : Bytes → α) : Prop := ∀ pieces, H.finalize (H.after pieces) = f pieces.flatten

end Hasher

/-- What is fed bytes, and writes bytes out. -/
structure Encoder where
  State : Type
  new : State
  /-- The next state, and what is written out. -/
  write : State → Bytes → State × Bytes
  /-- What is written out at the end. -/
  finish : State → Bytes

namespace Encoder

variable (E : Encoder)

/-- The state after some pieces, and what was written out. -/
def after (pieces : List Bytes) : E.State × Bytes :=
  pieces.foldl (fun p piece => ((E.write p.1 piece).1, p.2 ++ (E.write p.1 piece).2)) (E.new, [])

theorem after_concat (pieces : List Bytes) (piece : Bytes) :
    E.after (pieces ++ [piece]) = ((E.write (E.after pieces).1 piece).1,
      (E.after pieces).2 ++ (E.write (E.after pieces).1 piece).2) := List.foldl_concat ..

/-- All that is written out. -/
def output (pieces : List Bytes) : Bytes := (E.after pieces).2 ++ E.finish (E.after pieces).1

/-- **The output is decoded to the whole input**, however it was cut. -/
def DecodedBy {ε : Type} (decode : Bytes → Except ε Bytes) : Prop :=
  ∀ pieces, decode (E.output pieces) = .ok pieces.flatten

end Encoder

end Lib
