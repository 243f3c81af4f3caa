import Mathlib.Algebra.Group.Nat.Defs
import Omp.Lib.Text

/-!
# Flat records in CBOR

A structure whose fields are numbers, strings of octets and texts is written as a map: a head that
tells how many entries there are, and the entries one behind the other.  A head is a major type and
a number, in the shortest form; the head of a string tells its length.  So a record can be read back
from any bytes that start with it, and different records are different bytes.

## Main definitions

* `Cbor.head`, `Cbor.Scalar`, `Cbor.encodeMap` : writing.
* `Cbor.readHead`, `Cbor.readScalar`, `Cbor.readMap` : reading.

## Main results

* `Cbor.readMap_encodeMap` : reading undoes writing.
* `Cbor.encodeMap_injective` : different records are written differently.
-/

namespace Lib.Cbor

/-! ### Numbers -/

/-- The lowest bytes of a number, the highest first. -/
def bigEndian : Nat → Nat → Bytes
  | 0, _ => []
  | k + 1, n => bigEndian k (n / 256) ++ [UInt8.ofNat n]

/-- The number that bytes stand for. -/
def ofBigEndian (bs : Bytes) : Nat := bs.foldl (fun n b => n * 256 + b.toNat) 0

@[simp] theorem length_bigEndian (k n : Nat) : (bigEndian k n).length = k := by
  induction k generalizing n with
  | zero => rfl
  | succ k ih => rw [bigEndian, List.length_append, ih, List.length_singleton]

theorem ofBigEndian_bigEndian {k n : Nat} (h : n < 256 ^ k) : ofBigEndian (bigEndian k n) = n := by
  induction k generalizing n with
  | zero =>
    rw [Nat.pow_zero] at h
    obtain rfl : n = 0 := by omega
    rfl
  | succ k ih =>
    have hdiv : n / 256 < 256 ^ k := by
      rw [Nat.div_lt_iff_lt_mul (by decide), ← Nat.pow_succ]
      exact h
    have hrest := ih hdiv
    unfold ofBigEndian at hrest ⊢
    rw [bigEndian, List.foldl_append, hrest, List.foldl_cons, List.foldl_nil, UInt8.toNat_ofNat']
    omega

/-! ### Heads -/

/-- A major type and a number. -/
def head (major n : Nat) : Bytes :=
  if n < 24 then [UInt8.ofNat (major * 32 + n)]
  else if n < 2 ^ 8 then UInt8.ofNat (major * 32 + 24) :: bigEndian 1 n
  else if n < 2 ^ 16 then UInt8.ofNat (major * 32 + 25) :: bigEndian 2 n
  else if n < 2 ^ 32 then UInt8.ofNat (major * 32 + 26) :: bigEndian 4 n
  else UInt8.ofNat (major * 32 + 27) :: bigEndian 8 n

/-- Some bytes, and those that follow them. -/
def readBytes (n : Nat) (bs : Bytes) : Option (Bytes × Bytes) :=
  if bs.length < n then none else some (bs.take n, bs.drop n)

/-- Read a head. -/
def readHead : Bytes → Option (Nat × Nat × Bytes)
  | [] => none
  | b :: bs =>
    let major := b.toNat / 32
    let info := b.toNat % 32
    if info < 24 then some (major, info, bs)
    else if info < 28 then
      (readBytes (2 ^ (info - 24)) bs).map fun p => (major, ofBigEndian p.1, p.2)
    else none

theorem readBytes_append (l rest : Bytes) : readBytes l.length (l ++ rest) = some (l, rest) := by
  rw [readBytes, if_neg (by rw [List.length_append]; omega), List.take_left, List.drop_left]

theorem readHead_long {major i n : Nat} (rest : Bytes) (hmajor : major < 8) (hi : i < 4)
    (hn : n < 256 ^ 2 ^ i) :
    readHead (UInt8.ofNat (major * 32 + (24 + i)) :: bigEndian (2 ^ i) n ++ rest) =
      some (major, n, rest) := by
  have hbyte : (UInt8.ofNat (major * 32 + (24 + i))).toNat = major * 32 + (24 + i) := by
    rw [UInt8.toNat_ofNat', Nat.mod_eq_of_lt (by omega)]
  have hread := readBytes_append (bigEndian (2 ^ i) n) rest
  rw [length_bigEndian] at hread
  rw [List.cons_append, readHead, hbyte]
  have hinfo : (major * 32 + (24 + i)) % 32 = 24 + i := by omega
  have hdiv : (major * 32 + (24 + i)) / 32 = major := by omega
  rw [hinfo, hdiv, if_neg (by omega), if_pos (by omega), Nat.add_sub_cancel_left, hread,
    Option.map_some, ofBigEndian_bigEndian hn]

/-- **A head is read back.** -/
theorem readHead_head {major n : Nat} (rest : Bytes) (hmajor : major < 8) (hn : n < 2 ^ 64) :
    readHead (head major n ++ rest) = some (major, n, rest) := by
  unfold head
  split_ifs with h₀ h₁ h₂ h₃
  · have hbyte : (UInt8.ofNat (major * 32 + n)).toNat = major * 32 + n := by
      rw [UInt8.toNat_ofNat', Nat.mod_eq_of_lt (by omega)]
    rw [List.cons_append, readHead, hbyte]
    have hinfo : (major * 32 + n) % 32 = n := by omega
    have hdiv : (major * 32 + n) / 32 = major := by omega
    rw [hinfo, hdiv, if_pos h₀, List.nil_append]
  · exact readHead_long (i := 0) rest hmajor (by decide) (by omega)
  · exact readHead_long (i := 1) rest hmajor (by decide) (by omega)
  · exact readHead_long (i := 2) rest hmajor (by decide) (by omega)
  · exact readHead_long (i := 3) rest hmajor (by decide) (by omega)

/-! ### Scalars -/

/-- A number, a negative number, a string of octets or a text, each of a length that can be told. -/
inductive Scalar where
  | uint (n : UInt64)
  /-- `-1 - n`. -/
  | nint (n : UInt64)
  | bytes (bs : Bytes) (h : bs.length < 2 ^ 64)
  | text (t : Text) (h : (utf8 t).length < 2 ^ 64)

/-- An integer of 64 bits. -/
def Scalar.int (i : Int64) : Scalar :=
  if 0 ≤ i.toInt then .uint i.toUInt64 else .nint (~~~ i.toUInt64)

/-- Write a scalar. -/
def Scalar.encode : Scalar → Bytes
  | uint n => head 0 n.toNat
  | nint n => head 1 n.toNat
  | bytes bs _ => head 2 bs.length ++ bs
  | text t _ => head 3 (utf8 t).length ++ utf8 t

/-- Octets of a length that can be told. -/
def bytesOf (bs : Bytes) : Option Scalar :=
  if h : bs.length < 2 ^ 64 then some (.bytes bs h) else none

/-- A text of a length that can be told. -/
def textOf (t : Text) : Option Scalar :=
  if h : (utf8 t).length < 2 ^ 64 then some (.text t h) else none

/-- Read a scalar. -/
def readScalar (bs : Bytes) : Option (Scalar × Bytes) := do
  let (major, n, bs) ← readHead bs
  match major with
  | 0 => some (.uint (.ofNat n), bs)
  | 1 => some (.nint (.ofNat n), bs)
  | 2 =>
    let (content, rest) ← readBytes n bs
    let s ← bytesOf content
    some (s, rest)
  | 3 =>
    let (content, rest) ← readBytes n bs
    let t ← fromUtf8 content
    let s ← textOf t
    some (s, rest)
  | _ => none

theorem bytesOf_eq {bs : Bytes} (h : bs.length < 2 ^ 64) : bytesOf bs = some (.bytes bs h) := dif_pos h

theorem textOf_eq {t : Text} (h : (utf8 t).length < 2 ^ 64) : textOf t = some (.text t h) := dif_pos h

/-- **A scalar is read back.** -/
theorem readScalar_encode (s : Scalar) (rest : Bytes) :
    readScalar (s.encode ++ rest) = some (s, rest) := by
  cases s with
  | uint n =>
    rw [Scalar.encode, readScalar, readHead_head rest (by decide) n.toNat_lt]
    simp
  | nint n =>
    rw [Scalar.encode, readScalar, readHead_head rest (by decide) n.toNat_lt]
    simp
  | bytes bs h =>
    rw [Scalar.encode, readScalar, List.append_assoc, readHead_head _ (by decide) h]
    simp [readBytes_append, bytesOf_eq h]
  | text t h =>
    rw [Scalar.encode, readScalar, List.append_assoc, readHead_head _ (by decide) h]
    simp [readBytes_append, textOf_eq h]

theorem toUInt64_injective : Function.Injective Int64.toUInt64 := by
  rintro ⟨i⟩ ⟨j⟩ rfl
  rfl

theorem Scalar.int_injective : Function.Injective Scalar.int := by
  intro i j h
  unfold Scalar.int at h
  split_ifs at h with hi hj hj
  · exact toUInt64_injective (Scalar.uint.inj h)
  · have hnot := Scalar.nint.inj h
    exact toUInt64_injective (by simpa using hnot)

/-! ### Records -/

/-- Write the entries of a map. -/
def encodeEntries (l : List (Scalar × Scalar)) : Bytes :=
  l.flatMap fun p => p.1.encode ++ p.2.encode

/-- Write a map. -/
def encodeMap (l : List (Scalar × Scalar)) : Bytes := head 5 l.length ++ encodeEntries l

/-- Read a number of entries. -/
def readEntries : Nat → Bytes → Option (List (Scalar × Scalar) × Bytes)
  | 0, bs => some ([], bs)
  | n + 1, bs => do
    let (k, bs) ← readScalar bs
    let (v, bs) ← readScalar bs
    let (l, bs) ← readEntries n bs
    some ((k, v) :: l, bs)

/-- Read a map. -/
def readMap (bs : Bytes) : Option (List (Scalar × Scalar) × Bytes) := do
  let (major, n, bs) ← readHead bs
  if major = 5 then readEntries n bs else none

theorem readEntries_encodeEntries (l : List (Scalar × Scalar)) (rest : Bytes) :
    readEntries l.length (encodeEntries l ++ rest) = some (l, rest) := by
  induction l with
  | nil => rfl
  | cons p l ih =>
    have hsplit : encodeEntries (p :: l) ++ rest =
        p.1.encode ++ (p.2.encode ++ (encodeEntries l ++ rest)) := by
      simp [encodeEntries]
    rw [List.length_cons, readEntries, hsplit]
    simp [readScalar_encode, ih]

/-- **A record is read back** from bytes that start with it. -/
theorem readMap_encodeMap {l : List (Scalar × Scalar)} (h : l.length < 2 ^ 64) (rest : Bytes) :
    readMap (encodeMap l ++ rest) = some (l, rest) := by
  rw [readMap, encodeMap, List.append_assoc, readHead_head _ (by decide) h]
  simp [readEntries_encodeEntries]

/-- **Different records are written differently.** -/
theorem encodeMap_injective {l m : List (Scalar × Scalar)} (hl : l.length < 2 ^ 64)
    (hm : m.length < 2 ^ 64) (h : encodeMap l = encodeMap m) : l = m := by
  have hread := readMap_encodeMap hl []
  rw [h, readMap_encodeMap hm] at hread
  exact (Prod.mk.inj (Option.some.inj hread)).1.symm

end Lib.Cbor
