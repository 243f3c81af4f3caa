import Omp.Lib.Traps

/-!
# The reader of MP4 boxes

A box begins with its size in 32 bits and its type; the size is in 64 bits behind the type if the
first one is 1, and the box goes to the end of the data if it is 0.  The probes are compiled for a
machine of 32 bits, on which a size of 64 bits is cut to its lower half.

A slice is the place where it begins and its bytes, so that slices with the same bytes at different
places differ.

## Main definitions

* `findBox`, `iterBoxes` : the functions, up to some number of turns of their loops.
* `boxes` : the boxes by their declared sizes.
* `mp4VideoDimensions` : the size of the video.

## Main results

* `findBox_eq`, `iterBoxes_eq` : both go through the same boxes.
* `mp4_exact_iff` : when these are the declared boxes, and when the size of the video is exact.
-/

namespace Omp

namespace Mp4

open Lib

/-! ### Boxes -/

/-- A slice. -/
structure Slice where
  start : Nat
  bytes : Bytes
  deriving DecidableEq

/-- `&s[i..j]`. -/
def Slice.sub (s : Slice) (i j : Nat) : Option Slice :=
  (slice s.bytes i j).map fun bytes => ⟨s.start + i, bytes⟩

/-- `u32::from_be_bytes` of the four bytes from `i` on. -/
def u32Be (bytes : Bytes) (i : Nat) : Option Nat := do
  some (beNat [← bytes[i]?, ← bytes[i + 1]?, ← bytes[i + 2]?, ← bytes[i + 3]?])

/-- `u64::from_be_bytes` of the eight bytes from `i` on. -/
def u64Be (bytes : Bytes) (i : Nat) : Option Nat := do
  some (2 ^ 32 * (← u32Be bytes i) + (← u32Be bytes (i + 4)))

/-- `(header_len, body_len)` of the first box, unless there is none.  The code has it twice. -/
def boxLengths (data : Bytes) : Option (Option (Nat × Nat)) := do
  let size ← u32Be data 0
  if size = 1 then
    if data.length < 16 then some none
    else
      let large ← u64Be data 8
      if large < 16 then some none else some (some (16, wrap large - 16))
  else if size = 0 then some (some (8, data.length - 8))
  else if size < 8 then some none
  else some (some (8, size - 8))

/-- The body of the loop of `find_box`. -/
def findBody (target : Bytes) (data : Slice) : Option (Turn Slice (Option Slice)) := do
  let typ ← slice data.bytes 4 8
  match ← boxLengths data.bytes with
  | none => some (.stop none)
  | some (headerLen, bodyLen) =>
    if wrap (headerLen + bodyLen) > data.bytes.length then some (.stop none)
    else if typ = target then
      some (.stop (some (← data.sub headerLen (wrap (headerLen + bodyLen)))))
    else some (.next (← data.sub (wrap (headerLen + bodyLen)) data.bytes.length))

/-- A turn of the loop of `find_box`. -/
def findTurn (target : Bytes) (data : Slice) : Turn Slice (Option Slice) :=
  if 8 ≤ data.bytes.length then (findBody target data).getD .trap else .stop none

/-- `find_box`, up to a number of turns. -/
def findBox (turns : Nat) (data : Slice) (target : Bytes) : Outcome (Option Slice) :=
  (run (findTurn target) turns data).2

/-- The body of the loop of `BoxIter::next`: what it returns, and the data that are left. -/
def nextBody (target : Bytes) (data : Slice) : Option (Turn Slice (Option Slice × Slice)) := do
  let typ ← slice data.bytes 4 8
  match ← boxLengths data.bytes with
  | none => some (.stop (none, data))
  | some (headerLen, bodyLen) =>
    if wrap (headerLen + bodyLen) > data.bytes.length then some (.stop (none, data))
    else
      let body ← data.sub headerLen (wrap (headerLen + bodyLen))
      let rest ← data.sub (wrap (headerLen + bodyLen)) data.bytes.length
      if typ = target then some (.stop (some body, rest)) else some (.next rest)

/-- A turn of the loop of `BoxIter::next`. -/
def nextTurn (target : Bytes) (data : Slice) : Turn Slice (Option Slice × Slice) :=
  if 8 ≤ data.bytes.length then (nextBody target data).getD .trap else .stop (none, data)

/-- `BoxIter::next`, up to a number of turns. -/
def next (turns : Nat) (data : Slice) (target : Bytes) : Outcome (Option Slice × Slice) :=
  (run (nextTurn target) turns data).2

/-- The items of `iter_boxes`, up to a number of calls of `next`. -/
def collect (turns : Nat) (target : Bytes) : Nat → Slice → Outcome (List Slice)
  | 0, _ => .running
  | n + 1, data =>
    match next turns data target with
    | .running => .running
    | .trapped => .trapped
    | .returned (none, _) => .returned []
    | .returned (some body, rest) => (collect turns target n rest).map (body :: ·)

/-- The items of `iter_boxes`. -/
def iterBoxes (turns : Nat) (data : Slice) (target : Bytes) : Outcome (List Slice) :=
  collect turns target turns data

/-! ### What is walked through -/

/-- The length of the header and the size of the first box as they are declared. -/
def declaredSize (data : Bytes) : Option (Nat × Nat) := do
  let size ← u32Be data 0
  if size = 1 then
    let large ← u64Be data 8
    if large < 16 then none else some (16, large)
  else if size = 0 then some (8, data.length)
  else if size < 8 then none
  else some (8, size)

/-- The first box as it is declared, if it lies within the data. -/
def declared (data : Bytes) : Option (Nat × Nat) :=
  if 8 ≤ data.length then
    (declaredSize data).filter fun p => p.2 ≤ data.length
  else none

/-- The first box as it is read: its size is cut to 32 bits, but for its header. -/
def accepted (data : Bytes) : Option (Nat × Nat) :=
  if 8 ≤ data.length then
    ((declaredSize data).map fun p => (p.1, max p.1 (wrap p.2))).filter
      fun p => p.2 ≤ data.length
  else none

/-- What is left of the data behind the first box. -/
def Slice.rest (s : Slice) (e : Nat) : Slice := ⟨s.start + e, s.bytes.drop e⟩

/-- The body of the first box. -/
def Slice.body (s : Slice) (h e : Nat) : Slice := ⟨s.start + h, (s.bytes.drop h).take (e - h)⟩

/-- The type of the first box. -/
def typ (data : Bytes) : Bytes := (data.drop 4).take 4

/-- There is a number of 32 bits where there is room for one. -/
theorem exists_u32Be (data : Bytes) (i : Nat) (h : i + 4 ≤ data.length) :
    ∃ n, u32Be data i = some n ∧ n < 2 ^ 32 := by
  have hat : ∀ k, k < data.length → ∃ b, data[k]? = some b :=
    fun k hk => ⟨_, List.getElem?_eq_getElem hk⟩
  obtain ⟨a, ha⟩ := hat i (by omega)
  obtain ⟨b, hb⟩ := hat (i + 1) (by omega)
  obtain ⟨c, hc⟩ := hat (i + 2) (by omega)
  obtain ⟨d, hd⟩ := hat (i + 3) (by omega)
  refine ⟨beNat [a, b, c, d], ?_, (beNat_lt [a, b, c, d]).trans_eq (by simp)⟩
  rw [u32Be, ha, hb, hc, hd]
  rfl

theorem exists_u64Be (data : Bytes) (i : Nat) (h : i + 8 ≤ data.length) :
    ∃ n, u64Be data i = some n := by
  obtain ⟨hi, hhi, -⟩ := exists_u32Be data i (by omega)
  obtain ⟨lo, hlo, -⟩ := exists_u32Be data (i + 4) (by omega)
  rw [u64Be, hhi, hlo]
  exact ⟨_, rfl⟩

theorem u64Be_eq_none {data : Bytes} {i : Nat} (h : data.length < i + 8) : u64Be data i = none := by
  have hnone : data[i + 4 + 3]? = none := List.getElem?_eq_none (by omega)
  have hlo : u32Be data (i + 4) = none := by
    simp [u32Be, hnone]
  simp [u64Be, hlo]

/-- A declared size is at least that of the header. -/
theorem le_of_declaredSize {data : Bytes} {h e : Nat} (hd : declaredSize data = some (h, e))
    (hlen : 8 ≤ data.length) : 8 ≤ h ∧ h ≤ 16 ∧ h ≤ e := by
  simp only [declaredSize, Option.bind_eq_bind, Option.bind_eq_some_iff] at hd
  obtain ⟨size, -, hd⟩ := hd
  split_ifs at hd with h1 h0 h8
  · obtain ⟨large, -, hd⟩ := Option.bind_eq_some_iff.1 hd
    split_ifs at hd with h16
    obtain ⟨rfl, rfl⟩ := Prod.mk.inj (Option.some.inj hd)
    omega
  · obtain ⟨rfl, rfl⟩ := Prod.mk.inj (Option.some.inj hd)
    omega
  · obtain ⟨rfl, rfl⟩ := Prod.mk.inj (Option.some.inj hd)
    omega

/-- The lengths that the code computes. -/
theorem boxLengths_eq {data : Bytes} (hlen : 8 ≤ data.length) (hfits : data.length < 2 ^ 32) :
    boxLengths data =
      some ((declaredSize data).map fun p => (p.1, max p.1 (wrap p.2) - p.1)) := by
  obtain ⟨size, hsize, hlt⟩ := exists_u32Be data 0 (by omega)
  simp only [boxLengths, declaredSize, hsize, Option.bind_eq_bind, Option.bind_some]
  split_ifs with h1 hshort h0 h8
  · rw [u64Be_eq_none (by omega)]
    rfl
  · obtain ⟨large, hlarge⟩ := exists_u64Be data 8 (by omega)
    rw [hlarge, Option.bind_some, Option.bind_some]
    split_ifs
    · rfl
    · simp only [Option.map_some, Option.some.injEq, Prod.mk.injEq, true_and]
      omega
  · simp only [Option.map_some, Option.some.injEq, Prod.mk.injEq, true_and, wrap_of_lt hfits]
    omega
  · rfl
  · simp only [Option.map_some, Option.some.injEq, Prod.mk.injEq, true_and, wrap_of_lt hlt]
    omega

/-- What is accepted lies within the data, and has a header. -/
theorem bounds_of_accepted {data : Bytes} {h e : Nat} (ha : accepted data = some (h, e)) :
    8 ≤ data.length ∧ 8 ≤ h ∧ h ≤ e ∧ e ≤ data.length := by
  simp only [accepted, Option.ite_none_right_eq_some, Option.filter_eq_some_iff,
    Option.map_eq_some_iff, decide_eq_true_eq] at ha
  obtain ⟨hlen, ⟨⟨h', e'⟩, hd, heq⟩, hle⟩ := ha
  obtain ⟨rfl, rfl⟩ := Prod.mk.inj heq
  have hbounds := le_of_declaredSize hd hlen
  dsimp only at *
  omega

theorem sub_eq {s : Slice} {i j : Nat} (hij : i ≤ j) (hj : j ≤ s.bytes.length) :
    s.sub i j = some (s.body i j) := by
  rw [Slice.sub, slice_eq hij hj]
  rfl

theorem sub_rest {s : Slice} {e : Nat} (he : e ≤ s.bytes.length) :
    s.sub e s.bytes.length = some (s.rest e) := by
  rw [sub_eq he (Nat.le_refl _), Slice.body, Slice.rest, List.take_of_length_le (by simp)]

/-- The lengths that the code computes are those of the accepted box, if there is one. -/
theorem boxLengths_cases {data : Bytes} (hlen : 8 ≤ data.length) (hfits : data.length < 2 ^ 32) :
    (boxLengths data = some none ∧ accepted data = none) ∨
      ∃ h e, boxLengths data = some (some (h, e - h)) ∧ wrap (h + (e - h)) = e ∧ h ≤ e ∧
        accepted data = if e ≤ data.length then some (h, e) else none := by
  rw [boxLengths_eq hlen hfits, accepted, if_pos hlen]
  cases hd : declaredSize data with
  | none => exact .inl ⟨rfl, rfl⟩
  | some p =>
    obtain ⟨h, e⟩ := p
    obtain ⟨-, h16, -⟩ := le_of_declaredSize hd hlen
    have hlt : wrap e < 2 ^ 32 := Nat.mod_lt _ (by decide)
    refine .inr ⟨h, max h (wrap e), rfl, ?_, Nat.le_max_left _ _, ?_⟩
    · rw [Nat.add_sub_cancel' (Nat.le_max_left _ _)]
      exact wrap_of_lt (by omega)
    · rw [Option.map_some, Option.filter_some]
      simp

/-- **A turn of `find_box`.** -/
theorem findTurn_eq (target : Bytes) {d : Slice} (hfits : d.bytes.length < 2 ^ 32) :
    findTurn target d = match accepted d.bytes with
      | none => .stop none
      | some (h, e) =>
        if typ d.bytes = target then .stop (some (d.body h e)) else .next (d.rest e) := by
  by_cases hlen : 8 ≤ d.bytes.length
  · have htyp : slice d.bytes 4 8 = some (typ d.bytes) := slice_eq (by decide) hlen
    rw [findTurn, if_pos hlen, findBody, htyp]
    obtain ⟨hl, ha⟩ | ⟨h, e, hl, hwrap, hle, ha⟩ := boxLengths_cases hlen hfits
    · rw [hl, ha]
      rfl
    · by_cases hin : e ≤ d.bytes.length
      · simp only [hl, Option.bind_eq_bind, Option.bind_some, hwrap, ha, if_pos hin,
          if_neg (Nat.not_lt.2 hin), sub_eq hle hin, sub_rest hin]
        split_ifs <;> rfl
      · simp only [hl, Option.bind_eq_bind, Option.bind_some, hwrap, ha, if_neg hin,
          if_pos (Nat.not_le.1 hin)]
        rfl
  · rw [findTurn, if_neg hlen, accepted, if_neg hlen]

/-- **A turn of `BoxIter::next`.** -/
theorem nextTurn_eq (target : Bytes) {d : Slice} (hfits : d.bytes.length < 2 ^ 32) :
    nextTurn target d = match accepted d.bytes with
      | none => .stop (none, d)
      | some (h, e) =>
        if typ d.bytes = target then .stop (some (d.body h e), d.rest e) else .next (d.rest e) := by
  by_cases hlen : 8 ≤ d.bytes.length
  · have htyp : slice d.bytes 4 8 = some (typ d.bytes) := slice_eq (by decide) hlen
    rw [nextTurn, if_pos hlen, nextBody, htyp]
    obtain ⟨hl, ha⟩ | ⟨h, e, hl, hwrap, hle, ha⟩ := boxLengths_cases hlen hfits
    · rw [hl, ha]
      rfl
    · by_cases hin : e ≤ d.bytes.length
      · simp only [hl, Option.bind_eq_bind, Option.bind_some, hwrap, ha, if_pos hin,
          if_neg (Nat.not_lt.2 hin), sub_eq hle hin, sub_rest hin]
        split_ifs <;> rfl
      · simp only [hl, Option.bind_eq_bind, Option.bind_some, hwrap, ha, if_neg hin,
          if_pos (Nat.not_le.1 hin)]
        rfl
  · rw [nextTurn, if_neg hlen, accepted, if_neg hlen]

/-! ### All boxes -/

/-- A way to read the first box, which lies within the data. -/
structure Rule where
  first : Bytes → Option (Nat × Nat)
  bounds : ∀ {data h e}, first data = some (h, e) →
    8 ≤ data.length ∧ 8 ≤ h ∧ h ≤ e ∧ e ≤ data.length

/-- The boxes of some data, with their types. -/
def Rule.boxes (R : Rule) (d : Slice) : List (Bytes × Slice) :=
  match _h : R.first d.bytes with
  | none => []
  | some (k, e) => (typ d.bytes, d.body k e) :: R.boxes (d.rest e)
termination_by d.bytes.length
decreasing_by
  have hbounds := R.bounds _h
  simp only [Slice.rest, List.length_drop]
  omega

theorem Rule.boxes_of_none {R : Rule} {d : Slice} (h : R.first d.bytes = none) :
    R.boxes d = [] := by
  rw [Rule.boxes]
  split
  · rfl
  · rename_i heq
    rw [h] at heq
    cases heq

theorem Rule.boxes_of_some {R : Rule} {d : Slice} {k e : Nat} (h : R.first d.bytes = some (k, e)) :
    R.boxes d = (typ d.bytes, d.body k e) :: R.boxes (d.rest e) := by
  rw [Rule.boxes]
  split <;> rename_i heq <;> rw [h] at heq
  · cases heq
  · obtain ⟨rfl, rfl⟩ := Prod.mk.inj (Option.some.inj heq)
    rfl

/-- The boxes as they are read. -/
def read : Rule := ⟨accepted, bounds_of_accepted⟩

/-- The boxes as they are declared. -/
def asDeclared : Rule where
  first := declared
  bounds {data h e} hd := by
    simp only [declared, Option.ite_none_right_eq_some, Option.filter_eq_some_iff,
      decide_eq_true_eq] at hd
    obtain ⟨hlen, hd, hle⟩ := hd
    have hbounds := le_of_declaredSize hd hlen
    omega

/-- The bodies of the boxes of a type. -/
def ofType (target : Bytes) (l : List (Bytes × Slice)) : List Slice :=
  (l.filter fun p => p.1 = target).map Prod.snd

theorem length_rest {R : Rule} {d : Slice} {k e : Nat} (h : R.first d.bytes = some (k, e)) :
    (d.rest e).bytes.length < d.bytes.length := by
  have hbounds := R.bounds h
  simp only [Slice.rest, List.length_drop]
  omega

/-- **What `find_box` returns**: the first box of the type. -/
theorem findBox_eq (target : Bytes) {turns : Nat} {d : Slice} (hfits : d.bytes.length < 2 ^ 32)
    (hturns : d.bytes.length < turns) :
    findBox turns d target = .returned (ofType target (read.boxes d)).head? := by
  unfold findBox
  induction turns generalizing d with
  | zero => exact absurd hturns (Nat.not_lt_zero _)
  | succ turns ih =>
    rw [run, findTurn_eq target hfits]
    cases ha : accepted d.bytes with
    | none =>
      rw [read.boxes_of_none ha]
      rfl
    | some p =>
      obtain ⟨k, e⟩ := p
      have hlt := length_rest (R := read) ha
      rw [read.boxes_of_some ha]
      by_cases htyp : typ d.bytes = target
      · simp [ofType, htyp]
      · simpa [ofType, htyp] using ih (d := d.rest e) (by omega) (by omega)

/-- What `next` returns: the first box of the type, and the data behind it. -/
theorem exists_next (target : Bytes) {turns : Nat} {d : Slice} (hfits : d.bytes.length < 2 ^ 32)
    (hturns : d.bytes.length < turns) :
    (∃ rest, next turns d target = .returned (none, rest) ∧ ofType target (read.boxes d) = []) ∨
      ∃ body rest, next turns d target = .returned (some body, rest) ∧
        rest.bytes.length < d.bytes.length ∧
        ofType target (read.boxes d) = body :: ofType target (read.boxes rest) := by
  unfold next
  induction turns generalizing d with
  | zero => exact absurd hturns (Nat.not_lt_zero _)
  | succ turns ih =>
    rw [run, nextTurn_eq target hfits]
    cases ha : accepted d.bytes with
    | none =>
      rw [read.boxes_of_none ha]
      exact .inl ⟨d, rfl, rfl⟩
    | some p =>
      obtain ⟨k, e⟩ := p
      have hlt := length_rest (R := read) ha
      rw [read.boxes_of_some ha]
      by_cases htyp : typ d.bytes = target
      · exact .inr ⟨d.body k e, d.rest e, by simp [htyp], hlt, by simp [ofType, htyp]⟩
      · have hrest : ofType target ((typ d.bytes, d.body k e) :: read.boxes (d.rest e)) =
            ofType target (read.boxes (d.rest e)) := by
          simp [ofType, htyp]
        simp only [if_neg htyp, hrest]
        obtain hnone | ⟨body, rest, hnext, hlt', heq⟩ :=
          ih (d := d.rest e) (by omega) (by omega)
        · exact .inl hnone
        · exact .inr ⟨body, rest, hnext, hlt'.trans hlt, heq⟩

theorem collect_eq (target : Bytes) {turns n : Nat} {d : Slice} (hfits : d.bytes.length < 2 ^ 32)
    (hturns : d.bytes.length < turns) (hn : d.bytes.length < n) :
    collect turns target n d = .returned (ofType target (read.boxes d)) := by
  induction n generalizing d with
  | zero => exact absurd hn (Nat.not_lt_zero _)
  | succ n ih =>
    rw [collect]
    obtain ⟨rest, hnext, hnil⟩ | ⟨body, rest, hnext, hlt, hcons⟩ := exists_next target hfits hturns
    · rw [hnext, hnil]
    · rw [hnext, hcons]
      dsimp only
      rw [ih (by omega) (by omega) (by omega)]
      rfl

/-- **What `iter_boxes` returns**: all boxes of the type. -/
theorem iterBoxes_eq (target : Bytes) {turns : Nat} {d : Slice} (hfits : d.bytes.length < 2 ^ 32)
    (hturns : d.bytes.length < turns) :
    iterBoxes turns d target = .returned (ofType target (read.boxes d)) :=
  collect_eq target hfits hturns hturns

/-! ### Sizes of 64 bits -/

/-- The first box declares a size of `2 ^ 32` or more, whose lower half lies within the data. -/
def Mistaken (data : Bytes) : Prop :=
  ∃ large, u32Be data 0 = some 1 ∧ u64Be data 8 = some large ∧ 2 ^ 32 ≤ large ∧
    max 16 (large % 2 ^ 32) ≤ data.length

/-- The data behind some of the boxes, as they are declared. -/
inductive Reached : Slice → Slice → Prop
  | refl (d : Slice) : Reached d d
  | step {d x : Slice} {k e : Nat} (h : declared d.bytes = some (k, e))
      (hx : Reached (d.rest e) x) : Reached d x

theorem declared_eq_some {data : Bytes} {k e : Nat} : declared data = some (k, e) ↔
    8 ≤ data.length ∧ declaredSize data = some (k, e) ∧ e ≤ data.length := by
  simp only [declared, Option.ite_none_right_eq_some, Option.filter_eq_some_iff, decide_eq_true_eq]

theorem accepted_of_declared {data : Bytes} {k e : Nat} (hfits : data.length < 2 ^ 32)
    (h : declared data = some (k, e)) : accepted data = some (k, e) := by
  obtain ⟨hlen, hd, hle⟩ := declared_eq_some.1 h
  obtain ⟨-, -, hke⟩ := le_of_declaredSize hd hlen
  rw [accepted, if_pos hlen, hd, Option.map_some, wrap_of_lt (by omega), Nat.max_eq_right hke,
    Option.filter_some, if_pos (by simpa using hle)]

/-- A box is read and not declared if its size is mistaken. -/
theorem mistaken_iff {data : Bytes} (hfits : data.length < 2 ^ 32) (h : declared data = none) :
    Mistaken data ↔ accepted data ≠ none := by
  constructor
  · rintro ⟨large, hsize, hlarge, hle, hin⟩
    have hlen : 8 ≤ data.length := by omega
    have hd : declaredSize data = some (16, large) := by
      simp only [declaredSize, hsize, hlarge, Option.bind_eq_bind, Option.bind_some, if_true]
      rw [if_neg (by omega)]
    rw [accepted, if_pos hlen, hd, Option.map_some, Option.filter_some]
    exact (if_pos (decide_eq_true hin)).trans_ne (Option.some_ne_none _)
  · intro ha
    obtain ⟨⟨k, e'⟩, ha⟩ := Option.ne_none_iff_exists'.1 ha
    simp only [accepted, Option.ite_none_right_eq_some, Option.filter_eq_some_iff,
      Option.map_eq_some_iff, decide_eq_true_eq] at ha
    obtain ⟨hlen, ⟨⟨k', e⟩, hd, heq⟩, hin⟩ := ha
    obtain ⟨rfl, rfl⟩ := Prod.mk.inj heq
    have hout : data.length < e := by
      by_contra hle
      rw [declared_eq_some.2 ⟨hlen, hd, Nat.not_lt.1 hle⟩] at h
      cases h
    have hbig : 2 ^ 32 ≤ e := by
      by_contra hlt
      dsimp only at hin
      rw [wrap_of_lt (Nat.not_le.1 hlt)] at hin
      omega
    obtain ⟨size, hsize, hlt⟩ := exists_u32Be data 0 (by omega)
    simp only [declaredSize, hsize, Option.bind_eq_bind, Option.bind_some] at hd
    split_ifs at hd with h1 h0 h8
    · obtain ⟨large, hlarge, hd⟩ := Option.bind_eq_some_iff.1 hd
      split_ifs at hd
      obtain ⟨rfl, rfl⟩ := Prod.mk.inj (Option.some.inj hd)
      exact ⟨large, h1 ▸ hsize, hlarge, hbig, hin⟩
    · obtain ⟨rfl, rfl⟩ := Prod.mk.inj (Option.some.inj hd)
      omega
    · obtain ⟨rfl, rfl⟩ := Prod.mk.inj (Option.some.inj hd)
      omega

/-- The boxes are behind the beginning of the data. -/
theorem start_lt_of_mem {R : Rule} {d : Slice} {x : Bytes × Slice} (hx : x ∈ R.boxes d) :
    d.start < x.2.start := by
  fun_induction R.boxes d with
  | case1 => cases hx
  | case2 d k e h ih =>
    have hbounds := R.bounds h
    rcases List.mem_cons.1 hx with rfl | hx
    · show d.start < d.start + k
      omega
    · exact Nat.lt_of_le_of_lt (Nat.le_add_right _ _) (ih hx)

/-- **The boxes that are read are declared** if no size of 64 bits is mistaken. -/
theorem boxes_subset_iff {d : Slice} (hfits : d.bytes.length < 2 ^ 32) :
    (∀ x ∈ read.boxes d, x ∈ asDeclared.boxes d) ↔ ∀ x, Reached d x → ¬ Mistaken x.bytes := by
  fun_induction asDeclared.boxes d with
  | case1 d h =>
    have hmistaken := mistaken_iff hfits h
    constructor
    · intro hsub x hx hmis
      cases hx with
      | refl =>
        obtain ⟨⟨k, e⟩, ha⟩ := Option.ne_none_iff_exists'.1 (hmistaken.1 hmis)
        rw [read.boxes_of_some ha] at hsub
        cases hsub _ List.mem_cons_self
      | step hd =>
        rw [show declared d.bytes = none from h] at hd
        cases hd
    · intro hnot x hx
      have ha : accepted d.bytes = none := by
        by_contra ha
        exact hnot d (.refl d) (hmistaken.2 ha)
      rw [read.boxes_of_none ha] at hx
      cases hx
  | case2 d k e h ih =>
    have ha : accepted d.bytes = some (k, e) := accepted_of_declared hfits h
    have hlt := length_rest (R := read) ha
    have hbounds := asDeclared.bounds h
    rw [read.boxes_of_some ha]
    have hsub : (∀ x ∈ (typ d.bytes, d.body k e) :: read.boxes (d.rest e),
        x ∈ (typ d.bytes, d.body k e) :: asDeclared.boxes (d.rest e)) ↔
        ∀ x ∈ read.boxes (d.rest e), x ∈ asDeclared.boxes (d.rest e) := by
      constructor
      · intro hall x hx
        refine (List.mem_cons.1 (hall x (List.mem_cons_of_mem _ hx))).resolve_left ?_
        -- later boxes begin behind the body of this one
        rintro rfl
        have hstart : d.start + e < d.start + k := start_lt_of_mem hx
        omega
      · intro hall x hx
        rcases List.mem_cons.1 hx with rfl | hx
        · exact List.mem_cons_self
        · exact List.mem_cons_of_mem _ (hall x hx)
    rw [hsub, ih (by omega)]
    constructor
    · intro hnot x hx
      cases hx with
      | refl =>
        rintro ⟨large, hsize, hlarge, hle, -⟩
        obtain ⟨-, hd, hin⟩ := declared_eq_some.1 h
        simp only [declaredSize, hsize, hlarge, Option.bind_eq_bind, Option.bind_some,
          if_true, Option.ite_none_left_eq_some] at hd
        obtain ⟨-, rfl⟩ := Prod.mk.inj (Option.some.inj hd.2)
        omega
      | step hd hx =>
        have heq : some (k, e) = some _ := (show declared _ = _ from h).symm.trans hd
        obtain ⟨rfl, rfl⟩ := Prod.mk.inj (Option.some.inj heq)
        exact hnot x hx
    · exact fun hnot x hx => hnot x (.step h hx)

/-! ### The size of the video -/

/-- What follows in a computation that can trap or run forever. -/
def andThen {α β : Type} (x : Outcome α) (f : α → Outcome β) : Outcome β :=
  match x with
  | .running => .running
  | .trapped => .trapped
  | .returned a => f a

/-- What follows where a box is found. -/
def ifFound {β : Type} (x : Outcome (Option Slice)) (otherwise : β) (f : Slice → Outcome β) :
    Outcome β :=
  andThen x fun o => match o with
    | none => .returned otherwise
    | some s => f s

/-- `trak_is_video`. -/
def trakIsVideo (turns : Nat) (trak : Slice) : Outcome Bool :=
  ifFound (findBox turns trak (utf8 "mdia".toList)) false fun mdia =>
    ifFound (findBox turns mdia (utf8 "hdlr".toList)) false fun hdlr =>
      if hdlr.bytes.length < 12 then .returned false
      else match slice hdlr.bytes 8 12 with
        | none => .trapped
        | some handler => .returned (handler == utf8 "vide".toList)

/-- The loop over the tracks, up to the `tkhd` of the first video. -/
def videoTkhd (turns : Nat) : Nat → Slice → Outcome (Option Slice)
  | 0, _ => .running
  | n + 1, data =>
    andThen (next turns data (utf8 "trak".toList)) fun
      | (none, _) => .returned none
      | (some trak, rest) => andThen (trakIsVideo turns trak) fun video =>
          if video then findBox turns trak (utf8 "tkhd".toList) else videoTkhd turns n rest

/-- The sizes in a `tkhd`, and how they are rounded. -/
def tkhdDimensions (tkhd : Bytes) : Outcome (Option (Nat × Nat)) :=
  match tkhd with
  | [] => .returned none
  | version :: _ =>
    match if version = 0 then some (76, 80) else if version = 1 then some (88, 92) else none with
    | none => .returned none
    | some (wOff, hOff) =>
      if tkhd.length < hOff + 4 then .returned none
      else match u32Be tkhd wOff, u32Be tkhd hOff with
        | some wFixed, some hFixed =>
          let width := wrap (wFixed + 0x8000) >>> 16
          let height := wrap (hFixed + 0x8000) >>> 16
          if width = 0 ∨ height = 0 then .returned none else .returned (some (width, height))
        | _, _ => .trapped

/-- `mp4_video_dimensions`. -/
def mp4VideoDimensions (turns : Nat) (bytes : Slice) : Outcome (Option (Nat × Nat)) :=
  ifFound (findBox turns bytes (utf8 "moov".toList)) none fun moov =>
    ifFound (videoTkhd turns turns moov) none fun tkhd => tkhdDimensions tkhd.bytes

/-- The sizes in a `tkhd`, as fixed-point numbers. -/
def fixedSizes (tkhd : Bytes) : Option (Nat × Nat) := do
  let version ← tkhd.head?
  if version = 0 then some (← u32Be tkhd 76, ← u32Be tkhd 80)
  else if version = 1 then some (← u32Be tkhd 88, ← u32Be tkhd 92)
  else none

/-- A fixed-point number rounded to the nearest integer, and halves up. -/
def roundFixed (n : Nat) : Nat := (n + 2 ^ 15) / 2 ^ 16

/-- It is at most one half away. -/
theorem roundFixed_near (n : Nat) :
    2 ^ 16 * roundFixed n ≤ n + 2 ^ 15 ∧ n + 2 ^ 15 < 2 ^ 16 * (roundFixed n + 1) := by
  unfold roundFixed
  omega

theorem round_eq_iff {w : Nat} (hw : w < 2 ^ 32) :
    (wrap (w + 0x8000) >>> 16 ≠ 0 ∧ wrap (w + 0x8000) >>> 16 = roundFixed w) ↔
      0x8000 ≤ w ∧ w + 0x8000 < 2 ^ 32 := by
  rw [Nat.shiftRight_eq_div_pow]
  unfold wrap roundFixed
  omega

theorem u32Be_eq_none {data : Bytes} {i : Nat} (h : data.length < i + 4) : u32Be data i = none := by
  have hnone : data[i + 3]? = none := List.getElem?_eq_none (by omega)
  simp [u32Be, hnone]

/-- A number that is read fits, and lies within the data. -/
theorem bounds_of_u32Be {data : Bytes} {i n : Nat} (h : u32Be data i = some n) :
    i + 4 ≤ data.length ∧ n < 2 ^ 32 := by
  have hroom : i + 4 ≤ data.length := by
    by_contra hout
    rw [u32Be_eq_none (Nat.not_le.1 hout)] at h
    cases h
  obtain ⟨m, hm, hlt⟩ := exists_u32Be data i hroom
  obtain rfl : n = m := Option.some.inj (h.symm.trans hm)
  exact ⟨hroom, hlt⟩

/-- **The size of the video is exact** if both numbers are at least one half and do not round up to
`2 ^ 16`. -/
theorem tkhdDimensions_eq_iff {tkhd : Bytes} {w h : Nat} (hsizes : fixedSizes tkhd = some (w, h)) :
    tkhdDimensions tkhd = .returned (some (roundFixed w, roundFixed h)) ↔
      (0x8000 ≤ w ∧ w + 0x8000 < 2 ^ 32) ∧ 0x8000 ≤ h ∧ h + 0x8000 < 2 ^ 32 := by
  cases tkhd with
  | nil => cases hsizes
  | cons version tail =>
    have hsame : ∃ wOff hOff, u32Be (version :: tail) wOff = some w ∧
        u32Be (version :: tail) hOff = some h ∧
        (if version = 0 then some (76, 80) else if version = 1 then some (88, 92) else none) =
          some (wOff, hOff) := by
      simp only [fixedSizes, List.head?_cons, Option.bind_eq_bind, Option.bind_some] at hsizes
      split_ifs at hsizes ⊢ with h0 h1
      · obtain ⟨w', hw, h', hh, heq⟩ := by
          simpa only [Option.bind_eq_some_iff] using hsizes
        obtain ⟨rfl, rfl⟩ := Prod.mk.inj (Option.some.inj heq)
        exact ⟨76, 80, hw, hh, rfl⟩
      · obtain ⟨w', hw, h', hh, heq⟩ := by
          simpa only [Option.bind_eq_some_iff] using hsizes
        obtain ⟨rfl, rfl⟩ := Prod.mk.inj (Option.some.inj heq)
        exact ⟨88, 92, hw, hh, rfl⟩
    obtain ⟨wOff, hOff, hw, hh, hoff⟩ := hsame
    obtain ⟨-, hwlt⟩ := bounds_of_u32Be hw
    obtain ⟨hroom, hhlt⟩ := bounds_of_u32Be hh
    rw [← round_eq_iff hwlt, ← round_eq_iff hhlt, tkhdDimensions, hoff]
    simp only [hw, hh, if_neg (Nat.not_lt.2 hroom)]
    generalize wrap (w + 0x8000) >>> 16 = width
    generalize wrap (h + 0x8000) >>> 16 = height
    split_ifs with hzero
    · simp only [Outcome.returned.injEq, reduceCtorEq, false_iff]
      tauto
    · simp only [Outcome.returned.injEq, Option.some.injEq, Prod.mk.injEq]
      tauto

theorem mem_ofType {target : Bytes} {l : List (Bytes × Slice)} {v : Slice} :
    v ∈ ofType target l ↔ (target, v) ∈ l := by
  simp [ofType]

/-- **Boxes are read safely and exactly**: both functions end without a trap, and `find_box` returns
the first item of `iter_boxes`; the boxes that are returned are declared to lie within the data,
if no size of `2 ^ 32` or more has a lower half that does; and the size of a video is rounded to
the nearest, if it is not less than one half and does not round up to `2 ^ 16`. -/
theorem mp4_exact_iff (d : Slice) (hfits : d.bytes.length < 2 ^ 32) :
    (∀ target, ∃ l, ∀ turns, d.bytes.length < turns →
      iterBoxes turns d target = .returned l ∧ findBox turns d target = .returned l.head?) ∧
    ((∀ target turns l, iterBoxes turns d target = .returned l → d.bytes.length < turns →
        ∀ v ∈ l, (target, v) ∈ asDeclared.boxes d) ↔
      ∀ x, Reached d x → ¬ Mistaken x.bytes) ∧
    ∀ (turns : Nat) (moov tkhd : Slice) (w h : Nat),
      findBox turns d (utf8 "moov".toList) = .returned (some moov) →
      videoTkhd turns turns moov = .returned (some tkhd) → fixedSizes tkhd.bytes = some (w, h) →
      (mp4VideoDimensions turns d = .returned (some (roundFixed w, roundFixed h)) ↔
        (0x8000 ≤ w ∧ w + 0x8000 < 2 ^ 32) ∧ 0x8000 ≤ h ∧ h + 0x8000 < 2 ^ 32) := by
  refine ⟨fun target => ⟨_, fun turns hturns =>
    ⟨iterBoxes_eq target hfits hturns, findBox_eq target hfits hturns⟩⟩, ?_, ?_⟩
  · rw [← boxes_subset_iff hfits]
    constructor
    · rintro hall ⟨target, v⟩ hx
      exact hall target (d.bytes.length + 1) _ (iterBoxes_eq target hfits (Nat.lt_succ_self _))
        (Nat.lt_succ_self _) v (mem_ofType.2 hx)
    · intro hsub target turns l hl hturns v hv
      rw [iterBoxes_eq target hfits hturns] at hl
      obtain rfl := Outcome.returned.inj hl
      exact hsub _ (mem_ofType.1 hv)
  · intro turns moov tkhd w h hmoov htkhd hsizes
    rw [← tkhdDimensions_eq_iff hsizes, mp4VideoDimensions, hmoov]
    show ifFound (videoTkhd turns turns moov) none _ = _ ↔ _
    rw [htkhd]
    rfl

/-- A box that declares a size of `2 ^ 32 + 16`, and has no more than its header. -/
def truncated : Slice := ⟨0, [0, 0, 0, 1] ++ utf8 "mdat".toList ++ [0, 0, 0, 1, 0, 0, 0, 16]⟩

/-- The box is returned; and a width that rounds to `2 ^ 16` is not. -/
theorem truncated_returned :
    iterBoxes 17 truncated (utf8 "mdat".toList) = .returned [⟨16, []⟩] ∧
      (utf8 "mdat".toList, ⟨16, []⟩) ∉ asDeclared.boxes truncated ∧
      tkhdDimensions (List.replicate 76 0 ++ [0xFF, 0xFF, 0x80, 0] ++ [0, 1, 0, 0]) =
        .returned none ∧ roundFixed 0xFFFF8000 = 2 ^ 16 := by
  refine ⟨by decide +kernel, ?_, by decide +kernel, by decide +kernel⟩
  have hnone : asDeclared.first truncated.bytes = none := by decide +kernel
  rw [asDeclared.boxes_of_none hnone]
  exact List.not_mem_nil

/-- A box. -/
def box (typ body : Bytes) : Bytes := [0, 0, 0, UInt8.ofNat (8 + body.length)] ++ typ ++ body

/-- A `tkhd` with a width of one and a half. -/
def demoTkhd : Bytes := List.replicate 76 0 ++ [0, 1, 0x80, 0] ++ [0, 1, 0, 0]

/-- A `moov` with one video. -/
def demoMoov : Bytes :=
  box (utf8 "trak".toList) (box (utf8 "tkhd".toList) demoTkhd ++
    box (utf8 "mdia".toList)
      (box (utf8 "hdlr".toList) (List.replicate 8 0 ++ utf8 "vide".toList)))

/-- A file with that. -/
def demoFile : Slice := ⟨0, box (utf8 "moov".toList) demoMoov⟩

theorem mp4_exact_iff_demo :
    (∀ target, ∃ l, ∀ turns, demoFile.bytes.length < turns →
      iterBoxes turns demoFile target = .returned l ∧
        findBox turns demoFile target = .returned l.head?) ∧
    mp4VideoDimensions 200 demoFile = .returned (some (2, 1)) := by
  obtain ⟨hsafe, -, hsize⟩ := mp4_exact_iff demoFile (by decide +kernel)
  exact ⟨hsafe, (hsize 200 ⟨8, demoMoov⟩ ⟨24, demoTkhd⟩ 0x18000 0x10000
    (by decide +kernel) (by decide +kernel) (by decide +kernel)).2 (by decide)⟩

end Mp4

end Omp
