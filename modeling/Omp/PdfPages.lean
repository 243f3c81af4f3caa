import Mathlib.Data.Set.Card
import Omp.Lib.Jumps
import Omp.Lib.Text

/-!
# The probe that counts the pages of a PDF

The probe looks for `/Type`, white space and `/Page`, and does not read the file any further.  After
`/Type` and white space it jumps over five bytes, whether they are `/Page` or not.

## Main definitions

* `countPageObjects` : the count of the probe.
* `IsMarker` : what should be counted.

## Main results

* `countPageObjects_eq` : the count is that of the markers which the scan sees.
* `markers_counted_iff` : all of them are counted if none is an even number in a chain.
-/

namespace Omp

namespace Pdf

open Lib

/-! ### The probe -/

/-- `is_pdf_ws`. -/
def isPdfWs (b : UInt8) : Bool :=
  b == 0x20 || b == 0x09 || b == 0x0D || b == 0x0A || b == 0x0C || b == 0x00

/-- `is_pdf_name_end`. -/
def isPdfNameEnd (b : UInt8) : Bool :=
  b == 0 || isPdfWs b || (utf8 "/<>[]()".toList).contains b

/-- `KEY`. -/
def key : Bytes := utf8 "/Type".toList

/-- `VAL`. -/
def val : Bytes := utf8 "/Page".toList

/-- The loop over white space from position `j` on. -/
def skipWs (bytes : Bytes) (j : Nat) : Nat :=
  if h : j < bytes.length then
    if isPdfWs (bytes[j]) then skipWs bytes (j + 1) else j
  else j
termination_by bytes.length - j

theorem le_skipWs (bytes : Bytes) (j : Nat) : j ≤ skipWs bytes j := by
  fun_induction skipWs bytes j with
  | case1 j h hws ih => omega
  | case2 | case3 => exact Nat.le_refl _

/-- The loop over the file from position `i` on. -/
def countFrom (bytes : Bytes) (i count : Nat) : Nat :=
  if i + key.length < bytes.length then
    if (bytes.drop i).take key.length = key then
      let j := skipWs bytes (i + key.length)
      let count :=
        if (bytes.drop j).take val.length = val ∧ isPdfNameEnd (bytes.getD (j + val.length) 0) then
          count + 1
        else count
      countFrom bytes (j + val.length) count
    else countFrom bytes (i + 1) count
  else count
termination_by bytes.length - i
decreasing_by
  · have := le_skipWs bytes (i + key.length)
    have hkey : key.length = 5 := rfl
    omega
  · omega

/-- `count_page_objects`. -/
def countPageObjects (bytes : Bytes) : Nat := countFrom bytes 0 0

/-- `looks_like_pdf`. -/
def looksLikePdf (bytes : Bytes) : Bool := (utf8 "%PDF-".toList).isPrefixOf bytes

/-- `probe_run`, of the bytes of a file. -/
def probeRun (bytes : Bytes) : Option Nat :=
  if looksLikePdf bytes then
    let count := countPageObjects bytes
    if count = 0 then none else some count
  else none

/-! ### Markers -/

/-- There is a marker at a position: `/Type`, white space and `/Page`, and the end of the name. -/
def IsMarker (bytes : Bytes) (p : Nat) : Prop :=
  ∃ ws rest, bytes.drop p = key ++ (ws ++ (val ++ rest)) ∧ (∀ b ∈ ws, isPdfWs b = true) ∧
    ∀ b ∈ rest.head?, isPdfNameEnd b = true

/-- The scan of the probe. -/
def scan (bytes : Bytes) : Jumps where
  found i := i + key.length < bytes.length && (bytes.drop i).take key.length == key
  next i := skipWs bytes (i + key.length) + val.length
  lt_next i := by
    have := le_skipWs bytes (i + key.length)
    have hval : val.length = 5 := rfl
    omega

/-- The test of the probe, after `/Type`. -/
def isPage (bytes : Bytes) (i : Nat) : Bool :=
  let j := skipWs bytes (i + key.length)
  (bytes.drop j).take val.length = val ∧ isPdfNameEnd (bytes.getD (j + val.length) 0)

@[simp] theorem length_key : key.length = 5 := rfl

@[simp] theorem length_val : val.length = 5 := rfl

theorem found_iff {bytes : Bytes} {i : Nat} :
    (scan bytes).found i = true ↔ i + 5 < bytes.length ∧ (bytes.drop i).take 5 = key :=
  Bool.and_eq_true_iff.trans (and_congr decide_eq_true_iff beq_iff_eq)

theorem skipWs_eq (bytes : Bytes) (j : Nat) :
    skipWs bytes j = j + ((bytes.drop j).takeWhile isPdfWs).length := by
  fun_induction skipWs bytes j with
  | case1 j h hws ih =>
    rw [ih, List.drop_eq_getElem_cons h, List.takeWhile_cons_of_pos hws, List.length_cons]
    omega
  | case2 j h hws =>
    rw [List.drop_eq_getElem_cons h, List.takeWhile_cons_of_neg hws]
    rfl
  | case3 j h =>
    rw [List.drop_eq_nil_of_le (Nat.not_lt.1 h)]
    rfl

/-- The end of a name, or of the file. -/
theorem isPdfNameEnd_iff {rest : Bytes} :
    isPdfNameEnd (rest.head?.getD 0) = true ↔ ∀ b ∈ rest.head?, isPdfNameEnd b = true := by
  cases rest with
  | nil => simp [isPdfNameEnd]
  | cons b rest => simp

theorem takeWhile_val (rest : Bytes) : (val ++ rest).takeWhile isPdfWs = [] := by
  have hval : val = 0x2F :: [0x50, 0x61, 0x67, 0x65] := by decide
  rw [hval, List.cons_append]
  exact List.takeWhile_cons_of_neg (by decide)

/-- The probe tests for markers. -/
theorem isMarker_iff {bytes : Bytes} {p : Nat} :
    IsMarker bytes p ↔ (scan bytes).found p = true ∧ isPage bytes p = true := by
  have hend : ∀ n, bytes.getD n 0 = (bytes.drop n).head?.getD 0 := by
    intro n
    rw [List.getD_eq_getElem?_getD, List.head?_drop]
  have hpage : isPage bytes p = true ↔
      (bytes.drop (skipWs bytes (p + 5))).take 5 = val ∧
        ∀ b ∈ ((bytes.drop (skipWs bytes (p + 5))).drop 5).head?, isPdfNameEnd b = true := by
    rw [List.drop_drop, ← isPdfNameEnd_iff, ← hend]
    exact decide_eq_true_iff
  rw [hpage]
  constructor
  · rintro ⟨ws, rest, hdrop, hws, hrest⟩
    have hlen := congrArg List.length hdrop
    simp only [List.length_drop, List.length_append, length_key, length_val] at hlen
    have hafter : bytes.drop (p + 5) = ws ++ (val ++ rest) := by
      rw [← List.drop_drop, hdrop]
      rfl
    have hskip : skipWs bytes (p + 5) = p + 5 + ws.length := by
      rw [skipWs_eq, hafter, List.takeWhile_append_of_pos hws, takeWhile_val, List.append_nil]
    have hval : bytes.drop (skipWs bytes (p + 5)) = val ++ rest := by
      rw [hskip, ← List.drop_drop, hafter, List.drop_left]
    rw [hval]
    exact ⟨found_iff.2 ⟨by omega, by rw [hdrop]; rfl⟩, rfl, hrest⟩
  · rintro ⟨hfound, hval, hrest⟩
    obtain ⟨-, hkey⟩ := found_iff.1 hfound
    refine ⟨(bytes.drop (p + 5)).takeWhile isPdfWs, (bytes.drop (skipWs bytes (p + 5))).drop 5, ?_,
      fun b hb => List.mem_takeWhile_imp hb, hrest⟩
    have hdrop : bytes.drop (skipWs bytes (p + 5)) =
        (bytes.drop (p + 5)).dropWhile isPdfWs := by
      rw [skipWs_eq, ← List.drop_drop]
      calc (bytes.drop (p + 5)).drop ((bytes.drop (p + 5)).takeWhile isPdfWs).length
          = (((bytes.drop (p + 5)).takeWhile isPdfWs) ++
              (bytes.drop (p + 5)).dropWhile isPdfWs).drop
                ((bytes.drop (p + 5)).takeWhile isPdfWs).length := by
            rw [List.takeWhile_append_dropWhile]
        _ = (bytes.drop (p + 5)).dropWhile isPdfWs := List.drop_left' rfl
    rw [← hval, List.take_append_drop, hdrop, List.takeWhile_append_dropWhile, ← hkey,
      ← List.drop_drop, List.take_append_drop]

/-! ### The scan -/

theorem isPdfWs_of_lt_skipWs {bytes : Bytes} {j m : Nat} (hj : j ≤ m) (hm : m < skipWs bytes j) :
    ∃ b, bytes[m]? = some b ∧ isPdfWs b = true := by
  fun_induction skipWs bytes j with
  | case1 j h hws ih =>
    rcases Nat.eq_or_lt_of_le hj with rfl | hlt
    · exact ⟨_, List.getElem?_eq_getElem h, hws⟩
    · exact ih hlt hm
  | case2 | case3 => omega

/-- `/Type` and white space have a slash at the beginning only. -/
theorem slash {bytes : Bytes} {i : Nat} (h : (scan bytes).found i = true) :
    bytes[i]? = some 0x2F ∧
      ∀ m, i < m → m < skipWs bytes (i + 5) → bytes[m]? ≠ some 0x2F := by
  obtain ⟨-, hkey⟩ := found_iff.1 h
  have hat : ∀ k < 5, bytes[i + k]? = key[k]? := by
    intro k hk
    rw [← hkey, List.getElem?_take_of_lt hk, List.getElem?_drop]
  refine ⟨hat 0 (by decide), fun m hm hlt hslash => ?_⟩
  by_cases hin : m < i + 5
  · have hone : ∀ k < 5, 0 < k → key[k]? ≠ some 0x2F := by decide
    have hk := hat (m - i) (by omega)
    rw [Nat.add_sub_cancel' hm.le, hslash] at hk
    exact hone _ (by omega) (by omega) hk.symm
  · obtain ⟨b, hb, hws⟩ := isPdfWs_of_lt_skipWs (Nat.not_lt.1 hin) hlt
    rw [hslash] at hb
    obtain rfl := Option.some.inj hb
    revert hws
    decide

theorem scan_adjacent (bytes : Bytes) : (scan bytes).Adjacent := by
  intro p p' q hover hp' hlt
  by_contra hq
  have hnext : q < skipWs bytes (p + 5) + 5 := hover.lt_next
  have hskip : skipWs bytes (p + 5) ≤ p' := by
    by_contra h
    exact (slash hover.left).2 p' hlt (Nat.not_le.1 h) (slash hp').1
  have hskip' : skipWs bytes (p' + 5) ≤ q := by
    by_contra h
    exact (slash hp').2 q (Nat.not_le.1 hq) (Nat.not_le.1 h) (slash hover.right).1
  have hle := le_skipWs bytes (p' + 5)
  omega

/-- What the loop adds is what the scan sees. -/
theorem countFrom_eq (bytes : Bytes) (i count : Nat) :
    countFrom bytes i count =
      count + ((scan bytes).visits bytes.length i).countP (isPage bytes) := by
  fun_induction countFrom bytes i count with
  | case1 i count hlt hkey j count' ih =>
    have hi : i < bytes.length := by omega
    have hfound : (scan bytes).found i = true := found_iff.2 ⟨hlt, hkey⟩
    rw [ih, Jumps.visits_of_found hi hfound, List.countP_cons]
    have hcount : count' = count + if isPage bytes i = true then 1 else 0 := by
      simp only [isPage, decide_eq_true_eq]
      exact apply_ite (count + ·) _ 1 0 |>.symm
    rw [hcount, Nat.add_assoc, Nat.add_comm (List.countP _ _)]
    rfl
  | case2 i count hlt hkey ih =>
    have hi : i < bytes.length := by omega
    have hfound : ¬ (scan bytes).found i = true := fun h => hkey (found_iff.1 h).2
    rw [ih, Jumps.visits_of_not_found hi hfound]
  | case3 i count hlt =>
    rw [Jumps.visits_eq_nil fun q hq => ?_]
    · rfl
    · rw [← Bool.not_eq_true, found_iff]
      intro h
      have := h.1
      simp only [length_key] at hlt
      omega

/-- A marker is seen if it has an odd number in its chain. -/
theorem seen_iff {bytes : Bytes} {p : Nat} (h : IsMarker bytes p) :
    p ∈ (scan bytes).visits bytes.length 0 ↔ ∀ n, (scan bytes).Chain n p → Odd n := by
  have hadj := scan_adjacent bytes
  have hfound := (isMarker_iff.1 h).1
  have hlt := (found_iff.1 hfound).1
  rw [Jumps.mem_visits_iff hadj Jumps.seen_zero]
  constructor
  · rintro ⟨-, -, -, k, hk, hodd⟩ n hn
    rwa [hn.unique hadj hk]
  · intro hodd
    obtain ⟨k, hk⟩ := Jumps.exists_chain p hfound
    exact ⟨Nat.zero_le p, by omega, hfound, k, hk, hodd k hk⟩

/-- The markers that are counted. -/
def counted (bytes : Bytes) : Finset Nat :=
  (((scan bytes).visits bytes.length 0).filter (isPage bytes)).toFinset

theorem mem_counted_iff {bytes : Bytes} {p : Nat} :
    p ∈ counted bytes ↔ p ∈ (scan bytes).visits bytes.length 0 ∧ IsMarker bytes p := by
  simp only [counted, List.mem_toFinset, List.mem_filter, isMarker_iff]
  refine and_congr_right fun hp => (and_iff_right ?_).symm
  exact ((Jumps.mem_visits_iff (scan_adjacent bytes) Jumps.seen_zero).1 hp).2.2.1

/-- **The count** is that of the markers which the scan sees. -/
theorem countPageObjects_eq (bytes : Bytes) :
    countPageObjects bytes = (counted bytes : Set Nat).ncard := by
  rw [Set.ncard_coe_finset, counted, List.toFinset_card_of_nodup, ← List.countP_eq_length_filter,
    countPageObjects, countFrom_eq, Nat.zero_add]
  exact (Jumps.nodup_visits _ _).filter _

theorem finite_markers (bytes : Bytes) : {p | IsMarker bytes p}.Finite :=
  (Set.finite_lt_nat bytes.length).subset fun _ hp =>
    have hlt := (found_iff.1 (isMarker_iff.1 hp).1).1
    Nat.lt_of_le_of_lt (Nat.le_add_right _ 5) hlt

/-- **All markers are counted** if and only if none of them is jumped over from an odd number of
`/Type` before it, each followed by the next one within five bytes after its white space. -/
theorem markers_counted_iff (bytes : Bytes) :
    countPageObjects bytes = {p | IsMarker bytes p}.ncard ↔
      ∀ p n, IsMarker bytes p → (scan bytes).Chain n p → Odd n := by
  have hsub : (counted bytes : Set Nat) ⊆ {p | IsMarker bytes p} :=
    fun p hp => (mem_counted_iff.1 hp).2
  rw [countPageObjects_eq]
  constructor
  · intro hcard p n hp hn
    have heq := Set.eq_of_subset_of_ncard_le hsub (Nat.le_of_eq hcard.symm) (finite_markers bytes)
    have hmem : p ∈ (counted bytes : Set Nat) := heq.symm ▸ hp
    exact (seen_iff hp).1 (mem_counted_iff.1 hmem).1 n hn
  · intro hodd
    refine congrArg Set.ncard (hsub.antisymm fun p hp => ?_)
    exact mem_counted_iff.2 ⟨(seen_iff hp).2 fun n hn => hodd p n hp hn, hp⟩

/-- Between two of `/Type`, the second one with its page is not counted. -/
theorem marker_missed :
    countPageObjects (utf8 "/Type/Type/Page".toList) ≠
      {p | IsMarker (utf8 "/Type/Type/Page".toList) p}.ncard := by
  have hmarker : IsMarker (utf8 "/Type/Type/Page".toList) 5 :=
    ⟨[], [], by decide, by simp, by simp⟩
  have hpos : 0 < {p | IsMarker (utf8 "/Type/Type/Page".toList) p}.ncard :=
    (Set.ncard_pos (finite_markers _)).2 ⟨5, hmarker⟩
  have hzero : countPageObjects (utf8 "/Type/Type/Page".toList) = 0 := by decide +kernel
  omega

end Pdf

end Omp
