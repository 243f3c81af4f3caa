import Omp.Lib.F64
import Omp.Lib.Traps

/-!
# The probe for the duration of WAV files

The probe is compiled for a machine of 32 bits.  It goes from chunk to chunk by the sizes that the
file declares, until a chunk `data`.  Sizes are added with saturation, but what is added to them
afterwards wraps, and so does the test whether there is room for another chunk.

## Main definitions

* `wavDurationSeconds` : the function, up to some number of chunks.
* `ChunkAt` : the offsets of the chunks, as numbers without a bound.

## Main results

* `turn_eq` : what the loop does at a chunk.
* `wav_total_iff` : the function ends, without a trap and going forward, if no chunk ends at the
  top of the numbers.
-/

namespace Omp

namespace Wav

open Lib

/-! ### The function -/

/-- The variables of the loop. -/
structure State where
  i : Nat
  byteRate : Option Nat
  dataSize : Option Nat

/-- `u32::from_le_bytes` of the four bytes from `i` on, which traps outside of the bytes. -/
def u32Le (bytes : Bytes) (i : Nat) : Option Nat := do
  some (leNat [← bytes[wrap i]?, ← bytes[wrap (i + 1)]?, ← bytes[wrap (i + 2)]?,
    ← bytes[wrap (i + 3)]?])

/-- The offset after a chunk. -/
def advance (body chunkSize : Nat) : Nat :=
  if chunkSize % 2 = 1 then wrap (saturatingAdd body chunkSize + 1)
  else saturatingAdd body chunkSize

/-- The body of the loop. -/
def chunk (bytes : Bytes) (s : State) : Option (Turn State State) := do
  let chunkId ← slice bytes s.i (wrap (s.i + 4))
  let chunkSize ← u32Le bytes (s.i + 4)
  let body := wrap (s.i + 8)
  if chunkId = utf8 "fmt ".toList ∧ wrap (body + 16) ≤ bytes.length then
    let rate ← u32Le bytes (body + 8)
    some (.next { s with i := advance body chunkSize, byteRate := some rate })
  else if chunkId = utf8 "data".toList then
    some (.stop { s with dataSize := some chunkSize })
  else some (.next { s with i := advance body chunkSize })

/-- A turn of the loop. -/
def turn (bytes : Bytes) (s : State) : Turn State State :=
  if wrap (s.i + 8) ≤ bytes.length then (chunk bytes s).getD .trap else .stop s

/-- What is computed from the variables after the loop. -/
def duration (s : State) : Option F64 := do
  let rate ← s.byteRate
  let size ← s.dataSize
  if rate = 0 then none else some (F64.ofRatio size rate)

/-- The test for the header. -/
def isWave (bytes : Bytes) : Bool :=
  !(bytes.length < 44) && bytes.take 4 == utf8 "RIFF".toList &&
    (bytes.drop 8).take 4 == utf8 "WAVE".toList

/-- The variables before the loop. -/
def start : State := ⟨12, none, none⟩

/-- `wav_duration_seconds`, up to a number of turns of its loop: the offsets it comes to, and its
result. -/
def wavDurationSeconds (bytes : Bytes) (turns : Nat) : List Nat × Outcome (Option F64) :=
  if isWave bytes then
    ((run (turn bytes) turns start).1.map State.i, (run (turn bytes) turns start).2.map duration)
  else ([], .returned none)

/-! ### Chunks -/

/-- The name of the chunk at an offset. -/
def chunkId (bytes : Bytes) (i : Nat) : Bytes := (bytes.drop i).take 4

/-- The size of the chunk at an offset. -/
def chunkSize (bytes : Bytes) (i : Nat) : Nat := leNat ((bytes.drop (i + 4)).take 4)

/-- The offset after a chunk, with its padding. -/
def chunkEnd (bytes : Bytes) (i : Nat) : Nat := i + 8 + chunkSize bytes i + chunkSize bytes i % 2

/-- There is a chunk at an offset that does not end the loop. -/
def Goes (bytes : Bytes) (i : Nat) : Prop :=
  i + 8 ≤ bytes.length ∧ chunkId bytes i ≠ utf8 "data".toList

/-- The offsets of the chunks, up to `data`. -/
inductive ChunkAt (bytes : Bytes) : Nat → Prop
  | first : ChunkAt bytes 12
  | next {i : Nat} (h : ChunkAt bytes i) (hgoes : Goes bytes i) : ChunkAt bytes (chunkEnd bytes i)

theorem u32Le_eq {bytes : Bytes} {i : Nat} (hi : i + 4 ≤ bytes.length)
    (hlen : bytes.length < 2 ^ 31) : u32Le bytes i = some (leNat ((bytes.drop i).take 4)) := by
  have hat : ∀ k < 4, bytes[wrap (i + k)]? = ((bytes.drop i).take 4)[k]? := by
    intro k hk
    rw [wrap_of_lt (by omega), List.getElem?_take_of_lt hk, List.getElem?_drop]
  have hl : ((bytes.drop i).take 4).length = 4 := by
    rw [List.length_take, List.length_drop]
    omega
  obtain ⟨a, b, c, d, htake⟩ := List.length_eq_four.1 hl
  have h0 := hat 0 (by decide)
  have h1 := hat 1 (by decide)
  have h2 := hat 2 (by decide)
  have h3 := hat 3 (by decide)
  rw [htake] at h0 h1 h2 h3 ⊢
  rw [Nat.add_zero] at h0
  rw [u32Le, h0, h1, h2, h3]
  rfl

/-- **What the loop does at a chunk.** -/
theorem turn_eq {bytes : Bytes} {s : State} (hi : s.i + 8 ≤ bytes.length)
    (hlen : bytes.length < 2 ^ 31) :
    if chunkId bytes s.i = utf8 "data".toList then ∃ s', turn bytes s = .stop s'
    else ∃ s', turn bytes s = .next s' ∧ s'.i = advance (s.i + 8) (chunkSize bytes s.i) := by
  have hslice : slice bytes s.i (wrap (s.i + 4)) = some (chunkId bytes s.i) := by
    rw [wrap_of_lt (by omega), slice_eq (by omega) (by omega), Nat.add_sub_cancel_left]
    rfl
  have hsize : u32Le bytes (s.i + 4) = some (chunkSize bytes s.i) := u32Le_eq (by omega) hlen
  have hbody : wrap (s.i + 8) = s.i + 8 := wrap_of_lt (by omega)
  have hfmt : utf8 "fmt ".toList ≠ utf8 "data".toList := by decide
  rw [turn, hbody, if_pos hi, chunk, hslice, hsize]
  simp only [Option.bind_eq_bind, Option.bind_some, hbody]
  split_ifs with hdata hrate hrate
  · exact absurd (hrate.1.symm.trans hdata) hfmt
  · exact ⟨_, rfl⟩
  · -- there is room for the byte rate
    obtain ⟨-, hroom⟩ := hrate
    rw [wrap_of_lt (by omega)] at hroom
    rw [u32Le_eq (by omega) hlen]
    exact ⟨_, rfl, rfl⟩
  · exact ⟨_, rfl, rfl⟩

/-- The offset is the end of the chunk, unless that is at the top. -/
theorem advance_of_lt {bytes : Bytes} {i : Nat} (h : chunkEnd bytes i + 8 < 2 ^ 32) :
    advance (i + 8) (chunkSize bytes i) = chunkEnd bytes i := by
  unfold advance saturatingAdd chunkEnd wrap at *
  split_ifs <;> omega

/-- At the top the offset comes back to zero, or is at the top as well. -/
theorem advance_of_le {bytes : Bytes} {i : Nat} (hi : i + 8 < 2 ^ 31)
    (h : 2 ^ 32 ≤ chunkEnd bytes i + 8) :
    advance (i + 8) (chunkSize bytes i) = 0 ∨
      2 ^ 32 ≤ advance (i + 8) (chunkSize bytes i) + 8 ∧
        advance (i + 8) (chunkSize bytes i) < 2 ^ 32 := by
  unfold advance saturatingAdd chunkEnd wrap at *
  split_ifs <;> omega

/-- At the top the loop traps. -/
theorem turn_eq_trap {bytes : Bytes} {s : State} (hlen : bytes.length < 2 ^ 31)
    (h : 2 ^ 32 ≤ s.i + 8) (h' : s.i < 2 ^ 32) (hroom : 7 ≤ bytes.length) :
    turn bytes s = .trap := by
  have hle : wrap (s.i + 8) ≤ bytes.length := by
    unfold wrap
    omega
  rw [turn, if_pos hle, chunk, slice_eq_none (by omega)]
  rfl

/-! ### Whole runs -/

/-- The condition on a file: no chunk before `data` ends within eight bytes of `2 ^ 32`. -/
def EndsBelow (bytes : Bytes) : Prop :=
  ∀ i, ChunkAt bytes i → Goes bytes i → chunkEnd bytes i + 8 < 2 ^ 32

/-- The function ends without a trap, and the offsets it comes to are in order. -/
def Total (bytes : Bytes) : Prop :=
  ∃ turns r, (wavDurationSeconds bytes turns).2 = .returned r ∧
    (wavDurationSeconds bytes turns).1.Pairwise (· < ·)

theorem le_length_of_isWave {bytes : Bytes} (h : isWave bytes = true) : 44 ≤ bytes.length := by
  simp only [isWave, Bool.and_eq_true, Bool.not_eq_true', decide_eq_false_iff_not, Nat.not_lt] at h
  exact h.1.1

/-- Below the top the loop goes from chunk to chunk. -/
theorem total_of_endsBelow {bytes : Bytes} (hlen : bytes.length < 2 ^ 31)
    (hwave : isWave bytes = true) (h : EndsBelow bytes) : Total bytes := by
  have hturn : ∀ s, ChunkAt bytes s.i ∧ s.i + 8 < 2 ^ 32 → turn bytes s ≠ .trap ∧
      ∀ s', turn bytes s = .next s' →
        (ChunkAt bytes s'.i ∧ s'.i + 8 < 2 ^ 32) ∧ s.i < s'.i ∧ s.i < bytes.length := by
    rintro s ⟨hchunk, hs⟩
    by_cases hroom : s.i + 8 ≤ bytes.length
    · have hspec := turn_eq hroom hlen
      split_ifs at hspec with hdata
      · obtain ⟨s', hstop⟩ := hspec
        simp [hstop]
      · obtain ⟨s', hnext, hi⟩ := hspec
        have hend := h _ hchunk ⟨hroom, hdata⟩
        rw [advance_of_lt hend] at hi
        have hlt : s.i < chunkEnd bytes s.i := by
          unfold chunkEnd
          omega
        rw [hnext]
        refine ⟨by simp, fun s₁ hs₁ => ?_⟩
        obtain rfl := Turn.next.inj hs₁
        rw [hi]
        exact ⟨⟨hchunk.next ⟨hroom, hdata⟩, hend⟩, hlt, by omega⟩
    · rw [turn, wrap_of_lt hs, if_neg hroom]
      simp
  obtain ⟨⟨r, hr⟩, hpair, -⟩ := run_returned
    (fun s => ChunkAt bytes s.i ∧ s.i + 8 < 2 ^ 32) State.i bytes.length
    (fun s hs => (hturn s hs).1) (fun s s' hs => (hturn s hs).2 s') (n := bytes.length + 1)
    (s := start) ⟨.first, by decide⟩ (by omega)
  refine ⟨bytes.length + 1, duration r, ?_⟩
  rw [wavDurationSeconds, if_pos hwave, hr]
  exact ⟨rfl, List.pairwise_map.2 hpair⟩

/-- If the function is total the loop comes to every chunk, and none ends at the top. -/
theorem endsBelow_of_total {bytes : Bytes} (hlen : bytes.length < 2 ^ 31)
    (hwave : isWave bytes = true) (h : Total bytes) : EndsBelow bytes := by
  obtain ⟨turns, r, hr, hpair⟩ := h
  rw [wavDurationSeconds, if_pos hwave] at hr hpair
  obtain ⟨q, hq, -⟩ := Outcome.map_eq_returned hr
  replace hpair := List.pairwise_map.1 hpair
  have hroom := le_length_of_isWave hwave
  have hnext : ∀ s ∈ (run (turn bytes) turns start).1, Goes bytes s.i →
      chunkEnd bytes s.i + 8 < 2 ^ 32 ∧
        ∃ s' ∈ (run (turn bytes) turns start).1, s'.i = chunkEnd bytes s.i := by
    rintro s hs ⟨hi, hdata⟩
    have hspec := turn_eq hi hlen
    rw [if_neg hdata] at hspec
    obtain ⟨s', hs', hadv⟩ := hspec
    obtain ⟨r', hstop⟩ | ⟨s₁, hs₁, hmem⟩ := next_mem_of_returned hq hs
    · rw [hs'] at hstop
      cases hstop
    · obtain rfl : s' = s₁ := Turn.next.inj (hs'.symm.trans hs₁)
      have hlt : s.i < s'.i := rel_next_of_returned (Q := fun s t => s.i < t.i) hq hpair hs hs'
      by_cases hend : chunkEnd bytes s.i + 8 < 2 ^ 32
      · exact ⟨hend, s', hmem, hadv.trans (advance_of_lt hend)⟩
      · obtain hzero | ⟨hle, hlt'⟩ := advance_of_le (by omega) (Nat.not_lt.1 hend)
        · omega
        · -- the loop has come to the top, and does not go on from there
          rw [← hadv] at hle hlt'
          have htrap := turn_eq_trap hlen hle hlt' (by omega)
          obtain ⟨r', hstop⟩ | ⟨s₂, hs₂, -⟩ := next_mem_of_returned hq hmem
          · rw [htrap] at hstop
            cases hstop
          · rw [htrap] at hs₂
            cases hs₂
  have hat : ∀ i, ChunkAt bytes i → ∃ s ∈ (run (turn bytes) turns start).1, s.i = i := by
    intro i hi
    induction hi with
    | first => exact ⟨start, mem_run_of_returned hq, rfl⟩
    | next _ hgoes ih =>
      obtain ⟨s, hs, rfl⟩ := ih
      exact (hnext s hs hgoes).2
  intro i hi hgoes
  obtain ⟨s, hs, rfl⟩ := hat i hi
  exact (hnext s hs hgoes).1

/-- **The parser of WAV files is total** on what is not such a file, and on the files none of whose
chunks before `data` ends, with its padding, within eight bytes of `2 ^ 32`. -/
theorem wav_total_iff {bytes : Bytes} (hlen : bytes.length < 2 ^ 31) :
    Total bytes ↔ (isWave bytes = true → EndsBelow bytes) := by
  constructor
  · exact fun htotal hwave => endsBelow_of_total hlen hwave htotal
  · intro h
    by_cases hwave : isWave bytes = true
    · exact total_of_endsBelow hlen hwave (h hwave)
    · refine ⟨0, none, ?_⟩
      rw [wavDurationSeconds, if_neg hwave]
      exact ⟨rfl, List.Pairwise.nil⟩

/-- A file with one chunk, of an odd size. -/
def endless : Bytes :=
  utf8 "RIFF".toList ++ [4, 0, 0, 0] ++ utf8 "WAVE".toList ++ utf8 "junk".toList ++
    [0xFF, 0xFF, 0xFF, 0xFF] ++ List.replicate 24 0

/-- The size wraps around, and the loop begins again at zero. -/
theorem endless_not_total : ¬ Total endless := by
  have hstart : turn endless start = .next ⟨0, none, none⟩ := by rfl
  have hzero : turn endless ⟨0, none, none⟩ = .next start := by rfl
  have hrun : ∀ turns, (run (turn endless) turns start).2 = .running ∧
      (run (turn endless) turns ⟨0, none, none⟩).2 = .running := by
    intro turns
    induction turns with
    | zero => exact ⟨rfl, rfl⟩
    | succ turns ih =>
      rw [run, run, hstart, hzero]
      exact ⟨ih.2, ih.1⟩
  rintro ⟨turns, r, hr, -⟩
  rw [wavDurationSeconds, if_pos (by decide), (hrun turns).1] at hr
  cases hr

/-- The smallest file with a format and data. -/
def smallest : Bytes :=
  utf8 "RIFF".toList ++ [36, 0, 0, 0] ++ utf8 "WAVE".toList ++ utf8 "fmt ".toList ++
    [16, 0, 0, 0, 1, 0, 1, 0, 0x44, 0xAC, 0, 0, 0x44, 0xAC, 0, 0, 1, 0, 8, 0] ++
    utf8 "data".toList ++ [0, 0, 0, 0]

theorem wav_total_iff_demo : Total smallest ↔ (isWave smallest = true → EndsBelow smallest) :=
  wav_total_iff (by decide)

end Wav

end Omp
