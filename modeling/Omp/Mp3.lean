import Mathlib.Algebra.Field.Rat
import Mathlib.Tactic.Ring
import Omp.Lib.Traps

/-!
# The probe for the duration of MP3 files

The probe goes from frame to frame by the length that it computes from the header of each, and adds
up how long the frames last.  Where there is no header it looks at the next byte.  The number of
samples of a frame is in two places of the code, and they differ for the second layer of the later
versions.

Durations are exact here, while the probe adds them up as floats.

## Main definitions

* `parse` : the header of a frame.
* `Header.frameLength` : the length of a frame, by its samples.
* `mp3DurationSeconds` : the function, with the offsets of the frames that it counts.

## Main results

* `frameSize_eq_iff` : the computed length is that of the frame, but for one kind of frame.
* `walk_frames` : the walk keeps in step with the frames.
* `mp3_durations_iff` : when the durations add up.
-/

namespace Omp

namespace Mp3

open Lib

/-! ### Headers -/

/-- `mpeg_version`, which is 1, 2 or 25 in the source. -/
inductive MpegVersion where
  | v1
  | v2
  | v25
  deriving DecidableEq

/-- `layer`. -/
inductive Layer where
  | l1
  | l2
  | l3
  deriving DecidableEq

/-- The tables of `bitrate_table`. -/
def bitrates : MpegVersion → Layer → List Nat
  | .v1, .l1 => [0, 32, 64, 96, 128, 160, 192, 224, 256, 288, 320, 352, 384, 416, 448]
  | .v1, .l2 => [0, 32, 48, 56, 64, 80, 96, 112, 128, 160, 192, 224, 256, 320, 384]
  | .v1, .l3 => [0, 32, 40, 48, 56, 64, 80, 96, 112, 128, 160, 192, 224, 256, 320]
  | _, .l1 => [0, 32, 48, 56, 64, 80, 96, 112, 128, 144, 160, 176, 192, 224, 256]
  | _, _ => [0, 8, 16, 24, 32, 40, 48, 56, 64, 80, 96, 112, 128, 144, 160]

/-- `bitrate_table`. -/
def bitrateTable (version : MpegVersion) (layer : Layer) (idx : Nat) : Option Nat :=
  if 1 ≤ idx ∧ idx ≤ 14 then (bitrates version layer)[idx]? else none

/-- `samplerate_table`. -/
def samplerateTable (version : MpegVersion) (idx : Nat) : Option Nat :=
  match version with
  | .v1 => [44100, 48000, 32000][idx]?
  | .v2 => [22050, 24000, 16000][idx]?
  | .v25 => [11025, 12000, 8000][idx]?

/-- What a header says. -/
structure Header where
  mpegVersion : MpegVersion
  layer : Layer
  bitrateKbps : Nat
  sampleRate : Nat
  padding : Nat
  deriving DecidableEq

/-- The versions, by their bits. -/
def mpegVersionOf : Nat → Option MpegVersion
  | 0 => some .v25
  | 2 => some .v2
  | 3 => some .v1
  | _ => none

/-- The layers, by their bits. -/
def layerOf : Nat → Option Layer
  | 1 => some .l3
  | 2 => some .l2
  | 3 => some .l1
  | _ => none

/-- The bits of a header. -/
def readHeader (h : Nat) : Option Header :=
  if h &&& 0xFFE00000 ≠ 0xFFE00000 then none
  else
    let versionBits := (h >>> 19) &&& 0x3
    let layerBits := (h >>> 17) &&& 0x3
    let bitrateBits := (h >>> 12) &&& 0xF
    let samplerateBits := (h >>> 10) &&& 0x3
    let padding := (h >>> 9) &&& 0x1
    if layerBits = 0 ∨ bitrateBits = 0 ∨ bitrateBits = 0xF ∨ samplerateBits = 0x3 then none
    else do
      let mpegVersion ← mpegVersionOf versionBits
      let layer ← layerOf layerBits
      let bitrateKbps ← bitrateTable mpegVersion layer bitrateBits
      let sampleRate ← samplerateTable mpegVersion samplerateBits
      some ⟨mpegVersion, layer, bitrateKbps, sampleRate, padding⟩

/-- The first part of `Mp3Frame::parse`. -/
def header (buf : Bytes) : Option Header :=
  if buf.length < 4 then none else readHeader (beNat (buf.take 4))

/-- `Mp3Frame`. -/
structure Mp3Frame where
  sampleRate : Nat
  frameSize : Nat
  mpegVersion : MpegVersion
  layer : Layer

/-- The length of a frame as `Mp3Frame::parse` computes it.  The products fit in 32 bits. -/
def Header.frameSize (h : Header) : Nat :=
  let bitrateBps := h.bitrateKbps * 1000
  if h.layer = .l1 then (12 * bitrateBps / h.sampleRate + h.padding) * 4
  else
    let samples := if h.mpegVersion = .v1 then 144 else 72
    samples * bitrateBps / h.sampleRate + h.padding

/-- `Mp3Frame::parse`. -/
def parse (buf : Bytes) : Option Mp3Frame := do
  let h ← header buf
  if h.frameSize < 4 then none
  else some ⟨h.sampleRate, h.frameSize, h.mpegVersion, h.layer⟩

/-- `samples_per_frame`. -/
def samplesPerFrame : MpegVersion → Layer → Nat
  | .v1, .l1 => 384
  | .v1, .l2 | .v1, .l3 => 1152
  | _, .l1 => 384
  | _, .l2 => 1152
  | _, .l3 => 576

/-- The length of a frame, by the samples that are in it: whole slots, of four bytes in the first
layer, and the padding. -/
def Header.frameLength (h : Header) : Nat :=
  let samples := samplesPerFrame h.mpegVersion h.layer
  let bitrateBps := h.bitrateKbps * 1000
  if h.layer = .l1 then (samples * bitrateBps / (8 * h.sampleRate * 4) + h.padding) * 4
  else samples * bitrateBps / (8 * h.sampleRate) + h.padding

/-! ### The walk -/

/-- `duration_seconds`. -/
def Mp3Frame.durationSeconds (f : Mp3Frame) : ℚ :=
  samplesPerFrame f.mpegVersion f.layer / f.sampleRate

/-- The name of a header with the number of frames. -/
def isTag (tag : Bytes) : Bool := tag == utf8 "Xing".toList || tag == utf8 "Info".toList

/-- `find_xing_frames`. -/
def findXingFrames (frame : Bytes) : Option Nat := do
  let i ← (List.range (frame.length - 8)).find? fun i => isTag ((frame.drop i).take 4)
  let flags := beNat ((frame.drop (i + 4)).take 4)
  if flags &&& 0x1 = 0 then none
  else
    let off := i + 8
    if off + 4 > frame.length then none else some (beNat ((frame.drop off).take 4))

/-- `skip_id3v2`. -/
def skipId3v2 (bytes : Bytes) : Nat :=
  if bytes.length < 10 ∨ bytes.take 3 ≠ utf8 "ID3".toList then 0
  else
    10 + ((bytes.getD 6 0).toNat <<< 21 ||| (bytes.getD 7 0).toNat <<< 14 |||
      (bytes.getD 8 0).toNat <<< 7 ||| (bytes.getD 9 0).toNat)

/-- The duration by a header with the number of frames. -/
def xingDuration (f : Mp3Frame) (frame : Bytes) : Option ℚ := do
  let xingFrames ← findXingFrames frame
  if 0 < f.sampleRate then
    some (xingFrames * samplesPerFrame f.mpegVersion f.layer / f.sampleRate)
  else none

/-- The loop from offset `i` on: the offsets of the frames that it counts, and its result. -/
def walk (bytes : Bytes) (i : Nat) (total : ℚ) (framesSeen : Nat) : List Nat × Option ℚ :=
  if i + 4 ≤ bytes.length then
    match parse (bytes.drop i) with
    | some f =>
      match if framesSeen = 0 then xingDuration f ((bytes.drop i).take f.frameSize) else none with
      | some d => ([], some d)
      | none =>
        let (offsets, r) :=
          walk bytes (i + max f.frameSize 1) (total + f.durationSeconds) (framesSeen + 1)
        (i :: offsets, r)
    | none => walk bytes (i + 1) total framesSeen
  else ([], if framesSeen = 0 then none else some total)
termination_by bytes.length - i

/-- `mp3_duration_seconds`. -/
def mp3DurationSeconds (bytes : Bytes) : List Nat × Option ℚ :=
  let start := skipId3v2 bytes
  if bytes.length ≤ start then ([], none) else walk bytes start 0 0

/-! ### The length of a frame -/

/-- What a header says is in the tables. -/
structure Header.Listed (h : Header) : Prop where
  bitrate : 8 ≤ h.bitrateKbps
  sampleRate_pos : 0 < h.sampleRate
  later : h.mpegVersion ≠ .v1 → h.sampleRate ≤ 24000

theorem le_of_bitrateTable {v : MpegVersion} {l : Layer} {idx b : Nat}
    (h : bitrateTable v l idx = some b) : 8 ≤ b := by
  have htable : ∀ idx < 15, 1 ≤ idx → ∀ b ∈ (bitrates v l)[idx]?, 8 ≤ b := by
    cases v <;> cases l <;> decide
  simp only [bitrateTable, Option.ite_none_right_eq_some] at h
  obtain ⟨⟨hpos, hle⟩, hb⟩ := h
  exact htable idx (by omega) hpos b hb

theorem bounds_of_samplerateTable {v : MpegVersion} {idx r : Nat}
    (h : samplerateTable v idx = some r) : 0 < r ∧ (v ≠ .v1 → r ≤ 24000) := by
  have hmem : ∀ l : List Nat, l[idx]? = some r → r ∈ l := fun l => List.mem_of_getElem?
  cases v with
  | v1 =>
    have htable : ∀ r ∈ [44100, 48000, 32000], 0 < r := by decide
    exact ⟨htable r (hmem _ h), fun hne => absurd rfl hne⟩
  | v2 =>
    have htable : ∀ r ∈ [22050, 24000, 16000], 0 < r ∧ r ≤ 24000 := by decide
    exact (htable r (hmem _ h)).imp_right fun hr _ => hr
  | v25 =>
    have htable : ∀ r ∈ [11025, 12000, 8000], 0 < r ∧ r ≤ 24000 := by decide
    exact (htable r (hmem _ h)).imp_right fun hr _ => hr

/-- A header begins with eleven bits, and what it says is in the tables. -/
theorem readHeader_eq_some {n : Nat} {h : Header} (hn : readHeader n = some h) :
    n &&& 0xFFE00000 = 0xFFE00000 ∧ h.Listed := by
  simp only [readHeader, Option.ite_none_left_eq_some, Option.bind_eq_bind,
    Option.bind_eq_some_iff] at hn
  obtain ⟨hsync, -, v, -, l, -, b, hb, r, hr, hh⟩ := hn
  obtain rfl := Option.some.inj hh
  obtain ⟨hpos, hle⟩ := bounds_of_samplerateTable hr
  exact ⟨Decidable.not_not.1 hsync, le_of_bitrateTable hb, hpos, hle⟩

theorem header_eq_some {buf : Bytes} {h : Header} (hh : header buf = some h) :
    4 ≤ buf.length ∧ readHeader (beNat (buf.take 4)) = some h := by
  rw [header, ite_eq_iff] at hh
  obtain ⟨-, hnone⟩ | ⟨hlen, hread⟩ := hh
  · cases hnone
  · exact ⟨Nat.not_lt.1 hlen, hread⟩

theorem Header.Listed.of_header {buf : Bytes} {h : Header} (hh : header buf = some h) : h.Listed :=
  (readHeader_eq_some (header_eq_some hh).2).2

theorem eight_mul_div (k m n : Nat) : 8 * k * m / (8 * n) = k * m / n := by
  rw [Nat.mul_assoc, Nat.mul_div_mul_left _ _ (by decide)]

/-- **The computed length** is that of the frame, but in the second layer of the later versions. -/
theorem frameSize_eq_iff {h : Header} (hh : h.Listed) :
    h.frameSize = h.frameLength ↔ ¬ (h.layer = .l2 ∧ h.mpegVersion ≠ .v1) := by
  obtain ⟨v, l, b, r, p⟩ := h
  obtain ⟨hb, hr, hlater⟩ := hh
  dsimp only at hb hr hlater
  have hslots : 384 * (b * 1000) / (8 * r * 4) = 12 * (b * 1000) / r := by
    rw [Nat.mul_right_comm, (by decide : 384 = 8 * 4 * 12), Nat.mul_assoc (8 * 4),
      Nat.mul_div_mul_left _ _ (by decide)]
  have hsamples : 1152 * (b * 1000) / (8 * r) = 144 * (b * 1000) / r := eight_mul_div 144 _ _
  have hhalf : 576 * (b * 1000) / (8 * r) = 72 * (b * 1000) / r := eight_mul_div 72 _ _
  have hdiffer : r ≤ 24000 → 72 * (b * 1000) / r ≠ 144 * (b * 1000) / r := by
    intro hr'
    have hpos : 0 < 72 * (b * 1000) / r := Nat.div_pos (by omega) hr
    have htwice : 2 * (72 * (b * 1000) / r) ≤ 144 * (b * 1000) / r := by
      have hle := Nat.mul_div_le_mul_div_assoc 2 (72 * (b * 1000)) r
      rwa [← Nat.mul_assoc 2 72] at hle
    omega
  cases l with
  | l1 => cases v <;> simp [Header.frameSize, Header.frameLength, samplesPerFrame, hslots]
  | l2 =>
    cases v with
    | v1 => simp [Header.frameSize, Header.frameLength, samplesPerFrame, hsamples]
    | v2 | v25 =>
      simpa [Header.frameSize, Header.frameLength, samplesPerFrame, hsamples] using
        hdiffer (hlater (by decide))
  | l3 =>
    cases v <;> simp [Header.frameSize, Header.frameLength, samplesPerFrame, hsamples, hhalf]

/-! ### Frames one after the other -/

/-- A frame of a version, a layer and a sample rate: a header that is accepted, and as many bytes as
the samples take. -/
structure IsFrame (v : MpegVersion) (l : Layer) (r : Nat) (frame : Bytes) : Prop where
  accepted : (parse frame).isSome
  length_eq : ∃ h, header frame = some h ∧ h.mpegVersion = v ∧ h.layer = l ∧ h.sampleRate = r ∧
    frame.length = h.frameLength

/-- The offsets of frames. -/
def starts (i : Nat) : List Bytes → List Nat
  | [] => []
  | frame :: frames => i :: starts (i + frame.length) frames

theorem header_append {frame : Bytes} (h : 4 ≤ frame.length) (rest : Bytes) :
    header (frame ++ rest) = header frame := by
  have hlen : ¬ (frame ++ rest).length < 4 := by
    rw [List.length_append]
    omega
  rw [header, header, if_neg hlen, if_neg (Nat.not_lt.2 h), List.take_append_of_le_length h]

/-- What is read from the header of a frame. -/
structure Reads (v : MpegVersion) (l : Layer) (r : Nat) (frame : Bytes) (f : Mp3Frame) : Prop where
  parse_append : ∀ rest, parse (frame ++ rest) = some f
  four_le : 4 ≤ frame.length
  mpegVersion : f.mpegVersion = v
  layer : f.layer = l
  sampleRate : f.sampleRate = r
  sampleRate_pos : 0 < r
  frameSize : f.frameSize = frame.length ↔ ¬ (l = .l2 ∧ v ≠ .v1)
  skip : ∀ rest, skipId3v2 (frame ++ rest) = 0

theorem parse_eq_some {buf : Bytes} {f : Mp3Frame} (hf : parse buf = some f) :
    ∃ h, header buf = some h ∧ f = ⟨h.sampleRate, h.frameSize, h.mpegVersion, h.layer⟩ := by
  simp only [parse, Option.bind_eq_bind, Option.bind_eq_some_iff,
    Option.ite_none_left_eq_some] at hf
  obtain ⟨h, hh, -, hf⟩ := hf
  exact ⟨h, hh, (Option.some.inj hf).symm⟩

/-- The eleven bits make a large number. -/
theorem le_of_sync {n : Nat} (h : n &&& 0xFFE00000 = 0xFFE00000) : 0xFFE00000 ≤ n := by
  rw [← h]
  exact Nat.and_le_left

theorem beNat_four (a b c d : UInt8) :
    beNat [a, b, c, d] =
      d.toNat + 256 * (c.toNat + 256 * (b.toNat + 256 * (a.toNat + 256 * 0))) := rfl

/-- A header does not begin like an ID3 tag. -/
theorem skipId3v2_eq_zero {frame : Bytes} {h : Header} (hh : header frame = some h) (rest : Bytes) :
    skipId3v2 (frame ++ rest) = 0 := by
  obtain ⟨hlen, hread⟩ := header_eq_some hh
  have hle := le_of_sync (readHeader_eq_some hread).1
  rcases frame with _ | ⟨a, _ | ⟨b, _ | ⟨c, _ | ⟨d, frame⟩⟩⟩⟩
  iterate 4 exact absurd hlen (by simp)
  have hid3 : utf8 "ID3".toList = [0x49, 0x44, 0x33] := by decide
  have hnot : ((a :: b :: c :: d :: frame) ++ rest).take 3 ≠ utf8 "ID3".toList := by
    intro hid
    rw [hid3] at hid
    obtain rfl : a = 0x49 := (List.cons.inj hid).1
    rw [List.take_succ_cons, List.take_succ_cons, List.take_succ_cons, List.take_succ_cons,
      List.take_zero, beNat_four] at hle
    have hb := b.toNat_lt
    have hc := c.toNat_lt
    have hd := d.toNat_lt
    have ha : (0x49 : UInt8).toNat = 0x49 := rfl
    omega
  rw [skipId3v2, if_pos (.inr hnot)]

theorem IsFrame.reads {v : MpegVersion} {l : Layer} {r : Nat} {frame : Bytes}
    (hframe : IsFrame v l r frame) : ∃ f, Reads v l r frame f := by
  obtain ⟨f, hf⟩ := Option.isSome_iff_exists.1 hframe.accepted
  obtain ⟨h, hh, rfl, rfl, rfl, hlen⟩ := hframe.length_eq
  obtain ⟨h', hh', rfl⟩ := parse_eq_some hf
  obtain rfl : h = h' := Option.some.inj (hh.symm.trans hh')
  have hlisted := Header.Listed.of_header hh
  have hfour := (header_eq_some hh).1
  refine ⟨⟨h.sampleRate, h.frameSize, h.mpegVersion, h.layer⟩, fun rest => ?_, hfour, rfl, rfl, rfl,
    hlisted.sampleRate_pos, ?_, skipId3v2_eq_zero hh⟩
  · rw [← hf, parse, parse, header_append hfour]
  · rw [hlen]
    exact frameSize_eq_iff hlisted

/-- **What the loop does at a frame** whose length it computes. -/
theorem walk_frame {v : MpegVersion} {l : Layer} {r : Nat} {frame : Bytes} {f : Mp3Frame}
    (h : Reads v l r frame f) (hsize : f.frameSize = frame.length) (before rest : Bytes) (t : ℚ)
    (n : Nat) :
    walk (before ++ (frame ++ rest)) before.length t n =
      match if n = 0 then xingDuration f frame else none with
      | some d => ([], some d)
      | none =>
        (before.length :: (walk (before ++ (frame ++ rest)) (before.length + frame.length)
            (t + f.durationSeconds) (n + 1)).1,
          (walk (before ++ (frame ++ rest)) (before.length + frame.length)
            (t + f.durationSeconds) (n + 1)).2) := by
  have hfour := h.four_le
  have hroom : before.length + 4 ≤ (before ++ (frame ++ rest)).length := by
    simp only [List.length_append]
    omega
  have hmax : max frame.length 1 = frame.length := by omega
  rw [walk, if_pos hroom, List.drop_left, h.parse_append]
  simp only [hsize, List.take_left, hmax]

/-- **The walk keeps in step** with frames whose lengths it computes. -/
theorem walk_frames {v : MpegVersion} {l : Layer} {r : Nat} (hkind : ¬ (l = .l2 ∧ v ≠ .v1))
    {frames : List Bytes} (h : ∀ frame ∈ frames, IsFrame v l r frame) (before : Bytes) (t : ℚ)
    (n : Nat) :
    walk (before ++ frames.flatten) before.length t (n + 1) =
      (starts before.length frames, some (t + frames.length * (samplesPerFrame v l / r))) := by
  induction frames generalizing before t n with
  | nil =>
    rw [walk, if_neg (by simp), if_neg (Nat.succ_ne_zero n)]
    simp [starts]
  | cons frame frames ih =>
    obtain ⟨f, hf⟩ := (h frame List.mem_cons_self).reads
    have hstep := walk_frame hf (hf.frameSize.2 hkind) before frames.flatten t (n + 1)
    have hrest := ih (fun fr hfr => h fr (List.mem_cons_of_mem _ hfr)) (before ++ frame)
      (t + f.durationSeconds) (n + 1)
    rw [List.append_assoc, List.length_append] at hrest
    rw [if_neg (Nat.succ_ne_zero n), hrest] at hstep
    rw [List.flatten_cons, hstep, starts, List.length_cons]
    have hdur : f.durationSeconds = samplesPerFrame v l / r := by
      rw [Mp3Frame.durationSeconds, hf.mpegVersion, hf.layer, hf.sampleRate]
    rw [hdur]
    push_cast
    refine Prod.ext rfl (congrArg some ?_)
    ring

/-- The lengths of some frames are those that the code computes, exactly these are counted, and
their durations add up. -/
def AddsUp (v : MpegVersion) (l : Layer) (r : Nat) (frames : List Bytes) : Prop :=
  (∀ frame ∈ frames, ∀ f, parse frame = some f → f.frameSize = frame.length) ∧
    mp3DurationSeconds frames.flatten =
      (starts 0 frames, some (frames.length * samplesPerFrame v l / r : ℚ))

theorem parse_of_reads {v : MpegVersion} {l : Layer} {r : Nat} {frame : Bytes} {f : Mp3Frame}
    (h : Reads v l r frame f) : parse frame = some f := by
  rw [← h.parse_append [], List.append_nil]

/-- Without a number of frames there is no duration by it. -/
theorem xingDuration_eq_none {v : MpegVersion} {l : Layer} {r : Nat} {frame : Bytes} {f : Mp3Frame}
    (h : Reads v l r frame f) : xingDuration f frame = none ↔ findXingFrames frame = none := by
  have hpos : 0 < f.sampleRate := h.sampleRate ▸ h.sampleRate_pos
  unfold xingDuration
  cases findXingFrames frame with
  | none => exact iff_of_true rfl rfl
  | some n => simp [hpos]

/-- **Durations add up**: the length is that which the samples take, but in the second layer of the
later versions; and the frames of a file are counted, all of them and nothing else, if there are
any, if they are not of that kind, and if the first one does not say how many there are. -/
theorem mp3_durations_iff (v : MpegVersion) (l : Layer) (r : Nat) (frames : List Bytes)
    (hframes : ∀ frame ∈ frames, IsFrame v l r frame) :
    (∀ buf h f, header buf = some h → parse buf = some f →
      (f.frameSize = h.frameLength ↔ ¬ (f.layer = .l2 ∧ f.mpegVersion ≠ .v1))) ∧
    (AddsUp v l r frames ↔ frames ≠ [] ∧ ¬ (l = .l2 ∧ v ≠ .v1) ∧
      ∀ frame ∈ frames.head?, findXingFrames frame = none) := by
  constructor
  · intro buf h f hh hf
    obtain ⟨h', hh', rfl⟩ := parse_eq_some hf
    obtain rfl : h = h' := Option.some.inj (hh.symm.trans hh')
    exact frameSize_eq_iff (Header.Listed.of_header hh)
  cases frames with
  | nil =>
    refine iff_of_false (fun hadds => ?_) fun hne => hne.1 rfl
    have hnone := congrArg Prod.snd hadds.2
    cases hnone
  | cons frame frames =>
    obtain ⟨f, hf⟩ := (hframes frame List.mem_cons_self).reads
    have hfour := hf.four_le
    have hbegin : mp3DurationSeconds (frame :: frames).flatten =
        walk ([] ++ (frame ++ frames.flatten)) ([] : Bytes).length 0 0 := by
      have hpos : ¬ (frame ++ frames.flatten).length ≤ 0 := by
        rw [List.length_append]
        omega
      rw [mp3DurationSeconds, List.flatten_cons, hf.skip, if_neg hpos]
      rfl
    have hcond : (frame :: frames ≠ [] ∧ ¬ (l = .l2 ∧ v ≠ .v1) ∧
        ∀ fr ∈ (frame :: frames).head?, findXingFrames fr = none) ↔
        ¬ (l = .l2 ∧ v ≠ .v1) ∧ xingDuration f frame = none := by
      rw [xingDuration_eq_none hf]
      simp
    rw [hcond]
    constructor
    · rintro ⟨hsizes, hadds⟩
      have hsize := hsizes frame List.mem_cons_self f (parse_of_reads hf)
      refine ⟨hf.frameSize.1 hsize, ?_⟩
      rw [hbegin, walk_frame hf hsize, if_pos rfl] at hadds
      cases hx : xingDuration f frame with
      | none => rfl
      | some d =>
        rw [hx] at hadds
        cases congrArg Prod.fst hadds
    · rintro ⟨hkind, hx⟩
      refine ⟨fun fr hfr g hg => ?_, ?_⟩
      · obtain ⟨f', hf'⟩ := (hframes fr hfr).reads
        obtain rfl : g = f' := Option.some.inj (hg.symm.trans (parse_of_reads hf'))
        exact hf'.frameSize.2 hkind
      · have hrest := walk_frames hkind (fun fr hfr => hframes fr (List.mem_cons_of_mem _ hfr))
          ([] ++ frame) f.durationSeconds 0
        rw [List.append_assoc, List.length_append] at hrest
        rw [hbegin, walk_frame hf (hf.frameSize.2 hkind), if_pos rfl, hx]
        dsimp only
        rw [zero_add, hrest, starts, List.length_cons]
        have hdur : f.durationSeconds = samplesPerFrame v l / r := by
          rw [Mp3Frame.durationSeconds, hf.mpegVersion, hf.layer, hf.sampleRate]
        rw [hdur]
        push_cast
        refine Prod.ext rfl (congrArg some ?_)
        ring

/-- A frame of the second layer, version 2, with another header halfway. -/
def halfway : Bytes :=
  [0xFF, 0xF5, 0x10, 0] ++ List.replicate 22 0 ++ [0xFF, 0xF5, 0x10, 0] ++ List.replicate 22 0

/-- The frame is counted twice. -/
theorem halfway_counted_twice : IsFrame .v2 .l2 22050 halfway ∧
    ¬ AddsUp .v2 .l2 22050 [halfway] := by
  refine ⟨⟨by decide, ⟨.v2, .l2, 8, 22050, 0⟩, by decide, rfl, rfl, rfl, by decide⟩, fun h => ?_⟩
  have hoffsets := congrArg Prod.fst h.2
  revert hoffsets
  decide +kernel

/-- A frame of the third layer, version 1. -/
def silence : Bytes := [0xFF, 0xFB, 0x10, 0] ++ List.replicate 100 0

theorem mp3_durations_iff_demo : AddsUp .v1 .l3 44100 [silence, silence] := by
  have hframe : IsFrame .v1 .l3 44100 silence :=
    ⟨by decide, ⟨.v1, .l3, 32, 44100, 0⟩, by decide, rfl, rfl, rfl, by decide⟩
  refine (mp3_durations_iff .v1 .l3 44100 [silence, silence] ?_).2.2
    ⟨by simp, by decide, by decide⟩
  simp [hframe]

end Mp3

end Omp
