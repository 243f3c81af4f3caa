import Omp.Lib.TextDecoder
import Omp.Jobs

/-!
# Build logs in the browser

The builder serves the log of a job as server-sent events, one for each line, with comments in
between that keep the connection alive.  The browser reads the body in chunks, decodes them into a
buffer, takes from it the frames that a blank line ends, and calls back with the data of each frame.

What is taken does not depend on how the body was cut.  The data of a frame loses the white space at
its beginning, and a frame without data is passed over: of a log exactly the lines that begin with
something else than white space arrive as they are.

## Main definitions

* `getBuildLog`, `SseFrame`, `sseBody` : the log, and the body of the response.
* `readFrames`, `streamLines`, `watch` : what the browser takes from the chunks.
* `BeginsVisibly` : a line begins with something else than white space.

## Main results

* `streamLines_eq` : the lines the callback is given.
* `logs_verbatim_iff` : when a log arrives as it is, and that chunks do not matter.
* `logs_trimmed` : an indented line does not arrive as it is.
-/

namespace Omp

open Lib Broadcast

/-! ### The response -/

/-- `get_build_log`: the replay entries first, then what comes on the channel.  A subscriber that
lags skips the missed messages. -/
def getBuildLog (x : Subscriber) : List Text := x.replay ++ x.lines

/-- What is written to the body. -/
inductive SseFrame where
  | data (line : Text)
  | keepAlive (comment : Text)
  deriving DecidableEq

namespace SseFrame

/-- The line of a frame. -/
def body : SseFrame → Text
  | data line => "data: ".toList ++ line
  | keepAlive comment => ':' :: comment

/-- A frame is ended by a blank line. -/
def text (f : SseFrame) : Text := f.body ++ ['\n', '\n']

/-- The line of a log that is sent, if one is. -/
def line : SseFrame → List Text
  | data line => [line]
  | keepAlive _ => []

/-- There is no end of a line inside of the frame. -/
def Plain (f : SseFrame) : Prop := '\n' ∉ f.body ∧ '\r' ∉ f.body

instance (f : SseFrame) : Decidable f.Plain := inferInstanceAs (Decidable (_ ∧ _))

end SseFrame

/-- The events are the lines of the log, with comments anywhere between them. -/
def Serves (x : Subscriber) (frames : List SseFrame) : Prop :=
  frames.flatMap SseFrame.line = getBuildLog x

/-- The bytes of the body. -/
def sseBody (frames : List SseFrame) : Bytes := utf8 (frames.flatMap SseFrame.text)

/-! ### The browser -/

/-- White space and ends of lines, as `trimStart` has them. -/
def jsWhitespace (c : Char) : Bool :=
  c.toNat ∈ [0x09, 0x0A, 0x0B, 0x0C, 0x0D, 0x20, 0xA0, 0x1680, 0x2028, 0x2029, 0x202F, 0x205F,
    0x3000, 0xFEFF] || (0x2000 ≤ c.toNat && c.toNat ≤ 0x200A)

/-- `trimStart`. -/
def trimStart (s : Text) : Text := s.dropWhile jsWhitespace

/-- The data of a frame: what follows `data:` on each of its lines. -/
def frameData (frame : Text) : Text :=
  (frame.splitOn '\n').foldl (fun data line =>
    if "data:".toList.isPrefixOf line then data ++ trimStart (line.drop 5) else data) []

/-- The loop over the chunks: each is decoded into the buffer, and the frames that are delimited by
a blank line are taken from it. -/
def readFrames (chunks : List Bytes) : List Text :=
  ((textDecoder.reader ['\n', '\n']).run ((.init, false), []) chunks).2

/-- `streamLines`: the lines that `onLine` is called with. -/
def streamLines (chunks : List Bytes) : List Text :=
  (readFrames chunks).filterMap fun frame =>
    if frameData frame = [] then none else some (frameData frame)

section Watch

variable {E : Type} (jsonParse : Text → Option E) (truthy : E → Bool)

/-- `parseFrame`: a frame without data, or whose data is not JSON, gives nothing. -/
def parseFrame (frame : Text) : Option E :=
  if frameData frame = [] then none else jsonParse (frameData frame)

/-- `watch`: the events that `onEvent` is called with, of one connection. -/
def watch (chunks : List Bytes) : List E :=
  ((readFrames chunks).filterMap (parseFrame jsonParse)).filter truthy

end Watch

/-! ### Frames -/

/-- What the chunks are decoded to, as a whole. -/
def decoded (body : Bytes) : Text := (textDecoder.run (.init, false) body).2

/-- **The frames are those of the whole body**, however it was cut. -/
theorem readFrames_eq (chunks : List Bytes) :
    readFrames chunks = (frames ['\n', '\n'] (decoded chunks.flatten)).1 := by
  rw [readFrames, Transducer.run_reader _ (List.cons_ne_nil _ _)]
  rfl

theorem frames_text {fs : List SseFrame} (hplain : ∀ f ∈ fs, f.Plain) :
    frames ['\n', '\n'] (fs.flatMap SseFrame.text) = (fs.map SseFrame.body, []) := by
  induction fs with
  | nil => rfl
  | cons f fs ih =>
    rw [List.flatMap_cons, SseFrame.text, List.append_assoc,
      frames_frame (hplain f List.mem_cons_self).1,
      ih fun g hg => hplain g (List.mem_cons_of_mem _ hg)]
    rfl

/-- A body does not begin with a byte order mark. -/
theorem decoded_sseBody (fs : List SseFrame) : decoded (sseBody fs) = fs.flatMap SseFrame.text := by
  refine run_textDecoder fun h => ?_
  rcases fs with _ | ⟨_ | _, _⟩
  · exact absurd h (by simp)
  · exact absurd (Option.some.inj h) (by decide)
  · exact absurd (Option.some.inj h) (by decide)

theorem frameData_body {f : SseFrame} (hplain : f.Plain) :
    frameData f.body = (f.line.map trimStart).flatten := by
  rw [frameData, splitOn_of_not_mem hplain.1]
  cases f with
  | data line =>
    simp [SseFrame.body, SseFrame.line, trimStart, jsWhitespace]
  | keepAlive comment => rfl

/-! ### Lines -/

/-- A line that begins with something else than white space. -/
def BeginsVisibly (line : Text) : Prop := (line.head?.any fun c => !jsWhitespace c) = true

instance (line : Text) : Decidable (BeginsVisibly line) := inferInstanceAs (Decidable (_ = true))

/-- What arrives of a line. -/
def arrives (line : Text) : Option Text :=
  if trimStart line = [] then none else some (trimStart line)

/-- **The lines the callback is given**: without the white space at their beginning, and only where
there is something else. -/
theorem streamLines_eq {x : Subscriber} {fs : List SseFrame} {chunks : List Bytes}
    (hplain : ∀ f ∈ fs, f.Plain) (hserves : Serves x fs) (hchunks : chunks.flatten = sseBody fs) :
    streamLines chunks = (getBuildLog x).filterMap arrives := by
  rw [streamLines, readFrames_eq, hchunks, decoded_sseBody, frames_text hplain, ← hserves]
  clear hchunks hserves
  induction fs with
  | nil => rfl
  | cons f fs ih =>
    have ih := ih fun g hg => hplain g (List.mem_cons_of_mem _ hg)
    rw [List.flatMap_cons, List.filterMap_append, ← ih, List.map_cons, List.filterMap_cons,
      frameData_body (hplain f List.mem_cons_self)]
    cases f with
    | data line =>
      simp only [SseFrame.line, List.map_cons, List.map_nil, List.flatten_cons, List.flatten_nil,
        List.append_nil, List.filterMap_cons, List.filterMap_nil, arrives]
      split_ifs <;> rfl
    | keepAlive comment => rfl

/-- What arrives of a line is the line, if its first character is not dropped. -/
theorem arrives_eq_some (line : Text) : arrives line = some line ↔ BeginsVisibly line := by
  rw [arrives, BeginsVisibly, trimStart]
  cases line with
  | nil => simp
  | cons c line =>
    cases hc : jsWhitespace c with
    | false => simp [hc]
    | true =>
      -- what is left is shorter than the line
      have hlength := (List.dropWhile_suffix (l := line) jsWhitespace).length_le
      have hne : line.dropWhile jsWhitespace ≠ c :: line := fun h => by
        rw [h, List.length_cons] at hlength
        omega
      simp [hc, hne]

/-- **A log arrives as it is if and only if each of its lines begins with something else than white
space.**  Neither this nor the events that are watched depend on how a body was cut. -/
theorem logs_verbatim_iff (x : Subscriber) (fs : List SseFrame) (chunks : List Bytes)
    (hplain : ∀ f ∈ fs, f.Plain) (hserves : Serves x fs) (hchunks : chunks.flatten = sseBody fs) :
    (streamLines chunks = getBuildLog x ↔ ∀ line ∈ getBuildLog x, BeginsVisibly line) ∧
    ∀ (E : Type) (jsonParse : Text → Option E) (truthy : E → Bool) (xs ys : List Bytes),
      xs.flatten = ys.flatten → watch jsonParse truthy xs = watch jsonParse truthy ys := by
  constructor
  · have hall := List.filterMap_eq_map_iff_forall_eq_some (f := arrives) (g := id)
      (l := getBuildLog x)
    rw [List.map_id] at hall
    rw [streamLines_eq hplain hserves hchunks, hall]
    exact forall₂_congr fun line _ => arrives_eq_some line
  · intro E jsonParse truthy xs ys hsame
    rw [watch, watch, readFrames_eq, readFrames_eq, hsame]

/-- A log with a line that is indented, and one that is empty. -/
def indentedLog : Subscriber := ⟨[], ["  x".toList, []], 0, []⟩

/-- An indented line does not arrive as it is. -/
theorem logs_trimmed : ¬ ∀ (x : Subscriber) (fs : List SseFrame) (chunks : List Bytes),
    (∀ f ∈ fs, f.Plain) → Serves x fs → chunks.flatten = sseBody fs →
      streamLines chunks = getBuildLog x := by
  intro h
  have hplain : ∀ f ∈ (getBuildLog indentedLog).map SseFrame.data, f.Plain := by
    decide +kernel
  have hserves : Serves indentedLog ((getBuildLog indentedLog).map .data) := rfl
  have hall := h _ _ [sseBody ((getBuildLog indentedLog).map .data)] hplain hserves (by simp)
  rw [streamLines_eq hplain hserves (by simp)] at hall
  exact absurd hall (by decide +kernel)

/-- A log of two lines, the second of which came on the channel. -/
def plainLog : Subscriber :=
  ⟨[], ["[builder] é".toList], 1, [.lagged 1, .value "[cargo] ok".toList]⟩

/-- The response has a comment between the lines, and is cut inside of a character and inside of a
blank line. -/
theorem logs_verbatim_iff_demo :
    streamLines [utf8 "data: [builder] ".toList ++ [0xC3],
      [0xA9] ++ utf8 "\n\n:\n".toList, utf8 "\ndata: [cargo] ok\n\n".toList] =
      ["[builder] é".toList, "[cargo] ok".toList] :=
  (logs_verbatim_iff plainLog
    [.data "[builder] é".toList, .keepAlive [], .data "[cargo] ok".toList] _ (by decide +kernel) rfl
    (by decide +kernel)).1.2 (by decide +kernel)

end Omp
