import Omp.Files

/-!
# The pieces of a file

A long file is stored as pieces, and an object that lists them.  The pieces one after the other are
the file again, and the list is read back as it was written.

## Main results

* `flatten_slices` : the pieces of a file make up the file.
* `ChunksBody.parse_serialize` : the list of the pieces is read back.
-/

namespace Omp

open Lib

/-! ### Pieces -/

theorem slices_nil (n : Nat) : slices n [] = [] := by
  unfold slices
  rw [List.length_nil, Nat.zero_add]
  cases n with
  | zero => rfl
  | succ n => rw [Nat.add_sub_cancel, Nat.div_eq_of_lt n.lt_succ_self, List.range_zero, List.map_nil]

/-- The first piece of a file, and those of the rest. -/
theorem slices_of_ne_nil {n : Nat} (hn : 0 < n) {bytes : Bytes} (hb : bytes ≠ []) :
    slices n bytes = bytes.take n :: slices n (bytes.drop n) := by
  have hpos := List.length_pos_iff.2 hb
  have hcount : (bytes.length + n - 1) / n = ((bytes.drop n).length + n - 1) / n + 1 := by
    rw [List.length_drop]
    rcases Nat.lt_or_ge bytes.length n with hlt | hge
    · -- there is only one piece
      rw [Nat.sub_eq_zero_of_le hlt.le, Nat.zero_add, Nat.div_eq_of_lt (Nat.sub_lt hn Nat.one_pos)]
      exact Nat.div_eq_of_lt_le (by omega) (by omega)
    · have hsplit : bytes.length + n - 1 = (bytes.length - n + n - 1) + n := by omega
      rw [hsplit, Nat.add_div_right _ hn]
  unfold slices
  rw [hcount, List.range_succ_eq_map, List.map_cons, List.map_map, Nat.zero_mul, List.drop_zero]
  refine congrArg _ (List.map_congr_left fun i _ => ?_)
  dsimp only [Function.comp]
  rw [List.drop_drop, Nat.succ_mul, Nat.add_comm]

/-- **The pieces of a file make up the file.** -/
theorem flatten_slices {n : Nat} (hn : 0 < n) (bytes : Bytes) : (slices n bytes).flatten = bytes := by
  induction hlen : bytes.length using Nat.strong_induction_on generalizing bytes with
  | _ len ih =>
    by_cases hb : bytes = []
    · rw [hb, slices_nil, List.flatten_nil]
    · have hlt : (bytes.drop n).length < len := by
        have hpos := List.length_pos_iff.2 hb
        rw [List.length_drop]
        omega
      rw [slices_of_ne_nil hn hb, List.flatten_cons, ih _ hlt _ rfl, List.take_append_drop]

/-! ### The list of the pieces -/

namespace ChunksBody

variable (W : World)

/-- The line of a piece, without its end. -/
def line (e : ChunkEntry) : Text := e.hash.hex ++ ' ' :: decimal e.length

theorem lf_not_mem_line (e : ChunkEntry) : '\n' ∉ line e := by
  unfold line
  rw [List.mem_append, List.mem_cons, not_or, not_or]
  refine ⟨Hash.not_mem_hex (by decide), by decide, fun hmem => ?_⟩
  have hdigit := Nat.isDigit_of_mem_toDigits (b := 10) (by omega) (by omega) hmem
  revert hdigit
  decide

theorem parseLine_line {e : ChunkEntry} (he : e.length < 2 ^ 64) (i : Nat) :
    parseLine W i (line e) = .ok e := by
  unfold parseLine line
  rw [splitOnce_append (Hash.not_mem_hex (by decide))]
  dsimp only
  rw [Hash.parse_hex]
  dsimp only
  rw [parseUsize_decimal he]

theorem parseLines_splitOn {body : ChunksBody} (h : ∀ e ∈ body, e.length < 2 ^ 64) (i : Nat) :
    parseLines W i ((body.flatMap fun e => line e ++ ['\n']).splitOn '\n') = .ok body := by
  induction body generalizing i with
  | nil => rfl
  | cons e body ih =>
    have hne : line e ≠ [] := List.append_ne_nil_of_right_ne_nil _ (List.cons_ne_nil _ _)
    rw [List.flatMap_cons, List.append_assoc, List.cons_append, List.nil_append,
      splitOn_append_cons (lf_not_mem_line e), parseLines, if_neg hne,
      parseLine_line W (h e List.mem_cons_self)]
    refine except_bind_eq_ok.2 ⟨e, rfl, except_bind_eq_ok.2 ⟨body, ?_, rfl⟩⟩
    exact ih (fun e' he' => h e' (List.mem_cons_of_mem _ he')) (i + 1)

/-- **The list of the pieces is read back.** -/
theorem parse_serialize {body : ChunksBody} (h : ∀ e ∈ body, e.length < 2 ^ 64) :
    parse W (serialize body) = .ok body := by
  rw [parse, serialize, fromUtf8_utf8]
  have hlines : (body.flatMap fun e => e.hash.hex ++ ' ' :: decimal e.length ++ ['\n']) =
      body.flatMap fun e => line e ++ ['\n'] := rfl
  dsimp only
  rw [hlines]
  exact parseLines_splitOn W h 1

/-- An empty list is read as one. -/
@[simp] theorem parse_nil : parse W [] = .ok [] := rfl

end ChunksBody

end Omp
