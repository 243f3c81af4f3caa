import Omp.Lib.Wildcards
import Omp.Schema
import Omp.Walker

/-!
# What globs match

The matcher of MIME patterns and that of ignore patterns are two copies of one function.  It goes
through pattern and text by positions and, at a star, tries every position of the text from the
present one on.  The model of each copy elsewhere goes through the rest of pattern and text; here is
the function as it is written, with a bound on how deep its calls and the turns of its loop nest.

## Main definitions

* `Glob.item`, `Glob.Denotes` : what the characters of a pattern mean, and a pattern as a whole.
* `Glob.globInner`, `Glob.globLoop` : the function, by positions.

## Main results

* `Glob.globInner_spec` : it returns, and says whether the rest of the text matches.
* `glob_declarative` : both copies decide what a pattern means.
-/

namespace Omp

open Lib

namespace Glob

/-- What a character of a pattern means. -/
def item (c : Char) : Wildcard Char :=
  if c = '*' then .run else if c = '?' then .any else .one c

/-- **A text matches a pattern** : it is a concatenation in which each literal character of the
pattern stands for itself, a question mark for one character, and a star for any run. -/
def Denotes (pattern text : Text) : Prop := Wildcard.Matches (pattern.map item) text

/-! ### The function -/

mutual
/-- `glob_inner`; `none` if it has not returned within the bound, or has left the pattern. -/
def globInner : Nat → Text → Nat → Text → Nat → Option Bool
  | 0, _, _, _, _ => none
  | n + 1, p, pi, t, ti =>
    if pi = p.length then some (ti = t.length)
    else match p[pi]? with
      | none => none
      | some c =>
        if c = '*' then globLoop n p pi t ti
        else if c = '?' then
          if ti = t.length then some false else globInner n p (pi + 1) t (ti + 1)
        else
          if ti = t.length ∨ t[ti]? ≠ some c then some false
          else globInner n p (pi + 1) t (ti + 1)
/-- Its loop, which tries to take zero or more characters. -/
def globLoop : Nat → Text → Nat → Text → Nat → Option Bool
  | 0, _, _, _, _ => none
  | n + 1, p, pi, t, i => do
    if ← globInner n p (pi + 1) t i then some true
    else if i = t.length then some false
    else globLoop n p pi t (i + 1)
end

/-- A bound that is enough from a position on. -/
def enough (p : Text) (pi : Nat) (t : Text) (ti : Nat) : Nat :=
  2 * (p.length - pi) + (t.length - ti) + 1

/-! ### What it decides -/

/-- It has returned, and says whether a pattern matches a word. -/
def Decides (r : Option Bool) (p : List (Wildcard Char)) (w : Text) : Prop :=
  ∃ b, r = some b ∧ (b = true ↔ Wildcard.Matches p w)

theorem Decides.congr {r : Option Bool} {p q : List (Wildcard Char)} {v w : Text}
    (h : Decides r p v) (hiff : Wildcard.Matches p v ↔ Wildcard.Matches q w) : Decides r q w := by
  obtain ⟨b, hr, hb⟩ := h
  exact ⟨b, hr, hb.trans hiff⟩

theorem decides_false {p : List (Wildcard Char)} {w : Text} (h : ¬ Wildcard.Matches p w) :
    Decides (some false) p w := ⟨false, rfl, by simp [h]⟩

/-- The rest of a list, from a position inside of it on. -/
theorem drop_eq_cons {l : Text} {i : Nat} (h : i < l.length) :
    ∃ c, l[i]? = some c ∧ l.drop i = c :: l.drop (i + 1) :=
  ⟨l[i], List.getElem?_eq_getElem h, List.drop_eq_getElem_cons h⟩

/-- At the end of the pattern. -/
theorem decides_end {t : Text} {ti : Nat} (ht : ti ≤ t.length) :
    Decides (some (decide (ti = t.length))) [] (t.drop ti) := by
  refine ⟨_, rfl, ?_⟩
  rw [decide_eq_true_iff, Wildcard.matches_nil, List.drop_eq_nil_iff]
  omega

mutual
/-- **The function returns, and says whether the rest of the text matches the rest of the
pattern.** -/
theorem globInner_spec : ∀ {n : Nat} {p : Text} {pi : Nat} {t : Text} {ti : Nat}, pi ≤ p.length →
    ti ≤ t.length → enough p pi t ti ≤ n →
    Decides (globInner n p pi t ti) ((p.drop pi).map item) (t.drop ti)
  | 0, p, pi, t, ti, _, _, hn => by
    unfold enough at hn
    omega
  | n + 1, p, pi, t, ti, hp, ht, hn => by
    unfold enough at hn
    rw [globInner]
    by_cases hend : pi = p.length
    · rw [if_pos hend, hend, List.drop_length]
      exact decides_end ht
    obtain ⟨c, hc, hdrop⟩ := drop_eq_cons (lt_of_le_of_ne hp hend)
    rw [if_neg hend, hc, hdrop, List.map_cons, item]
    dsimp only
    split_ifs with hstar hany hshort hshort
    · refine globLoop_spec (lt_of_le_of_ne hp hend) ht ?_
      unfold enough
      omega
    · rw [hshort, List.drop_length]
      exact decides_false (by simp)
    · -- a character is taken, whatever it is
      obtain ⟨a, -, hrest⟩ := drop_eq_cons (lt_of_le_of_ne ht hshort)
      refine Decides.congr (globInner_spec (by omega) (by omega) ?_) (hrest ▸ by simp)
      unfold enough
      omega
    · refine decides_false ?_
      obtain rfl | hlt := ht.eq_or_lt
      · rw [List.drop_length]
        simp
      · obtain ⟨a, ha, hrest⟩ := drop_eq_cons hlt
        rw [hrest, Wildcard.matches_one_cons]
        rintro ⟨rfl, -⟩
        exact hshort.elim hlt.ne fun hne => hne ha
    · obtain ⟨hshort, heq⟩ := not_or.1 hshort
      rw [not_not] at heq
      obtain ⟨a, ha, hrest⟩ := drop_eq_cons (lt_of_le_of_ne ht hshort)
      cases ha.symm.trans heq
      refine Decides.congr (globInner_spec (by omega) (by omega) ?_) (hrest ▸ by simp)
      unfold enough
      omega
/-- Its loop does the same behind a star. -/
theorem globLoop_spec : ∀ {n : Nat} {p : Text} {pi : Nat} {t : Text} {i : Nat}, pi < p.length →
    i ≤ t.length → enough p pi t i ≤ n + 1 →
    Decides (globLoop n p pi t i) (.run :: (p.drop (pi + 1)).map item) (t.drop i)
  | 0, p, pi, t, i, _, _, hn => by
    unfold enough at hn
    omega
  | n + 1, p, pi, t, i, hp, ht, hn => by
    unfold enough at hn
    have hinner : Decides (globInner n p (pi + 1) t i) ((p.drop (pi + 1)).map item) (t.drop i) :=
      globInner_spec hp ht (by unfold enough; omega)
    obtain ⟨b, hb, hmatches⟩ := hinner
    rw [globLoop, hb, Option.bind_eq_bind, Option.bind_some]
    cases b with
    | true =>
      have hrun : Wildcard.Matches (.run :: (p.drop (pi + 1)).map item) (t.drop i) :=
        Wildcard.matches_run_iff.2 ⟨_, List.suffix_rfl, hmatches.1 rfl⟩
      exact ⟨true, rfl, iff_of_true rfl hrun⟩
    | false =>
      have hnone : ¬ Wildcard.Matches ((p.drop (pi + 1)).map item) (t.drop i) := by
        simpa using hmatches
      rw [if_neg (by simp)]
      by_cases hlast : i = t.length
      · rw [if_pos hlast]
        rw [hlast, List.drop_length] at hnone ⊢
        exact decides_false (by rwa [Wildcard.matches_run_nil])
      · -- the star takes one character more
        obtain ⟨a, -, hrest⟩ := drop_eq_cons (lt_of_le_of_ne ht hlast)
        rw [if_neg hlast]
        have hmore : Decides (globLoop n p pi t (i + 1)) (.run :: (p.drop (pi + 1)).map item)
            (t.drop (i + 1)) := globLoop_spec hp (by omega) (by unfold enough; omega)
        refine hmore.congr ?_
        rw [hrest, Wildcard.matches_run_cons, ← hrest]
        exact (or_iff_right hnone).symm
end

/-! ### The two copies -/

/-- The model of the copy for MIME types. -/
theorem globInner_iff (pattern text : Text) :
    Omp.globInner pattern text = true ↔ Denotes pattern text := by
  unfold Denotes
  induction pattern generalizing text with
  | nil => simp [Omp.globInner]
  | cons c pattern ih =>
    by_cases hstar : c = '*'
    · subst hstar
      simp [Omp.globInner, item, ih, Wildcard.matches_run_iff]
    by_cases hany : c = '?'
    · subst hany
      cases text with
      | nil => simp [Omp.globInner, item]
      | cons a text => simp [Omp.globInner, item, ih]
    · cases text with
      | nil => simp [Omp.globInner, item, hstar, hany]
      | cons a text => simp [Omp.globInner, item, hstar, hany, ih]

/-- The model of the copy for ignore patterns. -/
theorem globMatch_iff (pattern text : Text) :
    Walker.globMatch pattern text = true ↔ Denotes pattern text := by
  unfold Denotes
  induction pattern generalizing text with
  | nil => simp [Walker.globMatch]
  | cons c pattern ih =>
    unfold Walker.globMatch
    rw [List.map_cons, item]
    split_ifs with hstar hany
    · simp [ih, Wildcard.matches_run_iff]
    · cases text with
      | nil => simp
      | cons a text => simp [hany, ih]
    · cases text with
      | nil => simp
      | cons a text => simp [hany, ih]

end Glob

/-- **Globs mean what they say, in both copies.**  For every pattern and text, the function returns,
however much more than enough it is given, and says whether the text is a concatenation of what the
characters of the pattern stand for; the matcher of MIME types and the matcher of ignore patterns
say the same, and a MIME pattern is matched so without regard to case. -/
theorem glob_declarative (pattern text : Text) :
    (∀ more, ∃ b, Glob.globInner (Glob.enough pattern 0 text 0 + more) pattern 0 text 0 = some b ∧
      (b = true ↔ Glob.Denotes pattern text)) ∧
    (globInner pattern text = true ↔ Glob.Denotes pattern text) ∧
    (Walker.globMatch pattern text = true ↔ Glob.Denotes pattern text) ∧
    (mimeMatches pattern text = true ↔
      Glob.Denotes (pattern.map Char.toLower) (text.map Char.toLower)) :=
  ⟨fun _ => Glob.globInner_spec (Nat.zero_le _) (Nat.zero_le _) (Nat.le_add_right _ _),
    Glob.globInner_iff pattern text, Glob.globMatch_iff pattern text,
    Glob.globInner_iff (pattern.map Char.toLower) (text.map Char.toLower)⟩

/-- Stars in a row, and one that takes nothing. -/
example : globInner "a**b*".toList "axxb".toList = true := by decide +kernel

end Omp
