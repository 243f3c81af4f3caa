import Omp.Tree

/-!
# Which trees survive their stored form

A tree is read back from its stored form exactly when the codec keeps all of its names.  Under a
path key it keeps every name.  In plaintext it does not: names are written raw, one entry a line,
and `validate_name` lets a line feed through, which ends the line early, and a carriage return
at the end, which `str::lines` drops.

## Main results

* `Tree.tree_round_trip_iff` : a tree is read back as it was exactly when all its names are kept.
* `Tree.forged_entry` : one accepted name that is read back as two entries.
-/

namespace Omp

open Lib

namespace Tree

variable {P : Platform}

/-- A name that is read without a key is what follows the first tab of its line. -/
theorem eq_of_parseLine {n : Nat} {l name : Text} {e : Entry}
    (h : parseLine P none n l = .ok (name, e)) : ∃ head, l = head ++ '\t' :: name ∧ '\t' ∉ head := by
  unfold parseLine at h
  cases htab : splitOnce '\t' l with
  | none => rw [htab] at h; cases h
  | some p =>
    obtain ⟨head, field⟩ := p
    rw [htab] at h
    cases hspace : splitOnce ' ' head with
    | none => simp only [hspace] at h; cases h
    | some q =>
      obtain ⟨modeStr, hashStr⟩ := q
      simp only [hspace, except_bind_eq_ok] at h
      obtain ⟨mode, -, hash, -, field', hfield, h⟩ := h
      cases hfield
      cases h
      exact ⟨head, splitOnce_eq_some htab⟩

/-- The names of a tree that is read without a key stand in its lines. -/
theorem get_of_parseLines {ls : List Text} {n : Nat} {out u : Tree}
    (h : parseLines P none n ls out = .ok u) {name : Text} (hget : u.get name ≠ none) :
    out.get name ≠ none ∨ ∃ head, head ++ '\t' :: name ∈ ls ∧ '\t' ∉ head := by
  induction ls generalizing n out with
  | nil =>
    rw [parseLines, Except.ok.injEq] at h
    subst h
    exact .inl hget
  | cons l ls ih =>
    have hrest : (∃ head, head ++ '\t' :: name ∈ ls ∧ '\t' ∉ head) →
        ∃ head, head ++ '\t' :: name ∈ l :: ls ∧ '\t' ∉ head := by
      rintro ⟨head, hmem, htab⟩
      exact ⟨head, List.mem_cons_of_mem _ hmem, htab⟩
    rw [parseLines] at h
    split_ifs at h
    · exact (ih h).imp_right hrest
    · obtain ⟨⟨field, e⟩, hline, hrun⟩ := except_bind_eq_ok.1 h
      obtain ⟨v, hins, hrun⟩ := except_bind_eq_ok.1 hrun
      obtain ⟨head, rfl, htab⟩ := eq_of_parseLine hline
      rcases ih hrun with hv | hmem
      · rw [(insert_eq_ok hins).2 name] at hv
        split_ifs at hv with heq
        · subst heq
          exact .inr ⟨head, List.mem_cons_self, htab⟩
        · exact .inl hv
      · exact .inr (hrest hmem)

/-- The lines of a plaintext body whose names hold no line feed. -/
theorem lines_bodyLines {l : List (Text × Entry)} (hl : ∀ p ∈ l, p.1 ≠ [] ∧ '\n' ∉ p.1) :
    lines (bodyLines P none l) = l.map fun p => lineHead p.2 ++ '\t' :: stripCr p.1 := by
  induction l with
  | nil => rfl
  | cons p l ih =>
    obtain ⟨⟨hne, hlf⟩, hl⟩ := List.forall_mem_cons.1 hl
    have hline : '\n' ∉ lineHead p.2 ++ '\t' :: p.1 := by
      simp only [List.mem_append, List.mem_cons, not_or]
      exact ⟨not_mem_lineHead rfl (by decide), by decide, hlf⟩
    have hstrip : stripCr (lineHead p.2 ++ '\t' :: p.1) = lineHead p.2 ++ '\t' :: stripCr p.1 := by
      have hlast : (lineHead p.2 ++ '\t' :: p.1).getLast? = p.1.getLast? := by
        rw [List.append_cons, List.getLast?_append_of_ne_nil _ hne]
      unfold stripCr
      rw [hlast]
      split_ifs
      · rw [List.append_cons, List.dropLast_append_of_ne_nil hne, ← List.append_cons]
      · rfl
    rw [List.map_cons, ← hstrip, ← ih hl, bodyLines, List.flatMap_cons, line_eq, List.append_assoc,
      List.cons_append, List.nil_append]
    exact lines_cons_lf hline _

/-- **When a tree survives its stored form**: it is read back as it was exactly when the codec
keeps all of its names. -/
theorem tree_round_trip_iff {key : Option Key} (hP : key ≠ none → P.AeadLawful) (t : Tree) :
    parseWithPathKey P key (t.serializeWithPathKey P key) = .ok t ↔
      ∀ name e, t.get name = some e → NameKept key name := by
  refine ⟨fun hparse name e hget hkey => ?_, parse_serialize hP⟩
  subst hkey
  rw [parseWithPathKey, serializeWithPathKey, fromUtf8_utf8] at hparse
  simp only [Option.isSome_none, Bool.false_eq_true, if_false] at hparse
  split_ifs at hparse
  -- every name that is read stands in a line, and lines hold no line feeds
  have hread : ∀ name e, t.get name = some e →
      ∃ head, head ++ '\t' :: name ∈ lines (bodyLines P none t.entries.toList) ∧ '\t' ∉ head := by
    intro name e hget
    have hne : t.get name ≠ none := by
      rw [hget]
      exact Option.some_ne_none _
    rcases get_of_parseLines hparse hne with hnew | hmem
    · exact absurd (get_new name) hnew
    · exact hmem
  have hlf : ∀ name e, t.get name = some e → '\n' ∉ name := by
    intro name e hget hmem
    obtain ⟨head, hline, -⟩ := hread name e hget
    exact lf_not_mem_of_mem_lines hline
      (List.mem_append_right _ (List.mem_cons_of_mem _ hmem))
  have hnames : ∀ p ∈ t.entries.toList, p.1 ≠ [] ∧ '\n' ∉ p.1 := by
    rintro ⟨n, f⟩ hp
    have hn := mem_toList.1 hp
    exact ⟨(validName_of_get hn).1, hlf n f hn⟩
  rw [lines_bodyLines hnames] at hread
  -- so every name is a name without its last carriage return
  refine ⟨hlf name e hget, getLast?_ne_cr_of_stripCr
    (S := t.entries.toList.map Prod.fst) ?_ (List.mem_map_of_mem (mem_toList.2 hget))⟩
  intro x hx
  obtain ⟨⟨n, f⟩, hp, rfl⟩ := List.mem_map.1 hx
  obtain ⟨head, hline, htab⟩ := hread n f (mem_toList.1 hp)
  obtain ⟨q, hq, heq⟩ := List.mem_map.1 hline
  have hsplit := congrArg (splitOnce '\t') heq
  rw [splitOnce_append (not_mem_lineHead rfl (by decide)), splitOnce_append htab] at hsplit
  cases hsplit
  exact ⟨q.1, List.mem_map_of_mem hq, rfl⟩

/-- A tree of one file. -/
def demoSingle (name : Text) : Except OmpError Tree := new.insert demo name ⟨.blob, Hash.ofNat 1⟩

theorem get_of_toOption {r : Except OmpError Tree} {t : Tree} (h : r = .ok t) {name : Text}
    {o : Option Entry} (hr : r.toOption.bind (·.get name) = o) : t.get name = o := by
  subst h
  exact hr

/-- What such a tree is read back as. -/
def demoReadBack (key : Option Key) (name : Text) : Except OmpError Tree := do
  let t ← demoSingle name
  parseWithPathKey demo key (t.serializeWithPathKey demo key)

theorem aeadLawful_demo : demo.AeadLawful := by
  intro key nonce aad plaintext
  refine ⟨?_, by simp [demo]⟩
  simp [demo]

theorem tree_round_trip_iff_demo :
    ∃ t, demoSingle "a.txt".toList = .ok t ∧
      parseWithPathKey demo none (t.serializeWithPathKey demo none) = .ok t := by
  obtain ⟨t, ht⟩ := exists_eq_ok_of_isOk (r := demoSingle "a.txt".toList) (by decide +kernel)
  refine ⟨t, ht, (tree_round_trip_iff (fun h => absurd rfl h) t).2 fun name e hget _ => ?_⟩
  rw [(insert_eq_ok ht).2, get_new] at hget
  split_ifs at hget with hname
  subst hname
  decide +kernel

/-- A name that ends its line and goes on with the line of another file. -/
def forgedName : Text := "a\nblob ".toList ++ (Hash.ofNat 2).hex ++ "\tb".toList

/-- **One accepted name is read back as two entries.** -/
theorem forged_entry :
    ∃ t u, demoSingle forgedName = .ok t ∧
      parseWithPathKey demo none (t.serializeWithPathKey demo none) = .ok u ∧ u ≠ t ∧
      t.get "b".toList = none ∧ u.get "b".toList = some ⟨.blob, Hash.ofNat 2⟩ := by
  obtain ⟨t, ht⟩ := exists_eq_ok_of_isOk (r := demoSingle forgedName) (by decide +kernel)
  obtain ⟨u, hu⟩ := exists_eq_ok_of_isOk (r := demoReadBack none forgedName) (by decide +kernel)
  have htb : t.get "b".toList = none := get_of_toOption ht (by decide +kernel)
  have hub : u.get "b".toList = some ⟨.blob, Hash.ofNat 2⟩ :=
    get_of_toOption hu (by decide +kernel)
  rw [demoReadBack, ht] at hu
  refine ⟨t, u, ht, hu, ?_, htb, hub⟩
  rintro rfl
  rw [htb] at hub
  cases hub

end Tree

end Omp
