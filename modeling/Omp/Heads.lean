import Omp.Branches

/-!
# What HEAD and the names of branches stand for

`HEAD` holds the name of a reference or a hash.  The program trims what it reads there, and it takes
a name for the path of a file, in which empty components and dots do not count.  So two names may
stand for one file.

## Main definitions

* `IsFileName` : the names of branches that are the names of their files.
* `Repo.resolveBase` : what an expression stands for before ancestors are counted.

## Main results

* `parseHead_hex`, `parseHead_branchRef` : what is read of what `checkout` and `commit` write.
* `refPath_branchRef` : the file of a branch.
* `resolveRef_eq_ok`, `checkoutHead_eq_ok` : what an expression stands for, and what a checkout of
  it writes.
-/

namespace Omp

open Lib

/-! ### Reading HEAD -/

theorem isWhitespace_eq_false {c : Char} (h : c.isAlphanum = true) : isWhitespace c = false := by
  -- upper case, lower case and digits, by their code points
  change (decide (c.val ≥ 'A'.val ∧ c.val ≤ 'Z'.val) ||
    (decide (c.val ≥ 'a'.val) && decide (c.val ≤ 'z'.val)) ||
    (decide (c.val ≥ '0'.val) && decide (c.val ≤ '9'.val))) = true at h
  simp only [Bool.or_eq_true, decide_eq_true_eq, Bool.and_eq_true, ge_iff_le,
    UInt32.le_iff_toNat_le] at h
  change (65 ≤ c.toNat ∧ c.toNat ≤ 90 ∨ 97 ≤ c.toNat ∧ c.toNat ≤ 122) ∨
    48 ≤ c.toNat ∧ c.toNat ≤ 57 at h
  simp only [isWhitespace, Bool.or_eq_false_iff, Bool.and_eq_false_iff,
    decide_eq_false_iff_not, beq_eq_false_iff_ne]
  omega

theorem trim_eq_self {s : Text} (h : ∀ c ∈ s, isWhitespace c = false) : trim s = s :=
  trim_eq_self_iff.2 ⟨trimEnd_eq_self_iff.2 fun c hc => h c (List.mem_of_getLast? hc),
    dropWhile_eq_self fun c hc => h c (List.mem_of_head? hc)⟩

theorem trim_hex (h : Hash) : trim h.hex = h.hex :=
  trim_eq_self fun _ hc => isWhitespace_eq_false (hexDigit_mem hc)

theorem trim_trim (s : Text) : trim (trim s) = trim s := by
  refine trim_eq_self_iff.2 ⟨List.rdropWhile_idempotent _ _, dropWhile_eq_self fun c hc => ?_⟩
  exact head?_dropWhile (head?_of_isPrefix (List.rdropWhile_prefix _ _) hc)

/-- Only the end of a text is trimmed that starts with no white space. -/
theorem trim_eq_trimEnd {s : Text} {c : Char} (hs : s.head? = some c) (hc : isWhitespace c = false) :
    trim s = trimEnd s := by
  rw [trim, dropWhile_eq_self]
  intro d hd
  cases hs.symm.trans hd
  exact hc

/-- And only what comes after a character that is no white space. -/
theorem trimEnd_append_right {s : Text} (hs : trimEnd s = s) (t : Text) :
    trimEnd (s ++ t) = s ++ trimEnd t := by
  rw [trimEnd, List.rdropWhile, List.reverse_append]
  by_cases ht : trimEnd t = []
  · have hall : ∀ c ∈ t.reverse, isWhitespace c = true := by
      intro c hc
      exact List.rdropWhile_eq_nil_iff.1 ht c (List.mem_reverse.1 hc)
    rw [List.dropWhile_append_of_pos hall, ht, List.append_nil]
    exact hs
  · have hne : t.reverse.dropWhile isWhitespace ≠ [] := fun h =>
      ht (List.reverse_eq_nil_iff.2 h)
    rw [List.dropWhile_append, if_neg (by simpa using hne), List.reverse_append,
      List.reverse_reverse]
    rfl

theorem stripPrefix_hex {p : Text} {c : Char} (hc : c ∈ p) (hne : c.isAlphanum = false) (h : Hash) :
    stripPrefix p h.hex = none := by
  rw [stripPrefix, if_neg]
  intro hp
  exact Hash.not_mem_hex hne (hp.subset hc)

/-- **A hash in `HEAD` detaches it.** -/
theorem parseHead_hex (P : Platform) (h : Hash) : parseHead P (trim h.hex) = .ok (.detached h) := by
  unfold parseHead
  rw [trim_trim, trim_hex]
  have hblank : ' ' ∈ "ref: ".toList := by decide
  have hnone : stripPrefix "ref: ".toList h.hex = none := stripPrefix_hex hblank (by decide) h
  simp only [hnone, Hash.parse_hex]

/-- A text whose first and last characters are no white space, followed by another. -/
theorem trim_append {p : Text} {c : Char} (hp : trimEnd p = p) (hc : p.head? = some c)
    (hws : isWhitespace c = false) (t : Text) : trim (p ++ t) = p ++ trimEnd t := by
  rw [trim_eq_trimEnd (c := c) ?_ hws, trimEnd_append_right hp]
  rw [List.head?_append, hc]
  rfl

/-- **The name of a branch in `HEAD`** is read without the white space at its end. -/
theorem parseHead_branchRef (P : Platform) (name : Text) :
    parseHead P (trim ("ref: ".toList ++ Repo.branchRef name)) =
      .ok (.branch (Repo.branchRef (trimEnd name))) := by
  have hidem : trimEnd (trimEnd name) = trimEnd name := List.rdropWhile_idempotent _ _
  have hname : trim (Repo.branchRef (trimEnd name)) = Repo.branchRef (trimEnd name) := by
    have h := trim_append (p := "refs/heads/".toList) (c := 'r') (by decide) rfl (by decide)
      (trimEnd name)
    rwa [hidem] at h
  have htrim : trim (trim ("ref: ".toList ++ Repo.branchRef name)) =
      "ref: ".toList ++ Repo.branchRef (trimEnd name) := by
    have h := trim_append (p := "ref: refs/heads/".toList) (c := 'r') (by decide) rfl (by decide)
      name
    rw [trim_trim]
    exact h
  unfold parseHead
  dsimp only
  rw [htrim, stripPrefix_append]
  dsimp only
  rw [hname]

/-! ### The files of branches -/

section Files

variable {W : World}

/-- The name of a branch is the name of its file. -/
def IsFileName (name : Text) : Prop := '/' ∉ name ∧ name ≠ [] ∧ name ≠ ".".toList

instance (name : Text) : Decidable (IsFileName name) := inferInstanceAs (Decidable (_ ∧ _))

theorem splitOn_branchRef (name : Text) :
    (Repo.branchRef name).splitOn '/' = "refs".toList :: "heads".toList :: name.splitOn '/' := by
  have htext : Repo.branchRef name =
      "refs".toList ++ '/' :: ("heads".toList ++ '/' :: name) := rfl
  rw [htext, splitOn_append_cons (by decide), splitOn_append_cons (by decide)]

/-- **The file of a branch**, whose path leaves out empty components and dots. -/
theorem refPath_branchRef {name path : Text} :
    refPath W (Repo.branchRef name) = .ok path ↔ ¬ "..".toList <:+: Repo.branchRef name ∧
      path = joinWith '/' ("refs".toList :: "heads".toList ::
        (name.splitOn '/').filter fun c => c ≠ [] ∧ c ≠ ".".toList) := by
  have hhead : (Repo.branchRef name).head? ≠ some '/' := nofun
  have hne : Repo.branchRef name ≠ [] := nofun
  unfold refPath
  split_ifs with hbad
  · refine iff_of_false nofun fun h => ?_
    rcases hbad with hdots | hslash | hnil
    · exact h.1 hdots
    · exact hhead hslash
    · exact hne hnil
  · have hfilter : ((Repo.branchRef name).splitOn '/').filter (fun c => c ≠ [] ∧ c ≠ ".".toList) =
        "refs".toList :: "heads".toList ::
          (name.splitOn '/').filter fun c => c ≠ [] ∧ c ≠ ".".toList := by
      rw [splitOn_branchRef]
      rfl
    rw [hfilter, Except.ok.injEq]
    exact ⟨fun h => ⟨fun hdots => hbad (.inl hdots), h.symm⟩, fun h => h.2.symm⟩

/-- Where a name is the name of a file, that is the file of its branch. -/
theorem path_eq_branchRef {name path : Text} (hname : IsFileName name)
    (hpath : refPath W (Repo.branchRef name) = .ok path) : path = Repo.branchRef name := by
  obtain ⟨hslash, hnil, hdot⟩ := hname
  rw [(refPath_branchRef.1 hpath).2, splitOn_of_not_mem hslash,
    List.filter_cons_of_pos (by simpa using ⟨hnil, hdot⟩), List.filter_nil, joinWith_cons_cons,
    joinWith_cons_cons, joinWith_singleton]
  rfl

/-- The names that stand for the directory of the branches. -/
theorem path_of_directory {name path : Text} (hname : name = [] ∨ name = ".".toList)
    (hpath : refPath W (Repo.branchRef name) = .ok path) : path = "refs/heads".toList := by
  rw [(refPath_branchRef.1 hpath).2]
  rcases hname with rfl | rfl
  · rfl
  · rfl

/-- The directory of the branches is no branch. -/
theorem directory_ne_branchRef (name : Text) : "refs/heads".toList ≠ Repo.branchRef name := by
  intro heq
  have hdir : "refs/heads".toList.length = 10 := rfl
  have hname : (Repo.branchRef name).length = 11 + name.length := List.length_append
  rw [heq] at hdir
  omega

/-- A name without the white space at its end is the name of a file as well. -/
theorem exists_refPath_trimEnd {name path : Text} (hpath : refPath W (Repo.branchRef name) = .ok path) :
    ∃ path', refPath W (Repo.branchRef (trimEnd name)) = .ok path' := by
  refine ⟨_, refPath_branchRef.2 ⟨fun hdots => (refPath_branchRef.1 hpath).1 ?_, rfl⟩⟩
  have hpre : Repo.branchRef (trimEnd name) <+: Repo.branchRef name :=
    (List.prefix_append_right_inj _).2 (List.rdropWhile_prefix _ _)
  exact hdots.trans hpre.isInfix

end Files

/-! ### Expressions -/

namespace Repo

variable {W : World} {r : Repo}

/-- The commit that was found, or an error. -/
def found (e : OmpError) : Option Hash → Except OmpError Hash
  | some h => .ok h
  | none => .error e

theorem bind_found_eq_ok {x : Except OmpError (Option Hash)} {e : OmpError} {h : Hash} :
    (x >>= found e) = .ok h ↔ x = .ok (some h) := by
  rw [except_bind_eq_ok]
  constructor
  · rintro ⟨_ | g, rfl, hfound⟩
    · cases hfound
    · cases hfound
      rfl
  · rintro rfl
    exact ⟨_, rfl, rfl⟩

/-- What the base of an expression stands for, from which ancestors are counted. -/
def resolveBase (W : World) (r : Repo) (base : Text) : Except OmpError Hash :=
  if base = "HEAD".toList then r.resolveHead W >>= found (.notFound "HEAD has no commits".toList)
  else if "refs/".toList <+: base then r.readRef W base >>= found (.notFound ("ref ".toList ++ base))
  else match Hash.parse W.toPlatform base with
    | .ok h => .ok h
    | .error _ =>
      r.readRef W ("refs/heads/".toList ++ base) >>= found (.notFound ("branch ".toList ++ base))

/-- An expression is resolved from its base. -/
theorem resolveRef_eq_bind (expr : Text) :
    r.resolveRef W expr = r.resolveBase W (splitAncestor expr).1 >>= fun start =>
      nthAncestor W r.store start (splitAncestor expr).2 := by
  unfold resolveRef resolveBase
  dsimp only
  split_ifs
  · cases r.resolveHead W with
    | error e => rfl
    | ok o => cases o <;> rfl
  · cases r.readRef W (splitAncestor expr).1 with
    | error e => rfl
    | ok o => cases o <;> rfl
  · cases Hash.parse W.toPlatform (splitAncestor expr).1 with
    | ok g => rfl
    | error e =>
      dsimp only
      cases r.readRef W ("refs/heads/".toList ++ (splitAncestor expr).1) with
      | error e => rfl
      | ok o => cases o <;> rfl

/-- **What an expression stands for.** -/
theorem resolveRef_eq_ok {expr : Text} {h : Hash} :
    r.resolveRef W expr = .ok h ↔ ∃ start, r.resolveBase W (splitAncestor expr).1 = .ok start ∧
      nthAncestor W r.store start (splitAncestor expr).2 = .ok h := by
  rw [resolveRef_eq_bind, except_bind_eq_ok]

/-- The address of a commit stands for itself. -/
theorem resolveRef_hex (h : Hash) : r.resolveRef W h.hex = .ok h := by
  have hsplit : splitAncestor h.hex = (h.hex, 0) := by
    rw [splitAncestor, splitOnce_eq_none.2 (Hash.not_mem_hex (by decide))]
  rw [resolveRef_eq_ok, hsplit]
  refine ⟨h, ?_, rfl⟩
  have hhead : h.hex ≠ "HEAD".toList := Hash.hex_ne (by decide)
  have hrefs : ¬ "refs/".toList <+: h.hex := by
    intro hp
    have hslash : '/' ∈ "refs/".toList := by decide
    exact Hash.not_mem_hex (by decide) (hp.subset hslash)
  rw [resolveBase, if_neg hhead, if_neg hrefs, Hash.parse_hex]

/-! Commits that are read are read again when objects have been added. -/

theorem getCommit_mono {s s' : Store} (hle : s ≤ s') {h : Hash} {content : Bytes}
    (hget : getCommit W s h = .ok content) : getCommit W s' h = .ok content := by
  unfold getCommit at hget ⊢
  cases hs : s.get W.toPlatform h with
  | none => rw [hs] at hget; cases hget
  | some o =>
    rw [hs] at hget
    rw [Store.get_mono hle hs]
    exact hget

theorem commitTree_mono {s s' : Store} (hle : s ≤ s') {h tree : Hash}
    (htree : commitTree W s h = .ok tree) : commitTree W s' h = .ok tree := by
  obtain ⟨content, hget, hheader⟩ := except_bind_eq_ok.1 htree
  exact except_bind_eq_ok.2 ⟨content, getCommit_mono hle hget, hheader⟩

/-- **What a checkout writes to `HEAD`**: the name of a branch that is there, or else the commit the
expression stands for. -/
theorem checkoutHead_eq_ok {expr value : Text} :
    r.checkoutHead W expr = .ok value ↔
      (maybeBranch W expr = true ∧ (∃ g, r.readRef W (branchRef expr) = .ok (some g)) ∧
        value = "ref: ".toList ++ branchRef expr) ∨
      (maybeBranch W expr = true → r.readRef W (branchRef expr) = .ok none) ∧
        ∃ h, r.resolveRef W expr = .ok h ∧ value = h.hex := by
  have hresolve : ∀ x : Except OmpError Hash,
      (x >>= fun h => (.ok h.hex : Except OmpError Text)) = .ok value ↔
        ∃ h, x = .ok h ∧ value = h.hex := by
    intro x
    rw [except_bind_eq_ok]
    exact exists_congr fun h => and_congr_right fun _ => ⟨fun heq => (Except.ok.inj heq).symm,
      fun heq => congrArg Except.ok heq.symm⟩
  unfold checkoutHead
  cases hmaybe : maybeBranch W expr with
  | false =>
    refine (hresolve _).trans ⟨fun h => .inr ⟨fun hfalse => ?_, h⟩, fun h => ?_⟩
    · cases hfalse
    · rcases h with ⟨hfalse, -⟩ | ⟨-, h⟩
      · cases hfalse
      · exact h
  | true =>
    cases hread : r.readRef W (branchRef expr) with
    | error e =>
      refine ⟨fun h => ?_, fun h => ?_⟩
      · cases h
      · rcases h with ⟨-, ⟨g, hg⟩, -⟩ | ⟨hnone, -⟩
        · cases hg
        · cases hnone rfl
    | ok o =>
      cases o with
      | none =>
        refine (hresolve _).trans ⟨fun h => .inr ⟨fun _ => rfl, h⟩, fun h => ?_⟩
        rcases h with ⟨-, ⟨g, hg⟩, -⟩ | ⟨-, h⟩
        · cases hg
        · exact h
      | some g =>
        refine ⟨fun h => .inl ⟨rfl, ⟨g, rfl⟩, (Except.ok.inj h).symm⟩, fun h => ?_⟩
        rcases h with ⟨-, -, rfl⟩ | ⟨hnone, -⟩
        · rfl
        · cases hnone rfl

end Repo

end Omp
