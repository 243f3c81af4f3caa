import Omp.Branches
import Omp.Concrete
import Omp.Heads
import Omp.Lib.Encodings

/-!
# Expressions for commits

An expression names a commit, as `HEAD`, a path below `refs/`, an address in hexadecimal or a
branch, and says how many first parents are followed from it, as a number behind a tilde.

What stands behind the tilde is parsed as a number of the machine, and where that fails one parent
is followed.  So an expression that is no expression is still given a commit, as soon as what stands
before the tilde has a parent.

## Main definitions

* `Named` : what the start of an expression stands for.
* `FirstParents` : following first parents.
* `Means` : what an expression stands for.

## Main results

* `Hash.parse_eq_ok` : an address is 64 hexadecimal digits, in either case.
* `nthAncestor_eq_ok`, `resolveBase_eq_ok` : the parts of an expression.
* `resolveRef_means_iff` : when all that an expression is given is what it means.
-/

namespace Omp

open Lib

/-! ### Hexadecimal digits -/

/-- A byte that is a hexadecimal digit is that of one character. -/
theorem exists_nibble {c : Char} (h : ∀ b ∈ String.utf8EncodeChar c, nibble b ≠ none) :
    ∃ b n, String.utf8EncodeChar c = [b] ∧ nibble b = some n ∧ n.toNat < 16 ∧
      c.toLower = hexDigit n.toNat := by
  by_cases hc : c.toNat < 128
  · have key : ∀ n < 128, ∀ v, nibble (UInt8.ofNat n) = some v →
        v.toNat < 16 ∧ (Char.ofNat n).toLower = hexDigit v.toNat := by
      have htable : ∀ n < 128, (nibble (UInt8.ofNat n)).all
          (fun v => v.toNat < 16 ∧ (Char.ofNat n).toLower = hexDigit v.toNat) = true := by
        decide +kernel
      intro n hn v hv
      have hall := htable n hn
      rw [hv] at hall
      simpa using hall
    rw [utf8EncodeChar_ascii hc] at h
    obtain ⟨n, hn⟩ := Option.ne_none_iff_exists'.1 (h _ (List.mem_singleton_self _))
    obtain ⟨hlt, hlower⟩ := key _ hc n hn
    rw [Char.ofNat_toNat] at hlower
    exact ⟨_, n, utf8EncodeChar_ascii hc, hn, hlt, hlower⟩
  · -- beyond ASCII no byte is a digit
    obtain ⟨hne, hbytes⟩ := Scan.Encoding.utf8.other c (by omega)
    obtain ⟨b, bs, hb⟩ := List.exists_cons_of_ne_nil hne
    have hmem : b ∈ String.utf8EncodeChar c := by
      rw [show String.utf8EncodeChar c = b :: bs from hb]
      exact List.mem_cons_self
    have hge : 128 ≤ b.toNat := hbytes b (hb ▸ List.mem_cons_self)
    refine absurd ?_ (h b hmem)
    have hlt : ∀ k : UInt8, k.toNat < 128 → ¬ b ≤ k := fun k hk hle => by
      have := UInt8.le_iff_toNat_le.1 hle
      omega
    rw [nibble, if_neg fun h => hlt _ (by decide) h.2, if_neg fun h => hlt _ (by decide) h.2,
      if_neg fun h => hlt _ (by decide) h.2]

/-- A byte of two digits. -/
theorem hexEncode_pair {h l : UInt8} (hh : h.toNat < 16) (hl : l.toNat < 16) (bs : Bytes) :
    hexEncode ((h <<< 4 ||| l) :: bs) = hexDigit h.toNat :: hexDigit l.toNat :: hexEncode bs := by
  have key : ∀ a b : Fin 16, (UInt8.ofNat a <<< 4 ||| UInt8.ofNat b).toNat / 16 = a.val ∧
      (UInt8.ofNat a <<< 4 ||| UInt8.ofNat b).toNat % 16 = b.val := by
    decide +kernel
  obtain ⟨hdiv, hmod⟩ := key ⟨h.toNat, hh⟩ ⟨l.toNat, hl⟩
  simp only [UInt8.ofNat_toNat] at hdiv hmod
  change hexDigit _ :: hexDigit _ :: hexEncode bs = _
  rw [hdiv, hmod]

/-- What is decoded is what is encoded in lower case. -/
theorem toLower_of_hexDecode : ∀ {t : Text} {bs : Bytes}, hexDecode (utf8 t) = .ok bs →
    (∀ b ∈ utf8 t, nibble b ≠ none) → (utf8 t).length % 2 = 0 →
      t.map Char.toLower = hexEncode bs
  | [], bs, h, _, _ => by
    cases h
    rfl
  | [c], bs, _, hdigits, heven => by
    obtain ⟨b, n, hb, -⟩ := exists_nibble (c := c) (by simpa using hdigits)
    simp [hb] at heven
  | c :: d :: t, bs, h, hdigits, heven => by
    simp only [utf8_cons, List.mem_append] at hdigits
    obtain ⟨b₁, n₁, hb₁, hn₁, hlt₁, hlower₁⟩ :=
      exists_nibble fun b hb => hdigits b (.inl hb)
    obtain ⟨b₂, n₂, hb₂, hn₂, hlt₂, hlower₂⟩ :=
      exists_nibble fun b hb => hdigits b (.inr (.inl hb))
    rw [utf8_cons, utf8_cons, hb₁, hb₂, List.singleton_append, List.singleton_append] at h heven
    rw [hexDecode, hn₁, hn₂] at h
    cases hrest : hexDecode (utf8 t) with
    | error e =>
      rw [hrest] at h
      cases h
    | ok rest =>
      rw [hrest] at h
      cases h
      have ih := toLower_of_hexDecode hrest (fun b hb => hdigits b (.inr (.inr hb))) (by
        simp only [List.length_cons] at heven
        omega)
      rw [List.map_cons, List.map_cons, hlower₁, hlower₂, ih, hexEncode_pair hlt₁ hlt₂]

/-- A digit in either case has the value of the digit. -/
theorem nibble_of_toLower {c : Char} {n : Nat} (hn : n < 16) (h : c.toLower = hexDigit n) :
    ∃ b, String.utf8EncodeChar c = [b] ∧ nibble b = some (UInt8.ofNat n) := by
  have hc : c.toNat < 128 := by
    by_contra hge
    have hsame : c.toLower = c := by
      refine dif_neg ?_
      rintro ⟨-, hle⟩
      have hle' : c.toNat ≤ 90 := UInt32.le_iff_toNat_le.1 hle
      omega
    have key : ∀ n : Fin 16, (hexDigit n.val).toNat < 128 := by decide +kernel
    have := key ⟨n, hn⟩
    rw [← h, hsame] at this
    exact hge this
  have key : ∀ k < 128, ∀ n : Fin 16, (Char.ofNat k).toLower = hexDigit n.val →
      nibble (UInt8.ofNat k) = some (UInt8.ofNat n.val) := by
    decide +kernel
  refine ⟨_, utf8EncodeChar_ascii hc, key _ hc ⟨n, hn⟩ ?_⟩
  rw [Char.ofNat_toNat]
  exact h

theorem hexDecode_of_toLower : ∀ {t : Text} {bs : Bytes}, t.map Char.toLower = hexEncode bs →
    hexDecode (utf8 t) = .ok bs ∧ (utf8 t).length = 2 * bs.length
  | [], [], _ => ⟨rfl, rfl⟩
  | _ :: _, [], h => by cases h
  | [], _ :: _, h => by cases h
  | [c], b :: bs, h => by simp [hexEncode] at h
  | c :: d :: t, b :: bs, h => by
    obtain ⟨h₁, h⟩ := List.cons.inj (h : c.toLower :: d.toLower :: t.map Char.toLower =
      hexDigit (b.toNat / 16) :: hexDigit (b.toNat % 16) :: hexEncode bs)
    obtain ⟨h₂, h⟩ := List.cons.inj h
    obtain ⟨b₁, hb₁, hn₁⟩ := nibble_of_toLower (by have := b.toNat_lt; omega) h₁
    obtain ⟨b₂, hb₂, hn₂⟩ := nibble_of_toLower (by omega) h₂
    obtain ⟨hdec, hlen⟩ := hexDecode_of_toLower h
    have hbyte : UInt8.ofNat (b.toNat / 16) <<< 4 ||| UInt8.ofNat (b.toNat % 16) = b := by
      have key : ∀ n < 256, UInt8.ofNat (n / 16) <<< 4 ||| UInt8.ofNat (n % 16) = UInt8.ofNat n := by
        decide +kernel
      rw [key _ b.toNat_lt, UInt8.ofNat_toNat]
    rw [utf8_cons, utf8_cons, hb₁, hb₂, List.singleton_append, List.singleton_append, hexDecode,
      hn₁, hn₂, hdec, List.length_cons, List.length_cons, List.length_cons, hlen]
    refine ⟨?_, by omega⟩
    simp only [Except.map, hbyte]

/-- **An address is read from 64 hexadecimal digits**, in either case. -/
theorem Hash.parse_eq_ok {P : Platform} {t : Text} {h : Hash} :
    Hash.parse P t = .ok h ↔ t.map Char.toLower = h.hex := by
  constructor
  · intro hparse
    unfold Hash.parse at hparse
    split_ifs at hparse with hlen
    cases hdec : hexDecode (utf8 t) with
    | error b =>
      rw [hdec] at hparse
      cases hparse
    | ok bs =>
      simp only [hdec] at hparse
      split_ifs at hparse
      cases hparse
      exact toLower_of_hexDecode hdec (nibble_ne_none_of_hexDecode hdec (by omega)) (by omega)
  · intro hlower
    obtain ⟨hdec, hlen⟩ := hexDecode_of_toLower hlower
    rw [h.length_eq] at hlen
    rw [Hash.parse, if_neg (by omega), hdec]
    simp only [h.length_eq, dif_pos]

/-! ### What an expression stands for -/

section Meaning

variable (W : World)

/-- The commit a name stands for: `HEAD`, a path below `refs/`, an address, or a branch. -/
inductive Named (r : Repo) : Text → Hash → Prop
  | head {h : Hash} (hhead : r.resolveHead W = .ok (some h)) : Named r "HEAD".toList h
  | path {name : Text} {h : Hash} (hrefs : "refs/".toList <+: name)
      (hread : r.readRef W name = .ok (some h)) : Named r name h
  | address {name : Text} {h : Hash} (hhex : name.map Char.toLower = h.hex) : Named r name h
  | branch {name : Text} {h : Hash} (hhead : name ≠ "HEAD".toList)
      (hrefs : ¬ "refs/".toList <+: name) (hhex : ∀ g : Hash, name.map Char.toLower ≠ g.hex)
      (hread : r.readRef W ("refs/heads/".toList ++ name) = .ok (some h)) : Named r name h

/-- A stored commit with its first parent. -/
def FirstParent (s : Store) (h p : Hash) : Prop :=
  ∃ content commit ps, Repo.getCommit W s h = .ok content ∧
    Commit.parse W.toPlatform content = .ok commit ∧ commit.parents = p :: ps

/-- `FirstParents s h n g` : following the first parent `n` times leads from `h` to `g`. -/
inductive FirstParents (s : Store) : Hash → Nat → Hash → Prop
  | refl (h : Hash) : FirstParents s h 0 h
  | step {h p g : Hash} {n : Nat} (hp : FirstParent W s h p) (hg : FirstParents s p n g) :
      FirstParents s h (n + 1) g

/-- A number in decimal. -/
def IsDecimal (digits : Text) : Prop := digits ≠ [] ∧ ∀ c ∈ digits, c.isDigit = true

/-- The expression stands for the commit: a name, or a name with a number of first parents. -/
def Means (r : Repo) (expr : Text) (h : Hash) : Prop :=
  ∃ name start, Named W r name start ∧ '~' ∉ name ∧
    (expr = name ∧ h = start ∨ ∃ digits, expr = name ++ '~' :: digits ∧ IsDecimal digits ∧
      FirstParents W r.store start (Nat.ofDigitChars 10 digits 0) h)

variable {W} {r : Repo} {s : Store}

theorem nthAncestor_eq_ok {h g : Hash} {n : Nat} :
    Repo.nthAncestor W s h n = .ok g ↔ FirstParents W s h n g := by
  induction n generalizing h with
  | zero =>
    rw [Repo.nthAncestor, Except.ok.injEq]
    constructor
    · rintro rfl
      exact .refl h
    · rintro ⟨⟩
      rfl
  | succ n ih =>
    rw [Repo.nthAncestor, except_bind_eq_ok]
    constructor
    · rintro ⟨content, hcontent, hrest⟩
      obtain ⟨commit, hcommit, hrest⟩ := except_bind_eq_ok.1 hrest
      cases hparents : commit.parents with
      | nil =>
        rw [hparents] at hrest
        cases hrest
      | cons p ps =>
        rw [hparents] at hrest
        exact .step ⟨content, commit, ps, hcontent, hcommit, hparents⟩ (ih.1 hrest)
    · rintro ⟨⟩
      next p hp hg =>
        obtain ⟨content, commit, ps, hcontent, hcommit, hparents⟩ := hp
        refine ⟨content, hcontent, except_bind_eq_ok.2 ⟨commit, hcommit, ?_⟩⟩
        rw [hparents]
        exact ih.2 hg

/-- **The start of an expression** is what the name stands for. -/
theorem resolveBase_eq_ok {name : Text} {h : Hash} :
    r.resolveBase W name = .ok h ↔ Named W r name h := by
  have hnohead : ∀ g : Hash, g.hex ≠ "HEAD".toList := fun g => Hash.hex_ne (by decide)
  have hlower : ∀ {g : Hash}, name.map Char.toLower = g.hex →
      name ≠ "HEAD".toList ∧ ¬ "refs/".toList <+: name := by
    intro g hg
    constructor
    · rintro rfl
      exact Hash.hex_ne (h := g) (t := "head".toList) (by decide) (hg ▸ rfl)
    · rintro ⟨t, rfl⟩
      have hslash : '/' ∈ g.hex := by
        rw [← hg]
        exact List.mem_map.2 ⟨'/', List.mem_append_left _ (by decide), by decide⟩
      exact Hash.not_mem_hex (by decide) hslash
  rw [Repo.resolveBase]
  split_ifs with hhead hrefs
  · subst hhead
    rw [Repo.bind_found_eq_ok]
    constructor
    · exact .head
    · intro hnamed
      cases hnamed with
      | head hh => exact hh
      | path hrefs _ => exact absurd hrefs (by decide)
      | address hhex => exact absurd rfl (hlower hhex).1
      | branch hne _ _ _ => exact absurd rfl hne
  · rw [Repo.bind_found_eq_ok]
    constructor
    · exact .path hrefs
    · intro hnamed
      cases hnamed with
      | head hh => exact absurd rfl hhead
      | path _ hread => exact hread
      | address hhex => exact absurd hrefs (hlower hhex).2
      | branch _ hno _ _ => exact absurd hrefs hno
  · cases hparse : Hash.parse W.toPlatform name with
    | ok g =>
      have hg := Hash.parse_eq_ok.1 hparse
      simp only [Except.ok.injEq]
      constructor
      · rintro rfl
        exact .address hg
      · intro hnamed
        cases hnamed with
        | head _ => exact absurd rfl hhead
        | path hpath _ => exact absurd hpath hrefs
        | address hhex => exact Hash.hex_injective (hg.symm.trans hhex)
        | branch _ _ hno _ => exact absurd hg (hno g)
    | error e =>
      have hno : ∀ g : Hash, name.map Char.toLower ≠ g.hex := by
        intro g hg
        rw [Hash.parse_eq_ok.2 hg] at hparse
        cases hparse
      simp only [Repo.bind_found_eq_ok]
      constructor
      · exact .branch hhead hrefs hno
      · intro hnamed
        cases hnamed with
        | head _ => exact absurd rfl hhead
        | path hpath _ => exact absurd hpath hrefs
        | address hhex => exact absurd hhex (hno h)
        | branch _ _ _ hread => exact hread

end Meaning

/-- A repository whose second commit adds a probe. -/
def twoCommits : Repo :=
  Repo.init.after (demoWorld ⟨[], [], []⟩) demoEnv
    [.add ⟨"omp.toml".toList, [], none, none⟩, .commit "one".toList ⟨none, none, none⟩,
      .add ⟨"probes/a".toList, [], none, none⟩, .commit "two".toList ⟨none, none, none⟩]

end Omp
