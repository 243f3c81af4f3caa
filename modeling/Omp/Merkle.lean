import Omp.LeafMap

/-!
# Laws of the Merkle tree

The path operations at the level of path strings and root addresses: what reading gives after
a write or a deletion, and that the root address a sequence of operations ends in depends on
nothing but the leaves.

Both are stated for trees whose names the codec keeps.  In the plaintext form a name with a
line feed, or with a carriage return at its end, is read back as something else, so paths are
required to be free of both (`PathClean`); under a path key there is no such condition.

## Main definitions

* `StoredTree`, `NoEmptyDirs` : a tree all of whose subtrees are stored, and one in which none
  of them is empty.
* `LeafUnder` : the leaves an entry refers to.
* `PathOp` : a write or a deletion; `PathOp.runAll` builds a tree with them from nothing.

## Main results

* `merkle_map_laws` : the map laws of `putAt` and `deleteAt`.
* `history_independent` : the root address is a function of the leaves.
-/

namespace Omp

open Lib

variable {P : Platform} {s s' : Store} {key : Option Key} {full canon : Prop}

/-! ### Paths and stored trees -/

/-- A path without line feeds and carriage returns. -/
def PathClean (path : Text) : Prop := '\n' ∉ path ∧ '\r' ∉ path

instance (path : Text) : Decidable (PathClean path) := inferInstanceAs (Decidable (_ ∧ _))

theorem nameKept_of_pathClean {path : Text} {parts : List Text}
    (hsplit : split P path = .ok parts) (hclean : key = none → PathClean path) :
    ∀ n ∈ parts, Tree.NameKept key n := by
  intro n hn hkey
  obtain ⟨hlf, hcr⟩ := hclean hkey
  have hmem := (of_mem_split hsplit hn).2.2
  exact ⟨fun h => hlf (hmem _ h), fun h => hcr (hmem _ (List.mem_of_getLast? h))⟩

variable (P s key) in
/-- A tree all of whose subtrees are stored, with names the codec keeps. -/
inductive StoredTree : Hash → Prop
  | mk {h : Hash} {t : Tree} (hload : loadTree P s key h = .ok t)
      (hkept : ∀ n e, t.get n = some e → Tree.NameKept key n)
      (hsub : ∀ n e, t.get n = some e → e.mode = .tree → StoredTree e.hash) : StoredTree h

variable (P s key) in
/-- No directory below the root is empty. -/
inductive NoEmptyDirs : Hash → Prop
  | mk {h : Hash} {t : Tree} (hload : loadTree P s key h = .ok t)
      (hne : ∀ n e, t.get n = some e → e.mode = .tree →
        ∃ u, loadTree P s key e.hash = .ok u ∧ u.isEmpty = false)
      (hsub : ∀ n e, t.get n = some e → e.mode = .tree → NoEmptyDirs e.hash) : NoEmptyDirs h

variable (P s key) in
/-- `LeafUnder e q l` : from the entry `e`, the path `q` leads to the leaf `l`. -/
inductive LeafUnder : Entry → List Text → Entry → Prop
  | leaf {e : Entry} (hm : e.mode ≠ .tree) : LeafUnder e [] e
  | dir {e f l : Entry} {t : Tree} {n : Text} {q : List Text} (hm : e.mode = .tree)
      (hload : loadTree P s key e.hash = .ok t) (hget : t.get n = some f)
      (hunder : LeafUnder f q l) : LeafUnder e (n :: q) l

/-- Every stored tree has a leaf map. -/
theorem StoredTree.exists_treeAt {h : Hash} (hst : StoredTree P s key h) :
    ∃ L, TreeAt P s key False False h L := by
  induction hst with
  | @mk h t hload hkept _ ih =>
    have hchoose : ∀ n, ∃ L : Leaves Text Entry, ∀ e, t.get n = some e → e.mode = .tree →
        TreeAt P s key False False e.hash L := by
      intro n
      cases hn : t.get n with
      | none => exact ⟨Leaves.empty, fun e he => by cases he⟩
      | some e =>
        by_cases hm : e.mode = .tree
        · obtain ⟨L, hL⟩ := ih n e hn hm
          exact ⟨L, fun f hf _ => by cases hf; exact hL⟩
        · exact ⟨Leaves.empty, fun f hf hm' => by cases hf; exact absurd hm' hm⟩
    choose sub hsub using hchoose
    exact ⟨_, .node sub hload False.elim hkept hsub False.elim⟩

/-- Without empty directories, every subtree of a stored tree has a leaf. -/
theorem TreeAt.toFull {h : Hash} {L : Leaves Text Entry} (ht : TreeAt P s key False False h L)
    (hne : NoEmptyDirs P s key h) : TreeAt P s key True False h L := by
  induction hne generalizing L with
  | @mk h t hload hne _ ih =>
    obtain ⟨t', sub, hload', -, hnode, rfl⟩ := ht.exists_node
    obtain rfl : t = t' := by
      rw [hload, Except.ok.injEq] at hload'
      exact hload'
    refine .of_node hload False.elim fun n e hn => ⟨(hnode n e hn).1, fun hm => ?_⟩
    have hsub := ih n e hn hm ((hnode n e hn).2 hm).1
    refine ⟨hsub, fun _ => ?_⟩
    obtain ⟨u, hu, hempty⟩ := hne n e hn hm
    obtain ⟨u', sub', hu', -, hnode', hL⟩ := hsub.exists_node
    obtain rfl : u = u' := by
      rw [hu, Except.ok.injEq] at hu'
      exact hu'
    rw [hL]
    exact hnode'.exists_leaf trivial hempty

/-- The leaves an entry for a stored tree refers to are those of its leaf map. -/
theorem TreeAt.leafUnder_iff {h : Hash} {L : Leaves Text Entry}
    (ht : TreeAt P s key full canon h L) {q : List Text} {l : Entry} :
    LeafUnder P s key ⟨.tree, h⟩ q l ↔ L q = some l := by
  induction q generalizing h L with
  | nil =>
    refine iff_of_false ?_ (by simp [ht.nil])
    intro hl
    cases hl with
    | leaf hm => exact hm rfl
  | cons n q ih =>
    obtain ⟨t, sub, hload, -, hnode, rfl⟩ := ht.exists_node
    have hstep : LeafUnder P s key ⟨.tree, h⟩ (n :: q) l ↔
        ∃ f, t.get n = some f ∧ LeafUnder P s key f q l := by
      constructor
      · intro hl
        cases hl with
        | dir hm hload' hget hunder =>
          rw [hload, Except.ok.injEq] at hload'
          subst hload'
          exact ⟨_, hget, hunder⟩
      · rintro ⟨f, hget, hunder⟩
        exact .dir rfl hload hget hunder
    have hread : leavesOf t sub (n :: q) = entryLeaves (t.get n) (sub n) q := rfl
    rw [hstep, hread]
    cases hn : t.get n with
    | none => simp [entryLeaves, Leaves.empty]
    | some f =>
      simp only [Option.some.injEq, exists_eq_left', entryLeaves]
      split_ifs with hm
      · obtain ⟨mode, hash⟩ := f
        obtain rfl : mode = .tree := hm
        exact ih ((hnode n _ hn).2 rfl).1
      · constructor
        · intro hl
          cases hl with
          | leaf _ => simp
          | dir hm' _ _ _ => exact absurd hm' hm
        · intro hl
          by_cases hq : q = []
          · subst hq
            rw [Leaves.put_self, Option.some.injEq] at hl
            exact hl ▸ .leaf hm
          · rw [Leaves.put_below _ f q.nil_prefix hq] at hl
            cases hl

/-- What means a leaf map is a stored tree. -/
theorem TreeAt.storedTree {h : Hash} {L : Leaves Text Entry}
    (ht : TreeAt P s key full canon h L) : StoredTree P s key h := by
  induction ht with
  | node sub hload _ hkept _ _ ih => exact .mk hload hkept ih

/-- Names on the way to a leaf are valid, and kept by the codec. -/
theorem TreeAt.names {h : Hash} {L : Leaves Text Entry} (ht : TreeAt P s key full canon h L)
    {q : List Text} (hq : L q ≠ none) : ∀ n ∈ q, ValidName n ∧ Tree.NameKept key n := by
  induction q generalizing h L with
  | nil => exact nofun
  | cons m q ih =>
    obtain ⟨t, sub, hload, -, hnode, rfl⟩ := ht.exists_node
    change entryLeaves (t.get m) (sub m) q ≠ none at hq
    cases hn : t.get m with
    | none => simp [hn, entryLeaves, Leaves.empty] at hq
    | some f =>
      rw [hn] at hq
      simp only [entryLeaves] at hq
      refine List.forall_mem_cons.2 ⟨⟨Tree.validName_of_get hn, (hnode m f hn).1⟩, ?_⟩
      split_ifs at hq with hm
      · exact ih ((hnode m f hn).2 hm).1 hq
      · have hnil : q = [] := by
          by_contra hne
          exact hq (Leaves.put_below _ f q.nil_prefix hne)
        subst hnil
        exact nofun

theorem TreeAt.validName {h : Hash} {L : Leaves Text Entry} (ht : TreeAt P s key full canon h L)
    {q : List Text} (hq : L q ≠ none) : ∀ n ∈ q, ValidName n := fun n hn => (ht.names hq n hn).1

/-! ### The operations on path strings -/

theorem run_putAt {path : Text} {parts : List Text} (hsplit : split P path = .ok parts)
    (hne : parts ≠ []) (o : Option Hash) (entry : Entry) (s : Store) :
    (putAt P key o path entry).run s = (putInner P key entry parts o).run s := by
  rw [putAt, hsplit, Op.run_bind_of_ok rfl, if_neg hne]

theorem run_deleteAt {path : Text} {parts : List Text} (hsplit : split P path = .ok parts)
    (hne : parts ≠ []) (root : Hash) (s : Store) :
    (deleteAt P key root path).run s = (deleteInner P key parts root).run s := by
  rw [deleteAt, hsplit, Op.run_bind_of_ok rfl, if_neg hne]

/-- A write that succeeds has components. -/
theorem split_of_putAt {path : Text} {o : Option Hash} {entry : Entry} {h : Hash}
    (hrun : (putAt P key o path entry).run s = (.ok h, s')) :
    ∃ parts, split P path = .ok parts ∧ parts ≠ [] := by
  cases hs : split P path with
  | error e =>
    rw [putAt, hs] at hrun
    cases (Prod.mk.inj hrun).1
  | ok parts =>
    refine ⟨parts, rfl, ?_⟩
    rintro rfl
    rw [putAt, hs, Op.run_bind_of_ok rfl, if_pos rfl] at hrun
    cases (Prod.mk.inj hrun).1

/-- A deletion that succeeds has components. -/
theorem split_of_deleteAt {path : Text} {root : Hash} {o : Option Hash}
    (hrun : (deleteAt P key root path).run s = (.ok o, s')) :
    ∃ parts, split P path = .ok parts ∧ parts ≠ [] := by
  cases hs : split P path with
  | error e =>
    rw [deleteAt, hs] at hrun
    cases (Prod.mk.inj hrun).1
  | ok parts =>
    refine ⟨parts, rfl, ?_⟩
    rintro rfl
    rw [deleteAt, hs, Op.run_bind_of_ok rfl, if_pos rfl] at hrun
    cases (Prod.mk.inj hrun).1

/-- A write that succeeds carries out the edit. -/
theorem RootAt.of_putAt (hP : key ≠ none → P.AeadLawful) {path : Text} {parts : List Text}
    (hsplit : split P path = .ok parts) (hkept : ∀ n ∈ parts, Tree.NameKept key n)
    {entry : Entry} (hentry : entry.mode ≠ .tree) {o : Option Hash} {L : Leaves Text Entry}
    {h : Hash} (hroot : RootAt P s key full canon o L)
    (hrun : (putAt P key o path entry).run s = (.ok h, s')) (hcf : s'.CollisionFree P) :
    ((∀ n ∈ parts, ValidName n) ∧ ¬ L.Blocked parts) ∧
      RootAt P s' key full canon (some h) (L.put parts entry) := by
  obtain ⟨parts', hsplit', hne⟩ := split_of_putAt hrun
  obtain rfl : parts = parts' := by
    rw [hsplit, Except.ok.injEq] at hsplit'
    exact hsplit'
  rw [run_putAt hsplit hne] at hrun
  rcases putInner_spec hP hentry hne hkept hroot hrun hcf with
    ⟨hv, hb, h', heq, hput⟩ | ⟨-, e, he⟩
  · cases heq
    exact ⟨⟨hv, hb⟩, hput⟩
  · cases he

/-- A deletion that succeeds carries out the edit. -/
theorem RootAt.of_deleteAt (hP : key ≠ none → P.AeadLawful) {path : Text} {parts : List Text}
    (hsplit : split P path = .ok parts) {root : Hash} {L : Leaves Text Entry} {o : Option Hash}
    (hroot : RootAt P s key full canon (some root) L)
    (hrun : (deleteAt P key root path).run s = (.ok o, s')) (hcf : s'.CollisionFree P) :
    RootAt P s' key full canon o (L.del parts) ∧ ∀ q, Absent P s' key o (parts ++ q) := by
  obtain ⟨parts', hsplit', hne⟩ := split_of_deleteAt hrun
  obtain rfl : parts = parts' := by
    rw [hsplit, Except.ok.injEq] at hsplit'
    exact hsplit'
  rw [run_deleteAt hsplit hne] at hrun
  obtain ⟨o', heq, hdel⟩ := deleteInner_spec hP hne hroot hrun hcf
  cases heq
  exact hdel

/-- Read below a root that may be missing. -/
def readAt (P : Platform) (s : Store) (key : Option Key) (o : Option Hash) (path : Text) :
    Except OmpError (Option Entry) :=
  match o with
  | none => .ok none
  | some root => getAt P s key path root

/-- Reading below a root that means `L`. -/
theorem RootAt.exists_readAt {o : Option Hash} {L : Leaves Text Entry}
    (hroot : RootAt P s key full canon o L) {q : Text} {qs : List Text}
    (hsplit : split P q = .ok qs) (hne : qs ≠ []) :
    ∃ r, readAt P s key o q = .ok r ∧ Reads P s key full canon L qs r := by
  cases o with
  | none =>
    refine ⟨none, rfl, fun q _ => ?_⟩
    rw [show L = Leaves.empty from hroot]
    rfl
  | some root => exact getAt_spec hsplit hne hroot.1

variable (P s key) in
/-- The leaves the result of reading a path refers to. -/
def RefersTo (r : Option Entry) (q : List Text) (l : Entry) : Prop :=
  ∃ e, r = some e ∧ LeafUnder P s key e q l

/-- What is read at a path refers to the leaves at and below it. -/
theorem Reads.refersTo_iff {L : Leaves Text Entry} {parts : List Text} {r : Option Entry}
    (hr : Reads P s key full canon L parts r) (hL : L.PrefixFree) {q : List Text} {l : Entry} :
    RefersTo P s key r q l ↔ L (parts ++ q) = some l := by
  cases r with
  | none =>
    rw [hr _ (List.prefix_append parts q)]
    simp [RefersTo]
  | some f =>
    simp only [RefersTo, Option.some.injEq, exists_eq_left']
    simp only [Reads] at hr
    split_ifs at hr with hm
    · obtain ⟨mode, hash⟩ := f
      obtain rfl : mode = .tree := hm
      exact hr.1.leafUnder_iff
    · constructor
      · intro hl
        cases hl with
        | leaf _ => simpa using hr
        | dir hm' _ _ _ => exact absurd hm' hm
      · intro hl
        have hq : parts = parts ++ q :=
          hL _ _ (List.prefix_append parts q) (by simp [hr]) (by simp [hl])
        obtain rfl : q = [] := by simpa using hq
        rw [List.append_nil, hr, Option.some.injEq] at hl
        exact hl ▸ .leaf hm

theorem RootAt.prefixFree {o : Option Hash} {L : Leaves Text Entry}
    (hroot : RootAt P s key full canon o L) : L.PrefixFree := by
  cases o with
  | none =>
    rw [show L = Leaves.empty from hroot]
    intro p q _ hp
    exact absurd rfl hp
  | some h => exact hroot.1.prefixFree

/-! ### The map laws -/

theorem exists_rootAt {o : Option Hash} (hst : ∀ h, o = some h → StoredTree P s key h) :
    ∃ L, RootAt P s key False False o L := by
  cases o with
  | none => exact ⟨Leaves.empty, rfl⟩
  | some h =>
    obtain ⟨L, hL⟩ := (hst h rfl).exists_treeAt
    exact ⟨L, hL, False.elim⟩

/-- What is read at two paths, in two stores, refers to the same leaves. -/
def SameLeaves (P : Platform) (key : Option Key) (s s' : Store)
    (r r' : Except OmpError (Option Entry)) : Prop :=
  ∃ e e', r = .ok e ∧ r' = .ok e' ∧
    ∀ q l, RefersTo P s key e q l ↔ RefersTo P s' key e' q l

theorem sameLeaves_of_reads {L L' : Leaves Text Entry} {o o' : Option Hash} {q : Text}
    {qs : List Text} (hr : RootAt P s key False False o L)
    (hr' : RootAt P s' key False False o' L') (hsplit : split P q = .ok qs) (hne : qs ≠ [])
    (heq : ∀ p, L' (qs ++ p) = L (qs ++ p)) :
    SameLeaves P key s s' (readAt P s key o q) (readAt P s' key o' q) := by
  obtain ⟨e, he, hreads⟩ := hr.exists_readAt hsplit hne
  obtain ⟨e', he', hreads'⟩ := hr'.exists_readAt hsplit hne
  refine ⟨e, e', he, he', fun p l => ?_⟩
  rw [hreads.refersTo_iff hr.prefixFree, hreads'.refersTo_iff hr'.prefixFree, heq]

/-- Two paths neither of which is a prefix of the other have no common extension. -/
theorem not_prefix_append {α : Type} {p q : List α} (h₁ : ¬ q <+: p) (h₂ : ¬ p <+: q)
    (r : List α) : ¬ p <+: q ++ r := fun h => by
  rcases List.prefix_or_prefix_of_prefix h (List.prefix_append q r) with h' | h'
  exacts [h₂ h', h₁ h']

/-- **What a write does**: the entry is at its path, directories lead to it, nothing is below
it, and elsewhere the same leaves are found as before. -/
theorem putAt_laws (hP : key ≠ none → P.AeadLawful) {o : Option Hash}
    (hst : ∀ h, o = some h → StoredTree P s key h) {path : Text} {entry : Entry} {root : Hash}
    (hclean : key = none → PathClean path) (hentry : entry.mode ≠ .tree)
    (hrun : (putAt P key o path entry).run s = (.ok root, s')) (hcf : s'.CollisionFree P)
    {parts : List Text} (hsplit : split P path = .ok parts) {q : Text} {qs : List Text}
    (hq : split P q = .ok qs) :
    (qs = parts → getAt P s' key q root = .ok (some entry)) ∧
    (qs <+: parts → qs ≠ parts → ∃ h, getAt P s' key q root = .ok (some ⟨.tree, h⟩)) ∧
    (parts <+: qs → qs ≠ parts → getAt P s' key q root = .ok none) ∧
    (¬ qs <+: parts → ¬ parts <+: qs →
      SameLeaves P key s s' (readAt P s key o q) (getAt P s' key q root)) := by
  obtain ⟨L, hL⟩ := exists_rootAt hst
  have hkept := nameKept_of_pathClean hsplit hclean
  obtain ⟨⟨-, hb⟩, hput⟩ := hL.of_putAt hP hsplit hkept hentry hrun hcf
  obtain ⟨parts', hsplit', hparts⟩ := split_of_putAt hrun
  obtain rfl : parts = parts' := by
    rw [hsplit, Except.ok.injEq] at hsplit'
    exact hsplit'
  by_cases hqs : qs = []
  · subst hqs
    have hroot : getAt P s' key q root = .ok (some ⟨.tree, root⟩) := by
      rw [getAt, hq]
      rfl
    refine ⟨fun h => absurd h.symm hparts, fun _ _ => ⟨root, hroot⟩, fun h => ?_,
      fun h => absurd parts.nil_prefix h⟩
    exact absurd (List.prefix_nil.1 h) hparts
  obtain ⟨r, hr, hreads⟩ := getAt_spec hq hqs hput.1
  refine ⟨?_, fun hpre hne => ?_, fun hpre hne => ?_, fun h₁ h₂ => ?_⟩
  · rintro rfl
    have := (hreads.leaf_iff (e := entry)).1 (Leaves.put_self L qs entry)
    rw [hr, this.1]
  · have hnot : ¬ parts <+: qs := fun h =>
      hne (hpre.eq_of_length (le_antisymm hpre.length_le h.length_le))
    cases r with
    | none =>
      have := hreads parts hpre
      rw [Leaves.put_self] at this
      cases this
    | some f =>
      obtain ⟨mode, hash⟩ := f
      by_cases hm : mode = .tree
      · exact ⟨hash, by rw [hr, hm]⟩
      · have hleaf := (hreads.leaf_iff (e := ⟨mode, hash⟩)).2 ⟨rfl, hm⟩
        rw [Leaves.put_frame L entry hnot] at hleaf
        exact absurd ⟨qs, hpre, hne, by simp [hleaf]⟩ hb
  · refine getAt_below hq hput.1 (p := parts) (by simp [Leaves.put_self]) hpre ?_
    exact fun h => hne h.symm
  · exact sameLeaves_of_reads hL hput hq hqs fun p =>
      Leaves.put_frame L entry (not_prefix_append h₁ h₂ p)

/-- A path that was removed is read as absent. -/
theorem Absent.readAt_eq {o : Option Hash} {L : Leaves Text Entry}
    (hroot : RootAt P s key full canon o L) {q : Text} {qs : List Text}
    (hsplit : split P q = .ok qs) (hne : qs ≠ []) (habs : Absent P s key o qs) :
    readAt P s key o q = .ok none := by
  cases o with
  | none => rfl
  | some root =>
    obtain ⟨t, sub, hload, -, -, -⟩ := hroot.1.exists_node
    simp [readAt, getAt, hsplit, hne, hload, bind, Except.bind, habs root t rfl hload]

/-- In a tree without empty directories, a path leads to a directory exactly when some leaf is
below it. -/
theorem RootAt.dir_iff {o : Option Hash} {L : Leaves Text Entry}
    (hroot : RootAt P s key True canon o L) {q : Text} {qs : List Text}
    (hsplit : split P q = .ok qs) (hne : qs ≠ []) :
    (∃ h, readAt P s key o q = .ok (some ⟨.tree, h⟩)) ↔
      ∃ r rs e, split P r = .ok rs ∧ qs <+: rs ∧ rs ≠ qs ∧ e.mode ≠ .tree ∧
        readAt P s key o r = .ok (some e) := by
  obtain ⟨f, hf, hreads⟩ := hroot.exists_readAt hsplit hne
  constructor
  · rintro ⟨h, hh⟩
    rw [hf, Except.ok.injEq] at hh
    subst hh
    obtain ⟨p, hp⟩ := hreads.2 trivial
    obtain ⟨e, he⟩ := Option.ne_none_iff_exists'.1 hp
    have hmode : e.mode ≠ .tree := hreads.1.mode_ne he
    have hvalid : ∀ n ∈ qs ++ p, ValidName n := by
      cases o with
      | none =>
        rw [show L = Leaves.empty from hroot] at hp
        exact absurd rfl hp
      | some root => exact hroot.1.validName hp
    have hpne : p ≠ [] := by
      rintro rfl
      exact hp hreads.1.nil
    have hsplit' := split_joinWith (P := P) hvalid
    obtain ⟨g, hg, hreads'⟩ := hroot.exists_readAt hsplit' (by simp [hne])
    obtain ⟨rfl, -⟩ := hreads'.leaf_iff.1 he
    exact ⟨_, _, e, hsplit', List.prefix_append qs p, by simpa using hpne, hmode, hg⟩
  · rintro ⟨r, rs, e, hr, hpre, hrs, hmode, hread⟩
    have hrsne : rs ≠ [] := fun h => hne (List.prefix_nil.1 (h ▸ hpre))
    obtain ⟨g, hg, hreads'⟩ := hroot.exists_readAt hr hrsne
    rw [hread, Except.ok.injEq] at hg
    subst hg
    have hleaf : L rs = some e := hreads'.leaf_iff.2 ⟨rfl, hmode⟩
    cases f with
    | none =>
      rw [hreads rs hpre] at hleaf
      cases hleaf
    | some f =>
      obtain ⟨mode, hash⟩ := f
      by_cases hm : mode = .tree
      · exact ⟨hash, by rw [hf, hm]⟩
      · exfalso
        have hq : L qs = some ⟨mode, hash⟩ := hreads.leaf_iff.2 ⟨rfl, hm⟩
        exact hrs (hroot.prefixFree qs rs hpre (by simp [hq]) (by simp [hleaf])).symm

/-- Deleting from an empty tree gives no tree, or the tree itself. -/
theorem deleteInner_of_isEmpty {parts : List Text} {h : Hash} {t : Tree} {o : Option Hash}
    (hload : loadTree P s key h = .ok t) (ht : ∀ n, t.get n = none)
    (hrun : (deleteInner P key parts h).run s = (.ok o, s')) : o = none ∨ o = some h ∧ s' = s := by
  have hread : (Op.reads fun s => loadTree P s key h : StoreOp Tree).run s = (.ok t, s) := by
    simp [hload, Except.mapError]
  match parts with
  | [] => cases (Prod.mk.inj hrun).1
  | [head] =>
    have hempty : (t.remove head).isEmpty = true := Tree.isEmpty_iff.2 fun n => by
      rw [Tree.get_remove, ht]
      exact ite_self none
    rw [deleteInner, Op.run_bind_of_ok hread, storeUnlessEmpty, if_pos hempty] at hrun
    exact .inl (Except.ok.inj (Prod.mk.inj hrun).1).symm
  | head :: next :: rest =>
    rw [deleteInner, Op.run_bind_of_ok hread, ht] at hrun
    obtain ⟨heq, rfl⟩ := Prod.mk.inj hrun
    exact .inr ⟨(Except.ok.inj heq).symm, rfl⟩

/-- **What a deletion does**: nothing is left at or below its path, every other leaf is found
as before, and when no directory was empty, exactly the directories with a leaf are left. -/
theorem deleteAt_laws (hP : key ≠ none → P.AeadLawful) {root : Hash}
    (hst : StoredTree P s key root) {path : Text} {o : Option Hash}
    (hrun : (deleteAt P key root path).run s = (.ok o, s')) (hcf : s'.CollisionFree P)
    {parts : List Text} (hsplit : split P path = .ok parts) {q : Text} {qs : List Text}
    (hq : split P q = .ok qs) (hqs : qs ≠ []) :
    (parts <+: qs → readAt P s' key o q = .ok none) ∧
    (¬ parts <+: qs → ∀ e, e.mode ≠ .tree →
      (readAt P s' key o q = .ok (some e) ↔ getAt P s key q root = .ok (some e))) ∧
    (NoEmptyDirs P s key root →
      ((∃ h, readAt P s' key o q = .ok (some ⟨.tree, h⟩)) ↔
        ∃ r rs e, split P r = .ok rs ∧ qs <+: rs ∧ rs ≠ qs ∧ e.mode ≠ .tree ∧
          readAt P s' key o r = .ok (some e))) := by
  obtain ⟨L, hL⟩ := hst.exists_treeAt
  obtain ⟨hdel, habs⟩ := RootAt.of_deleteAt hP hsplit ⟨hL, False.elim⟩ hrun hcf
  refine ⟨?_, fun hpre e he => ?_, fun hne => ?_⟩
  · rintro ⟨p, rfl⟩
    exact (habs p).readAt_eq hdel hq hqs
  · obtain ⟨f, hf, hreads⟩ := getAt_spec hq hqs hL
    obtain ⟨f', hf', hreads'⟩ := hdel.exists_readAt hq hqs
    have hsame : L.del parts qs = L qs := Leaves.del_frame L hpre
    have h₁ := hreads.leaf_iff (e := e)
    have h₂ := hreads'.leaf_iff (e := e)
    rw [hsame] at h₂
    rw [hf, hf', Except.ok.injEq, Except.ok.injEq]
    constructor
    · rintro rfl
      exact (h₁.1 (h₂.2 ⟨rfl, he⟩)).1
    · rintro rfl
      exact (h₂.1 (h₁.2 ⟨rfl, he⟩)).1
  · have hfull := hL.toFull hne
    by_cases hempty : ∃ p, L p ≠ none
    · exact (RootAt.of_deleteAt hP hsplit ⟨hfull, fun _ => hempty⟩ hrun hcf).1.dir_iff hq hqs
    · -- the root tree itself is empty: nothing is read before or after
      obtain ⟨t, sub, hload, -, hnode, rfl⟩ := hfull.exists_node
      have ht : ∀ n, t.get n = none := by
        refine Tree.isEmpty_iff.1 ?_
        by_contra hcon
        exact hempty (hnode.exists_leaf trivial (Bool.eq_false_iff.2 hcon))
      have hnone : ∀ r rs, split P r = .ok rs → rs ≠ [] → readAt P s' key o r = .ok none := by
        intro r rs hr hrs
        obtain ⟨parts', hsplit', hparts⟩ := split_of_deleteAt hrun
        rw [run_deleteAt hsplit' hparts] at hrun
        rcases deleteInner_of_isEmpty hload ht hrun with rfl | ⟨rfl, rfl⟩
        · rfl
        · obtain ⟨n, rs, rfl⟩ := List.exists_cons_of_ne_nil hrs
          have hroot : RootAt P s' key False False (some root) (leavesOf t sub) :=
            ⟨hL, False.elim⟩
          refine Absent.readAt_eq hroot hr hrs (.of_get (fun h' hh => ?_) ?_ fun _ => ht n)
          · rw [← Option.some.inj hh, hload]
          · intro e he
            rw [ht] at he
            cases he
      refine iff_of_false ?_ ?_
      · rintro ⟨h, hh⟩
        rw [hnone q qs hq hqs] at hh
        cases hh
      · rintro ⟨r, rs, e, hr, hpre, -, -, hread⟩
        rw [hnone r rs hr fun h => hqs (List.prefix_nil.1 (h ▸ hpre))] at hread
        cases hread

/-- **The map laws of the Merkle tree**, in the plaintext form and under every path key, for
every stored tree whose names the codec keeps.  That a directory is left exactly when some leaf
is left below it needs that no directory was empty to begin with. -/
theorem merkle_map_laws (hP : key ≠ none → P.AeadLawful) {root : Hash}
    (hst : StoredTree P s key root) {path : Text} {parts : List Text}
    (hsplit : split P path = .ok parts) (hclean : key = none → PathClean path) :
    (∀ entry root' s', entry.mode ≠ .tree →
      (putAt P key (some root) path entry).run s = (.ok root', s') → s'.CollisionFree P →
      ∀ q qs, split P q = .ok qs →
        (qs = parts → getAt P s' key q root' = .ok (some entry)) ∧
        (qs <+: parts → qs ≠ parts → ∃ h, getAt P s' key q root' = .ok (some ⟨.tree, h⟩)) ∧
        (parts <+: qs → qs ≠ parts → getAt P s' key q root' = .ok none) ∧
        (¬ qs <+: parts → ¬ parts <+: qs →
          SameLeaves P key s s' (getAt P s key q root) (getAt P s' key q root'))) ∧
    (∀ o s', (deleteAt P key root path).run s = (.ok o, s') → s'.CollisionFree P →
      ∀ q qs, split P q = .ok qs → qs ≠ [] →
        (parts <+: qs → readAt P s' key o q = .ok none) ∧
        (¬ parts <+: qs → ∀ e, e.mode ≠ .tree →
          (readAt P s' key o q = .ok (some e) ↔ getAt P s key q root = .ok (some e))) ∧
        (NoEmptyDirs P s key root →
          ((∃ h, readAt P s' key o q = .ok (some ⟨.tree, h⟩)) ↔
            ∃ r rs e, split P r = .ok rs ∧ qs <+: rs ∧ rs ≠ qs ∧ e.mode ≠ .tree ∧
              readAt P s' key o r = .ok (some e)))) := by
  refine ⟨fun entry root' s' hentry hrun hcf q qs hq => ?_,
    fun o s' hrun hcf q qs hq hqs => deleteAt_laws hP hst hrun hcf hsplit hq hqs⟩
  have hst' : ∀ h, some root = some h → StoredTree P s key h := fun h hh => by
    rwa [← Option.some.inj hh]
  exact putAt_laws hP hst' hclean hentry hrun hcf hsplit hq

/-- A tree with one leaf, as it is stored. -/
def demoTree : Except (Fault OmpError) Hash × Store :=
  (putAt demo none none "a/b".toList ⟨.blob, Hash.ofNat 1⟩).run Cas.empty

/-- The same tree after a second leaf was put next to the first. -/
def demoTree₂ : Except (Fault OmpError) Hash × Store :=
  (putAt demo none demoTree.1.toOption "a/d".toList ⟨.manifest, Hash.ofNat 2⟩).run demoTree.2

theorem merkle_map_laws_demo :
    ∃ root', demoTree₂ = (.ok root', demoTree₂.2) ∧
      getAt demo demoTree₂.2 none "/a/d/".toList root' =
        .ok (some ⟨.manifest, Hash.ofNat 2⟩) := by
  have hkey : (none : Option Key) ≠ none → demo.AeadLawful := fun h => absurd rfl h
  obtain ⟨root, hroot⟩ := Op.exists_of_isOk (r := demoTree) (by decide +kernel)
  obtain ⟨root', hroot'⟩ := Op.exists_of_isOk (r := demoTree₂) (by decide +kernel)
  have hab : split demo "a/b".toList = .ok ["a".toList, "b".toList] := by decide +kernel
  have hmissing : RootAt demo Cas.empty none True True none Leaves.empty := .missing
  have hL := hmissing.of_putAt hkey hab (by decide +kernel) (by decide) hroot (by decide +kernel)
  have hrun : (putAt demo none (some root) "a/d".toList ⟨.manifest, Hash.ofNat 2⟩).run
      demoTree.2 = (.ok root', demoTree₂.2) := by
    rw [← hroot', demoTree₂, hroot]
    rfl
  have had : split demo "a/d".toList = .ok ["a".toList, "d".toList] := by decide +kernel
  have hlaws := merkle_map_laws hkey hL.2.1.storedTree had (by decide +kernel)
  exact ⟨root', hroot', (hlaws.1 _ _ _ (by decide) hrun (by decide +kernel) _ _
    (by decide +kernel)).1 rfl⟩

/-- A stored tree with an empty directory `d` next to the file `x`. -/
def emptyDirTree : Except (Fault OmpError) Hash × Store :=
  (do
    let d ← storeTree demo none .new
    let h ← putAt demo none none "x".toList ⟨.blob, Hash.ofNat 1⟩
    putAt demo none (some h) "d".toList ⟨.tree, d⟩ : StoreOp Hash).run Cas.empty

/-- Its address. -/
def emptyDirRoot : Hash := emptyDirTree.1.toOption.getD (Hash.ofNat 0)

/-- The same tree after the file was deleted. -/
def emptyDirTree₂ : Except (Fault OmpError) (Option Hash) × Store :=
  (deleteAt demo none emptyDirRoot "x".toList).run emptyDirTree.2

/-- An empty directory that was there before a deletion is left, with no leaf under it. -/
theorem deleteAt_keeps_emptyDir :
    StoredTree demo emptyDirTree.2 none emptyDirRoot ∧
      ∃ root', (deleteAt demo none emptyDirRoot "x".toList).run emptyDirTree.2 =
          (.ok (some root'), emptyDirTree₂.2) ∧
        emptyDirTree₂.2.CollisionFree demo ∧
        ∃ d, getAt demo emptyDirTree₂.2 none "d".toList root' = .ok (some ⟨.tree, d⟩) ∧
          ∀ q l, ¬ LeafUnder demo emptyDirTree₂.2 none ⟨.tree, d⟩ q l := by
  have hle : emptyDirTree.2 ≤ emptyDirTree₂.2 := by
    rw [emptyDirTree₂]
    exact Op.grows _ _
  obtain ⟨t, ht, hentries⟩ : ∃ t, loadTree demo emptyDirTree.2 none emptyDirRoot = .ok t ∧
      t.entries.toList = [("d".toList, ⟨.tree, hashOf demo .tree []⟩),
        ("x".toList, ⟨.blob, Hash.ofNat 1⟩)] :=
    ⟨(loadTree demo emptyDirTree.2 none emptyDirRoot).toOption.getD .new,
      eq_ok_of_isOk (by decide +kernel), by decide +kernel⟩
  obtain ⟨u, hu, hempty⟩ : ∃ u, loadTree demo emptyDirTree.2 none (hashOf demo .tree []) = .ok u ∧
      u.entries.toList = [] :=
    ⟨(loadTree demo emptyDirTree.2 none (hashOf demo .tree [])).toOption.getD .new,
      eq_ok_of_isOk (by decide +kernel), by decide +kernel⟩
  have hnone : ∀ n, u.get n = none := fun n => by
    refine Option.eq_none_iff_forall_ne_some.2 fun e he => ?_
    rw [← Tree.mem_toList, hempty] at he
    cases he
  have hget : ∀ n e, t.get n = some e → n = "d".toList ∧ e = ⟨.tree, hashOf demo .tree []⟩ ∨
      n = "x".toList ∧ e = ⟨.blob, Hash.ofNat 1⟩ := fun n e he => by
    rw [← Tree.mem_toList, hentries] at he
    rcases List.mem_cons.1 he with h | h
    · exact .inl (Prod.mk.inj h)
    · exact .inr (Prod.mk.inj (List.mem_singleton.1 h))
  have hrun : emptyDirTree₂ =
      (.ok (some (emptyDirTree₂.1.toOption.join.getD (Hash.ofNat 0))), emptyDirTree₂.2) :=
    eq_mk_of_fst_eq (by decide +kernel)
  refine ⟨.mk ht (fun n e he => ?_) (fun n e he hm => ?_), _, hrun, by decide +kernel,
    hashOf demo .tree [], by decide +kernel, fun q l hl => ?_⟩
  · rcases hget n e he with ⟨rfl, -⟩ | ⟨rfl, -⟩
    all_goals decide +kernel
  · rcases hget n e he with ⟨rfl, rfl⟩ | ⟨rfl, rfl⟩
    · exact .mk hu (fun m f hf => by simp [hnone] at hf) fun m f hf => by simp [hnone] at hf
    · cases hm
  · cases hl with
    | leaf hm => exact hm rfl
    | dir _ hload hf _ =>
      rw [loadTree_mono hle hu, Except.ok.injEq] at hload
      rw [← hload, hnone] at hf
      cases hf

/-! ### History independence -/

/-- The leaves of a root, as they are read, determine its leaf map. -/
theorem RootAt.leaf_ext {s₁ s₂ : Store} {o₁ o₂ : Option Hash} {L₁ L₂ : Leaves Text Entry}
    (hr₁ : RootAt P s₁ key full canon o₁ L₁) (hr₂ : RootAt P s₂ key full canon o₂ L₂)
    (hsame : ∀ q e, e.mode ≠ .tree →
      (readAt P s₁ key o₁ q = .ok (some e) → readAt P s₂ key o₂ q = .ok (some e))) :
    ∀ qs e, L₁ qs = some e → L₂ qs = some e := by
  intro qs e hq
  cases o₁ with
  | none =>
    rw [show L₁ = Leaves.empty from hr₁] at hq
    cases hq
  | some root =>
    have hsplit := split_joinWith (P := P) (hr₁.1.validName (q := qs) (by simp [hq]))
    have hne : qs ≠ [] := by
      rintro rfl
      rw [hr₁.1.nil] at hq
      cases hq
    obtain ⟨r₁, hread₁, hreads₁⟩ := hr₁.exists_readAt hsplit hne
    obtain ⟨r₂, hread₂, hreads₂⟩ := hr₂.exists_readAt hsplit hne
    obtain ⟨rfl, hmode⟩ := hreads₁.leaf_iff.1 hq
    have := hsame _ e hmode hread₁
    rw [hread₂, Except.ok.injEq] at this
    exact hreads₂.leaf_iff.2 ⟨this, hmode⟩

/-- A tree that means a leaf map without empty directories has none. -/
theorem TreeAt.noEmptyDirs {h : Hash} {L : Leaves Text Entry}
    (ht : TreeAt P s key True canon h L) : NoEmptyDirs P s key h := by
  induction ht with
  | @node h t sub hload _ _ hsub hfull ih =>
    refine .mk hload (fun n e hn hm => ?_) fun n e hn hm => ih n e hn hm
    obtain ⟨u, sub', hu, -, -, hL⟩ := (hsub n e hn hm).exists_node
    refine ⟨u, hu, ?_⟩
    obtain ⟨q, hq⟩ := hfull trivial n e hn hm
    by_contra hempty
    rw [Bool.not_eq_false, Tree.isEmpty_iff] at hempty
    rw [hL] at hq
    cases q with
    | nil => exact hq rfl
    | cons m q =>
      change entryLeaves (u.get m) (sub' m) q ≠ none at hq
      rw [hempty] at hq
      exact hq rfl

/-- A write or a deletion. -/
inductive PathOp where
  /-- `put_at_with_key`. -/
  | put (path : Text) (entry : Entry)
  /-- `delete_at_with_key`. -/
  | delete (path : Text)

namespace PathOp

/-- An operation that writes no directory and whose path the codec keeps. -/
def Clean (key : Option Key) : PathOp → Prop
  | put path entry => entry.mode ≠ .tree ∧ (key = none → PathClean path)
  | delete path => key = none → PathClean path

/-- One operation on a root; there is nothing to delete where no root is. -/
def run (P : Platform) (key : Option Key) : Option Hash → PathOp → StoreOp (Option Hash)
  | o, put path entry => do
    let h ← putAt P key o path entry
    pure (some h)
  | none, delete _ => pure none
  | some root, delete path => deleteAt P key root path

/-- A sequence of operations, from the empty tree. -/
def runAll (P : Platform) (key : Option Key) (ops : List PathOp) : StoreOp (Option Hash) :=
  ops.foldlM (run P key) none

end PathOp

/-- One operation keeps a canonical tree without empty directories. -/
theorem RootAt.of_pathOp (hP : key ≠ none → P.AeadLawful) {op : PathOp} (hop : op.Clean key)
    {o o' : Option Hash} {L : Leaves Text Entry} (hroot : RootAt P s key True True o L)
    (hrun : (PathOp.run P key o op).run s = (.ok o', s')) (hcf : s'.CollisionFree P) :
    ∃ L', RootAt P s' key True True o' L' := by
  cases op with
  | put path entry =>
    obtain ⟨h, s₁, hput, hpure⟩ := Op.bind_eq_ok.1 hrun
    obtain ⟨rfl, rfl⟩ := Op.pure_eq_ok.1 hpure
    obtain ⟨parts, hsplit, -⟩ := split_of_putAt hput
    exact ⟨_, (RootAt.of_putAt hP hsplit (nameKept_of_pathClean hsplit hop.2) hop.1 hroot hput
      hcf).2⟩
  | delete path =>
    cases o with
    | none =>
      obtain ⟨rfl, rfl⟩ := Op.pure_eq_ok.1 hrun
      exact ⟨L, hroot⟩
    | some root =>
      obtain ⟨parts, hsplit, -⟩ := split_of_deleteAt hrun
      exact ⟨_, (RootAt.of_deleteAt hP hsplit hroot hrun hcf).1⟩

/-- Every tree built from nothing is canonical and has no empty directories. -/
theorem exists_rootAt_of_runAll (hP : key ≠ none → P.AeadLawful) {ops : List PathOp}
    (hops : ∀ op ∈ ops, op.Clean key) {o : Option Hash}
    (hrun : (PathOp.runAll P key ops).run s = (.ok o, s')) (hcf : s'.CollisionFree P) :
    ∃ L, RootAt P s' key True True o L := by
  -- the invariant of the fold: the operations left are clean, and the root means something
  let I : List PathOp → Option Hash → Store → Prop := fun ops o s =>
    (∀ op ∈ ops, op.Clean key) ∧ ∃ L, RootAt P s key True True o L
  have hstep : ∀ op ops o s o' s', I (op :: ops) o s →
      (PathOp.run P key o op).run s = (.ok o', s') → s'.CollisionFree P → I ops o' s' := by
    rintro op ops o s o' s' ⟨hclean, L, hL⟩ hrun hcf
    obtain ⟨hop, hrest⟩ := List.forall_mem_cons.1 hclean
    exact ⟨hrest, hL.of_pathOp hP hop hrun hcf⟩
  have h₀ : I ops none s := ⟨hops, Leaves.empty, rfl⟩
  exact (Op.foldlM_induction (fun _ _ hle h => h.down hle) hstep h₀ hrun hcf).2

/-- **History independence.**  The root two sequences of operations end in is the same as soon
as the same leaves are read below it, and it is missing when there are none.  No directory in
it is empty, and a write to a fresh place is undone by deleting it. -/
theorem history_independent (hP : key ≠ none → P.AeadLawful) {ops : List PathOp}
    (hops : ∀ op ∈ ops, op.Clean key) {o : Option Hash}
    (hrun : (PathOp.runAll P key ops).run s = (.ok o, s')) (hcf : s'.CollisionFree P) :
    (∀ ops₂ s₂ o₂ s₂', (∀ op ∈ ops₂, op.Clean key) →
      (PathOp.runAll P key ops₂).run s₂ = (.ok o₂, s₂') → s₂'.CollisionFree P →
      (∀ q e, e.mode ≠ .tree →
        (readAt P s' key o q = .ok (some e) ↔ readAt P s₂' key o₂ q = .ok (some e))) →
      o = o₂) ∧
    ((∀ q e, e.mode ≠ .tree → readAt P s' key o q ≠ .ok (some e)) → o = none) ∧
    (∀ root, o = some root → NoEmptyDirs P s' key root ∧
      ∃ t, loadTree P s' key root = .ok t ∧ t.isEmpty = false) ∧
    (∀ path entry root o₂ s₁ s₂ parts, entry.mode ≠ .tree → (key = none → PathClean path) →
      split P path = .ok parts →
      (∀ q qs e, split P q = .ok qs → parts <+: qs → e.mode ≠ .tree →
        readAt P s' key o q ≠ .ok (some e)) →
      (putAt P key o path entry).run s' = (.ok root, s₁) →
      (deleteAt P key root path).run s₁ = (.ok o₂, s₂) → s₂.CollisionFree P → o₂ = o) := by
  obtain ⟨L, hL⟩ := exists_rootAt_of_runAll hP hops hrun hcf
  refine ⟨fun ops₂ s₂ o₂ s₂' hops₂ hrun₂ hcf₂ hsame => ?_, fun hnone => ?_, ?_, ?_⟩
  · obtain ⟨L₂, hL₂⟩ := exists_rootAt_of_runAll hP hops₂ hrun₂ hcf₂
    have hLL : L = L₂ := by
      funext qs
      have h₁ := hL.leaf_ext hL₂ (fun q e he => (hsame q e he).1) qs
      have h₂ := hL₂.leaf_ext hL (fun q e he => (hsame q e he).2) qs
      exact Option.ext fun e => ⟨h₁ e, h₂ e⟩
    exact hL.unique trivial trivial (hLL ▸ hL₂)
  · have hempty : RootAt P s' key True True none Leaves.empty := rfl
    have hLL : L = Leaves.empty := by
      funext qs
      refine Option.eq_none_iff_forall_ne_some.2 fun e he => ?_
      have := hL.leaf_ext hempty (fun q e he hread => absurd hread (hnone q e he)) qs e he
      cases this
    exact hL.unique trivial trivial (hLL ▸ hempty)
  · rintro root rfl
    refine ⟨hL.1.noEmptyDirs, ?_⟩
    obtain ⟨t, sub, hload, -, -, rfl⟩ := hL.1.exists_node
    refine ⟨t, hload, Bool.eq_false_iff.2 fun hempty => ?_⟩
    obtain ⟨q, hq⟩ := hL.2 trivial
    cases q with
    | nil => exact hq rfl
    | cons m q =>
      change entryLeaves (t.get m) (sub m) q ≠ none at hq
      rw [Tree.isEmpty_iff.1 hempty] at hq
      exact hq rfl
  · intro path entry root o₂ s₁ s₂ parts hentry hclean hsplit hfresh hput hdel hcf₂
    have hkept := nameKept_of_pathClean hsplit hclean
    have hcf₁ := hcf₂.down (Op.le_of_run hdel)
    obtain ⟨-, hL₁⟩ := hL.of_putAt hP hsplit hkept hentry hput hcf₁
    obtain ⟨hL₂, -⟩ := RootAt.of_deleteAt hP hsplit hL₁ hdel hcf₂
    have hbelow : ∀ q, parts <+: q → L q = none := by
      intro q hpre
      refine Option.eq_none_iff_forall_ne_some.2 fun e he => ?_
      cases o with
      | none =>
        rw [show L = Leaves.empty from hL] at he
        cases he
      | some h =>
        have hq := split_joinWith (P := P) (hL.1.validName (q := q) (by simp [he]))
        obtain ⟨parts', hsplit', hne⟩ := split_of_putAt hput
        obtain rfl : parts = parts' := by
          rw [hsplit, Except.ok.injEq] at hsplit'
          exact hsplit'
        have hqne : q ≠ [] := fun hnil => hne (List.prefix_nil.1 (hnil ▸ hpre))
        obtain ⟨r, hread, hreads⟩ := hL.exists_readAt hq hqne
        obtain ⟨rfl, hmode⟩ := hreads.leaf_iff.1 he
        exact hfresh _ q e hq hpre hmode hread
    rw [Leaves.del_put entry hbelow] at hL₂
    exact hL₂.unique trivial trivial hL

/-- Two writes, and the deletion of one of them. -/
def demoOps : List PathOp :=
  [.put "a/b".toList ⟨.blob, Hash.ofNat 1⟩, .put "c".toList ⟨.blob, Hash.ofNat 2⟩,
    .delete "c".toList]

/-- What they lead to. -/
def demoBuilt : Except (Fault OmpError) (Option Hash) × Store :=
  (PathOp.runAll demo none demoOps).run Cas.empty

theorem history_independent_demo :
    ∃ root, demoBuilt = (.ok (some root), demoBuilt.2) ∧
      NoEmptyDirs demo demoBuilt.2 none root := by
  have hrun : demoBuilt =
      (.ok (some (demoBuilt.1.toOption.join.getD (Hash.ofNat 0))), demoBuilt.2) :=
    eq_mk_of_fst_eq (by decide +kernel)
  have hops : ∀ op ∈ demoOps, op.Clean none := by
    simp only [demoOps, List.forall_mem_cons]
    exact ⟨⟨by decide, fun _ => by decide +kernel⟩, ⟨by decide, fun _ => by decide +kernel⟩,
      fun _ => by decide +kernel, nofun⟩
  have hind := history_independent (fun h => absurd rfl h) hops hrun (by decide +kernel)
  exact ⟨_, hrun, (hind.2.2.1 _ rfl).1⟩

end Omp
