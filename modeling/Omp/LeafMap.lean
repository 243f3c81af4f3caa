import Omp.Lib.PathMap
import Omp.Paths

/-!
# What a stored tree means

A stored tree means the map from paths to its leaves, the entries that are not trees.  This
module defines that meaning for a root address in a store and shows that the path operations
are the operations on leaf maps: reading looks a path up, writing is `Leaves.put` and deleting
is `Leaves.del`.  Stores only grow, so a meaning is kept by everything that happens later.

Two flags refine the relation.  `full` says that no directory below the root is without
leaves, which every operation keeps; `canon` says that every tree object on the way is the one
its in-memory tree is serialized to, which makes the root address a function of the leaf map.

## Main definitions

* `TreeAt`, `RootAt` : a root address, or a missing root, means a leaf map.

## Main results

* `putInner_spec`, `deleteInner_spec` : writing and deleting carry out the edits on leaf maps,
  and say when they fail.
* `getParts_spec` : reading looks a path up.
-/

namespace Omp

open Lib

variable {P : Platform} {s s' : Store} {key : Option Key} {full canon : Prop}

/-! ### Loading -/

theorem loadTree_mono (hle : s ≤ s') {h : Hash} {t : Tree} (hl : loadTree P s key h = .ok t) :
    loadTree P s' key h = .ok t := by
  unfold loadTree at hl ⊢
  cases hg : s.get P h with
  | none => simp [hg] at hl
  | some o => rw [hg] at hl; rwa [Store.get_mono hle hg]

theorem getParts_mono (hle : s ≤ s') {t : Tree} {parts : List Text} {r : Option Entry}
    (hg : getParts P s key t parts = .ok r) : getParts P s' key t parts = .ok r := by
  induction parts generalizing t with
  | nil => exact hg
  | cons part rest ih =>
    cases rest with
    | nil => exact hg
    | cons next rest =>
      cases hn : t.get part with
      | none => simpa [getParts, hn] using hg
      | some e =>
        by_cases hm : e.mode = .tree
        · cases hl : loadTree P s key e.hash with
          | error err => simp [getParts, hn, hm, hl, bind, Except.bind] at hg
          | ok c =>
            simp only [getParts, hn, hm, hl, if_true, bind, Except.bind] at hg
            simp only [getParts, hn, hm, loadTree_mono hle hl, if_true, bind, Except.bind]
            exact ih hg
        · simpa [getParts, hn, hm] using hg

/-- The address of the tree object a tree is serialized to. -/
def treeHash (P : Platform) (key : Option Key) (t : Tree) : Hash :=
  hashOf P .tree (t.serializeWithPathKey P key)

variable (P key) in
theorem run_storeTree (t : Tree) (s : Store) :
    (storeTree P key t).run s =
      (.ok (treeHash P key t), ⟨s.objects ++ [⟨.tree, t.serializeWithPathKey P key⟩]⟩) := rfl

/-- A stored tree is loaded back. -/
theorem loadTree_of_storeTree (hP : key ≠ none → P.AeadLawful) {t : Tree} {h : Hash}
    (hkept : ∀ n e, t.get n = some e → Tree.NameKept key n)
    (hrun : (storeTree P key t).run s = (.ok h, s')) (hcf : s'.CollisionFree P) :
    loadTree P s' key h = .ok t := by
  rw [loadTree, Store.get_of_put hrun le_rfl hcf]
  exact Tree.parse_serialize hP hkept

/-! ### Leaf maps -/

/-- The leaves an entry stands for, when `L` are those of the subtree it may point at. -/
def entryLeaves (e : Option Entry) (L : Leaves Text Entry) : Leaves Text Entry :=
  match e with
  | none => Leaves.empty
  | some e => if e.mode = .tree then L else Leaves.empty.put [] e

/-- The leaf map of a tree, given those of its subtrees by name. -/
def leavesOf (t : Tree) (sub : Text → Leaves Text Entry) : Leaves Text Entry
  | [] => none
  | n :: q => entryLeaves (t.get n) (sub n) q

@[simp] theorem leavesOf_nil (t : Tree) (sub : Text → Leaves Text Entry) :
    leavesOf t sub [] = none := rfl

@[simp] theorem child_leavesOf (t : Tree) (sub : Text → Leaves Text Entry) (n : Text) :
    (leavesOf t sub).child n = entryLeaves (t.get n) (sub n) := rfl

variable (P s key full canon) in
/-- The tree at an address has the leaf map `L`, all names in it are kept by the codec, and
the flags hold. -/
inductive TreeAt : Hash → Leaves Text Entry → Prop
  | node {h : Hash} {t : Tree} (sub : Text → Leaves Text Entry)
      (hload : loadTree P s key h = .ok t)
      (hcanon : canon → h = treeHash P key t)
      (hkept : ∀ n e, t.get n = some e → Tree.NameKept key n)
      (hsub : ∀ n e, t.get n = some e → e.mode = .tree → TreeAt e.hash (sub n))
      (hfull : full → ∀ n e, t.get n = some e → e.mode = .tree → ∃ q, sub n q ≠ none) :
      TreeAt h (leavesOf t sub)

variable (P s key full canon) in
/-- A root, which is missing when there are no leaves, has the leaf map `L`. -/
def RootAt : Option Hash → Leaves Text Entry → Prop
  | none, L => L = Leaves.empty
  | some h, L => TreeAt P s key full canon h L ∧ (full → ∃ q, L q ≠ none)

variable (P s key full canon) in
/-- A tree in memory whose subtrees are stored with the leaf maps `sub`. -/
def NodeAt (t : Tree) (sub : Text → Leaves Text Entry) : Prop :=
  ∀ n e, t.get n = some e → Tree.NameKept key n ∧
    (e.mode = .tree → RootAt P s key full canon (some e.hash) (sub n))

theorem TreeAt.of_node {h : Hash} {t : Tree} {sub : Text → Leaves Text Entry}
    (hload : loadTree P s key h = .ok t) (hcanon : canon → h = treeHash P key t)
    (hnode : NodeAt P s key full canon t sub) :
    TreeAt P s key full canon h (leavesOf t sub) :=
  .node sub hload hcanon (fun n e hn => (hnode n e hn).1)
    (fun n e hn hm => ((hnode n e hn).2 hm).1) fun hf n e hn hm => ((hnode n e hn).2 hm).2 hf

theorem TreeAt.exists_node {h : Hash} {L : Leaves Text Entry}
    (ht : TreeAt P s key full canon h L) :
    ∃ t sub, loadTree P s key h = .ok t ∧ (canon → h = treeHash P key t) ∧
      NodeAt P s key full canon t sub ∧ L = leavesOf t sub := by
  cases ht with
  | @node _ t sub hload hcanon hkept hsub hfull =>
    exact ⟨t, sub, hload, hcanon, fun n e hn => ⟨hkept n e hn, fun hm =>
      ⟨hsub n e hn hm, fun hf => hfull hf n e hn hm⟩⟩, rfl⟩

theorem TreeAt.nil {h : Hash} {L : Leaves Text Entry} (ht : TreeAt P s key full canon h L) :
    L [] = none := by
  obtain ⟨t, sub, -, -, -, rfl⟩ := ht.exists_node
  rfl

theorem TreeAt.mono (hle : s ≤ s') {h : Hash} {L : Leaves Text Entry}
    (ht : TreeAt P s key full canon h L) : TreeAt P s' key full canon h L := by
  induction ht with
  | node sub hload hcanon hkept _ hfull ih =>
    exact .node sub (loadTree_mono hle hload) hcanon hkept ih hfull

theorem RootAt.mono (hle : s ≤ s') {o : Option Hash} {L : Leaves Text Entry}
    (hr : RootAt P s key full canon o L) : RootAt P s' key full canon o L := by
  cases o with
  | none => exact hr
  | some h => exact ⟨hr.1.mono hle, hr.2⟩

theorem NodeAt.mono (hle : s ≤ s') {t : Tree} {sub : Text → Leaves Text Entry}
    (hn : NodeAt P s key full canon t sub) : NodeAt P s' key full canon t sub :=
  fun n e he => ⟨(hn n e he).1, fun hm => ((hn n e he).2 hm).mono hle⟩

theorem RootAt.missing : RootAt P s key full canon none Leaves.empty := rfl

theorem RootAt.nil {o : Option Hash} {L : Leaves Text Entry}
    (hr : RootAt P s key full canon o L) : L [] = none := by
  cases o with
  | none => rw [show L = Leaves.empty from hr]; rfl
  | some h => exact hr.1.nil

/-- Leaves are never directories. -/
theorem TreeAt.mode_ne {h : Hash} {L : Leaves Text Entry} (ht : TreeAt P s key full canon h L)
    {q : List Text} {e : Entry} (hq : L q = some e) : e.mode ≠ .tree := by
  induction ht generalizing q with
  | @node _ t sub _ _ _ _ _ ih =>
    cases q with
    | nil => cases hq
    | cons n q =>
      change entryLeaves (t.get n) (sub n) q = some e at hq
      cases hn : t.get n with
      | none => simp [hn, entryLeaves, Leaves.empty] at hq
      | some f =>
        by_cases hm : f.mode = .tree
        · simp only [hn, entryLeaves, hm, if_true] at hq
          exact ih n f hn hm hq
        · simp only [hn, entryLeaves, hm, if_false] at hq
          by_cases hq' : q = []
          · subst hq'
            rw [Leaves.put_self, Option.some.injEq] at hq
            rwa [← hq]
          · rw [Leaves.put_below _ _ q.nil_prefix hq'] at hq
            cases hq

/-- No leaf stands below another. -/
theorem TreeAt.prefixFree {h : Hash} {L : Leaves Text Entry}
    (ht : TreeAt P s key full canon h L) : L.PrefixFree := by
  induction ht with
  | @node _ t sub _ _ _ _ _ ih =>
    intro p q hpq hp hq
    cases p with
    | nil => exact absurd rfl hp
    | cons n p =>
      cases q with
      | nil => simp at hpq
      | cons m q =>
        obtain ⟨rfl, hpre⟩ := List.cons_prefix_cons.1 hpq
        change entryLeaves (t.get n) (sub n) p ≠ none at hp
        change entryLeaves (t.get n) (sub n) q ≠ none at hq
        cases hn : t.get n with
        | none => simp [hn, entryLeaves, Leaves.empty] at hp
        | some f =>
          by_cases hm : f.mode = .tree
          · simp only [hn, entryLeaves, hm, if_true] at hp hq
            rw [ih n f hn hm p q hpre hp hq]
          · simp only [hn, entryLeaves, hm, if_false] at hp hq
            have hnil : ∀ r, (Leaves.empty.put [] f : Leaves Text Entry) r ≠ none → r = [] :=
              fun r hr => by
                by_contra hne
                exact hr (Leaves.put_below _ f r.nil_prefix hne)
            rw [hnil p hp, hnil q hq]

/-! ### Rebuilding a tree -/

/-- The tree of a root, and the leaf maps of its subtrees. -/
theorem RootAt.run_loadOrNew {o : Option Hash} {L : Leaves Text Entry}
    (hr : RootAt P s key full canon o L) :
    ∃ t sub, (loadOrNew P key o).run s = (.ok t, s) ∧ NodeAt P s key full canon t sub ∧
      L = leavesOf t sub := by
  cases o with
  | none =>
    refine ⟨.new, fun _ => Leaves.empty, rfl, fun n e hn => by simp at hn, ?_⟩
    rw [show L = Leaves.empty from hr]
    refine Leaves.ext_child rfl fun n => ?_
    rw [child_leavesOf, Tree.get_new]
    rfl
  | some h =>
    obtain ⟨t, sub, hload, -, hnode, hL⟩ := hr.1.exists_node
    exact ⟨t, sub, by simp [loadOrNew, hload, Except.mapError], hnode, hL⟩

/-- A tree that was just stored. -/
theorem TreeAt.of_storeTree (hP : key ≠ none → P.AeadLawful) {t : Tree}
    {sub : Text → Leaves Text Entry} {h : Hash}
    (hrun : (storeTree P key t).run s = (.ok h, s')) (hcf : s'.CollisionFree P)
    (hnode : NodeAt P s key full canon t sub) :
    TreeAt P s' key full canon h (leavesOf t sub) := by
  have hh : h = treeHash P key t := by
    rw [run_storeTree, Prod.mk.injEq, Except.ok.injEq] at hrun
    exact hrun.1.symm
  refine .of_node (loadTree_of_storeTree hP (fun n e hn => (hnode n e hn).1) hrun hcf)
    (fun _ => hh) (hnode.mono (Op.le_of_run hrun))

/-- A tree with an entry has a leaf, when no subtree is without leaves. -/
theorem NodeAt.exists_leaf {t : Tree} {sub : Text → Leaves Text Entry}
    (hnode : NodeAt P s key full canon t sub) (hfull : full) (ht : t.isEmpty = false) :
    ∃ q, leavesOf t sub q ≠ none := by
  obtain ⟨n, e, hn⟩ := Tree.exists_get_of_not_isEmpty ht
  by_cases hm : e.mode = .tree
  · obtain ⟨q, hq⟩ := ((hnode n e hn).2 hm).2 hfull
    refine ⟨n :: q, ?_⟩
    change entryLeaves (t.get n) (sub n) q ≠ none
    simpa only [hn, entryLeaves, hm, if_true] using hq
  · refine ⟨[n], ?_⟩
    change entryLeaves (t.get n) (sub n) [] ≠ none
    simp [hn, entryLeaves, hm]

/-- A node one of whose entries was replaced. -/
theorem NodeAt.insert {t u : Tree} {sub : Text → Leaves Text Entry} {n : Text} {e : Entry}
    {L : Leaves Text Entry} (hnode : NodeAt P s key full canon t sub)
    (hins : t.insert P n e = .ok u) (hkept : Tree.NameKept key n)
    (hL : e.mode = .tree → RootAt P s key full canon (some e.hash) L) :
    NodeAt P s key full canon u (Function.update sub n L) := by
  obtain ⟨-, hget⟩ := Tree.insert_eq_ok hins
  intro m f hm
  rw [hget] at hm
  by_cases hnm : n = m
  · subst hnm
    obtain rfl : e = f := by simpa using hm
    exact ⟨hkept, fun hmode => by rw [Function.update_self]; exact hL hmode⟩
  · rw [if_neg hnm] at hm
    rw [Function.update_of_ne (Ne.symm hnm)]
    exact hnode m f hm

/-- A node one of whose entries was removed. -/
theorem NodeAt.remove {t : Tree} {sub : Text → Leaves Text Entry}
    (hnode : NodeAt P s key full canon t sub) (n : Text) :
    NodeAt P s key full canon (t.remove n) sub := by
  intro m f hm
  rw [Tree.get_remove] at hm
  split_ifs at hm
  exact hnode m f hm

/-- The leaf map after an entry is replaced by a leaf, or by a subtree with the leaves `L`. -/
theorem leavesOf_insert {t u : Tree} {n : Text} {e : Entry} (hins : t.insert P n e = .ok u)
    (sub : Text → Leaves Text Entry) (L : Leaves Text Entry) :
    (leavesOf u (Function.update sub n L)).child n = entryLeaves (some e) L ∧
      ∀ m, m ≠ n → (leavesOf u (Function.update sub n L)).child m =
        (leavesOf t sub).child m := by
  obtain ⟨-, hget⟩ := Tree.insert_eq_ok hins
  refine ⟨by simp [hget], fun m hm => ?_⟩
  rw [child_leavesOf, child_leavesOf, hget, if_neg (Ne.symm hm), Function.update_of_ne hm]

theorem leavesOf_remove (t : Tree) (sub : Text → Leaves Text Entry) (n : Text) :
    (leavesOf (t.remove n) sub).child n = Leaves.empty ∧
      ∀ m, m ≠ n → (leavesOf (t.remove n) sub).child m = (leavesOf t sub).child m := by
  refine ⟨by simp [Tree.get_remove, entryLeaves], fun m hm => ?_⟩
  rw [child_leavesOf, child_leavesOf, Tree.get_remove, if_neg (Ne.symm hm)]

/-! ### Writing -/

theorem leavesOf_put {t u : Tree} (sub : Text → Leaves Text Entry) {n : Text} {e : Entry}
    {L : Leaves Text Entry} (parts : List Text) (entry : Entry)
    (hins : t.insert P n e = .ok u)
    (hL : entryLeaves (some e) L = ((leavesOf t sub).child n).put parts entry) :
    leavesOf u (Function.update sub n L) = (leavesOf t sub).put (n :: parts) entry := by
  obtain ⟨hn, hne⟩ := leavesOf_insert hins sub L
  refine Leaves.ext_child (by rw [Leaves.put_cons_nil]; rfl) fun m => ?_
  by_cases hm : m = n
  · subst hm
    rw [hn, Leaves.child_put_self, hL]
  · rw [hne m hm, Leaves.child_put_ne _ hm]

/-- The leaves below a name through which a write goes on. -/
theorem NodeAt.child_root {t : Tree} {sub : Text → Leaves Text Entry}
    (hnode : NodeAt P s key full canon t sub) {n : Text}
    (hdir : ∀ e, t.get n = some e → e.mode = .tree) :
    RootAt P s key full canon ((t.get n).map Entry.hash) ((leavesOf t sub).child n) := by
  rw [child_leavesOf]
  cases hn : t.get n with
  | none => rfl
  | some e =>
    simp only [Option.map_some, entryLeaves, hdir e hn, if_true]
    exact (hnode n e hn).2 (hdir e hn)

/-- **Writing carries out the edit.**  It fails exactly when some name of the path is not valid
or when a leaf stands strictly above the path. -/
theorem putInner_spec (hP : key ≠ none → P.AeadLawful) {entry : Entry}
    (hentry : entry.mode ≠ .tree) {parts : List Text} (hne : parts ≠ [])
    (hkept : ∀ n ∈ parts, Tree.NameKept key n) {o : Option Hash} {L : Leaves Text Entry}
    {r : Except (Fault OmpError) Hash} (hroot : RootAt P s key full canon o L)
    (hrun : (putInner P key entry parts o).run s = (r, s')) (hcf : s'.CollisionFree P) :
    ((∀ n ∈ parts, ValidName n) ∧ ¬ L.Blocked parts ∧
      ∃ h, r = .ok h ∧ RootAt P s' key full canon (some h) (L.put parts entry)) ∨
    ((¬ ∀ n ∈ parts, ValidName n) ∨ L.Blocked parts) ∧ ∃ e, r = .error (.err e) := by
  induction parts generalizing s s' o L r with
  | nil => exact absurd rfl hne
  | cons head rest ih =>
    obtain ⟨t, sub, hload, hnode, rfl⟩ := hroot.run_loadOrNew
    cases rest with
    | nil =>
      rw [putInner, Op.run_bind_of_ok hload] at hrun
      by_cases hv : ValidName head
      · obtain ⟨u, hins, -⟩ := Tree.insert_of_valid (P := P) hv t entry
        rw [hins, Op.run_bind_of_ok rfl] at hrun
        have hr := run_storeTree P key u s
        rw [hr, Prod.mk.injEq] at hrun
        obtain ⟨rfl, rfl⟩ := hrun
        refine .inl ⟨by simpa using hv, ?_, _, rfl, ?_, fun _ => ⟨[head], by simp⟩⟩
        · rw [Leaves.blocked_cons rfl]
          exact Leaves.not_blocked_nil _
        · have hput := leavesOf_put sub (L := Leaves.empty) [] entry hins
            (by
              funext q
              simp only [entryLeaves, hentry, if_false]
              cases q <;> simp [Leaves.put])
          rw [← hput]
          exact .of_storeTree hP hr hcf
            (hnode.insert hins (hkept head (by simp)) fun hm => absurd hm hentry)
      · rw [Tree.insert_of_not_valid hv] at hrun
        obtain ⟨rfl, -⟩ := Prod.mk.inj hrun
        exact .inr ⟨.inl fun hall => hv (hall head (by simp)), _, rfl⟩
    | cons next rest =>
      have hkept' : ∀ n ∈ next :: rest, Tree.NameKept key n :=
        fun n hn => hkept n (List.mem_cons_of_mem _ hn)
      rw [putInner, Op.run_bind_of_ok hload] at hrun
      by_cases hdir : ∀ e, t.get head = some e → e.mode = .tree
      · have hchild : childDir P head (t.get head) = .ok ((t.get head).map Entry.hash) := by
          cases hn : t.get head with
          | none => rfl
          | some e => exact if_pos (hdir e hn)
        rw [hchild, Op.run_bind_of_ok rfl] at hrun
        have hsub := hnode.child_root hdir
        rw [List.forall_mem_cons, Leaves.blocked_cons rfl]
        cases hc : (putInner P key entry (next :: rest) ((t.get head).map Entry.hash)).run s with
        | mk rc s₁ =>
        have hle : s ≤ s₁ := Op.le_of_run hc
        have hcf₁ : s₁.CollisionFree P := by
          refine hcf.down ?_
          cases rc with
          | error e => rw [Op.run_bind_of_error hc] at hrun; cases hrun; exact le_rfl
          | ok c => rw [Op.run_bind_of_ok hc] at hrun; exact Op.le_of_run hrun
        rcases ih (by simp) hkept' hsub hc hcf₁ with
          ⟨hvs, hb, h', rfl, hput⟩ | ⟨hfail, e, rfl⟩
        · rw [Op.run_bind_of_ok hc] at hrun
          by_cases hv : ValidName head
          · obtain ⟨u, hins, -⟩ := Tree.insert_of_valid (P := P) hv t ⟨.tree, h'⟩
            rw [hins, Op.run_bind_of_ok rfl] at hrun
            have hr := run_storeTree P key u s₁
            rw [hr, Prod.mk.injEq] at hrun
            obtain ⟨rfl, rfl⟩ := hrun
            have hLput := leavesOf_put sub (next :: rest) entry
              (L := ((leavesOf t sub).child head).put (next :: rest) entry) hins rfl
            refine .inl ⟨⟨hv, hvs⟩, hb, _, rfl, ?_, fun _ => ⟨head :: next :: rest, by simp⟩⟩
            rw [← hLput]
            exact .of_storeTree hP hr hcf
              ((hnode.mono hle).insert hins (hkept head (by simp)) fun _ => hput)
          · rw [Tree.insert_of_not_valid hv] at hrun
            obtain ⟨rfl, -⟩ := Prod.mk.inj hrun
            exact .inr ⟨.inl fun hall => hv hall.1, _, rfl⟩
        · rw [Op.run_bind_of_error hc] at hrun
          obtain ⟨rfl, -⟩ := Prod.mk.inj hrun
          exact .inr ⟨hfail.imp_left fun hv hall => hv hall.2, _, rfl⟩
      · push Not at hdir
        obtain ⟨e, hn, hm⟩ := hdir
        rw [hn, childDir, if_neg hm] at hrun
        obtain ⟨rfl, -⟩ := Prod.mk.inj hrun
        refine .inr ⟨.inr ⟨[head], by simp, by simp, ?_⟩, _, rfl⟩
        change entryLeaves (t.get head) (sub head) [] ≠ none
        simp [hn, entryLeaves, hm]

/-! ### Deleting -/

theorem RootAt.of_storeUnlessEmpty (hP : key ≠ none → P.AeadLawful) {t : Tree}
    {sub : Text → Leaves Text Entry} {r : Except (Fault OmpError) (Option Hash)}
    (hrun : (storeUnlessEmpty P key t).run s = (r, s')) (hcf : s'.CollisionFree P)
    (hnode : NodeAt P s key full canon t sub) :
    ∃ o, r = .ok o ∧ RootAt P s' key full canon o (leavesOf t sub) ∧
      ∀ h, o = some h → loadTree P s' key h = .ok t := by
  unfold storeUnlessEmpty at hrun
  split_ifs at hrun with he
  · obtain ⟨rfl, rfl⟩ := Prod.mk.inj hrun
    refine ⟨none, rfl, Leaves.ext_child rfl fun n => ?_, nofun⟩
    rw [child_leavesOf, Tree.isEmpty_iff.1 he n]
    rfl
  · have hr := run_storeTree P key t s
    rw [Op.run_bind_of_ok hr] at hrun
    obtain ⟨rfl, rfl⟩ := Prod.mk.inj hrun
    refine ⟨_, rfl, ⟨.of_storeTree hP hr hcf hnode,
      fun hf => hnode.exists_leaf hf (Bool.eq_false_iff.2 he)⟩, fun h hh => ?_⟩
    rw [← Option.some.inj hh]
    exact loadTree_of_storeTree hP (fun n e hn => (hnode n e hn).1) hr hcf

/-- Nothing is read at a path below a root. -/
def Absent (P : Platform) (s : Store) (key : Option Key) (o : Option Hash) (q : List Text) :
    Prop :=
  ∀ h t, o = some h → loadTree P s key h = .ok t → getParts P s key t q = .ok none

theorem Absent.of_get {o : Option Hash} {t : Tree} {n : Text}
    (hload : ∀ h, o = some h → loadTree P s key h = .ok t)
    (hget : ∀ e, t.get n = some e → e.mode ≠ .tree) {q : List Text} (hq : q = [] → t.get n = none) :
    Absent P s key o (n :: q) := by
  intro h t' ho hl
  rw [hload h ho, Except.ok.injEq] at hl
  subst hl
  cases q with
  | nil => simp [getParts, hq rfl]
  | cons m q =>
    cases hn : t.get n with
    | none => simp [getParts, hn]
    | some e => simp [getParts, hn, hget e hn]

theorem leavesOf_del_of {t u : Tree} {sub sub' : Text → Leaves Text Entry} {n : Text}
    (parts : List Text)
    (hn : (leavesOf u sub').child n = ((leavesOf t sub).child n).del parts)
    (hne : ∀ m, m ≠ n → (leavesOf u sub').child m = (leavesOf t sub).child m) :
    leavesOf u sub' = (leavesOf t sub).del (n :: parts) := by
  refine Leaves.ext_child (by rw [Leaves.del_cons_nil]; rfl) fun m => ?_
  by_cases hm : m = n
  · subst hm
    rw [hn, Leaves.child_del_self]
  · rw [hne m hm, Leaves.child_del_ne _ hm]

/-- Deleting below a name that is missing or a leaf changes nothing. -/
theorem leavesOf_del_eq_self {t : Tree} {sub : Text → Leaves Text Entry} {n : Text}
    {parts : List Text} (hparts : parts ≠ [])
    (hdir : ∀ e, t.get n = some e → e.mode ≠ .tree) :
    (leavesOf t sub).del (n :: parts) = leavesOf t sub := by
  refine Leaves.del_eq_self fun q hq => ?_
  cases q with
  | nil => rfl
  | cons m q =>
    obtain ⟨rfl, hpre⟩ := List.cons_prefix_cons.1 hq
    change entryLeaves (t.get n) (sub n) q = none
    cases hn : t.get n with
    | none => rfl
    | some e =>
      simp only [entryLeaves, hdir e hn, if_false]
      refine Leaves.put_below _ e q.nil_prefix ?_
      rintro rfl
      exact hparts (List.prefix_nil.1 hpre)

/-- **Deleting carries out the edit**, never fails, and leaves nothing to read at or below the
path. -/
theorem deleteInner_spec (hP : key ≠ none → P.AeadLawful) {parts : List Text} (hne : parts ≠ [])
    {h : Hash} {L : Leaves Text Entry} {r : Except (Fault OmpError) (Option Hash)}
    (hroot : RootAt P s key full canon (some h) L)
    (hrun : (deleteInner P key parts h).run s = (r, s')) (hcf : s'.CollisionFree P) :
    ∃ o, r = .ok o ∧ RootAt P s' key full canon o (L.del parts) ∧
      ∀ q, Absent P s' key o (parts ++ q) := by
  induction parts generalizing s s' h L r with
  | nil => exact absurd rfl hne
  | cons head rest ih =>
    obtain ⟨t, sub, hload, -, hnode, rfl⟩ := hroot.1.exists_node
    have hread : (Op.reads fun s => loadTree P s key h : StoreOp Tree).run s = (.ok t, s) := by
      simp [hload, Except.mapError]
    have hgone : ∀ {o}, (∀ h, o = some h → loadTree P s' key h = .ok (t.remove head)) →
        ∀ q, Absent P s' key o (head :: q) := fun hl q => by
      have hnone : (t.remove head).get head = none := by simp [Tree.get_remove]
      exact .of_get hl (fun e he => by rw [hnone] at he; cases he) fun _ => hnone
    cases rest with
    | nil =>
      rw [deleteInner, Op.run_bind_of_ok hread] at hrun
      obtain ⟨o, rfl, hr, hl⟩ := RootAt.of_storeUnlessEmpty hP hrun hcf (hnode.remove head)
      obtain ⟨hn, hother⟩ := leavesOf_remove t sub head
      refine ⟨o, rfl, ?_, hgone hl⟩
      rwa [← leavesOf_del_of [] (by rw [hn, Leaves.del_nil]) hother]
    | cons next rest =>
      rw [deleteInner, Op.run_bind_of_ok hread] at hrun
      by_cases hdir : ∃ e, t.get head = some e ∧ e.mode = .tree
      · obtain ⟨e, hn, hm⟩ := hdir
        rw [hn] at hrun
        simp only [hm, if_true] at hrun
        have hchild : (leavesOf t sub).child head = sub head := by
          simp [hn, entryLeaves, hm]
        cases hc : (deleteInner P key (next :: rest) e.hash).run s with
        | mk rc s₁ =>
        have hle : s ≤ s₁ := Op.le_of_run hc
        have hle' : s₁ ≤ s' := by
          cases rc with
          | error e => rw [Op.run_bind_of_error hc] at hrun; cases hrun; exact le_rfl
          | ok c => rw [Op.run_bind_of_ok hc] at hrun; exact Op.le_of_run hrun
        obtain ⟨oc, rfl, hsub, habs⟩ := ih (by simp) ((hnode head e hn).2 hm) hc (hcf.down hle')
        rw [Op.run_bind_of_ok hc] at hrun
        cases oc with
        | none =>
          obtain ⟨o, rfl, hr, hl⟩ := RootAt.of_storeUnlessEmpty hP hrun hcf
            ((hnode.mono hle).remove head)
          obtain ⟨hself, hother⟩ := leavesOf_remove t sub head
          refine ⟨o, rfl, ?_, fun q => hgone hl _⟩
          rwa [← leavesOf_del_of _ (by rw [hself, hchild]; exact hsub.symm) hother]
        | some newChild =>
          have hvalid : ValidName head := Tree.validName_of_get hn
          obtain ⟨u, hins, hget⟩ := Tree.insert_of_valid (P := P) hvalid t ⟨.tree, newChild⟩
          simp only [hins] at hrun
          rw [Op.run_bind_of_ok rfl] at hrun
          obtain ⟨hself, hother⟩ := leavesOf_insert hins sub
            ((sub head).del (next :: rest))
          obtain ⟨o, rfl, hr, hl⟩ := RootAt.of_storeUnlessEmpty hP hrun hcf
            ((hnode.mono hle).insert hins (hnode head e hn).1 fun _ => hsub)
          refine ⟨o, rfl, ?_, fun q h' t' ho hl' => ?_⟩
          · rwa [← leavesOf_del_of _ (by rw [hself, hchild]; rfl) hother]
          · rw [hl h' ho, Except.ok.injEq] at hl'
            subst hl'
            obtain ⟨c, sc, hlc, -, -, -⟩ := hsub.1.exists_node
            have hbelow := habs q newChild c rfl hlc
            have hu : u.get head = some ⟨.tree, newChild⟩ := by rw [hget, if_pos rfl]
            simp only [List.cons_append, getParts, hu, loadTree_mono hle' hlc, bind, Except.bind,
              if_true]
            exact getParts_mono hle' hbelow
      · push Not at hdir
        have hrun' : (r, s') = (.ok (some h), s) := by
          rw [← hrun]
          cases hn : t.get head with
          | none => rfl
          | some e => simp [hdir e hn]
        obtain ⟨rfl, rfl⟩ := Prod.mk.inj hrun'
        refine ⟨_, rfl, ?_, fun q => .of_get (fun h' hh => Option.some.inj hh ▸ hload) hdir
          (fun h => absurd h (List.cons_ne_nil _ _))⟩
        rwa [leavesOf_del_eq_self (by simp) hdir]

/-! ### Reading -/

/-- What reading a path of a tree with the leaves `L` gives: nothing at or below it, a leaf,
or a directory that is stored with the leaves below the path. -/
def Reads (P : Platform) (s : Store) (key : Option Key) (full canon : Prop)
    (L : Leaves Text Entry) (parts : List Text) : Option Entry → Prop
  | none => ∀ q, parts <+: q → L q = none
  | some e =>
    if e.mode = .tree then RootAt P s key full canon (some e.hash) fun q => L (parts ++ q)
    else L parts = some e

/-- **Reading looks the path up.** -/
theorem getParts_spec {parts : List Text} (hne : parts ≠ []) {t : Tree}
    {sub : Text → Leaves Text Entry} (hnode : NodeAt P s key full canon t sub) :
    ∃ r, getParts P s key t parts = .ok r ∧
      Reads P s key full canon (leavesOf t sub) parts r := by
  induction parts generalizing t sub with
  | nil => exact absurd rfl hne
  | cons part rest ih =>
    have hread : ∀ q, leavesOf t sub (part :: q) = entryLeaves (t.get part) (sub part) q :=
      fun q => rfl
    cases rest with
    | nil =>
      refine ⟨t.get part, rfl, ?_⟩
      cases hn : t.get part with
      | none =>
        intro q hq
        cases q with
        | nil => rfl
        | cons m q =>
          obtain ⟨rfl, -⟩ := List.cons_prefix_cons.1 hq
          rw [hread, hn]
          rfl
      | some e =>
        by_cases hm : e.mode = .tree
        · have hL : (fun q => leavesOf t sub ([part] ++ q)) = sub part := by
            funext q
            simp [hread, hn, entryLeaves, hm]
          simp only [Reads, hm, if_true, hL]
          exact (hnode part e hn).2 hm
        · simp [Reads, hm, hread, hn, entryLeaves]
    | cons next rest =>
      cases hn : t.get part with
      | none =>
        refine ⟨none, by simp [getParts, hn], fun q hq => ?_⟩
        cases q with
        | nil => rfl
        | cons m q =>
          obtain ⟨rfl, -⟩ := List.cons_prefix_cons.1 hq
          rw [hread, hn]
          rfl
      | some e =>
        by_cases hm : e.mode = .tree
        · obtain ⟨t', sub', hload, -, hnode', hsub⟩ := ((hnode part e hn).2 hm).1.exists_node
          obtain ⟨r, hr, hreads⟩ := ih (by simp) hnode'
          refine ⟨r, by simp [getParts, hn, hm, hload, bind, Except.bind, hr], ?_⟩
          have hL : ∀ q, leavesOf t sub (part :: q) = leavesOf t' sub' q := fun q => by
            rw [hread, hn]
            simp [entryLeaves, hm, hsub]
          cases r with
          | none =>
            intro q hq
            cases q with
            | nil => rfl
            | cons m q =>
              obtain ⟨rfl, hpre⟩ := List.cons_prefix_cons.1 hq
              rw [hL]
              exact hreads q hpre
          | some f =>
            simpa only [Reads, List.cons_append, hL] using hreads
        · refine ⟨none, by simp [getParts, hn, hm], fun q hq => ?_⟩
          cases q with
          | nil => rfl
          | cons m q =>
            obtain ⟨rfl, hpre⟩ := List.cons_prefix_cons.1 hq
            rw [hread, hn]
            simp only [entryLeaves, hm, if_false]
            refine Leaves.put_below _ e q.nil_prefix ?_
            rintro rfl
            simp at hpre

/-- Nothing is read below a leaf. -/
theorem getParts_below {p q : List Text} {t : Tree} {sub : Text → Leaves Text Entry}
    (hnode : NodeAt P s key full canon t sub) (hp : leavesOf t sub p ≠ none) (hpq : p <+: q)
    (hne : p ≠ q) : getParts P s key t q = .ok none := by
  induction p generalizing q t sub with
  | nil => exact absurd rfl hp
  | cons n p ih =>
    cases q with
    | nil => simp at hpq
    | cons m q =>
      obtain ⟨rfl, hpre⟩ := List.cons_prefix_cons.1 hpq
      have hpq' : p ≠ q := fun h => hne (by rw [h])
      cases q with
      | nil => exact absurd (List.prefix_nil.1 hpre) hpq'
      | cons next rest =>
        change entryLeaves (t.get n) (sub n) p ≠ none at hp
        cases hn : t.get n with
        | none => simp [getParts, hn]
        | some e =>
          by_cases hm : e.mode = .tree
          · rw [hn] at hp
            simp only [entryLeaves, hm, if_true] at hp
            obtain ⟨t', sub', hload, -, hnode', hsub⟩ := ((hnode n e hn).2 hm).1.exists_node
            rw [hsub] at hp
            simp [getParts, hn, hm, hload, bind, Except.bind, ih hnode' hp hpre hpq']
          · simp [getParts, hn, hm]

/-- A leaf is read exactly where one stands. -/
theorem Reads.leaf_iff {L : Leaves Text Entry} {parts : List Text} {r : Option Entry}
    (hr : Reads P s key full canon L parts r) {e : Entry} :
    L parts = some e ↔ r = some e ∧ e.mode ≠ .tree := by
  cases r with
  | none =>
    have hnone : L parts = none := hr parts List.prefix_rfl
    simp [hnone]
  | some f =>
    simp only [Reads] at hr
    split_ifs at hr with hm
    · have hnone : L parts = none := by simpa using hr.1.nil
      rw [hnone]
      refine iff_of_false nofun ?_
      rintro ⟨heq, hmode⟩
      rw [Option.some.injEq] at heq
      exact hmode (heq ▸ hm)
    · rw [hr]
      refine ⟨fun heq => ⟨heq, ?_⟩, fun h => h.1⟩
      rw [Option.some.injEq] at heq
      rwa [← heq]

/-- Nothing is read exactly where no leaf stands at or below, in a tree without empty
directories. -/
theorem Reads.none_iff {L : Leaves Text Entry} {parts : List Text} {r : Option Entry}
    (hfull : full) (hr : Reads P s key full canon L parts r) :
    r = none ↔ ∀ q, parts <+: q → L q = none := by
  cases r with
  | none => exact iff_of_true rfl hr
  | some f =>
    refine iff_of_false nofun fun hnone => ?_
    simp only [Reads] at hr
    split_ifs at hr with hm
    · obtain ⟨q, hq⟩ := hr.2 hfull
      exact hq (hnone _ (List.prefix_append parts q))
    · rw [hnone parts List.prefix_rfl] at hr
      cases hr

/-- `getAt` at a path with components. -/
theorem getAt_spec {path : Text} {parts : List Text} (hsplit : split P path = .ok parts)
    (hne : parts ≠ []) {root : Hash} {L : Leaves Text Entry}
    (ht : TreeAt P s key full canon root L) :
    ∃ r, getAt P s key path root = .ok r ∧ Reads P s key full canon L parts r := by
  obtain ⟨t, sub, hload, -, hnode, rfl⟩ := ht.exists_node
  obtain ⟨r, hr, hreads⟩ := getParts_spec hne hnode
  exact ⟨r, by simp [getAt, hsplit, hne, hload, bind, Except.bind, hr], hreads⟩

/-- `getAt` below a leaf. -/
theorem getAt_below {path : Text} {parts p : List Text} (hsplit : split P path = .ok parts)
    {root : Hash} {L : Leaves Text Entry} (ht : TreeAt P s key full canon root L)
    (hp : L p ≠ none) (hpre : p <+: parts) (hne : p ≠ parts) :
    getAt P s key path root = .ok none := by
  obtain ⟨t, sub, hload, -, hnode, rfl⟩ := ht.exists_node
  have hparts : parts ≠ [] := by
    rintro rfl
    exact hne (List.prefix_nil.1 hpre)
  simp [getAt, hsplit, hparts, hload, bind, Except.bind, getParts_below hnode hp hpre hne]

/-! ### The address of a canonical tree -/

theorem entryLeaves_some_ne_empty {full : Prop} (hfull : full) {e : Entry}
    {L : Leaves Text Entry} (hL : e.mode = .tree → RootAt P s key full canon (some e.hash) L) :
    entryLeaves (some e) L ≠ Leaves.empty := by
  intro heq
  by_cases hm : e.mode = .tree
  · obtain ⟨q, hq⟩ := (hL hm).2 hfull
    simp only [entryLeaves, hm, if_true] at heq
    exact hq (congrFun heq q)
  · have := congrFun heq []
    simp [entryLeaves, hm, Leaves.empty] at this

/-- **A canonical tree without empty directories has the address its leaf map determines.** -/
theorem TreeAt.unique (hfull : full) (hcanon : canon) {s₁ s₂ : Store} {h₁ h₂ : Hash}
    {L : Leaves Text Entry} (ht₁ : TreeAt P s₁ key full canon h₁ L)
    (ht₂ : TreeAt P s₂ key full canon h₂ L) : h₁ = h₂ := by
  induction ht₁ generalizing h₂ with
  | @node h₁ t₁ sub₁ hload hc hkept hsub hf ih =>
    have hnode₁ : NodeAt P s₁ key full canon t₁ sub₁ := fun n e hn =>
      ⟨hkept n e hn, fun hm => ⟨hsub n e hn hm, fun hfull => hf hfull n e hn hm⟩⟩
    obtain ⟨t₂, sub₂, -, hc₂, hnode₂, hL⟩ := ht₂.exists_node
    rw [hc hcanon, hc₂ hcanon]
    refine congrArg _ (Tree.ext fun n => ?_)
    have hchild : entryLeaves (t₁.get n) (sub₁ n) = entryLeaves (t₂.get n) (sub₂ n) :=
      congrArg (fun M => Leaves.child M n) hL
    cases h₁n : t₁.get n with
    | none =>
      cases h₂n : t₂.get n with
      | none => rfl
      | some e₂ =>
        rw [h₁n, h₂n] at hchild
        exact absurd hchild.symm (entryLeaves_some_ne_empty hfull (hnode₂ n e₂ h₂n).2)
    | some e₁ =>
      cases h₂n : t₂.get n with
      | none =>
        rw [h₁n, h₂n] at hchild
        exact absurd hchild (entryLeaves_some_ne_empty hfull (hnode₁ n e₁ h₁n).2)
      | some e₂ =>
        rw [h₁n, h₂n] at hchild
        simp only [entryLeaves] at hchild
        split_ifs at hchild with hm₁ hm₂ hm₂
        · -- two subtrees: their addresses agree by induction
          have hhash := ih n e₁ h₁n hm₁ (hchild ▸ ((hnode₂ n e₂ h₂n).2 hm₂).1)
          obtain ⟨mode₁, hash₁⟩ := e₁
          obtain ⟨mode₂, hash₂⟩ := e₂
          simp only at hm₁ hm₂ hhash
          rw [hm₁, hm₂, hhash]
        · have hnil := congrFun hchild []
          rw [(hsub n e₁ h₁n hm₁).nil, Leaves.put_self] at hnil
          cases hnil
        · have hnil := congrFun hchild []
          rw [((hnode₂ n e₂ h₂n).2 hm₂).1.nil, Leaves.put_self] at hnil
          cases hnil
        · have hnil := congrFun hchild []
          rwa [Leaves.put_self, Leaves.put_self] at hnil

theorem RootAt.unique (hfull : full) (hcanon : canon) {s₁ s₂ : Store} {o₁ o₂ : Option Hash}
    {L : Leaves Text Entry} (hr₁ : RootAt P s₁ key full canon o₁ L)
    (hr₂ : RootAt P s₂ key full canon o₂ L) : o₁ = o₂ := by
  cases o₁ with
  | none =>
    cases o₂ with
    | none => rfl
    | some h₂ =>
      obtain ⟨q, hq⟩ := hr₂.2 hfull
      rw [show L = Leaves.empty from hr₁] at hq
      exact absurd rfl hq
  | some h₁ =>
    cases o₂ with
    | none =>
      obtain ⟨q, hq⟩ := hr₁.2 hfull
      rw [show L = Leaves.empty from hr₂] at hq
      exact absurd rfl hq
    | some h₂ => rw [hr₁.1.unique hfull hcanon hr₂.1]

/-! ### The leaf map of a root -/

theorem loadTree_of_subset (hsub : s.objects ⊆ s'.objects) (hcf : s'.CollisionFree P) {h : Hash}
    {t : Tree} (hl : loadTree P s key h = .ok t) : loadTree P s' key h = .ok t := by
  unfold loadTree at hl ⊢
  cases hg : s.get P h with
  | none => simp [hg] at hl
  | some o =>
    obtain ⟨ho, rfl⟩ := Cas.find_eq_some hg
    have hg' : s'.get P (Object.address P o) = some o := Cas.find_of_mem hcf (hsub ho)
    rw [hg] at hl
    rwa [hg']

theorem TreeAt.of_subset (hsub : s.objects ⊆ s'.objects) (hcf : s'.CollisionFree P) {h : Hash}
    {L : Leaves Text Entry} (ht : TreeAt P s key full canon h L) :
    TreeAt P s' key full canon h L := by
  induction ht with
  | node sub hload hcanon hkept _ hfull ih =>
    exact .node sub (loadTree_of_subset hsub hcf hload) hcanon hkept ih hfull

/-- **An address means one leaf map.** -/
theorem TreeAt.det {full' canon' : Prop} {h : Hash} {L M : Leaves Text Entry}
    (hL : TreeAt P s key full canon h L) (hM : TreeAt P s key full' canon' h M) : L = M := by
  induction hL generalizing M with
  | @node h t sub hload _ _ _ _ ih =>
    obtain ⟨t', sub', hload', -, hnode', rfl⟩ := hM.exists_node
    obtain rfl : t = t' := by
      rw [hload, Except.ok.injEq] at hload'
      exact hload'
    refine Leaves.ext_child rfl fun n => ?_
    rw [child_leavesOf, child_leavesOf]
    cases hn : t.get n with
    | none => rfl
    | some e =>
      by_cases hm : e.mode = .tree
      · simp only [entryLeaves, hm, if_true]
        exact ih n e hn hm ((hnode' n e hn).2 hm).1
      · simp only [entryLeaves, hm, if_false]

end Omp
