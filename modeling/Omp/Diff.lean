import Omp.Lookup
import Omp.RefExprs

/-!
# The difference of two commits

`diff` puts the leaves of two trees side by side, in a map from paths to what stands there before
and after, and lists the paths where the two are not the same.  What is listed determines, and is
determined by, the two maps from paths to addresses.

A path filter is compared with a path as a string.  The entries at and below a directory are those
whose components start with its components, which is the same except where a path goes on inside the
last component of the filter, or where the filter is written with slashes at its ends.

## Main definitions

* `DiffStatus`, `DiffEntry`, `Repo.diff` : the listing.
* `Exact` : a listing of the difference of two maps, with `DiffEntry.swap` and `applyAll`.
* `AtOrBelow`, `CutsComponent` : a path against a filter.

## Main results

* `Exact.unique`, `Exact.applyAll_eq`, `Exact.swap` : the laws of a difference.
* `exact_diffEntries` : the listing is the difference.
* `starts_iff_atOrBelow` : when a filter is the same as a directory.
* `diff_meets_iff` : when `diff` lists what is asked for.
-/

namespace Omp

open Lib

/-! ### Differences of maps -/

/-- How what stands at a path has changed. -/
inductive DiffStatus where
  | added
  | removed
  | modified
  | unchanged
deriving DecidableEq

/-- An entry of a listing. -/
structure DiffEntry where
  path : Text
  status : DiffStatus
  before : Option Hash
  after : Option Hash
deriving DecidableEq

namespace DiffStatus

/-- The status for what stands at a path before and after. -/
def of : Option Hash → Option Hash → DiffStatus
  | none, none => unchanged
  | none, some _ => added
  | some _, none => removed
  | some b, some a => if b = a then unchanged else modified

/-- The status the other way round. -/
def swap : DiffStatus → DiffStatus
  | added => removed
  | removed => added
  | modified => modified
  | unchanged => unchanged

theorem of_eq_unchanged {b a : Option Hash} : of b a = unchanged ↔ b = a := by
  cases b with
  | none => cases a <;> simp [of]
  | some b =>
    cases a with
    | none => simp [of]
    | some a => by_cases h : b = a <;> simp [of, h]

theorem of_swap (b a : Option Hash) : of a b = (of b a).swap := by
  cases b with
  | none => cases a <;> rfl
  | some b =>
    cases a with
    | none => rfl
    | some a =>
      by_cases h : b = a
      · simp [of, h, swap]
      · simp [of, h, Ne.symm h, swap]

end DiffStatus

/-- An entry the other way round. -/
def DiffEntry.swap (d : DiffEntry) : DiffEntry where
  path := d.path
  status := d.status.swap
  before := d.after
  after := d.before

@[simp] theorem DiffEntry.swap_path (d : DiffEntry) : d.swap.path = d.path := rfl

/-- The entries are listed in the order of their paths, each path once. -/
def ByPath (ds : List DiffEntry) : Prop := ds.Pairwise fun d e => compare d.path e.path = .lt

/-- The entry describes how the maps differ at its path. -/
def Describes (A B : Text → Option Hash) (d : DiffEntry) : Prop :=
  d.before = A d.path ∧ d.after = B d.path ∧ d.status = .of d.before d.after ∧ d.before ≠ d.after

/-- The listing is the difference of two maps. -/
structure Exact (A B : Text → Option Hash) (ds : List DiffEntry) : Prop where
  byPath : ByPath ds
  mem_iff : ∀ d, d ∈ ds ↔ Describes A B d

/-- Make the change an entry describes. -/
def DiffEntry.apply (A : Text → Option Hash) (d : DiffEntry) : Text → Option Hash :=
  Function.update A d.path d.after

/-- Make the changes of a listing, one after the other. -/
def applyAll (ds : List DiffEntry) (A : Text → Option Hash) : Text → Option Hash :=
  ds.foldl DiffEntry.apply A

section Laws

variable {A B : Text → Option Hash} {ds ds' : List DiffEntry}

theorem ByPath.injOn (h : ByPath ds) {d e : DiffEntry} (hd : d ∈ ds) (he : e ∈ ds)
    (hpath : d.path = e.path) : d = e := by
  induction ds with
  | nil => cases hd
  | cons c ds ih =>
    obtain ⟨hc, hds⟩ := List.pairwise_cons.1 h
    have hne : ∀ e ∈ ds, c.path ≠ e.path := fun e he heq => by
      have hlt := hc e he
      rw [heq, Std.ReflOrd.compare_self] at hlt
      cases hlt
    rcases List.mem_cons.1 hd with rfl | hd'
    · rcases List.mem_cons.1 he with rfl | he'
      · rfl
      · exact absurd hpath (hne e he')
    · rcases List.mem_cons.1 he with rfl | he'
      · exact absurd hpath.symm (hne d hd')
      · exact ih hds hd' he'

/-- There is one listing of a difference. -/
theorem Exact.unique (h : Exact A B ds) (h' : Exact A B ds') : ds = ds' := by
  have hlt : ∀ {l : List DiffEntry}, ByPath l → l.Nodup := fun hl => hl.imp fun {d e} hde heq => by
    rw [heq, Std.ReflOrd.compare_self] at hde
    cases hde
  have hperm : ds.Perm ds' := (List.perm_ext_iff_of_nodup (hlt h.byPath) (hlt h'.byPath)).2
    fun d => (h.mem_iff d).trans (h'.mem_iff d).symm
  refine hperm.eq_of_pairwise (fun d e _ _ hde hed => ?_) h.byPath h'.byPath
  have hlt := Std.TransCmp.lt_trans hde hed
  rw [Std.ReflOrd.compare_self] at hlt
  cases hlt

theorem applyAll_of_forall_ne {q : Text} (h : ∀ d ∈ ds, d.path ≠ q) :
    applyAll ds A q = A q := by
  induction ds generalizing A with
  | nil => rfl
  | cons d ds ih =>
    obtain ⟨hd, hds⟩ := List.forall_mem_cons.1 h
    exact (ih hds).trans (Function.update_of_ne (Ne.symm hd) _ _)

theorem applyAll_of_mem (h : ByPath ds) {d : DiffEntry} (hd : d ∈ ds) :
    applyAll ds A d.path = d.after := by
  induction ds generalizing A with
  | nil => cases hd
  | cons c ds ih =>
    obtain ⟨hc, hds⟩ := List.pairwise_cons.1 h
    rcases List.mem_cons.1 hd with rfl | hd
    · -- no later change is made at this path
      have hne : ∀ e ∈ ds, e.path ≠ d.path := fun e he heq => by
        have hlt := hc e he
        rw [heq, Std.ReflOrd.compare_self] at hlt
        cases hlt
      exact (applyAll_of_forall_ne hne).trans (Function.update_self _ _ _)
    · exact ih hds hd

/-- The changes of a difference lead from the one map to the other. -/
theorem Exact.applyAll_eq (h : Exact A B ds) : applyAll ds A = B := by
  funext q
  by_cases hq : ∃ d ∈ ds, d.path = q
  · obtain ⟨d, hd, rfl⟩ := hq
    rw [applyAll_of_mem h.byPath hd]
    exact ((h.mem_iff d).1 hd).2.1
  · rw [applyAll_of_forall_ne fun d hd hpath => hq ⟨d, hd, hpath⟩]
    by_contra hne
    exact hq ⟨⟨q, .of (A q) (B q), A q, B q⟩, (h.mem_iff _).2 ⟨rfl, rfl, rfl, hne⟩, rfl⟩

/-- The difference the other way round. -/
theorem Exact.swap (h : Exact A B ds) : Exact B A (ds.map DiffEntry.swap) where
  byPath := by
    rw [ByPath, List.pairwise_map]
    exact h.byPath
  mem_iff d := by
    rw [List.mem_map]
    constructor
    · rintro ⟨e, he, rfl⟩
      obtain ⟨hbefore, hafter, hstatus, hne⟩ := (h.mem_iff e).1 he
      refine ⟨hafter, hbefore, ?_, Ne.symm hne⟩
      change e.status.swap = _
      rw [hstatus, ← DiffStatus.of_swap]
      rfl
    · rintro ⟨hbefore, hafter, hstatus, hne⟩
      refine ⟨d.swap, (h.mem_iff _).2 ⟨hafter, hbefore, ?_, Ne.symm hne⟩, ?_⟩
      · change d.status.swap = _
        rw [hstatus, ← DiffStatus.of_swap]
        rfl
      · obtain ⟨path, status, before, after⟩ := d
        cases status <;> rfl

theorem Exact.nil_of_self (h : Exact A A ds) : ds = [] := by
  refine List.eq_nil_iff_forall_not_mem.2 fun d hd => ?_
  obtain ⟨hbefore, hafter, -, hne⟩ := (h.mem_iff d).1 hd
  exact hne (hbefore.trans hafter.symm)

end Laws

/-! ### The listing -/

/-- What stands at the paths of two trees, before and after. -/
def pairs (fromEntries toEntries : TextMap Entry) : TextMap (Option Entry × Option Entry) :=
  toEntries.toList.foldl (fun all p => all.insert p.1 ((all[p.1]?.getD (none, none)).1, some p.2))
    (fromEntries.toList.foldl
      (fun all p => all.insert p.1 (some p.2, (all[p.1]?.getD (none, none)).2)) ∅)

/-- The entry for a path, if it starts with the filter and has changed. -/
def diffEntry (pathFilter : Option Text) (p : Text × Option Entry × Option Entry) :
    Option DiffEntry :=
  if ∀ pf ∈ pathFilter, pf <+: p.1 then
    let status := DiffStatus.of (p.2.1.map Entry.hash) (p.2.2.map Entry.hash)
    if status = .unchanged then none
    else some ⟨p.1, status, p.2.1.map Entry.hash, p.2.2.map Entry.hash⟩
  else none

/-- The loop of `diff`. -/
def diffEntries (fromEntries toEntries : TextMap Entry) (pathFilter : Option Text) :
    List DiffEntry :=
  (pairs fromEntries toEntries).toList.filterMap (diffEntry pathFilter)

/-- `Repo::diff`. -/
def Repo.diff (W : World) (r : Repo) (from_ to_ : Text) (pathFilter : Option Text) :
    Except (Fault OmpError) (List DiffEntry) := do
  let fromCommit ← (r.resolveRef W from_).mapError .err
  let toCommit ← (r.resolveRef W to_).mapError .err
  let fromTree ← (Repo.commitTree W r.store fromCommit).mapError .err
  let toTree ← (Repo.commitTree W r.store toCommit).mapError .err
  let fromEntries ← walk W.toPlatform r.store none fromTree
  let toEntries ← walk W.toPlatform r.store none toTree
  .ok (diffEntries (TextMap.collect fromEntries) (TextMap.collect toEntries) pathFilter)

/-- The leaves of a commit. -/
def Repo.leavesOf (W : World) (r : Repo) (expr : Text) :
    Except (Fault OmpError) (List (Text × Entry)) := do
  let commit ← (r.resolveRef W expr).mapError .err
  let tree ← (Repo.commitTree W r.store commit).mapError .err
  walk W.toPlatform r.store none tree

/-- The address at a path. -/
def hashAt (m : TextMap Entry) (path : Text) : Option Hash := m[path]?.map Entry.hash

theorem getElem?_foldl_update {U V : Type} (f : Option V → U → V) (m : TextMap U)
    (all : TextMap V) (q : Text) :
    (m.toList.foldl (fun all p => all.insert p.1 (f all[p.1]? p.2)) all)[q]? =
      (m[q]?.map (f all[q]?)).or all[q]? := by
  have hfind : m[q]? = (m.toList.find? fun p => p.1 = q).map Prod.snd := by
    conv_lhs => rw [← TextMap.collect_toList m]
    rw [TextMap.collect, TextMap.getElem?_foldl_insert _ _ _ m.pairwise_toList]
    simp
  rw [hfind, Option.map_map]
  have hkeys := m.pairwise_toList
  generalize m.toList = l at hkeys
  induction l generalizing all with
  | nil => simp
  | cons p l ih =>
    obtain ⟨hp, hl⟩ := List.pairwise_cons.1 hkeys
    rw [List.foldl_cons, ih _ hl, TextMap.getElem?_insert]
    by_cases hq : p.1 = q
    · subst hq
      have hnone : l.find? (fun x => x.1 = p.1) = none := by
        rw [List.find?_eq_none]
        intro x hx
        simpa using Ne.symm (hp x hx)
      simp [hnone]
    · simp [hq]

/-- What is put side by side for a path. -/
theorem getElem?_pairs (A B : TextMap Entry) (q : Text) :
    (pairs A B)[q]? = if A[q]? = none ∧ B[q]? = none then none else some (A[q]?, B[q]?) := by
  have hfirst := getElem?_foldl_update
    (fun (old : Option (Option Entry × Option Entry)) e => (some e, (old.getD (none, none)).2))
    A ∅ q
  rw [pairs, getElem?_foldl_update
    (fun (old : Option (Option Entry × Option Entry)) e => ((old.getD (none, none)).1, some e)),
    hfirst, Std.ExtTreeMap.getElem?_empty]
  cases A[q]? <;> cases B[q]? <;> simp

theorem diffEntry_eq_some {pathFilter : Option Text} {p : Text × Option Entry × Option Entry}
    {d : DiffEntry} :
    diffEntry pathFilter p = some d ↔ (∀ pf ∈ pathFilter, pf <+: p.1) ∧ d.path = p.1 ∧
      d.before = p.2.1.map Entry.hash ∧ d.after = p.2.2.map Entry.hash ∧
      d.status = .of d.before d.after ∧ d.before ≠ d.after := by
  obtain ⟨path, status, before, after⟩ := d
  simp only [diffEntry, DiffStatus.of_eq_unchanged]
  split_ifs with hfilter heq
  · refine iff_of_false (by simp) ?_
    rintro ⟨-, -, rfl, rfl, -, hne⟩
    exact hne heq
  · simp only [Option.some.injEq, DiffEntry.mk.injEq]
    constructor
    · rintro ⟨rfl, rfl, rfl, rfl⟩
      exact ⟨hfilter, rfl, rfl, rfl, rfl, heq⟩
    · rintro ⟨-, rfl, rfl, rfl, rfl, -⟩
      exact ⟨rfl, rfl, rfl, rfl⟩
  · exact iff_of_false (by simp) fun h => hfilter h.1

/-- What is listed under a filter. -/
theorem mem_diffEntries {A B : TextMap Entry} {pathFilter : Option Text} {d : DiffEntry} :
    d ∈ diffEntries A B pathFilter ↔
      Describes (hashAt A) (hashAt B) d ∧ ∀ pf ∈ pathFilter, pf <+: d.path := by
  rw [diffEntries, List.mem_filterMap]
  constructor
  · rintro ⟨⟨q, before, after⟩, hmem, hd⟩
    obtain ⟨hfilter, hpath, hbefore, hafter, hstatus, hne⟩ := diffEntry_eq_some.1 hd
    rw [TextMap.mem_toList, getElem?_pairs] at hmem
    split_ifs at hmem
    cases hmem
    obtain rfl : d.path = q := hpath
    exact ⟨⟨hbefore, hafter, hstatus, hne⟩, hfilter⟩
  · rintro ⟨⟨hbefore, hafter, hstatus, hne⟩, hfilter⟩
    refine ⟨(d.path, A[d.path]?, B[d.path]?), ?_,
      diffEntry_eq_some.2 ⟨hfilter, rfl, hbefore, hafter, hstatus, hne⟩⟩
    rw [TextMap.mem_toList, getElem?_pairs, if_neg]
    rintro ⟨hA, hB⟩
    rw [hbefore, hafter, hashAt, hashAt, hA, hB] at hne
    exact hne rfl

theorem byPath_diffEntries (A B : TextMap Entry) (pathFilter : Option Text) :
    ByPath (diffEntries A B pathFilter) := by
  refine (TextMap.sorted_toList _).filterMap _ fun p p' hlt d hd d' hd' => ?_
  rw [(diffEntry_eq_some.1 hd).2.1, (diffEntry_eq_some.1 hd').2.1]
  exact hlt

/-- **Without a filter the listing is the difference** of the maps from paths to addresses. -/
theorem exact_diffEntries (A B : TextMap Entry) :
    Exact (hashAt A) (hashAt B) (diffEntries A B none) where
  byPath := byPath_diffEntries A B none
  mem_iff d := by simp [mem_diffEntries]

/-- `diff` lists the difference of the leaves of the commits. -/
theorem Repo.diff_eq {W : World} {r : Repo} {a b : Text} {as bs : List (Text × Entry)}
    (ha : r.leavesOf W a = .ok as) (hb : r.leavesOf W b = .ok bs) (pathFilter : Option Text) :
    r.diff W a b pathFilter =
      .ok (diffEntries (TextMap.collect as) (TextMap.collect bs) pathFilter) := by
  obtain ⟨ca, hca, ha⟩ := except_bind_eq_ok.1 ha
  obtain ⟨ta, hta, hwa⟩ := except_bind_eq_ok.1 ha
  obtain ⟨cb, hcb, hb⟩ := except_bind_eq_ok.1 hb
  obtain ⟨tb, htb, hwb⟩ := except_bind_eq_ok.1 hb
  rw [Repo.diff, hca, hcb]
  simp only [bind, Except.bind, hta, htb, hwa, hwb]

/-! ### Filters -/

section Filters

variable (P : Platform)

/-- The path is the one the filter names, or it is below it. -/
def AtOrBelow (filter path : Text) : Prop :=
  ∃ parts rest, split P filter = .ok parts ∧ split P path = .ok (parts ++ rest)

/-- The path goes on inside the last component of the filter. -/
def CutsComponent (filter path : Text) : Prop :=
  filter ≠ [] ∧ filter.getLast? ≠ some '/' ∧ ∃ c rest, path = filter ++ c :: rest ∧ c ≠ '/'

variable {P} {filter path : Text} {parts : List Text}

theorem trimMatches_of_validName (hparts : ∀ n ∈ parts, ValidName n) :
    trimMatches '/' (joinWith '/' parts) = joinWith '/' parts := by
  obtain ⟨hhead, hlast⟩ := head?_joinWith fun n hn => ⟨(hparts n hn).1, (hparts n hn).2.1⟩
  exact trimMatches_eq_self hhead hlast

/-- A slash at the end of a filter does not count. -/
theorem trimMatches_append_slash (x : Text) :
    trimMatches '/' (x ++ ['/']) = trimMatches '/' x := by
  rw [trimMatches, trimMatches]
  by_cases hx : ∀ c ∈ x, c = '/'
  · have hall : ∀ l : Text, (∀ c ∈ l, c = '/') → l.dropWhile (· == '/') = [] := fun l hl =>
      List.dropWhile_eq_nil_iff.2 fun c hc => by simp [hl c hc]
    rw [hall x hx, hall (x ++ ['/']) fun c hc => (List.mem_append.1 hc).elim (hx c) (by simp)]
  · push Not at hx
    obtain ⟨c, hc, hne⟩ := hx
    have hdrop : (x ++ ['/']).dropWhile (· == '/') = x.dropWhile (· == '/') ++ ['/'] := by
      rw [List.dropWhile_append, if_neg]
      intro hempty
      rw [List.isEmpty_iff, List.dropWhile_eq_nil_iff] at hempty
      exact hne (by simpa using hempty c hc)
    rw [hdrop, List.rdropWhile_concat_pos _ _ _ (by simp)]

/-- What stands before a slash of a path has its first components. -/
theorem split_of_append_slash {x y : Text} (hparts : ∀ n ∈ parts, ValidName n)
    (hpath : joinWith '/' parts = x ++ '/' :: y) :
    split P x = .ok (x.splitOn '/') ∧ ∃ rest, parts = x.splitOn '/' ++ rest := by
  have hne : parts ≠ [] := by
    rintro rfl
    cases x <;> cases hpath
  have hsplit : (joinWith '/' parts).splitOn '/' = parts :=
    List.splitOn_intercalate '/' (fun n hn => (hparts n hn).2.1) hne
  rw [hpath, splitOn_append_sep] at hsplit
  have hx : ∀ n ∈ x.splitOn '/', ValidName n := fun n hn =>
    hparts n (hsplit ▸ List.mem_append_left _ hn)
  have hjoin : joinWith '/' (x.splitOn '/') = x := List.intercalate_splitOn '/'
  refine ⟨split_eq_ok.2 ⟨?_, fun n hn => of_validName (hx n hn)⟩, _, hsplit.symm⟩
  have htrim := trimMatches_of_validName hx
  rw [hjoin] at htrim ⊢
  exact htrim

/-- **A filter is the same as a directory** for a path exactly when the path does not go on inside
its last component, and starts with it as soon as it is at or below the directory. -/
theorem starts_iff_atOrBelow (hparts : ∀ n ∈ parts, ValidName n)
    (hpath : path = joinWith '/' parts) :
    (filter <+: path ↔ AtOrBelow P filter path) ↔
      ¬ CutsComponent filter path ∧ (AtOrBelow P filter path → filter <+: path) := by
  have hsplit : split P path = .ok parts := hpath ▸ split_joinWith hparts
  constructor
  · refine fun hiff => ⟨?_, hiff.2⟩
    rintro ⟨hne, hlast, c, rest, happend, hc⟩
    obtain ⟨ps, more, hfilter, hbelow⟩ := hiff.1 ⟨_, happend.symm⟩
    rw [hsplit, Except.ok.injEq] at hbelow
    have htrim := (split_eq_ok.1 hfilter).1
    -- the filter has no slash at either end
    have hhead : filter.head? ≠ some '/' := by
      have hhead := (head?_joinWith (c := '/') fun n hn =>
        ⟨(hparts n hn).1, (hparts n hn).2.1⟩).1
      rw [← hpath, happend, List.head?_append_of_ne_nil _ hne] at hhead
      exact hhead
    rw [trimMatches_eq_self hhead hlast] at htrim
    have hps : ps ≠ [] := by
      rintro rfl
      exact hne htrim
    by_cases hmore : more = []
    · rw [hmore, List.append_nil] at hbelow
      rw [hpath, hbelow, ← htrim] at happend
      simp at happend
    · rw [hpath, hbelow, joinWith_append hps hmore, ← htrim] at happend
      exact hc (List.cons.inj (List.append_cancel_left happend)).1.symm
  · rintro ⟨hcut, hback⟩
    refine ⟨?_, hback⟩
    rintro ⟨t, happend⟩
    by_cases hne : filter = []
    · subst hne
      exact ⟨[], parts, rfl, hsplit⟩
    cases t with
    | nil =>
      rw [List.append_nil] at happend
      exact ⟨parts, [], happend ▸ hsplit, by rw [hsplit, List.append_nil]⟩
    | cons c rest =>
      by_cases hlast : filter.getLast? = some '/'
      · obtain ⟨x, rfl⟩ := List.getLast?_eq_some_iff.1 hlast
        rw [List.append_assoc, List.singleton_append, hpath] at happend
        obtain ⟨hx, more, hmore⟩ := split_of_append_slash (P := P) hparts happend.symm
        obtain ⟨htrim, hnames⟩ := split_eq_ok.1 hx
        refine ⟨_, more, split_eq_ok.2 ⟨?_, hnames⟩, hmore ▸ hsplit⟩
        rw [trimMatches_append_slash, htrim]
      · have hc : c = '/' := by
          by_contra hc
          exact hcut ⟨hne, hlast, c, rest, happend.symm, hc⟩
        subst hc
        rw [hpath] at happend
        obtain ⟨hx, more, hmore⟩ := split_of_append_slash (P := P) hparts happend.symm
        exact ⟨_, more, hx, hmore ▸ hsplit⟩

end Filters

/-! ### What is asked of a difference -/

/-- The address of the leaf at a path. -/
def leafHash (leaves : List (Text × Entry)) (path : Text) : Option Hash :=
  (leaves.find? fun x => x.1 = path).map fun x => x.2.hash

/-- What is asked of `diff` for two commits with these leaves: without a filter it lists their
difference, the changes lead from the one to the other, the other way round it lists the same the
other way round, and a commit does not differ from itself; with a filter it lists the entries at
and below the directory. -/
def Repo.DiffMeets (W : World) (r : Repo) (a b : Text) (as bs : List (Text × Entry))
    (pathFilter : Option Text) : Prop :=
  ∃ ds, r.diff W a b none = .ok ds ∧ Exact (leafHash as) (leafHash bs) ds ∧
    applyAll ds (leafHash as) = leafHash bs ∧
    r.diff W b a none = .ok (ds.map DiffEntry.swap) ∧ r.diff W a a none = .ok [] ∧
    ∃ listed, r.diff W a b pathFilter = .ok listed ∧ ByPath listed ∧
      ∀ d, d ∈ listed ↔ d ∈ ds ∧ ∀ pf ∈ pathFilter, AtOrBelow W.toPlatform pf d.path

section Meets

variable {W : World} {r : Repo} {a b : Text} {as bs : List (Text × Entry)}

/-- The leaves of a commit are those of a walk. -/
theorem Repo.leavesOf_paths (ha : r.leavesOf W a = .ok as) :
    (as.map Prod.fst).Nodup ∧ ∀ x ∈ as, x.1 = joinWith '/' (x.1.splitOn '/') ∧
      ∀ n ∈ x.1.splitOn '/', ValidName n := by
  obtain ⟨_, -, ha⟩ := except_bind_eq_ok.1 ha
  obtain ⟨_, -, ha⟩ := except_bind_eq_ok.1 ha
  obtain ⟨hsorted, hlisted⟩ := walk_paths ha
  refine ⟨List.pairwise_map.2 ?_, fun x hx => (hlisted x hx).2⟩
  refine (List.pairwise_map.1 hsorted).imp fun {x y} hlt heq => ?_
  rw [heq, Std.ReflOrd.compare_self] at hlt
  cases hlt

theorem hashAt_collect (has : (as.map Prod.fst).Nodup) :
    hashAt (TextMap.collect as) = leafHash as := by
  funext q
  rw [hashAt, TextMap.collect, TextMap.getElem?_foldl_insert _ _ _ (List.pairwise_map.1 has),
    leafHash, Std.ExtTreeMap.getElem?_empty, Option.or_none, Option.map_map]
  rfl

/-- **`diff` lists what is asked for** exactly when, for every path that differs, the filter does
not end inside a component of the path, and is a string the path starts with if the path is at or
below the directory. -/
theorem diff_meets_iff (ha : r.leavesOf W a = .ok as) (hb : r.leavesOf W b = .ok bs)
    (pathFilter : Option Text) :
    r.DiffMeets W a b as bs pathFilter ↔
      ∀ pf ∈ pathFilter, ∀ q, leafHash as q ≠ leafHash bs q →
        ¬ CutsComponent pf q ∧ (AtOrBelow W.toPlatform pf q → pf <+: q) := by
  obtain ⟨hasNodup, hasPaths⟩ := Repo.leavesOf_paths ha
  obtain ⟨hbsNodup, hbsPaths⟩ := Repo.leavesOf_paths hb
  have hA := hashAt_collect hasNodup
  have hB := hashAt_collect hbsNodup
  have hexact := exact_diffEntries (TextMap.collect as) (TextMap.collect bs)
  rw [hA, hB] at hexact
  -- a path that differs is a leaf of one of the commits
  have hjudged : ∀ pf q, leafHash as q ≠ leafHash bs q →
      ((pf <+: q ↔ AtOrBelow W.toPlatform pf q) ↔
        ¬ CutsComponent pf q ∧ (AtOrBelow W.toPlatform pf q → pf <+: q)) := by
    intro pf q hne
    have hleaf : q = joinWith '/' (q.splitOn '/') ∧ ∀ n ∈ q.splitOn '/', ValidName n := by
      by_cases hnone : leafHash as q = none
      · rw [hnone] at hne
        obtain ⟨h, hh⟩ := Option.ne_none_iff_exists'.1 hne.symm
        obtain ⟨x, hx, -⟩ := Option.map_eq_some_iff.1 hh
        obtain rfl : x.1 = q := by simpa using List.find?_some hx
        exact hbsPaths x (List.mem_of_find?_eq_some hx)
      · obtain ⟨h, hh⟩ := Option.ne_none_iff_exists'.1 hnone
        obtain ⟨x, hx, -⟩ := Option.map_eq_some_iff.1 hh
        obtain rfl : x.1 = q := by simpa using List.find?_some hx
        exact hasPaths x (List.mem_of_find?_eq_some hx)
    exact starts_iff_atOrBelow hleaf.2 hleaf.1
  constructor
  · rintro ⟨ds, hds, -, -, -, -, listed, hlisted, -, hmem⟩ pf hpf q hne
    rw [Repo.diff_eq ha hb, Except.ok.injEq] at hds hlisted
    subst hds hlisted
    -- the entry for this path is listed exactly if it starts with the filter
    have hentry := hmem ⟨q, .of (leafHash as q) (leafHash bs q), leafHash as q, leafHash bs q⟩
    have hdescribes : Describes (leafHash as) (leafHash bs)
        ⟨q, .of (leafHash as q) (leafHash bs q), leafHash as q, leafHash bs q⟩ :=
      ⟨rfl, rfl, rfl, hne⟩
    rw [mem_diffEntries, hexact.mem_iff, hA, hB] at hentry
    obtain rfl : pathFilter = some pf := hpf
    simp only [hdescribes, true_and, Option.mem_def, Option.some.injEq, forall_eq'] at hentry
    exact (hjudged pf q hne).1 hentry
  · intro hcond
    have hself := exact_diffEntries (TextMap.collect as) (TextMap.collect as)
    have hswap := exact_diffEntries (TextMap.collect bs) (TextMap.collect as)
    rw [hA, hB] at hswap
    refine ⟨_, Repo.diff_eq ha hb none, hexact, hexact.applyAll_eq, ?_, ?_, _,
      Repo.diff_eq ha hb pathFilter, byPath_diffEntries _ _ _, fun d => ?_⟩
    · rw [Repo.diff_eq hb ha, hswap.unique hexact.swap]
    · rw [Repo.diff_eq ha ha, hself.nil_of_self]
    · rw [mem_diffEntries, hexact.mem_iff, hA, hB]
      refine and_congr_right fun hd => forall₂_congr fun pf hpf => ?_
      have hne : leafHash as d.path ≠ leafHash bs d.path := by
        rw [← hd.1, ← hd.2.1]
        exact hd.2.2.2
      exact (hjudged pf d.path hne).2 (hcond pf hpf d.path hne)

end Meets

/-! ### Two commits -/

/-- The leaves of a commit. -/
def leavesOfCommit (expr : Text) : List (Text × Entry) :=
  ((twoCommits.leavesOf (demoWorld ⟨[], [], []⟩) expr).toOption).getD []

theorem leavesOf_twoCommits :
    twoCommits.leavesOf (demoWorld ⟨[], [], []⟩) "HEAD~1".toList =
        .ok (leavesOfCommit "HEAD~1".toList) ∧
      twoCommits.leavesOf (demoWorld ⟨[], [], []⟩) "HEAD".toList =
        .ok (leavesOfCommit "HEAD".toList) := by
  have hok : ∀ expr, (twoCommits.leavesOf (demoWorld ⟨[], [], []⟩) expr).isOk = true →
      twoCommits.leavesOf (demoWorld ⟨[], [], []⟩) expr = .ok (leavesOfCommit expr) := by
    intro expr h
    obtain ⟨as, has⟩ := exists_eq_ok_of_isOk h
    rw [leavesOfCommit, has]
    rfl
  exact ⟨hok _ (by decide +kernel), hok _ (by decide +kernel)⟩

theorem diff_meets_iff_demo :
    twoCommits.DiffMeets (demoWorld ⟨[], [], []⟩) "HEAD~1".toList "HEAD".toList
      (leavesOfCommit "HEAD~1".toList) (leavesOfCommit "HEAD".toList) none :=
  (diff_meets_iff leavesOf_twoCommits.1 leavesOf_twoCommits.2 none).2 (by simp)

/-- **The filter `prob` lists `probes/a`.** -/
theorem diff_lists_sibling :
    ¬ twoCommits.DiffMeets (demoWorld ⟨[], [], []⟩) "HEAD~1".toList "HEAD".toList
      (leavesOfCommit "HEAD~1".toList) (leavesOfCommit "HEAD".toList) (some "prob".toList) := by
  rintro ⟨ds, -, -, -, -, -, listed, hlisted, -, hmem⟩
  have hpaths : (twoCommits.diff (demoWorld ⟨[], [], []⟩) "HEAD~1".toList "HEAD".toList
      (some "prob".toList)).toOption.map (List.map DiffEntry.path) = some ["probes/a".toList] := by
    decide +kernel
  rw [hlisted] at hpaths
  have hlisted' : listed.map DiffEntry.path = ["probes/a".toList] := Option.some.inj hpaths
  obtain ⟨d, hd, hpath⟩ : ∃ d ∈ listed, d.path = "probes/a".toList := by
    rw [← List.mem_map, hlisted']
    exact List.mem_singleton_self _
  obtain ⟨parts, rest, hfilter, hbelow⟩ := ((hmem d).1 hd).2 _ rfl
  have hparts : split demo "prob".toList = .ok ["prob".toList] := by decide +kernel
  have hleaf : split demo "probes/a".toList = .ok ["probes".toList, "a".toList] := by
    decide +kernel
  cases hparts.symm.trans hfilter
  rw [hpath] at hbelow
  have heq := Except.ok.inj (hleaf.symm.trans hbelow)
  exact absurd (List.cons.inj heq).1 (by decide +kernel)

end Omp
