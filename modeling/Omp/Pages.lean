import Mathlib.Data.List.ReduceOption
import Omp.BranchNames
import Omp.Concrete
import Omp.Query

/-!
# Following a cursor

A client asks for the first page of a query and then, as long as there is a cursor, for the next
one, while others change the repository between its requests.  Objects are never taken away, so a
commit that was there on the first page is there on all of them, with the same tree and the same
manifests: what matters is whether the cursor still denotes it.

## Main definitions

* `Query.allMatches` : the list of all matches, which the pages are pages of.
* `Query.pageAt` : the pages a client is served.
* `Query.Anchored` : the condition on a request.

## Main results

* `Query.page_spec` : what a page of a snapshot holds, and where its cursor points.
* `Query.pages_partition` : the pages of anchored requests make up the list of all matches.
* `Query.pages_of_moved_branch` : other pages may not.
-/

namespace Omp

open Lib

namespace Query

variable {W : World} {E : CursorErrors}

/-! ### Cursors -/

/-- **A cursor that was encoded is decoded**, if its expression has no separator. -/
theorem decodeCursor_encodeCursor {commit : Option Text} {offset : Nat}
    (hbar : '|' ∉ commit.getD []) (hoffset : offset < 2 ^ 64) :
    decodeCursor E (encodeCursor commit offset) =
      .ok (if commit.getD [] = [] then none else some (commit.getD []), offset) := by
  rw [decodeCursor, encodeCursor, Base64.decode_encode]
  dsimp only
  rw [fromUtf8_utf8]
  dsimp only
  rw [splitOnce_append hbar]
  dsimp only
  rw [parseUsize_decimal hoffset]

/-! ### One page of a snapshot -/

theorem sortedManifests_mono {s s' : Store} (hle : s ≤ s') {root : Hash} {prefix_ : Option Text}
    {l : List (Text × Hash)} (h : sortedManifests W s root prefix_ = .ok l) :
    sortedManifests W s' root prefix_ = .ok l := by
  obtain ⟨entries, hwalk, h⟩ := except_bind_eq_ok.1 h
  exact except_bind_eq_ok.2 ⟨entries, walk_mono hle hwalk, h⟩

theorem matchAt_mono {s s' : Store} (hle : s ≤ s') {predicate : Option Expr}
    {entry : Text × Hash} {m : Option Match} (h : matchAt W s predicate entry = .ok m) :
    matchAt W s' predicate entry = .ok m := by
  unfold matchAt at h ⊢
  cases hs : s.get W.toPlatform entry.2 with
  | none => rw [hs] at h; cases h
  | some o =>
    rw [hs] at h
    rw [Store.get_mono hle hs]
    exact h

/-- A list of manifests is one that vectors can hold. -/
theorem length_lt_of_sortedManifests {s : Store} {root : Hash} {prefix_ : Option Text}
    {l : List (Text × Hash)} (h : sortedManifests W s root prefix_ = .ok l) :
    l.length < 2 ^ 63 := by
  obtain ⟨entries, -, h⟩ := except_bind_eq_ok.1 h
  obtain ⟨entries', hvec, h⟩ := except_bind_eq_ok.1 h
  unfold collectVec at hvec
  split_ifs at hvec with hlen
  · cases hvec
    cases h
    rw [List.length_insertionSort, List.length_map]
    exact (List.length_filter_le _ _).trans_lt hlen

/-- **What a scan finds.**  It stops before the end of the list only when the page is full, and
then it has made progress and names the place where it stopped. -/
theorem scan_spec {s : Store} {predicate : Option Expr} {limit len : Nat} :
    ∀ {l : List (Text × Hash)} {ms : List (Option Match)} {idx : Nat} {found : List Match},
      l.mapM (matchAt W s predicate) = .ok ms → len = idx + l.length → found.length < limit →
      ∃ ms₁ ms₂ next, ms = ms₁ ++ ms₂ ∧
        scan W s predicate limit len idx l found = .ok (found ++ ms₁.reduceOption, next) ∧
        (next = none ∧ ms₂ = [] ∨ next = some (idx + ms₁.length) ∧ ms₁ ≠ [] ∧ ms₂ ≠ []) := by
  intro l
  induction l with
  | nil =>
    intro ms idx found hms _ _
    rw [List.mapM_nil] at hms
    cases hms
    exact ⟨[], [], none, rfl, by rw [scan, List.reduceOption_nil, List.append_nil],
      .inl ⟨rfl, rfl⟩⟩
  | cons entry rest ih =>
    intro ms idx found hms hlen hfound
    rw [List.mapM_cons] at hms
    obtain ⟨m, hm, hms⟩ := except_bind_eq_ok.1 hms
    obtain ⟨ms', hms', hms⟩ := except_bind_eq_ok.1 hms
    cases hms
    have hlen' : len = idx + 1 + rest.length := by
      rw [List.length_cons] at hlen
      omega
    have hcount := length_of_mapM hms'
    have hplace : ∀ (ms₁ : List (Option Match)) (next : Option Nat),
        next = some (idx + 1 + ms₁.length) → ∀ m : Option Match,
          next = some (idx + (m :: ms₁).length) := by
      intro ms₁ next hnext m
      rw [hnext, List.length_cons, Nat.add_assoc, Nat.add_comm 1]
    cases m with
    | none =>
      -- the manifest does not match, and the scan goes on
      obtain ⟨ms₁, ms₂, next, rfl, hscan, hend⟩ := ih hms' hlen' hfound
      refine ⟨none :: ms₁, ms₂, next, rfl, ?_, hend.imp_right fun h =>
        ⟨hplace ms₁ next h.1 none, List.cons_ne_nil _ _, h.2.2⟩⟩
      rw [scan, hm, List.reduceOption_cons_of_none]
      exact hscan
    | some m =>
      by_cases hfull : limit ≤ (found ++ [m]).length
      · -- the page is full
        have hscan : scan W s predicate limit len idx (entry :: rest) found =
            .ok (found ++ [m], if idx + 1 < len then some (idx + 1) else none) := by
          rw [scan, hm]
          exact if_pos hfull
        refine ⟨[some m], ms', _, rfl, hscan, ?_⟩
        by_cases hmore : idx + 1 < len
        · rw [if_pos hmore]
          refine .inr ⟨rfl, List.cons_ne_nil _ _, fun hnil => ?_⟩
          rw [hnil, List.length_nil] at hcount
          omega
        · rw [if_neg hmore]
          exact .inl ⟨rfl, List.length_eq_zero_iff.1 (by omega)⟩
      · obtain ⟨ms₁, ms₂, next, rfl, hscan, hend⟩ := ih hms' hlen' (not_le.1 hfull)
        refine ⟨some m :: ms₁, ms₂, next, rfl, ?_, hend.imp_right fun h =>
          ⟨hplace ms₁ next h.1 (some m), List.cons_ne_nil _ _, h.2.2⟩⟩
        have hgo : scan W s predicate limit len idx (entry :: rest) found =
            scan W s predicate limit len (idx + 1) rest (found ++ [m]) := by
          rw [scan, hm]
          exact if_neg hfull
        rw [hgo, hscan, List.reduceOption_cons_of_some, List.append_assoc]
        rfl

/-- The manifests of a tree in a store, and which of them match. -/
structure Snapshot (W : World) (q : Request) (s : Store) (root : Hash)
    (sorted : List (Text × Hash)) (ms : List (Option Match)) : Prop where
  listed : sortedManifests W s root q.prefix_ = .ok sorted
  found : sorted.mapM (matchAt W s q.predicate) = .ok ms

theorem Snapshot.mono {q : Request} {s s' : Store} (hle : s ≤ s') {root : Hash}
    {sorted : List (Text × Hash)} {ms : List (Option Match)} (h : Snapshot W q s root sorted ms) :
    Snapshot W q s' root sorted ms :=
  ⟨sortedManifests_mono hle h.listed, mapM_mono (fun _ _ _ => matchAt_mono hle) h.found⟩

/-- **A page of a snapshot** holds the matches of a stretch of it, and has a cursor exactly when
manifests are left, which points past the stretch. -/
theorem page_spec {q : Request} {r : Repo} {root : Hash} {effectiveAt : Option Text}
    {sorted : List (Text × Hash)} {ms : List (Option Match)}
    (hroot : r.rootTree W effectiveAt = .ok (some root))
    (hsnap : Snapshot W q r.store root sorted ms) {offset : Nat} (hoffset : offset ≤ ms.length) :
    ∃ ms₁ ms₂ next, ms.drop offset = ms₁ ++ ms₂ ∧
      r.page W q effectiveAt offset =
        .ok ⟨ms₁.reduceOption, next.map (encodeCursor effectiveAt)⟩ ∧
      (next = none ∧ ms₂ = [] ∨ next = some (offset + ms₁.length) ∧ ms₁ ≠ [] ∧ ms₂ ≠ []) := by
  have hlen : sorted.length = offset + (sorted.drop offset).length := by
    rw [List.length_drop, ← length_of_mapM hsnap.found]
    omega
  have hroom : ([] : List Match).length < q.clampedLimit := by
    rw [Request.clampedLimit, List.length_nil]
    omega
  obtain ⟨ms₁, ms₂, next, hsplit, hscan, hend⟩ :=
    scan_spec (mapM_drop offset hsnap.found) hlen hroom
  refine ⟨ms₁, ms₂, next, hsplit, ?_, hend⟩
  refine except_bind_eq_ok.2 ⟨some root, by rw [hroot]; rfl, ?_⟩
  refine except_bind_eq_ok.2 ⟨sorted, hsnap.listed, ?_⟩
  refine except_bind_eq_ok.2 ⟨(ms₁.reduceOption, next), ?_, rfl⟩
  rw [hscan]
  rfl

/-! ### Following the cursors -/

variable (W E) in
/-- What a client asks for after a page, if the page has a cursor. -/
def follow (q : Request) (r : Repo) :
    Except (Fault OmpError) Result → Option (Except (Fault OmpError) Result)
  | .ok ⟨_, some cursor⟩ => some (r.query W E q (some cursor))
  | _ => none

variable (W E) in
/-- The pages a client is served when the repository is in the given state at each of its
requests. -/
def pageAt (q : Request) (rs : Nat → Repo) : Nat → Option (Except (Fault OmpError) Result)
  | 0 => some ((rs 0).query W E q none)
  | k + 1 => (pageAt q rs k).bind (follow W E q (rs (k + 1)))

variable (W) in
/-- All matches in the tree of an expression, in the order of their paths. -/
def allMatches (r : Repo) (q : Request) : Except (Fault OmpError) (List Match) := do
  match ← (r.rootTree W q.at_).mapError .err with
  | none => .ok []
  | some root => do
    let sorted ← sortedManifests W r.store root q.prefix_
    let ms ← (sorted.mapM (matchAt W r.store q.predicate)).mapError .err
    .ok ms.reduceOption

variable (W) in
/-- The condition on a request after the first: no expression is given, or one without a `|` which
denotes the commit it denoted on the first page. -/
def Anchored (q : Request) (r r' : Repo) : Prop :=
  ∀ expr, q.at_ = some expr → '|' ∉ expr ∧
    ∀ h, r.resolveRef W expr = .ok h → r'.resolveRef W expr = .ok h

/-- The pages from one on, to the last. -/
theorem pages_of_snapshot {q : Request} {rs : Nat → Repo} {root : Hash}
    {effectiveAt : Option Text} {sorted : List (Text × Hash)} {ms : List (Option Match)}
    (hsnap : ∀ k, Snapshot W q (rs k).store root sorted ms)
    (hroot : ∀ k, (pageAt W E q rs k).isSome → (rs k).rootTree W effectiveAt = .ok (some root))
    (hquery : ∀ k offset, offset < 2 ^ 64 → (pageAt W E q rs (k + 1)).isSome →
      (rs (k + 1)).query W E q (some (encodeCursor effectiveAt offset)) =
        (rs (k + 1)).page W q effectiveAt offset)
    (hsize : ms.length < 2 ^ 64) :
    ∀ (left k offset : Nat), left = ms.length - offset → offset ≤ ms.length →
      pageAt W E q rs k = some ((rs k).page W q effectiveAt offset) →
      ∃ pages : List Result,
        (∀ j p, pages[j]? = some p → pageAt W E q rs (k + j) = some (.ok p)) ∧
        pageAt W E q rs (k + pages.length) = none ∧
        pages.flatMap Result.matches_ = (ms.drop offset).reduceOption := by
  intro left
  induction left using Nat.strong_induction_on with
  | _ left ih =>
    intro k offset hleft hoffset hpage
    obtain ⟨ms₁, ms₂, next, hsplit, hserved, hend⟩ := page_spec
      (hroot k (by rw [hpage]; rfl)) (hsnap k) hoffset
    rw [hserved] at hpage
    rcases hend with ⟨rfl, rfl⟩ | ⟨rfl, hms₁, hms₂⟩
    · -- the last page, after which the client asks for nothing
      refine ⟨[⟨ms₁.reduceOption, none⟩], ?_, ?_, ?_⟩
      · intro j p hp
        cases j with
        | zero =>
          obtain rfl := Option.some.inj hp
          exact hpage
        | succ j => cases hp
      · change (pageAt W E q rs k).bind _ = none
        rw [hpage]
        rfl
      · rw [hsplit, List.append_nil, List.flatMap_singleton]
    · -- another one follows, which begins where this one ends
      have hlen : (ms.drop offset).length = ms₁.length + ms₂.length := by
        rw [hsplit, List.length_append]
      rw [List.length_drop] at hlen
      have hpos₁ := List.length_pos_iff.2 hms₁
      have hpos₂ := List.length_pos_iff.2 hms₂
      have hasked : pageAt W E q rs (k + 1) = some ((rs (k + 1)).query W E q
          (some (encodeCursor effectiveAt (offset + ms₁.length)))) := by
        rw [pageAt, hpage]
        rfl
      have hnext : pageAt W E q rs (k + 1) =
          some ((rs (k + 1)).page W q effectiveAt (offset + ms₁.length)) := by
        rw [hasked, hquery k _ (by omega) (by rw [hasked]; rfl)]
      obtain ⟨pages, hpages, hstop, hrest⟩ := ih (ms.length - (offset + ms₁.length)) (by omega)
        (k + 1) (offset + ms₁.length) rfl (by omega) hnext
      refine ⟨⟨ms₁.reduceOption, some (encodeCursor effectiveAt (offset + ms₁.length))⟩ :: pages,
        ?_, ?_, ?_⟩
      · intro j p hp
        cases j with
        | zero =>
          obtain rfl := Option.some.inj hp
          exact hpage
        | succ j =>
          rw [← Nat.add_assoc, Nat.add_right_comm]
          exact hpages j p hp
      · rw [List.length_cons, ← Nat.add_assoc, Nat.add_right_comm]
        exact hstop
      · have hdrop : ms.drop (offset + ms₁.length) = ms₂ := by
          rw [← List.drop_drop, hsplit, List.drop_left]
        rw [List.flatMap_cons, hrest, hdrop, hsplit, List.reduceOption_append]

/-- A tree that is read is read again when objects have been added. -/
theorem rootTree_mono {r r' : Repo} (hle : r.store ≤ r'.store) {expr : Text}
    (hsame : ∀ h, r.resolveRef W expr = .ok h → r'.resolveRef W expr = .ok h) {root : Hash}
    (h : r.rootTree W (some expr) = .ok (some root)) :
    r'.rootTree W (some expr) = .ok (some root) := by
  obtain ⟨commit, hcommit, h⟩ := except_bind_eq_ok.1 h
  obtain ⟨tree, htree, h⟩ := except_bind_eq_ok.1 h
  exact except_bind_eq_ok.2 ⟨commit, hsame commit hcommit,
    except_bind_eq_ok.2 ⟨tree, Repo.commitTree_mono hle htree, h⟩⟩

/-- **The tree a page shows** when no expression is given is that of the commit `HEAD` was at, under
the address of which the cursor has it. -/
theorem rootTree_head {r : Repo} {h root : Hash} (hhead : r.resolveHead W = .ok (some h))
    (hroot : r.rootTree W none = .ok (some root)) : r.rootTree W (some h.hex) = .ok (some root) := by
  change r.resolveHead W >>= _ = _ at hroot
  rw [hhead] at hroot
  exact except_bind_eq_ok.2 ⟨h, Repo.resolveRef_hex h, hroot⟩

/-- A cursor for an expression leads to a page of the tree of that expression. -/
theorem query_encodeCursor {q : Request} {r : Repo} {expr : Text} {resolvedAt : Option Text}
    {offset : Nat} (hbar : '|' ∉ expr) (hat : r.resolveAt W q.at_ = .ok resolvedAt)
    (hempty : expr = [] → resolvedAt = some []) (hoffset : offset < 2 ^ 64) :
    r.query W E q (some (encodeCursor (some expr) offset)) = r.page W q (some expr) offset := by
  have hbar' : '|' ∉ (some expr).getD [] := hbar
  unfold Repo.query
  dsimp only
  rw [hat, decodeCursor_encodeCursor hbar' hoffset]
  by_cases hnil : expr = []
  · obtain rfl := hnil
    rw [hempty rfl]
    rfl
  · change r.page W q ((if expr = [] then none else some expr).or resolvedAt) offset = _
    rw [if_neg hnil]
    rfl

/-- The pages when the expression that was effective on the first page keeps its tree. -/
theorem pages_of_effective {q : Request} {rs : Nat → Repo} {root : Hash} {expr : Text}
    {sorted : List (Text × Hash)} {ms : List (Option Match)}
    (hle : ∀ k, (rs 0).store ≤ (rs k).store) (hsnap : Snapshot W q (rs 0).store root sorted ms)
    (hfirst : (rs 0).resolveAt W q.at_ = .ok (some expr))
    (hroot : ∀ k, (pageAt W E q rs k).isSome → (rs k).rootTree W (some expr) = .ok (some root))
    (hnext : ∀ k, (pageAt W E q rs (k + 1)).isSome → '|' ∉ expr ∧
      ∃ resolvedAt, (rs (k + 1)).resolveAt W q.at_ = .ok resolvedAt ∧
        (expr = [] → resolvedAt = some [])) :
    ∃ pages : List Result,
      (∀ k p, pages[k]? = some p → pageAt W E q rs k = some (.ok p)) ∧
      pageAt W E q rs pages.length = none ∧
      pages.flatMap Result.matches_ = ms.reduceOption := by
  have hserved : pageAt W E q rs 0 = some ((rs 0).page W q (some expr) 0) := by
    rw [pageAt, Repo.query, hfirst]
    rfl
  have hquery : ∀ k offset, offset < 2 ^ 64 → (pageAt W E q rs (k + 1)).isSome →
      (rs (k + 1)).query W E q (some (encodeCursor (some expr) offset)) =
        (rs (k + 1)).page W q (some expr) offset := by
    intro k offset hoffset hsome
    obtain ⟨hbar, resolvedAt, hat, hempty⟩ := hnext k hsome
    exact query_encodeCursor hbar hat hempty hoffset
  have hsize : ms.length < 2 ^ 64 := by
    have hlt := length_lt_of_sortedManifests hsnap.listed
    rw [← length_of_mapM hsnap.found] at hlt
    omega
  obtain ⟨pages, hpages, hstop, hmatches⟩ := pages_of_snapshot (fun k => hsnap.mono (hle k)) hroot
    hquery hsize _ 0 0 rfl (Nat.zero_le _) hserved
  refine ⟨pages, fun k p hp => ?_, ?_, hmatches⟩
  · rw [← Nat.zero_add k]
    exact hpages k p hp
  · rw [← Nat.zero_add pages.length]
    exact hstop

end Query

open Query

/-- **The pages of anchored requests partition the matches of the first commit.**  The client
follows the cursors to their end while others make any calls in between. -/
theorem Query.pages_partition {W : World} {E : CursorErrors} {P : Repo → Env × Call → Prop}
    {q : Request} {rs : Nat → Repo} {ms : List Match}
    (hstart : (Repo.lts W).Reachable P Repo.init (rs 0))
    (hsteps : ∀ k, (Repo.lts W).Reachable P (rs k) (rs (k + 1)))
    (hall : allMatches W (rs 0) q = .ok ms)
    (hanchored : ∀ k, (pageAt W E q rs (k + 1)).isSome → Anchored W q (rs 0) (rs (k + 1))) :
    ∃ pages : List Result,
      (∀ k p, pages[k]? = some p → pageAt W E q rs k = some (.ok p)) ∧
      pageAt W E q rs pages.length = none ∧ pages.flatMap Result.matches_ = ms := by
  have hreach : ∀ k, (Repo.lts W).Reachable P (rs 0) (rs k) := by
    intro k
    induction k with
    | zero => exact .refl _
    | succ k ih => exact Relation.ReflTransGen.trans ih (hsteps k)
  have hle : ∀ k, (rs 0).store ≤ (rs k).store := by
    intro k
    refine (hreach k).invariant (I := fun r => (rs 0).store ≤ r.store) (le_refl _) ?_
    rintro s l s' hs - rfl
    exact le_trans hs ((l.2.run W l.1).grows s)
  have hhead : ∀ k, ∃ o, (rs k).resolveHead W = .ok o := by
    intro k
    exact Repo.resolveHead_of_reachable (Relation.ReflTransGen.trans hstart (hreach k))
  obtain ⟨o, htree, hall⟩ := except_bind_eq_ok.1 hall
  rw [mapError_eq_ok] at htree
  cases hat : q.at_ with
  | some expr =>
    rw [hat] at htree
    obtain ⟨commit, hcommit, hroot⟩ := except_bind_eq_ok.1 htree
    obtain ⟨root, hcommitTree, hroot⟩ := except_bind_eq_ok.1 hroot
    cases hroot
    obtain ⟨sorted, hsorted, hall⟩ := except_bind_eq_ok.1 hall
    obtain ⟨found, hfound, hall⟩ := except_bind_eq_ok.1 hall
    rw [mapError_eq_ok] at hfound
    cases hall
    refine pages_of_effective hle ⟨hsorted, hfound⟩ (by rw [hat]; rfl) ?_ ?_
    · -- the expression denotes the first commit on the first page, and on the others
      intro k hsome
      cases k with
      | zero => exact htree
      | succ k => exact rootTree_mono (hle _) (hanchored k hsome expr hat).2 htree
    · intro k hsome
      exact ⟨(hanchored k hsome expr hat).1, some expr, by rw [hat]; rfl, fun h => by rw [h]⟩
  | none =>
    rw [hat] at htree
    obtain ⟨head, hresolve, hroot⟩ := except_bind_eq_ok.1 htree
    cases head with
    | none =>
      -- there is no commit yet, and one empty page
      cases hroot
      cases hall
      have hpage : pageAt W E q rs 0 = some (.ok ⟨[], none⟩) := by
        rw [pageAt, Repo.query, hat]
        change some ((Except.mapError Fault.err ((rs 0).resolveHead W >>= _)) >>= _) = _
        rw [hresolve]
        change some ((Except.mapError Fault.err ((rs 0).resolveHead W >>= _)) >>= _) = _
        rw [hresolve]
        rfl
      refine ⟨[⟨[], none⟩], ?_, ?_, rfl⟩
      · intro k p hp
        cases k with
        | zero =>
          obtain rfl := Option.some.inj hp
          exact hpage
        | succ k => cases hp
      · change (pageAt W E q rs 0).bind _ = none
        rw [hpage]
        rfl
    | some h =>
      -- the cursor has the address of the commit, which stands for itself
      obtain ⟨root, -, hsome⟩ := except_bind_eq_ok.1 hroot
      cases hsome
      obtain ⟨sorted, hsorted, hall⟩ := except_bind_eq_ok.1 hall
      obtain ⟨found, hfound, hall⟩ := except_bind_eq_ok.1 hall
      rw [mapError_eq_ok] at hfound
      cases hall
      have hexpr := rootTree_head hresolve htree
      have heffective : (rs 0).resolveAt W q.at_ = .ok (some h.hex) := by
        rw [hat]
        exact except_bind_eq_ok.2 ⟨some h, hresolve, rfl⟩
      refine pages_of_effective hle ⟨hsorted, hfound⟩ heffective ?_ ?_
      · intro k _
        exact rootTree_mono (hle k) (fun g hg => by
          rw [Repo.resolveRef_hex] at hg ⊢
          exact hg) hexpr
      · intro k _
        obtain ⟨o, ho⟩ := hhead (k + 1)
        refine ⟨Hash.not_mem_hex (by decide), o.map Hash.hex, ?_, fun hnil => ?_⟩
        · rw [hat]
          exact except_bind_eq_ok.2 ⟨o, ho, rfl⟩
        · exact absurd hnil (Hash.hex_ne (by decide))

/-- A text that stands for a schema of all files. -/
def anyFileText : Text := "file_type = \"any\"".toList

/-- A world with one schema. -/
def anyFileWorld : World :=
  demoWorld ⟨[(anyFileText, ⟨"any".toList, ["*/*".toList], none, []⟩)], [], []⟩

/-- Surroundings with that schema in the working tree. -/
def anyFileEnv : Env :=
  { demoEnv with
    workFile := fun path =>
      if path = Repo.schemaPath "any".toList then some (utf8 anyFileText) else none
    schemaDirs := ["any".toList] }

/-- The texts of the errors do not matter here. -/
def demoErrors : CursorErrors := ⟨id, fun _ => [], id⟩

/-- A repository with two files. -/
def twoFiles : Repo :=
  Repo.init.after anyFileWorld anyFileEnv
    [.add ⟨"a".toList, [1], none, none⟩, .add ⟨"b".toList, [2], none, none⟩,
      .commit "two".toList ⟨none, none, none⟩]

/-- The repository when the first of its files was removed. -/
def oneFile : Repo :=
  twoFiles.after anyFileWorld anyFileEnv
    [.remove "a".toList, .commit "one".toList ⟨none, none, none⟩]

/-- The repository when a client asks for its pages: the file is removed after the first one. -/
def whilePaging : Nat → Repo
  | 0 => twoFiles
  | _ + 1 => oneFile

theorem reachable_twoFiles :
    (Repo.lts anyFileWorld).Reachable (fun _ _ => True) Repo.init twoFiles :=
  Repo.reachable_after _ (.refl _) fun _ _ _ => trivial

theorem reachable_whilePaging : ∀ k, (Repo.lts anyFileWorld).Reachable (fun _ _ => True)
    (whilePaging k) (whilePaging (k + 1))
  | 0 => Repo.reachable_after _ (.refl _) fun _ _ _ => trivial
  | _ + 1 => .refl _

/-- The paths of all matches, or of those of a page. -/
def pathsOf (ms : List Match) : List Text := ms.map Match.path

theorem exists_allMatches (q : Request) (paths : List Text)
    (h : (allMatches anyFileWorld twoFiles q).toOption.map pathsOf = some paths) :
    ∃ ms, allMatches anyFileWorld twoFiles q = .ok ms ∧ pathsOf ms = paths := by
  cases hall : allMatches anyFileWorld twoFiles q with
  | error e =>
    rw [hall] at h
    cases h
  | ok ms =>
    rw [hall] at h
    exact ⟨ms, rfl, Option.some.inj h⟩

theorem Query.pages_partition_demo : ∃ ms : List Match, pathsOf ms = ["a".toList, "b".toList] ∧
    ∃ pages : List Result,
      (∀ k p, pages[k]? = some p →
        pageAt anyFileWorld demoErrors ⟨none, none, none, 1⟩ whilePaging k = some (.ok p)) ∧
      pageAt anyFileWorld demoErrors ⟨none, none, none, 1⟩ whilePaging pages.length = none ∧
      pages.flatMap Result.matches_ = ms := by
  obtain ⟨ms, hall, hpaths⟩ := exists_allMatches ⟨none, none, none, 1⟩ ["a".toList, "b".toList]
    (by decide +kernel)
  refine ⟨ms, hpaths, Query.pages_partition reachable_twoFiles reachable_whilePaging hall ?_⟩
  intro k _ expr hat
  cases hat

/-- What a client sees of a page. -/
def pathsOfPage (p : Except (Fault OmpError) Result) : Option (List Text) :=
  p.toOption.map fun p => pathsOf p.matches_

/-- What a client sees that is served two pages. -/
theorem paths_of_two_pages {served : Nat → Option (Except (Fault OmpError) Result)}
    {paths₁ paths₂ : List Text} (hfirst : (served 0).bind pathsOfPage = some paths₁)
    (hsecond : (served 1).bind pathsOfPage = some paths₂) (hthird : served 2 = none)
    {pages : List Result} (hpages : ∀ k p, pages[k]? = some p → served k = some (.ok p))
    (hstop : served pages.length = none) :
    pathsOf (pages.flatMap Result.matches_) = paths₁ ++ paths₂ := by
  match pages, hpages, hstop with
  | [], _, hstop =>
    rw [List.length_nil] at hstop
    rw [hstop] at hfirst
    cases hfirst
  | [_], _, hstop =>
    rw [List.length_singleton] at hstop
    rw [hstop] at hsecond
    cases hsecond
  | [p₁, p₂], hpages, _ =>
    rw [hpages 0 p₁ rfl] at hfirst
    rw [hpages 1 p₂ rfl] at hsecond
    have h₁ : pathsOf p₁.matches_ = paths₁ := Option.some.inj hfirst
    have h₂ : pathsOf p₂.matches_ = paths₂ := Option.some.inj hsecond
    rw [← h₁, ← h₂, List.flatMap_cons, List.flatMap_singleton, pathsOf, List.map_append]
    rfl
  | _ :: _ :: p₃ :: _, hpages, _ =>
    rw [hpages 2 p₃ rfl] at hthird
    cases hthird

/-- **A branch that moves between two pages loses a match**: the second file is on neither page,
though it is still there. -/
theorem Query.pages_of_moved_branch : ∃ rs : Nat → Repo, ∃ q : Request, ∃ ms : List Match,
    (Repo.lts anyFileWorld).Reachable (fun _ _ => True) Repo.init (rs 0) ∧
    (∀ k, (Repo.lts anyFileWorld).Reachable (fun _ _ => True) (rs k) (rs (k + 1))) ∧
    allMatches anyFileWorld (rs 0) q = .ok ms ∧
    ¬ ∃ pages : List Result,
      (∀ k p, pages[k]? = some p → pageAt anyFileWorld demoErrors q rs k = some (.ok p)) ∧
      pageAt anyFileWorld demoErrors q rs pages.length = none ∧
      pages.flatMap Result.matches_ = ms := by
  -- what is computed of the two states is computed at once
  have hruns : (allMatches anyFileWorld twoFiles ⟨some "main".toList, none, none, 1⟩).toOption.map
        pathsOf = some ["a".toList, "b".toList] ∧
      (pageAt anyFileWorld demoErrors ⟨some "main".toList, none, none, 1⟩ whilePaging 0).bind
        pathsOfPage = some ["a".toList] ∧
      (pageAt anyFileWorld demoErrors ⟨some "main".toList, none, none, 1⟩ whilePaging 1).bind
        pathsOfPage = some [] ∧
      (pageAt anyFileWorld demoErrors ⟨some "main".toList, none, none, 1⟩
        whilePaging 2).isNone = true := by decide +kernel
  obtain ⟨hpaths, hfirst, hsecond, hthird⟩ := hruns
  obtain ⟨ms, hall, hpaths⟩ := exists_allMatches _ _ hpaths
  refine ⟨whilePaging, _, ms, reachable_twoFiles, reachable_whilePaging, hall, ?_⟩
  rintro ⟨pages, hpages, hstop, rfl⟩
  rw [paths_of_two_pages hfirst hsecond (Option.isNone_iff_eq_none.1 hthird) hpages hstop] at hpaths
  revert hpaths
  decide

end Omp
