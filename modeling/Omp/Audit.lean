import Omp.Concrete
import Omp.Lib.Links
import Omp.Untrusted

/-!
# The audit log

Entries are stored as objects, each of which names the one before it, and a reference names the
last.  An auditor follows the parents and compares what is stored with the addresses it is stored
under.

The store that is audited may have been changed.  A changed entry can name any parent, also one
that leads back to it, and then the auditor never comes to an end.

## Main definitions

* `AuditEntry`, `AuditCodec` : entries, and their form in the store.
* `Audit.append`, `Audit.verifyChain` : what is done with the log.
* `Audit.Chain`, `Audit.Logged` : the entries an auditor meets, and those that were appended.

## Main results

* `Audit.readLoop_eq_ok` : what an auditor that comes to an end has seen.
* `Audit.verifyChain_correct` : when the auditor comes to an end, and that what passes is intact.
* `Audit.verifyChain_stuck` : an entry that was changed to name itself.
-/

namespace Omp

open Lib

/-! ### Entries -/

/-- The values of details. -/
inductive AuditValue where
  | null
  | string (s : Text)
  | int (n : Int64)
  | bool (b : Bool)
  | list (items : List AuditValue)

/-- An entry of the log. -/
structure AuditEntry where
  version : UInt32
  parent : Option Hash
  at_ : Text
  tenant : Text
  event : Text
  actor : Text
  details : TextMap AuditValue

/-- The CBOR form of entries, which a library writes and reads. -/
structure AuditCodec where
  encode : AuditEntry → Except Text Bytes
  decode : Bytes → Except Text AuditEntry

/-- What was written is either read as it was or not at all. -/
def AuditCodec.Lossless (C : AuditCodec) : Prop :=
  ∀ e bytes e', C.encode e = .ok bytes → C.decode bytes = .ok e' → e' = e

namespace Audit

/-- `AUDIT_HEAD_REF`. -/
def headRef : Text := "refs/audit/HEAD".toList

variable (W : World) (C : AuditCodec)

/-- `AuditEntry::encode`. -/
def encode (e : AuditEntry) : Except OmpError Bytes :=
  (C.encode e).mapError fun e => .internal ("audit cbor encode: ".toList ++ e)

/-- `AuditEntry::decode`. -/
def decode (bytes : Bytes) : Except OmpError AuditEntry :=
  (C.decode bytes).mapError fun e => .internal ("audit cbor decode: ".toList ++ e)

/-- `append`. -/
def append (entry : AuditEntry) : RepoOp Hash := do
  let parent ← Op.reads fun r => r.readRef W headRef
  let bytes ← Op.lift (encode C { entry with parent := parent })
  let hash ← Repo.onStore (Store.put W.toPlatform .audit bytes)
  Repo.writeRef W headRef hash
  pure hash

/-- One round of the loop of `read_chain_verified` : the entry at an address, and whether its
content has that address. -/
def readEntry (s : StoreView) (h : Hash) : Except OmpError (AuditEntry × Bool) := do
  match ← s.get h with
  | none => .error (.notFound ("audit entry ".toList ++ h.hex))
  | some o =>
    if o.type ≠ .audit then
      .error (.corrupt ("ref ".toList ++ headRef ++ " points at non-audit object ".toList ++ h.hex))
    else do
      let entry ← decode C o.content
      .ok (entry, hashOf W.toPlatform .audit o.content = h)

/-- The loop of `read_chain_verified`, for at most so many rounds. -/
def readLoop (s : StoreView) (limit : Nat) :
    Nat → Option Hash → List AuditEntry → Bool → Option (Except OmpError (List AuditEntry × Bool))
  | _, none, out, verified => some (.ok (out, verified))
  | 0, some _, _, _ => none
  | rounds + 1, some h, out, verified => match readEntry W C s h with
    | .error e => some (.error e)
    | .ok (entry, intact) =>
      readLoop s limit rounds entry.parent (if out.length < limit then out ++ [entry] else out)
        (verified && intact)

/-- `read_chain_verified`. -/
def readChainVerified (s : StoreView) (limit rounds : Nat) :
    Option (Except OmpError (List AuditEntry × Bool)) :=
  match s.readRef headRef with
  | .error e => some (.error e)
  | .ok head => readLoop W C s limit rounds head [] true

/-- `verify_chain`, for at most so many rounds. -/
def verifyChain (s : StoreView) (rounds : Nat) : Option (Except OmpError Bool) :=
  (readChainVerified W C s (2 ^ 64 - 1) rounds).map fun r => r.map Prod.snd

/-! ### What an auditor meets -/

/-- The parent of the entry at an address. -/
def parentOf (s : StoreView) (h : Hash) : Option Hash :=
  match readEntry W C s h with
  | .ok (entry, _) => entry.parent
  | .error _ => none

/-- The address of the last entry. -/
def head (s : StoreView) : Option Hash :=
  match s.readRef headRef with
  | .ok head => head
  | .error _ => none

/-- The content stored at an address has that address. -/
def Intact (s : StoreView) (h : Hash) : Prop :=
  ∃ content, s.get h = .ok (some ⟨.audit, content⟩) ∧ hashOf W.toPlatform .audit content = h

/-- The addresses of the entries from one back to one without parent. -/
inductive Chain (s : StoreView) : Option Hash → List Hash → Prop
  | nil : Chain s none []
  | cons {h : Hash} {hs : List Hash} {content : Bytes} {entry : AuditEntry}
      (stored : s.get h = .ok (some ⟨.audit, content⟩)) (decoded : C.decode content = .ok entry)
      (rest : Chain s entry.parent hs) : Chain s (some h) (h :: hs)

variable {W C}

theorem readEntry_eq_ok {s : StoreView} {h : Hash} {entry : AuditEntry} {intact : Bool} :
    readEntry W C s h = .ok (entry, intact) ↔ ∃ content,
      s.get h = .ok (some ⟨.audit, content⟩) ∧ C.decode content = .ok entry ∧
      intact = decide (hashOf W.toPlatform .audit content = h) := by
  constructor
  · intro hread
    obtain ⟨o, hget, hread⟩ := except_bind_eq_ok.1 hread
    cases o with
    | none => cases hread
    | some o =>
      obtain ⟨type, content⟩ := o
      dsimp only at hread
      split_ifs at hread with htype
      obtain rfl : type = .audit := not_not.1 htype
      obtain ⟨e, hdecode, hread⟩ := except_bind_eq_ok.1 hread
      cases hread
      exact ⟨content, hget, mapError_eq_ok.1 hdecode, rfl⟩
  · rintro ⟨content, hget, hdecode, rfl⟩
    refine except_bind_eq_ok.2 ⟨_, hget, ?_⟩
    refine (if_neg (not_not.2 rfl)).trans ?_
    exact except_bind_eq_ok.2 ⟨entry, mapError_eq_ok.2 hdecode, rfl⟩

/-- **An auditor with enough rounds** is one that comes to an end of the parents. -/
theorem isSome_readLoop {s : StoreView} {limit : Nat} :
    ∀ {rounds : Nat} {next : Option Hash} {out : List AuditEntry} {verified : Bool},
      (readLoop W C s limit rounds next out verified).isSome ↔
        Links.visit (parentOf W C s) next rounds = none := by
  intro rounds
  induction rounds with
  | zero =>
    intro next out verified
    cases next with
    | none => exact iff_of_true rfl rfl
    | some h => exact iff_of_false Bool.false_ne_true (Option.some_ne_none h)
  | succ rounds ih =>
    intro next out verified
    cases next with
    | none => exact iff_of_true rfl (Links.visit_none _)
    | some h =>
      rw [Links.visit_succ', Option.bind_some, readLoop, parentOf]
      cases readEntry W C s h with
      | error e => exact iff_of_true rfl (Links.visit_none _)
      | ok p => exact ih

/-- **What an auditor that comes to an end has seen**: a chain, which it says is verified exactly
when all of it is intact. -/
theorem readLoop_eq_ok {s : StoreView} {limit : Nat} :
    ∀ {rounds : Nat} {next : Option Hash} {out out' : List AuditEntry} {verified verified' : Bool},
      readLoop W C s limit rounds next out verified = some (.ok (out', verified')) →
      ∃ hs, Chain C s next hs ∧
        (verified' = true ↔ verified = true ∧ ∀ h ∈ hs, Intact W s h) := by
  intro rounds
  induction rounds with
  | zero =>
    intro next out out' verified verified' h
    cases next with
    | some h' => cases h
    | none =>
      cases h
      exact ⟨[], .nil, by simp⟩
  | succ rounds ih =>
    intro next out out' verified verified' h
    cases next with
    | none =>
      cases h
      exact ⟨[], .nil, by simp⟩
    | some a =>
      rw [readLoop] at h
      cases hread : readEntry W C s a with
      | error e =>
        rw [hread] at h
        cases h
      | ok p =>
        obtain ⟨entry, intact⟩ := p
        rw [hread] at h
        obtain ⟨hs, hchain, hverified⟩ := ih h
        obtain ⟨content, hget, hdecode, hintact⟩ := readEntry_eq_ok.1 hread
        refine ⟨a :: hs, .cons hget hdecode hchain, ?_⟩
        have hsame : intact = true ↔ Intact W s a := by
          rw [hintact, decide_eq_true_eq]
          refine ⟨fun haddr => ⟨content, hget, haddr⟩, ?_⟩
          rintro ⟨content', hget', haddr⟩
          rw [hget, Except.ok.injEq, Option.some.injEq, Object.mk.injEq] at hget'
          rwa [hget'.2]
        rw [hverified, Bool.and_eq_true, hsame, List.forall_mem_cons, and_assoc]

/-- An auditor of a store comes to an end when the parents of its last entry do. -/
theorem isSome_verifyChain {s : StoreView} {rounds : Nat} :
    (verifyChain W C s rounds).isSome ↔
      Links.visit (parentOf W C s) (head s) rounds = none := by
  rw [verifyChain, Option.isSome_map, readChainVerified, head]
  cases s.readRef headRef with
  | error e => exact iff_of_true rfl (Links.visit_none _)
  | ok next => exact isSome_readLoop

/-- **A log that is verified is intact.** -/
theorem chain_of_verifyChain {s : StoreView} {rounds : Nat}
    (h : verifyChain W C s rounds = some (.ok true)) :
    ∃ hs, Chain C s (head s) hs ∧ ∀ a ∈ hs, Intact W s a := by
  obtain ⟨res, hread, hmap⟩ := Option.map_eq_some_iff.1 h
  obtain ⟨⟨out, verified⟩, rfl, rfl⟩ := map_eq_ok.1 hmap
  rw [readChainVerified] at hread
  rw [head]
  cases hhead : s.readRef headRef with
  | error e =>
    rw [hhead] at hread
    cases hread
  | ok next =>
    rw [hhead] at hread
    obtain ⟨hs, hchain, hverified⟩ := readLoop_eq_ok hread
    exact ⟨hs, hchain, (hverified.1 rfl).2⟩

/-! ### What was appended -/

variable (W C) in
/-- The addresses of the entries of a log as they were written, the last first. -/
inductive Logged (s : Store) : Option Hash → List Hash → Prop
  | nil : Logged s none []
  | cons {h : Hash} {hs : List Hash} {content : Bytes} {entry : AuditEntry}
      (stored : s.get W.toPlatform h = some ⟨.audit, content⟩)
      (encoded : C.encode entry = .ok content)
      (rest : Logged s entry.parent hs) : Logged s (some h) (h :: hs)

theorem Logged.mono {s s' : Store} (hle : s ≤ s') {next : Option Hash} {hs : List Hash}
    (h : Logged W C s next hs) : Logged W C s' next hs := by
  induction h with
  | nil => exact .nil
  | cons hstored hencoded _ ih => exact .cons (Store.get_mono hle hstored) hencoded ih

variable (W C) in
/-- The states after a number of appends to a log that was empty, while others store objects and
move other references. -/
inductive Grown : Repo → Nat → Prop
  | start {r : Repo} (empty : r.readRef W headRef = .ok none) : Grown r 0
  | other {r r' : Repo} {n : Nat} (before : Grown r n) (store : r.store ≤ r'.store)
      (unmoved : r'.readRef W headRef = r.readRef W headRef) : Grown r' n
  | append {r r' : Repo} {n : Nat} {entry : AuditEntry} {h : Hash} (before : Grown r n)
      (run : (append W C entry).run r = (.ok h, r')) : Grown r' (n + 1)

/-- **What an append does.** -/
theorem append_eq_ok {entry : AuditEntry} {r r' : Repo} {h : Hash}
    (hrun : (append W C entry).run r = (.ok h, r')) :
    ∃ parent content, r.readRef W headRef = .ok parent ∧
      C.encode { entry with parent := parent } = .ok content ∧
      h = hashOf W.toPlatform .audit content ∧
      r'.store = ⟨r.store.objects ++ [⟨.audit, content⟩]⟩ ∧
      r'.readRef W headRef = .ok (some h) := by
  obtain ⟨parent, r₁, hreads, hrun⟩ := Op.bind_eq_ok.1 hrun
  obtain ⟨hparent, rfl⟩ := Op.reads_eq_ok.1 hreads
  obtain ⟨content, r₂, hlift, hrun⟩ := Op.bind_eq_ok.1 hrun
  obtain ⟨hencode, rfl⟩ := Op.lift_eq_ok.1 hlift
  obtain ⟨g, r₃, honStore, hrun⟩ := Op.bind_eq_ok.1 hrun
  obtain ⟨s, hput, rfl⟩ := Repo.onStore_eq_ok.1 honStore
  obtain ⟨rfl, rfl⟩ := Store.put_eq_ok hput
  obtain ⟨u, r₄, hwrite, hrun⟩ := Op.bind_eq_ok.1 hrun
  obtain ⟨rfl, rfl⟩ := Op.pure_eq_ok.1 hrun
  obtain ⟨path, r₅, hlift', hwrite⟩ := Op.bind_eq_ok.1 hwrite
  obtain ⟨hpath, rfl⟩ := Op.lift_eq_ok.1 hlift'
  cases hwrite
  refine ⟨parent, content, hparent, mapError_eq_ok.1 hencode, rfl, rfl, ?_⟩
  refine except_bind_eq_ok.2 ⟨path, hpath, congrArg Except.ok ?_⟩
  rw [Std.ExtTreeMap.getElem?_insert_self]

/-- **A log has an entry for each append.** -/
theorem Grown.exists_logged {r : Repo} {n : Nat} (h : Grown W C r n)
    (hcf : r.store.CollisionFree W.toPlatform) :
    ∃ last hs, r.readRef W headRef = .ok last ∧ Logged W C r.store last hs ∧ hs.length = n := by
  induction h with
  | start hempty => exact ⟨none, [], hempty, .nil, rfl⟩
  | other _ hle hunmoved ih =>
    obtain ⟨last, hs, hlast, hlogged, hlen⟩ := ih (hcf.down hle)
    exact ⟨last, hs, hunmoved.trans hlast, hlogged.mono hle, hlen⟩
  | append _ hrun ih =>
    obtain ⟨parent, content, hparent, hencode, rfl, hstore, hnew⟩ := append_eq_ok hrun
    have hle := Op.le_of_run hrun
    obtain ⟨last, hs, hlast, hlogged, hlen⟩ := ih (hcf.down hle)
    cases hparent.symm.trans hlast
    refine ⟨_, _, hnew, .cons ?_ hencode (hlogged.mono hle), congrArg Nat.succ hlen⟩
    refine Cas.find_of_mem hcf ?_
    rw [hstore]
    exact List.mem_append_right _ (List.mem_singleton_self _)

theorem Logged.exists_stored {s : Store} {next : Option Hash} {hs : List Hash}
    (h : Logged W C s next hs) {a : Hash} (ha : a ∈ hs) :
    ∃ content, s.get W.toPlatform a = some ⟨.audit, content⟩ := by
  induction h with
  | nil => cases ha
  | cons hstored _ _ ih =>
    rcases List.mem_cons.1 ha with rfl | ha
    · exact ⟨_, hstored⟩
    · exact ih ha

/-- An auditor meets every entry that was appended, up to the one that was changed. -/
theorem Logged.mem_of_chain {s : Store} {v : StoreView} (hC : C.Lossless) {a : Hash}
    (hsame : ∀ h, h ≠ a → v.get h = .ok (s.get W.toPlatform h)) {next : Option Hash}
    {hs hs' : List Hash} (hlogged : Logged W C s next hs) (hchain : Chain C v next hs')
    (ha : a ∈ hs) : a ∈ hs' := by
  induction hlogged generalizing hs' with
  | nil => cases ha
  | @cons h hs content entry hstored hencoded _ ih =>
    obtain ⟨hs', rfl⟩ : ∃ hs'', hs' = h :: hs'' := by
      cases hchain
      exact ⟨_, rfl⟩
    by_cases hne : h = a
    · rw [hne]
      exact List.mem_cons_self
    · obtain _ | ⟨hget, hdecode, hrest⟩ := hchain
      -- an entry that was not changed is read as it was written
      rw [hsame h hne, hstored, Except.ok.injEq, Option.some.injEq, Object.mk.injEq] at hget
      obtain ⟨-, rfl⟩ := hget
      obtain rfl := hC _ _ _ hencoded hdecode
      rcases List.mem_cons.1 ha with rfl | ha
      · exact absurd rfl hne
      · exact List.mem_cons_of_mem _ (ih hrest ha)

/-- What is appended ends. -/
theorem Logged.visit_eq_none {r : Repo} (hC : C.Lossless) {next : Option Hash} {hs : List Hash}
    (h : Logged W C r.store next hs) :
    Links.visit (parentOf W C (r.view W)) next hs.length = none := by
  induction h with
  | nil => rfl
  | @cons h hs content entry hstored hencoded _ ih =>
    rw [List.length_cons, Links.visit_succ', Option.bind_some, parentOf]
    cases hread : readEntry W C (r.view W) h with
    | error e => exact Links.visit_none _
    | ok p =>
      obtain ⟨entry', intact⟩ := p
      obtain ⟨content', hget, hdecode, -⟩ := readEntry_eq_ok.1 hread
      have hsame : (⟨.audit, content⟩ : Object) = ⟨.audit, content'⟩ :=
        Option.some.inj (hstored.symm.trans (Except.ok.inj hget))
      cases hsame
      cases hC _ _ _ hencoded hdecode
      exact ih

/-- In a store that nobody changed, what is stored is intact. -/
theorem intact_of_chain {r : Repo} {next : Option Hash} {hs : List Hash}
    (h : Chain C (r.view W) next hs) {a : Hash} (ha : a ∈ hs) : Intact W (r.view W) a := by
  induction h with
  | nil => cases ha
  | @cons h hs content entry hstored _ _ ih =>
    rcases List.mem_cons.1 ha with rfl | ha
    · exact ⟨content, hstored, Store.hashOf_of_get (Except.ok.inj hstored)⟩
    · exact ih ha

theorem head_of_readRef {r : Repo} {last : Option Hash} (h : r.readRef W headRef = .ok last) :
    head (r.view W) = last := by
  have hview : (r.view W).readRef headRef = .ok last := h
  rw [head, hview]

end Audit

open Audit

/-- **When an audit ends, and what it shows.**  An auditor of any store comes to an end exactly when
the parents do not lead back; a log that is verified is intact; and of a log that was appended to
the auditor comes to an end, finds no fault in it, and verifies none in which a single entry was
changed, in whatever way. -/
theorem Audit.verifyChain_correct {W : World} {C : AuditCodec} (hC : C.Lossless) :
    (∀ s : StoreView, (∃ rounds, (verifyChain W C s rounds).isSome) ↔
      ¬ Links.Loops (parentOf W C s) (head s)) ∧
    (∀ (s : StoreView) (rounds : Nat), verifyChain W C s rounds = some (.ok true) →
      ∃ hs, Chain C s (head s) hs ∧ ∀ h ∈ hs, Intact W s h) ∧
    ∀ (r : Repo) (n : Nat), Grown W C r n → r.store.CollisionFree W.toPlatform →
      ∃ hs, Logged W C r.store (head (r.view W)) hs ∧ hs.length = n ∧
        (∃ rounds, verifyChain W C (r.view W) rounds ≠ none ∧
          verifyChain W C (r.view W) rounds ≠ some (.ok false)) ∧
        ∀ a ∈ hs, ∀ answer, answer ≠ (r.view W).get a →
          (∀ o ∈ r.store.get W.toPlatform a, ∀ o', answer = .ok (some o') →
            o'.address W.toPlatform = o.address W.toPlatform → o' = o) →
          ∀ rounds, verifyChain W C ((r.view W).alter a answer) rounds ≠ some (.ok true) := by
  refine ⟨fun s => ?_, fun _ _ => chain_of_verifyChain, fun r n hgrown hcf => ?_⟩
  · rw [← Links.ends_iff]
    exact exists_congr fun _ => isSome_verifyChain
  · obtain ⟨last, hs, hlast, hlogged, hlen⟩ := hgrown.exists_logged hcf
    have hhead : head (r.view W) = last := head_of_readRef hlast
    refine ⟨hs, hhead ▸ hlogged, hlen, ?_, fun a ha answer hne hcollide rounds hverified => ?_⟩
    · refine ⟨hs.length, Option.isSome_iff_ne_none.1 (isSome_verifyChain.2 ?_), fun hfalse => ?_⟩
      · rw [hhead]
        exact hlogged.visit_eq_none hC
      · -- in a store that was not changed everything is intact
        obtain ⟨res, hread, hmap⟩ := Option.map_eq_some_iff.1 hfalse
        obtain ⟨⟨out, verified⟩, rfl, rfl⟩ := map_eq_ok.1 hmap
        have hread' : readLoop W C (r.view W) (2 ^ 64 - 1) hs.length last [] true =
            some (.ok (out, false)) := by
          rw [readChainVerified] at hread
          have hview : (r.view W).readRef headRef = .ok last := hlast
          rwa [hview] at hread
        obtain ⟨hs', hchain, hverified⟩ := readLoop_eq_ok hread'
        cases hverified.2 ⟨rfl, fun h hh => intact_of_chain hchain hh⟩
    obtain ⟨hs', hchain, hintact⟩ := chain_of_verifyChain hverified
    have hmem : a ∈ hs' := by
      refine hlogged.mem_of_chain hC (v := (r.view W).alter a answer)
        (fun h hne => StoreView.get_alter_of_ne hne) ?_ ha
      have hsame : head ((r.view W).alter a answer) = last := hhead
      rwa [hsame] at hchain
    obtain ⟨content, hget, haddr⟩ := hintact a hmem
    rw [StoreView.get_alter_self] at hget
    -- what passes has the address of what was appended, and is that
    obtain ⟨content', hstored⟩ := hlogged.exists_stored ha
    have hsame : (⟨.audit, content⟩ : Object) = ⟨.audit, content'⟩ :=
      hcollide _ hstored _ hget (haddr.trans (Store.hashOf_of_get hstored).symm)
    refine hne (hget.trans ?_)
    rw [hsame]
    exact congrArg Except.ok hstored.symm

/-! ### An entry that names itself -/

namespace Audit

/-- A short text in CBOR. -/
def cborText (t : Text) : Bytes :=
  let bytes := utf8 t
  if bytes.length < 24 then UInt8.ofNat (0x60 + bytes.length) :: bytes
  else 0x78 :: UInt8.ofNat bytes.length :: bytes

/-- A first entry without details, or one with a parent, in CBOR. -/
def cborEntry (e : AuditEntry) : Bytes :=
  [0xa7] ++ cborText "version".toList ++ [UInt8.ofNat e.version.toNat] ++
    cborText "parent".toList ++ (e.parent.map fun h => cborText h.hex).getD [0xf6] ++
    cborText "at".toList ++ cborText e.at_ ++ cborText "tenant".toList ++ cborText e.tenant ++
    cborText "event".toList ++ cborText e.event ++ cborText "actor".toList ++ cborText e.actor ++
    cborText "details".toList ++ [0xa0]

/-- The only entry of a log. -/
def demoEntry : AuditEntry where
  version := 1
  parent := none
  at_ := "2026-04-21T10:14:00Z".toList
  tenant := "alice".toList
  event := "token.accepted".toList
  actor := "tok123".toList
  details := ∅

/-- Its address. -/
def demoAddress : Hash := hashOf demo .audit (cborEntry demoEntry)

/-- The entry when it was changed to name itself. -/
def loopEntry : AuditEntry := { demoEntry with parent := some demoAddress }

/-- Whether an entry is that of the log. -/
def isDemoEntry (e : AuditEntry) : Bool :=
  e.version = 1 && e.parent = none && e.at_ = "2026-04-21T10:14:00Z".toList &&
    e.tenant = "alice".toList && e.event = "token.accepted".toList && e.actor = "tok123".toList &&
    e.details.isEmpty

theorem eq_of_isDemoEntry {e : AuditEntry} (h : isDemoEntry e = true) : e = demoEntry := by
  obtain ⟨version, parent, at_, tenant, event, actor, details⟩ := e
  unfold isDemoEntry at h
  simp only [Bool.and_eq_true, decide_eq_true_eq, Std.ExtTreeMap.isEmpty_iff] at h
  obtain ⟨⟨⟨⟨⟨⟨rfl, rfl⟩, rfl⟩, rfl⟩, rfl⟩, rfl⟩, rfl⟩ := h
  rfl

/-- A codec of the two entries. -/
def demoCodec : AuditCodec where
  encode e := if isDemoEntry e then .ok (cborEntry demoEntry) else .error "unknown".toList
  decode bytes :=
    if bytes = cborEntry demoEntry then .ok demoEntry
    else if bytes = cborEntry loopEntry then .ok loopEntry
    else .error "unknown".toList

theorem demoCodec_lossless : demoCodec.Lossless := by
  intro e bytes e' hencode hdecode
  unfold demoCodec at hencode hdecode
  dsimp only at hencode hdecode
  split_ifs at hencode with hdemo
  cases hencode
  rw [if_pos rfl] at hdecode
  cases hdecode
  exact (eq_of_isDemoEntry hdemo).symm

/-- The log. -/
def demoLog : Repo :=
  ((append (demoWorld ⟨[], [], []⟩) demoCodec demoEntry).run Repo.init).2

theorem grown_demoLog : Grown (demoWorld ⟨[], [], []⟩) demoCodec demoLog 1 := by
  obtain ⟨h, hrun⟩ := Op.exists_of_isOk
    (r := (append (demoWorld ⟨[], [], []⟩) demoCodec demoEntry).run Repo.init) (by decide +kernel)
  exact .append (.start (by rfl)) hrun

theorem verifyChain_correct_demo :
    ∃ rounds, (verifyChain (demoWorld ⟨[], [], []⟩) demoCodec
      (demoLog.view (demoWorld ⟨[], [], []⟩)) rounds).isSome := by
  obtain ⟨-, -, hlog⟩ := verifyChain_correct (W := demoWorld ⟨[], [], []⟩) demoCodec_lossless
  have hcf : demoLog.store.CollisionFree demo := by
    rintro o ho o' ho' -
    rw [List.mem_singleton.1 ho, List.mem_singleton.1 ho']
  obtain ⟨hs, -, -, ⟨rounds, hends, -⟩, -⟩ := hlog demoLog 1 grown_demoLog hcf
  exact ⟨rounds, Option.isSome_iff_ne_none.2 hends⟩

/-- **An auditor of an entry that was changed to name itself never comes to an end.** -/
theorem verifyChain_stuck :
    ∃ r : Repo, Grown (demoWorld ⟨[], [], []⟩) demoCodec r 1 ∧ ∃ (a : Hash) (content : Bytes),
      (∃ o, (r.view (demoWorld ⟨[], [], []⟩)).get a = .ok (some o) ∧ o.type = .audit) ∧
      hashOf demo .audit content ≠ a ∧
      ∀ rounds, verifyChain (demoWorld ⟨[], [], []⟩) demoCodec
        ((r.view (demoWorld ⟨[], [], []⟩)).alter a (.ok (some ⟨.audit, content⟩))) rounds = none := by
  have hstored : demoLog.store.get demo demoAddress = some ⟨.audit, cborEntry demoEntry⟩ := by
    decide +kernel
  refine ⟨demoLog, grown_demoLog, demoAddress, cborEntry loopEntry,
    ⟨_, congrArg Except.ok hstored, rfl⟩, by decide +kernel, fun rounds => ?_⟩
  have hloop : ∀ n, Links.visit (parentOf (demoWorld ⟨[], [], []⟩) demoCodec
      ((demoLog.view (demoWorld ⟨[], [], []⟩)).alter demoAddress
        (.ok (some ⟨.audit, cborEntry loopEntry⟩)))) (some demoAddress) n = some demoAddress := by
    intro n
    induction n with
    | zero => rfl
    | succ n ih =>
      rw [Links.visit_succ, ih, Option.bind_some]
      decide +kernel
  rw [← Option.not_isSome_iff_eq_none, isSome_verifyChain]
  have hhead : head ((demoLog.view (demoWorld ⟨[], [], []⟩)).alter demoAddress
      (.ok (some ⟨.audit, cborEntry loopEntry⟩))) = some demoAddress := by decide +kernel
  rw [hhead, hloop rounds]
  exact Option.some_ne_none _

end Audit

end Omp
