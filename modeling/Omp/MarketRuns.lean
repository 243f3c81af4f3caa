import Omp.Market

/-!
# Runs of the marketplace

What the handlers of a catalog promise is stated for both catalogs at once: a `KindSpec` says what
names an entry, and that edits and yanks keep to it.  A step of a catalog is one of a few (`Step`),
and what holds of every catalog of a run (`Shelf.WellFormed`) follows from these.

A publish request looks its version up before it builds, and does not look again when it writes.
So an entry may be overwritten that was published in between; a published version stands only as
long as no request writes over an entry that is not yanked.  And an entry is set in memory before
the file is written: a request whose write to the file fails leaves the catalog changed.

## Main definitions

* `KindSpec` : what names an entry.
* `Shelf.Step` : what a step does.
* `Shelf.Unopposed` : no publish request writes over an entry that is not yanked.
* `Shelf.Kept` : an entry whose write to the file fails was there before.

## Main results

* `Market.published_immutable` : a published version stands until it is yanked.
* `Market.owned_and_consistent` : who changes entries, and what a failed request leaves.
-/

namespace Omp

open Lib

variable (W : MarketWorld) {E D B Key : Type}

/-! ### What names an entry -/

/-- What names an entry of a kind: its key, of which its id is a hash, and which none of the
handlers changes. -/
structure KindSpec (K : Kind E D B) (Key : Type) where
  key : E → Key
  draftKey : D → Key
  owner : Key → Text
  idBytes : Key → Bytes
  Safe : Key → Prop
  publisherSub_eq : ∀ e, K.publisherSub e = owner (key e)
  draftId_eq : ∀ d, K.draftId d = sha256Hex W (idBytes (draftKey d))
  idBytes_inj : ∀ {k k'}, Safe k → Safe k' → idBytes k = idBytes k' → k = k'
  read : ∀ {sub parts d}, K.readForm sub parts = .ok d → owner (draftKey d) = sub ∧ Safe (draftKey d)
  prepare : ∀ {d b p}, K.prepare d b = .ok p → ∀ now, K.id (p.entry now) = K.draftId d ∧
    key (p.entry now) = draftKey d ∧ K.yankedAt (p.entry now) = none
  edit : ∀ e description readmeHash, K.id (K.edit e description readmeHash) = K.id e ∧
    key (K.edit e description readmeHash) = key e ∧
    K.yankedAt (K.edit e description readmeHash) = K.yankedAt e
  yank : ∀ now e, K.id (K.yank now e) = K.id e ∧ key (K.yank now e) = key e

/-- Where the first zero is, the parts before and after it are determined. -/
theorem append_zero_inj {a a' b b' : Bytes} (ha : (0 : UInt8) ∉ a) (ha' : (0 : UInt8) ∉ a')
    (h : a ++ 0 :: b = a' ++ 0 :: b') : a = a' ∧ b = b' := by
  induction a generalizing a' with
  | nil =>
    cases a' with
    | nil => exact ⟨rfl, (List.cons.inj h).2⟩
    | cons c a' => exact absurd ((List.cons.inj h).1 ▸ List.mem_cons_self) ha'
  | cons c a ih =>
    cases a' with
    | nil => exact absurd ((List.cons.inj h).1 ▸ List.mem_cons_self) ha
    | cons c' a' =>
      obtain ⟨rfl, htail⟩ := List.cons.inj h
      obtain ⟨rfl, rfl⟩ := ih (fun hmem => ha (List.mem_cons_of_mem _ hmem))
        (fun hmem => ha' (List.mem_cons_of_mem _ hmem)) htail
      exact ⟨rfl, rfl⟩

/-- Where the last zero is, they are too. -/
theorem append_last_zero_inj {a a' b b' : Bytes} (hb : (0 : UInt8) ∉ b) (hb' : (0 : UInt8) ∉ b')
    (h : a ++ 0 :: b = a' ++ 0 :: b') : a = a' ∧ b = b' := by
  have hrev := congrArg List.reverse h
  simp only [List.reverse_append, List.reverse_cons, List.append_assoc, List.singleton_append]
    at hrev
  obtain ⟨hb, ha⟩ := append_zero_inj (by rwa [List.mem_reverse]) (by rwa [List.mem_reverse]) hrev
  exact ⟨List.reverse_injective ha, List.reverse_injective hb⟩

/-- The bytes of a safe name are not zero. -/
theorem zero_not_mem_of_safe {t : Text} (h : isSafeIdent t = true) : (0 : UInt8) ∉ utf8 t := by
  intro hmem
  have hall := (Bool.and_eq_true_iff.1 h).2
  have hzero := List.all_eq_true.1 hall 0 hmem
  exact absurd hzero (by decide)

/-- A publisher, a namespace, a name and a version. -/
abbrev ProbeKey := Text × Text × Text × Text

/-- A publisher, a file type and a version. -/
abbrev SchemaKey := Text × Text × Text

theorem ProbeForm.check_eq_ok {form : ProbeForm} {sub : Text} {d : ProbeDraft}
    (h : form.check sub = .ok d) : d.publisherSub = sub ∧ isSafeIdent d.namespace_ = true ∧
      isSafeIdent d.name = true ∧ isSafeIdent d.version = true := by
  unfold ProbeForm.check at h
  split_ifs at h with hwasm hmissing hsafe
  rw [Bool.not_eq_true, Bool.not_eq_false', Bool.and_eq_true, Bool.and_eq_true] at hsafe
  split at h
  · cases h
  · cases h
  · split_ifs at h
    cases h
    exact ⟨rfl, hsafe.1.1, hsafe.1.2, hsafe.2⟩

theorem SchemaForm.check_eq_ok {form : SchemaForm} {sub : Text} {d : SchemaDraft}
    (h : form.check W sub = .ok d) : d.publisherSub = sub ∧ isSafeIdent d.fileType = true ∧
      isSafeIdent d.version = true := by
  unfold SchemaForm.check at h
  split_ifs at h with hmissing hsafe
  rw [Bool.not_eq_true, Bool.not_eq_false'] at hsafe
  split at h
  · cases h
  · split at h
    · cases h
    · rename_i fileType hvalid
      cases h
      refine ⟨rfl, ?_, hsafe⟩
      unfold validateSchemaToml at hvalid
      split at hvalid
      · cases hvalid
      · split at hvalid
        · cases hvalid
        · split_ifs at hvalid with hempty hident hpatterns
          cases hvalid
          simpa using hident

/-- The key of a probe is that of its bytes: the last three names have no zeros in them. -/
theorem entryIdBytes_inj {s s' n n' m m' v v' : Text} (hn : isSafeIdent n = true)
    (hn' : isSafeIdent n' = true) (hm : isSafeIdent m = true) (hm' : isSafeIdent m' = true)
    (hv : isSafeIdent v = true) (hv' : isSafeIdent v' = true)
    (h : entryIdBytes s n m v = entryIdBytes s' n' m' v') : s = s' ∧ n = n' ∧ m = m' ∧ v = v' := by
  have hassoc : ∀ a b c d : Bytes, a ++ 0 :: (b ++ 0 :: (c ++ 0 :: d)) =
      ((a ++ 0 :: b) ++ 0 :: c) ++ 0 :: d := by
    intro a b c d
    simp only [List.append_assoc, List.cons_append]
  rw [entryIdBytes, entryIdBytes, hassoc, hassoc] at h
  obtain ⟨h, hv⟩ := append_last_zero_inj (zero_not_mem_of_safe hv) (zero_not_mem_of_safe hv') h
  obtain ⟨h, hm⟩ := append_last_zero_inj (zero_not_mem_of_safe hm) (zero_not_mem_of_safe hm') h
  obtain ⟨hs, hn⟩ := append_last_zero_inj (zero_not_mem_of_safe hn) (zero_not_mem_of_safe hn') h
  exact ⟨utf8_injective hs, utf8_injective hn, utf8_injective hm, utf8_injective hv⟩

/-- So is the key of a schema. -/
theorem schemaEntryIdBytes_inj {s s' t t' v v' : Text} (ht : isSafeIdent t = true)
    (ht' : isSafeIdent t' = true) (hv : isSafeIdent v = true) (hv' : isSafeIdent v' = true)
    (h : schemaEntryIdBytes s t v = schemaEntryIdBytes s' t' v') : s = s' ∧ t = t' ∧ v = v' := by
  have hschema : isSafeIdent "schema".toList = true := by decide
  obtain ⟨hs, -, ht, hv⟩ := entryIdBytes_inj hschema hschema ht ht' hv hv' h
  exact ⟨hs, ht, hv⟩

/-- What names a probe. -/
def probeSpec : KindSpec W (probeKind W) ProbeKey where
  key e := (e.publisherSub, e.namespace_, e.name, e.version)
  draftKey d := (d.publisherSub, d.namespace_, d.name, d.version)
  owner k := k.1
  idBytes k := entryIdBytes k.1 k.2.1 k.2.2.1 k.2.2.2
  Safe k := isSafeIdent k.2.1 = true ∧ isSafeIdent k.2.2.1 = true ∧ isSafeIdent k.2.2.2 = true
  publisherSub_eq _ := rfl
  draftId_eq _ := rfl
  idBytes_inj := by
    rintro ⟨s, n, m, v⟩ ⟨s', n', m', v'⟩ ⟨hn, hm, hv⟩ ⟨hn', hm', hv'⟩ h
    obtain ⟨rfl, rfl, rfl, rfl⟩ := entryIdBytes_inj hn hn' hm hm' hv hv' h
    rfl
  read h := ProbeForm.check_eq_ok h
  prepare := by
    intro d b p h now
    cases b with
    | error e => cases h
    | ok b =>
      cases h
      exact ⟨rfl, rfl, rfl⟩
  edit _ _ _ := ⟨rfl, rfl, rfl⟩
  yank _ _ := ⟨rfl, rfl⟩

/-- What names a schema. -/
def schemaSpec : KindSpec W (schemaKind W) SchemaKey where
  key e := (e.publisherSub, e.fileType, e.version)
  draftKey d := (d.publisherSub, d.fileType, d.version)
  owner k := k.1
  idBytes k := schemaEntryIdBytes k.1 k.2.1 k.2.2
  Safe k := isSafeIdent k.2.1 = true ∧ isSafeIdent k.2.2 = true
  publisherSub_eq _ := rfl
  draftId_eq _ := rfl
  idBytes_inj := by
    rintro ⟨s, t, v⟩ ⟨s', t', v'⟩ ⟨ht, hv⟩ ⟨ht', hv'⟩ h
    obtain ⟨rfl, rfl, rfl⟩ := schemaEntryIdBytes_inj ht ht' hv hv' h
    rfl
  read h := SchemaForm.check_eq_ok W h
  prepare := by
    intro d b p h now
    cases h
    exact ⟨rfl, rfl, rfl⟩
  edit _ _ _ := ⟨rfl, rfl, rfl⟩
  yank _ _ := ⟨rfl, rfl⟩

/-! ### What a step does -/

namespace Shelf

variable {W} {K : Kind E D B}

/-- The answer to a request that wrote an entry. -/
def written (flush : Option Text) (reply : Reply E) : Answer E :=
  match flush with
  | none => .ok reply
  | some e => .error ⟨500, "catalog_io".toList, e, none⟩

/-- A catalog once an entry is written. -/
def put (K : Kind E D B) (s : Shelf E D) (entry : E) (flush : Option Text) : Shelf E D :=
  { s with catalog := (s.catalog.upsert (K.id entry) entry flush).2 }

theorem writeBack_eq (c : Catalog E) (entry : E) (flush : Option Text) (reply : Reply E) :
    K.writeBack c entry flush reply =
      (written flush reply, (c.upsert (K.id entry) entry flush).2) := by
  cases flush <;> rfl

/-- The entry an event writes, if any, and the error with which writing the file fails. -/
def upserts (W : MarketWorld) (K : Kind E D B) (s : Shelf E D) (blobs : Blobs) :
    ShelfEvent B → Option (E × Option Text)
  | .publish .. | .build .. => none
  | .write n flush => match s.requests n with
    | .ready _ entry _ => some (entry, flush)
    | _ => none
  | .patch now header id p faults flush => match K.owned W K.notEditor s.catalog now header id with
    | .error _ => none
    | .ok entry =>
      if (Blobs.putAll faults (p.blobs W) blobs).1.isOk then
        some (K.edit entry (p.newDescription (K.description entry))
          (p.newReadmeHash W (K.readmeHash entry)), flush)
      else none
  | .yank now header id flush => match K.owned W K.notYanker s.catalog now header id with
    | .error _ => none
    | .ok entry => if (K.yankedAt entry).isSome then none else some (K.yank now entry, flush)

/-- What a step does to a catalog, with the answer it gives and the entry it writes. -/
inductive Step (W : MarketWorld) (K : Kind E D B) (s : Shelf E D) :
    ShelfEvent B → Option (Answer E) → Option (E × Option Text) → Shelf E D → Prop
  | refuses {n now header parts e} (h : s.requests n = .unknown) :
      Step W K s (.publish n now header parts) (some (.error e)) none
        (s.move n (.answered (.error e)))
  | looksUp {n now header parts sub draft} (h : s.requests n = .unknown)
      (hlook : K.lookUp W s.catalog now header parts = .ok (sub, draft)) :
      Step W K s (.publish n now header parts) none none (s.move n (.checked sub draft))
  | fails {n now outcome faults sub draft e} (h : s.requests n = .checked sub draft) :
      Step W K s (.build n now outcome faults) (some (.error e)) none
        (s.move n (.answered (.error e)))
  | builds {n now outcome faults sub draft p} (h : s.requests n = .checked sub draft)
      (hp : K.prepare draft outcome = .ok p) :
      Step W K s (.build n now outcome faults) none none
        (s.move n (.ready sub (p.entry now) p.log))
  | writes {n flush sub entry log} (h : s.requests n = .ready sub entry log) :
      Step W K s (.write n flush) (some (written flush (.published entry log)))
        (some (entry, flush))
        ((s.put K entry flush).move n (.answered (written flush (.published entry log))))
  | patchRefused {now header id p faults flush e} :
      Step W K s (.patch now header id p faults flush) (some (.error e)) none s
  | patches {now header id p faults flush entry description readmeHash}
      (howned : K.owned W K.notEditor s.catalog now header id = .ok entry) :
      Step W K s (.patch now header id p faults flush)
        (some (written flush (.patched (K.edit entry description readmeHash))))
        (some (K.edit entry description readmeHash, flush))
        (s.put K (K.edit entry description readmeHash) flush)
  | yankRefused {now header id flush e} :
      Step W K s (.yank now header id flush) (some (.error e)) none s
  | yankedBefore {now header id flush} :
      Step W K s (.yank now header id flush) (some (.ok (.yanked true))) none s
  | yanks {now header id flush entry}
      (howned : K.owned W K.notYanker s.catalog now header id = .ok entry) :
      Step W K s (.yank now header id flush) (some (written flush (.yanked false)))
        (some (K.yank now entry, flush)) (s.put K (K.yank now entry) flush)

/-- **A step is one of these.** -/
theorem step_of_next {s s' : Shelf E D} {blobs blobs' : Blobs} {ev : ShelfEvent B}
    {a : Option (Answer E)} (h : s.next W K blobs ev = some ((a, s'), blobs')) :
    Step W K s ev a (s.upserts W K blobs ev) s' := by
  cases ev with
  | publish n now header parts =>
    cases hn : s.requests n with
    | unknown =>
      cases hlook : K.lookUp W s.catalog now header parts with
      | error e =>
        simp only [next, hn, hlook, answer] at h
        cases h
        exact .refuses hn
      | ok found =>
        simp only [next, hn, hlook] at h
        cases h
        exact .looksUp hn hlook
    | _ => simp [next, hn] at h
  | build n now outcome faults =>
    cases hn : s.requests n with
    | checked sub draft =>
      cases hp : K.prepare draft outcome with
      | error e =>
        simp only [next, hn, hp, answer] at h
        cases h
        exact .fails hn
      | ok p =>
        simp only [next, hn, hp] at h
        revert h
        rcases Blobs.putAll faults p.blobs blobs with ⟨r, blobs₁⟩
        intro h
        cases r with
        | error e =>
          cases h
          exact .fails hn
        | ok _ =>
          cases h
          exact .builds hn hp
    | _ => simp [next, hn] at h
  | write n flush =>
    cases hn : s.requests n with
    | ready sub entry log =>
      simp only [next, hn, writeBack_eq, answer] at h
      cases h
      simp only [upserts, hn]
      exact .writes hn
    | _ => simp [next, hn] at h
  | patch now header id p faults flush =>
    simp only [next, Kind.patch] at h
    cases howned : K.owned W K.notEditor s.catalog now header id with
    | error e =>
      simp only [howned] at h
      simp only [upserts, howned]
      cases h
      exact .patchRefused
    | ok entry =>
      simp only [howned, writeBack_eq] at h
      simp only [upserts, howned]
      revert h
      rcases Blobs.putAll faults (p.blobs W) blobs with ⟨r, blobs₁⟩
      intro h
      cases r with
      | error e =>
        cases h
        exact .patchRefused
      | ok _ =>
        cases h
        exact .patches howned
  | yank now header id flush =>
    simp only [next, Kind.yankEntry] at h
    cases howned : K.owned W K.notYanker s.catalog now header id with
    | error e =>
      simp only [howned] at h
      simp only [upserts, howned]
      cases h
      exact .yankRefused
    | ok entry =>
      simp only [howned, writeBack_eq] at h
      simp only [upserts, howned]
      split_ifs at h ⊢
      · cases h
        exact .yankedBefore
      · cases h
        exact .yanks howned

/-! ### What holds of every catalog of a run -/

/-- A key whose names are safe, and of which an id is known. -/
def Known (S : KindSpec W K Key) (C : Set Bytes) (k : Key) : Prop := S.Safe k ∧ S.idBytes k ∈ C

/-- The keys that events bring in are known. -/
def Brings (S : KindSpec W K Key) (C : Set Bytes) : ShelfEvent B → Prop
  | .publish _ now header parts => ∀ t sub d, requireAuthedPublisher W now header = .ok (t, sub) →
      K.readForm sub parts = .ok d → S.idBytes (S.draftKey d) ∈ C
  | _ => True

/-- A catalog was written by its handlers, and the requests in flight are theirs. -/
structure WellFormed (S : KindSpec W K Key) (C : Set Bytes) (s : Shelf E D) : Prop where
  /-- An entry in memory stands under the id of its key. -/
  state : ∀ {id e}, s.catalog.state[id]? = some e →
    K.id e = id ∧ id = sha256Hex W (S.idBytes (S.key e)) ∧ Known S C (S.key e)
  /-- So does one in the file. -/
  file : ∀ {id e}, s.catalog.file[id]? = some e →
    K.id e = id ∧ id = sha256Hex W (S.idBytes (S.key e)) ∧ Known S C (S.key e)
  /-- The draft of a request is of its publisher. -/
  checked : ∀ {n sub d}, s.requests n = .checked sub d →
    S.owner (S.draftKey d) = sub ∧ Known S C (S.draftKey d)
  /-- The entry of a request is of its publisher, and is not yanked. -/
  ready : ∀ {n sub e log}, s.requests n = .ready sub e log → S.owner (S.key e) = sub ∧
    Known S C (S.key e) ∧ K.id e = sha256Hex W (S.idBytes (S.key e)) ∧ K.yankedAt e = none

variable {S : KindSpec W K Key} {C : Set Bytes} {s s' : Shelf E D}

@[simp] theorem requests_move (n m : Nat) (p : Progress E D) :
    (s.move n p).requests m = if m = n then p else s.requests m :=
  Function.update_apply ..

@[simp] theorem catalog_move (n : Nat) (p : Progress E D) : (s.move n p).catalog = s.catalog := rfl

@[simp] theorem requests_put (e : E) (flush : Option Text) :
    (s.put K e flush).requests = s.requests := rfl

theorem state_put (e : E) (flush : Option Text) (id : Text) :
    (s.put K e flush).catalog.state[id]? =
      if K.id e = id then some e else s.catalog.state[id]? := by
  cases flush <;> exact TextMap.getElem?_insert ..

/-- The file is written as a whole, or stays as it was. -/
theorem file_put (e : E) (flush : Option Text) :
    (s.put K e flush).catalog.file = (s.put K e flush).catalog.state ∨
      (s.put K e flush).catalog.file = s.catalog.file := by
  cases flush
  · exact .inl rfl
  · exact .inr rfl

theorem WellFormed.put (h : s.WellFormed S C) {e : E} (flush : Option Text)
    (hid : K.id e = sha256Hex W (S.idBytes (S.key e))) (hsafe : Known S C (S.key e)) :
    (s.put K e flush).WellFormed S C := by
  have hstate : ∀ {id x}, (s.put K e flush).catalog.state[id]? = some x →
      K.id x = id ∧ id = sha256Hex W (S.idBytes (S.key x)) ∧ Known S C (S.key x) := by
    intro id x hx
    rw [state_put] at hx
    split_ifs at hx with heq
    · cases hx
      exact ⟨heq, heq.symm.trans hid, hsafe⟩
    · exact h.state hx
  refine ⟨hstate, fun {id x} hx => ?_, h.checked, h.ready⟩
  rcases file_put (K := K) (s := s) e flush with heq | heq
  · exact hstate (heq ▸ hx)
  · exact h.file (heq ▸ hx)

/-- A request that is known to be fine moves on. -/
theorem WellFormed.move (h : s.WellFormed S C) (n : Nat) {p : Progress E D}
    (hchecked : ∀ sub d, p = .checked sub d → S.owner (S.draftKey d) = sub ∧ Known S C (S.draftKey d))
    (hready : ∀ sub e log, p = .ready sub e log → S.owner (S.key e) = sub ∧ Known S C (S.key e) ∧
      K.id e = sha256Hex W (S.idBytes (S.key e)) ∧ K.yankedAt e = none) :
    (s.move n p).WellFormed S C := by
  refine ⟨h.state, h.file, fun {m sub d} hm => ?_, fun {m sub e log} hm => ?_⟩
  · rw [requests_move] at hm
    split_ifs at hm with hmn
    · exact hchecked sub d hm
    · exact h.checked hm
  · rw [requests_move] at hm
    split_ifs at hm with hmn
    · exact hready sub e log hm
    · exact h.ready hm

theorem WellFormed.answered (h : s.WellFormed S C) (n : Nat) (a : Answer E) :
    (s.move n (.answered a)).WellFormed S C :=
  h.move n nofun nofun

theorem lookUp_eq_ok {c : Catalog E} {now : Nat} {header : ContextHeader} {parts : List Part}
    {sub : Text} {d : D} (h : K.lookUp W c now header parts = .ok (sub, d)) :
    (∃ t, requireAuthedPublisher W now header = .ok (t, sub)) ∧ K.readForm sub parts = .ok d ∧
      ∀ x, c.state[K.draftId d]? = some x → K.yankedAt x ≠ none := by
  obtain ⟨⟨t, sub'⟩, hauth, h⟩ := except_bind_eq_ok.1 h
  obtain ⟨d', hread, h⟩ := except_bind_eq_ok.1 h
  cases hx : c.state[K.draftId d']? with
  | none =>
    simp only [hx] at h
    cases h
    exact ⟨⟨t, hauth⟩, hread, fun x hx' => by rw [hx] at hx'; cases hx'⟩
  | some x =>
    simp only [hx] at h
    split_ifs at h with hlive
    cases h
    refine ⟨⟨t, hauth⟩, hread, fun y hy hnone => hlive ?_⟩
    rw [hx] at hy
    cases hy
    rw [hnone, Option.isNone_none]

theorem owned_eq_ok {refused : ErrorResponse} {c : Catalog E} {now : Nat} {header : ContextHeader}
    {id : Text} {e : E} (h : K.owned W refused c now header id = .ok e) :
    c.state[id]? = some e ∧ ∃ t, requireAuthedPublisher W now header = .ok (t, K.publisherSub e) := by
  obtain ⟨⟨t, sub⟩, hauth, h⟩ := except_bind_eq_ok.1 h
  cases hx : c.state[id]? with
  | none =>
    simp only [hx] at h
    cases h
  | some x =>
    simp only [hx] at h
    split_ifs at h with hsub
    cases h
    exact ⟨rfl, t, by rw [not_not.1 hsub, hauth]⟩

/-- **Every step keeps a catalog well formed.** -/
theorem WellFormed.step (h : s.WellFormed S C) {ev : ShelfEvent B} {a : Option (Answer E)}
    {w : Option (E × Option Text)} (hbrings : Brings S C ev) (hstep : Step W K s ev a w s') :
    s'.WellFormed S C := by
  cases hstep with
  | refuses hn => exact h.answered _ _
  | fails hn => exact h.answered _ _
  | patchRefused | yankRefused | yankedBefore => exact h
  | looksUp hn hlook =>
    obtain ⟨⟨t, hauth⟩, hread, -⟩ := lookUp_eq_ok hlook
    refine h.move _ (fun sub d heq => ?_) nofun
    cases heq
    obtain ⟨howner, hsafe⟩ := S.read hread
    exact ⟨howner, hsafe, hbrings _ _ _ hauth hread⟩
  | builds hn hp =>
    refine h.move _ nofun fun sub e log heq => ?_
    cases heq
    obtain ⟨hid, hkey, hlive⟩ := S.prepare hp _
    obtain ⟨howner, hsafe⟩ := h.checked hn
    rw [hkey, hid]
    exact ⟨howner, hsafe, S.draftId_eq _, hlive⟩
  | writes hn =>
    obtain ⟨-, hsafe, hid, -⟩ := h.ready hn
    exact (h.put _ hid hsafe).answered _ _
  | patches howned =>
    obtain ⟨hid, hkey, -⟩ := S.edit _ _ _
    obtain ⟨hstored, hstate, hsafe⟩ := h.state (owned_eq_ok howned).1
    exact h.put _ (by rw [hid, hkey, hstored, ← hstate]) (by rwa [hkey])
  | yanks howned =>
    obtain ⟨hid, hkey⟩ := S.yank _ _
    obtain ⟨hstored, hstate, hsafe⟩ := h.state (owned_eq_ok howned).1
    exact h.put _ (by rw [hid, hkey, hstored, ← hstate]) (by rwa [hkey])

theorem wellFormed_empty (S : KindSpec W K Key) (C : Set Bytes) :
    (empty : Shelf E D).WellFormed S C where
  state h := by cases h
  file h := by cases h
  checked := nofun
  ready := nofun

theorem WellFormed.restart (h : s.WellFormed S C) : s.restart.WellFormed S C := by
  refine ⟨h.file, h.file, fun {n sub d} hn => ?_, fun {n sub e log} hn => ?_⟩
  · unfold Shelf.restart at hn
    cases hp : s.requests n <;> simp [hp] at hn
  · unfold Shelf.restart at hn
    cases hp : s.requests n <;> simp [hp] at hn

/-! ### A published version -/

/-- A publish request writes only where there is no entry that is not yanked. -/
def Unopposed (K : Kind E D B) (s : Shelf E D) : ShelfEvent B → Prop
  | .write n _ => ∀ sub e log, s.requests n = .ready sub e log →
      ∀ x, s.catalog.state[K.id e]? = some x → K.yankedAt x ≠ none
  | _ => True

/-- `Unopposed`, computed. -/
def clear (K : Kind E D B) (s : Shelf E D) : ShelfEvent B → Bool
  | .write n _ => match s.requests n with
    | .ready _ e _ => (s.catalog.state[K.id e]?).all fun x => (K.yankedAt x).isSome
    | _ => true
  | _ => true

theorem unopposed_of_clear {s : Shelf E D} {ev : ShelfEvent B} (h : s.clear K ev = true) :
    s.Unopposed K ev := by
  cases ev with
  | write n flush =>
    intro sub e log hn x hx hlive
    simp only [clear, hn, hx, Option.all_some, hlive] at h
    cases h
  | publish | build | patch | yank => trivial

/-- The publisher of the entry under an id yanks it. -/
def Yanks (W : MarketWorld) (K : Kind E D B) (id : Text) (s : Shelf E D) : ShelfEvent B → Prop
  | .yank now header id' _ => id' = id ∧ (K.owned W K.notYanker s.catalog now header id).isOk = true
  | _ => False

/-- A version that was published stands: its entry is there with what is pinned of it, and no other
request has published it since. -/
structure Stands {α : Type} (K : Kind E D B) (pins : E → α) (e : E) (s₁ s : Shelf E D) : Prop where
  /-- The entry is in memory. -/
  state : ∃ x, s.catalog.state[K.id e]? = some x ∧ pins x = pins e ∧ K.yankedAt x = none
  /-- The entry is in the file. -/
  file : ∃ x, s.catalog.file[K.id e]? = some x ∧ pins x = pins e ∧ K.yankedAt x = none
  /-- The requests that published it had done so. -/
  alone : ∀ n x log, s.requests n = .answered (.ok (.published x log)) → K.id x = K.id e →
    s₁.requests n = s.requests n

variable {α : Type} {pins : E → α} {e : E} {s₁ : Shelf E D}

theorem Stands.put (h : Stands K pins e s₁ s) {x : E} (flush : Option Text)
    (hx : K.id x = K.id e → pins x = pins e ∧ K.yankedAt x = none) :
    Stands K pins e s₁ (s.put K x flush) := by
  have hstate : ∃ y, (s.put K x flush).catalog.state[K.id e]? = some y ∧ pins y = pins e ∧
      K.yankedAt y = none := by
    rw [state_put]
    split_ifs with hid
    · exact ⟨x, rfl, hx hid⟩
    · exact h.state
  refine ⟨hstate, ?_, h.alone⟩
  rcases file_put (K := K) (s := s) x flush with heq | heq
  · rwa [heq]
  · rw [heq]
    exact h.file

/-- A request moves on without publishing the version. -/
theorem Stands.move (h : Stands K pins e s₁ s) (n : Nat) {p : Progress E D}
    (hp : ∀ x log, p = .answered (.ok (.published x log)) → K.id x ≠ K.id e) :
    Stands K pins e s₁ (s.move n p) := by
  refine ⟨h.state, h.file, fun m x log hm hid => ?_⟩
  rw [requests_move] at hm ⊢
  split_ifs at hm ⊢ with hmn
  · exact absurd hid (hp x log hm)
  · exact h.alone m x log hm hid

/-- **A published version stands after a step** that does not write over it or yank it. -/
theorem Stands.step (hwf : s.WellFormed S C) (h : Stands K pins e s₁ s)
    (hpins : ∀ x description readmeHash, pins (K.edit x description readmeHash) = pins x)
    {ev : ShelfEvent B} {a : Option (Answer E)} {w : Option (E × Option Text)}
    (hstep : Step W K s ev a w s') (hun : s.Unopposed K ev) (hyanks : ¬ s.Yanks W K (K.id e) ev) :
    Stands K pins e s₁ s' := by
  cases hstep with
  | refuses hn | looksUp hn _ | fails hn | builds hn _ => exact h.move _ nofun
  | patchRefused | yankRefused | yankedBefore => exact h
  | @writes n flush sub x log hn =>
    -- the entry that stands is not yanked, so the one that is written is another
    have hne : K.id x ≠ K.id e := by
      intro hid
      obtain ⟨y, hy, -, hlive⟩ := h.state
      exact hun sub x log hn y (hid ▸ hy) hlive
    refine (h.put flush fun hid => absurd hid hne).move n fun y log' heq => ?_
    cases flush with
    | none =>
      cases heq
      exact hne
    | some _ => cases heq
  | @patches now header id p faults flush x description readmeHash howned =>
    refine h.put flush fun hid => ?_
    obtain ⟨hid', -, hyanked⟩ := S.edit x description readmeHash
    obtain ⟨y, hy, hsame, hlive⟩ := h.state
    have hx := (owned_eq_ok howned).1
    have hidx : K.id e = id := hid.symm.trans (hid'.trans (hwf.state hx).1)
    rw [hidx, hx] at hy
    cases hy
    exact ⟨(hpins x _ _).trans hsame, hyanked.trans hlive⟩
  | @yanks now header id flush x howned =>
    refine h.put flush fun hid => absurd ?_ hyanks
    have hidx : id = K.id e := by
      rw [← (hwf.state (owned_eq_ok howned).1).1, ← (S.yank now x).1, hid]
    exact ⟨hidx, by rw [← hidx, howned]; rfl⟩

theorem Stands.restart (h : Stands K pins e s₁ s) : Stands K pins e s₁ s.restart := by
  refine ⟨h.file, h.file, fun n x log hn hid => ?_⟩
  have hbefore : s.requests n = .answered (.ok (.published x log)) := by
    unfold Shelf.restart at hn
    cases hp : s.requests n <;> simp_all
  rw [h.alone n x log hbefore hid, hbefore, hn]

/-- A version stands once its entry is written. -/
theorem stands_of_write (hwf : s.WellFormed S C) {n : Nat} {flush : Option Text}
    {a : Option (Answer E)} {w : Option (E × Option Text)}
    (hstep : Step W K s (.write n flush) a w s') {log : Option Text}
    (hn : s'.requests n = .answered (.ok (.published e log))) : Stands K pins e s' s' := by
  cases hstep with
  | @writes _ _ sub x log' hready =>
    rw [requests_move, if_pos rfl] at hn
    cases flush with
    | some _ => cases hn
    | none =>
      cases hn
      have hget : (s.put K e none).catalog.state[K.id e]? = some e := by
        rw [state_put, if_pos rfl]
      have hlive := (hwf.ready hready).2.2.2
      exact ⟨⟨e, hget, rfl, hlive⟩, ⟨e, hget, rfl, hlive⟩, fun _ _ _ _ _ => rfl⟩

/-- A request for a version that stands is answered that the version exists. -/
theorem Stands.lookUp (h : Stands K pins e s₁ s) {now : Nat} {header : ContextHeader}
    {parts : List Part} {t sub : Text} {d : D}
    (hauth : requireAuthedPublisher W now header = .ok (t, sub))
    (hread : K.readForm sub parts = .ok d) (hid : K.draftId d = K.id e) :
    K.lookUp W s.catalog now header parts = .error K.versionExists := by
  obtain ⟨x, hx, -, hlive⟩ := h.state
  unfold Kind.lookUp
  rw [hauth]
  simp only [bind, Except.bind, hread, hid, hx, hlive, Option.isNone_none, if_true]

/-! ### Who changes entries, and what a failure leaves -/

/-- The publisher a step is of: the one who is authenticated, or was when the request arrived. -/
def actor (W : MarketWorld) (s : Shelf E D) : ShelfEvent B → Option Text
  | .publish _ now header _ | .patch now header .. | .yank now header .. =>
    (requireAuthedPublisher W now header).toOption.map Prod.snd
  | .build n .. | .write n _ => match s.requests n with
    | .checked sub _ | .ready sub _ _ => some sub
    | _ => none

/-- An entry whose write to the file fails was in memory before. -/
def Kept (W : MarketWorld) (K : Kind E D B) (s : Shelf E D) (blobs : Blobs)
    (ev : ShelfEvent B) : Prop :=
  ∀ e msg, s.upserts W K blobs ev = some (e, some msg) → s.catalog.state[K.id e]? = some e

/-- The entries stay, with what names them, and each that changes is of the publisher who acts. -/
structure Orderly (S : KindSpec W K Key) (actor : Option Text) (s s' : Shelf E D) : Prop where
  /-- An entry stays, under the same key. -/
  stays : ∀ {id : Text} {x : E}, s.catalog.state[id]? = some x →
    ∃ e, s'.catalog.state[id]? = some e ∧ S.key e = S.key x
  /-- An entry that changes is of the publisher who acts. -/
  owner : ∀ {id : Text}, s'.catalog.state[id]? ≠ s.catalog.state[id]? →
    ∃ e, s'.catalog.state[id]? = some e ∧ actor = some (K.publisherSub e)

theorem orderly_of_catalog {who : Option Text} (h : s'.catalog = s.catalog) :
    Orderly S who s s' where
  stays hx := ⟨_, by rw [h, hx], rfl⟩
  owner hne := absurd (by rw [h]) hne

/-- An entry is written over one with its key, by its publisher. -/
theorem orderly_put {who : Option Text} {e : E} (flush : Option Text)
    (hkey : ∀ x, s.catalog.state[K.id e]? = some x → S.key e = S.key x)
    (hwho : who = some (K.publisherSub e)) : Orderly S who s (s.put K e flush) where
  stays {id x} hx := by
    rw [state_put]
    split_ifs with hid
    · exact ⟨e, rfl, hkey x (hid ▸ hx)⟩
    · exact ⟨x, hx, rfl⟩
  owner {id} hne := by
    rw [state_put] at hne ⊢
    split_ifs at hne ⊢ with hid
    · exact ⟨e, rfl, hwho⟩
    · exact absurd rfl hne

theorem Orderly.move {who : Option Text} (h : Orderly S who s s') (n : Nat) (p : Progress E D) :
    Orderly S who s (s'.move n p) := ⟨h.stays, h.owner⟩

/-- An id belongs to one of the known keys. -/
theorem key_eq_of_id (hinj : Set.InjOn W.sha256 C) {k k' : Key} (hk : Known S C k)
    (hk' : Known S C k')
    (h : sha256Hex W (S.idBytes k) = sha256Hex W (S.idBytes k')) : k = k' :=
  S.idBytes_inj hk.1 hk'.1 (hinj hk.2 hk'.2 (Hash.hex_injective h))

/-- An entry has the key of the one that stood under its id. -/
theorem WellFormed.same_key (hwf : s.WellFormed S C) (hwf' : s'.WellFormed S C)
    (hinj : Set.InjOn W.sha256 C) {id : Text} {x e : E} (hx : s.catalog.state[id]? = some x)
    (he : s'.catalog.state[id]? = some e) : S.key e = S.key x := by
  obtain ⟨-, hid, hknown⟩ := hwf.state hx
  obtain ⟨-, hid', hknown'⟩ := hwf'.state he
  exact key_eq_of_id hinj hknown' hknown (hid'.symm.trans hid)

/-- **Every request is orderly**: it leaves the entries of other keys alone. -/
theorem WellFormed.orderly (hwf : s.WellFormed S C) (hinj : Set.InjOn W.sha256 C)
    {ev : ShelfEvent B} {a : Option (Answer E)} {w : Option (E × Option Text)}
    (hstep : Step W K s ev a w s') : Orderly S (s.actor W ev) s s' := by
  cases hstep with
  | refuses | looksUp | fails | builds | patchRefused | yankRefused | yankedBefore =>
    exact orderly_of_catalog rfl
  | @writes n flush sub e log hn =>
    obtain ⟨howner, hknown, hid, -⟩ := hwf.ready hn
    refine (orderly_put flush (fun x hx => ?_) ?_).move n _
    · obtain ⟨-, hidx, hknownx⟩ := hwf.state hx
      exact key_eq_of_id hinj hknown hknownx (hid.symm.trans hidx)
    · simp only [actor, hn]
      rw [S.publisherSub_eq, howner]
  | @patches now header id p faults flush x description readmeHash howned =>
    obtain ⟨hid, hkey, -⟩ := S.edit x description readmeHash
    obtain ⟨hx, t, hauth⟩ := owned_eq_ok howned
    refine orderly_put flush (fun y hy => ?_) ?_
    · rw [hid, (hwf.state hx).1, hx] at hy
      cases hy
      exact hkey
    · simp only [actor, hauth, Except.toOption, Option.map_some]
      rw [S.publisherSub_eq, S.publisherSub_eq, hkey]
  | @yanks now header id flush x howned =>
    obtain ⟨hid, hkey⟩ := S.yank now x
    obtain ⟨hx, t, hauth⟩ := owned_eq_ok howned
    refine orderly_put flush (fun y hy => ?_) ?_
    · rw [hid, (hwf.state hx).1, hx] at hy
      cases hy
      exact hkey
    · simp only [actor, hauth, Except.toOption, Option.map_some]
      rw [S.publisherSub_eq, S.publisherSub_eq, hkey]

/-- Writing an entry changes nothing exactly when it is there. -/
theorem state_put_eq_iff (e : E) (flush : Option Text) :
    (s.put K e flush).catalog.state = s.catalog.state ↔
      s.catalog.state[K.id e]? = some e := by
  constructor
  · intro h
    rw [← h, state_put, if_pos rfl]
  · intro h
    refine Std.ExtTreeMap.ext_getElem? fun id => ?_
    rw [state_put]
    split_ifs with hid
    · rw [← hid, h]
    · rfl

/-- **A request that fails leaves the entries as they were** exactly when the entry whose write to
the file failed was there. -/
theorem Step.state_eq_iff {ev : ShelfEvent B} {blobs : Blobs} {e : ErrorResponse}
    (hstep : Step W K s ev (some (.error e)) (s.upserts W K blobs ev) s') :
    s'.catalog.state = s.catalog.state ↔ s.Kept W K blobs ev := by
  unfold Kept
  generalize s.upserts W K blobs ev = w at hstep
  have hnone : s.catalog.state = s.catalog.state ↔ ∀ (e : E) (msg : Text),
      (none : Option (E × Option Text)) = some (e, some msg) →
        s.catalog.state[K.id e]? = some e := ⟨fun _ _ _ h => (nomatch h), fun _ => rfl⟩
  have hput : ∀ {x : E} {flush : Option Text} {reply : Reply E},
      written flush reply = .error e → ((s.put K x flush).catalog.state = s.catalog.state ↔
        ∀ (y : E) (msg : Text), some (x, flush) = some (y, some msg) →
          s.catalog.state[K.id y]? = some y) := by
    intro x flush reply hans
    rw [state_put_eq_iff]
    cases flush with
    | none => cases hans
    | some msg =>
      refine ⟨fun h y msg' heq => ?_, fun h => h x msg rfl⟩
      cases heq
      exact h
  generalize ha : some (Except.error e) = a at hstep
  cases hstep with
  | refuses | fails | patchRefused | yankRefused => exact hnone
  | looksUp | builds | yankedBefore => cases ha
  | writes | patches | yanks => exact hput (Option.some.inj ha).symm

end Shelf

/-! ### Runs of the marketplace -/

namespace Market

variable {W}

/-- What a step of the marketplace is. -/
theorem next_cases {m m' : Market} {ev : MarketEvent} (h : m.next W ev = some m') :
    (∃ e a, ev = .probe e ∧ Shelf.Step W (probeKind W) m.probes e a
        (m.probes.upserts W (probeKind W) m.blobs e) m'.probes ∧ m'.schemas = m.schemas) ∨
    (∃ e a, ev = .schema e ∧ Shelf.Step W (schemaKind W) m.schemas e a
        (m.schemas.upserts W (schemaKind W) m.blobs e) m'.schemas ∧ m'.probes = m.probes) ∨
    (ev = .restart ∧ m'.probes = m.probes.restart ∧ m'.schemas = m.schemas.restart) := by
  cases ev with
  | probe e =>
    obtain ⟨⟨⟨a, s'⟩, blobs⟩, hnext, rfl⟩ := Option.map_eq_some_iff.1 h
    exact .inl ⟨e, a, rfl, Shelf.step_of_next hnext, rfl⟩
  | schema e =>
    obtain ⟨⟨⟨a, s'⟩, blobs⟩, hnext, rfl⟩ := Option.map_eq_some_iff.1 h
    exact .inr (.inl ⟨e, a, rfl, Shelf.step_of_next hnext, rfl⟩)
  | restart =>
    cases h
    exact .inr (.inr ⟨rfl, rfl, rfl⟩)

variable (W)

/-- Both catalogs are well formed. -/
structure WellFormed (C : Set Bytes) (m : Market) : Prop where
  probes : m.probes.WellFormed (probeSpec W) C
  schemas : m.schemas.WellFormed (schemaSpec W) C

/-- The keys that events bring in are known. -/
def Brings (C : Set Bytes) : MarketEvent → Prop
  | .probe e => Shelf.Brings (probeSpec W) C e
  | .schema e => Shelf.Brings (schemaSpec W) C e
  | .restart => True

theorem brings_univ (ev : MarketEvent) : Brings W Set.univ ev := by
  cases ev with
  | probe e => cases e <;> simp [Brings, Shelf.Brings]
  | schema e => cases e <;> simp [Brings, Shelf.Brings]
  | restart => trivial

/-- No publish request writes over an entry that is not yanked. -/
def Unopposed (m : Market) : MarketEvent → Prop
  | .probe e => m.probes.Unopposed (probeKind W) e
  | .schema e => m.schemas.Unopposed (schemaKind W) e
  | .restart => True

/-- The probe under an id is yanked by its publisher. -/
def YanksProbe (id : Text) (m : Market) : MarketEvent → Prop
  | .probe e => m.probes.Yanks W (probeKind W) id e
  | _ => False

/-- The schema under an id is yanked by its publisher. -/
def YanksSchema (id : Text) (m : Market) : MarketEvent → Prop
  | .schema e => m.schemas.Yanks W (schemaKind W) id e
  | _ => False

variable {W}

theorem WellFormed.step {C : Set Bytes} {m m' : Market} {ev : MarketEvent} (h : m.WellFormed W C)
    (hbrings : Brings W C ev) (hstep : m.next W ev = some m') : m'.WellFormed W C := by
  rcases next_cases hstep with ⟨e, a, rfl, hs, heq⟩ | ⟨e, a, rfl, hs, heq⟩ | ⟨rfl, hp, hs⟩
  · exact ⟨h.probes.step hbrings hs, heq ▸ h.schemas⟩
  · exact ⟨heq ▸ h.probes, h.schemas.step hbrings hs⟩
  · exact ⟨hp ▸ h.probes.restart, hs ▸ h.schemas.restart⟩

/-- **Along every run the catalogs are well formed.** -/
theorem wellFormed_of_reachable {C : Set Bytes} {P : Market → MarketEvent → Prop} {m : Market}
    (hP : ∀ m ev, P m ev → Brings W C ev) (h : (lts W).Reachable P empty m) : m.WellFormed W C :=
  h.invariant ⟨Shelf.wellFormed_empty _ _, Shelf.wellFormed_empty _ _⟩
    fun _ _ _ hm hl hstep => hm.step (hP _ _ hl) hstep

section Published

variable {α : Type} {m m₁ m₂ : Market} {n : Nat} {flush log : Option Text}

/-- A published probe stands along a run without conflict in which it is not yanked. -/
theorem probe_stands {pins : CatalogEntry → α} {e : CatalogEntry}
    (hpins : ∀ x description readmeHash,
      pins ((probeKind W).edit x description readmeHash) = pins x)
    (hrun : (lts W).Reachable (Unopposed W) empty m)
    (hwrite : m.next W (.probe (.write n flush)) = some m₁)
    (hn : m₁.probes.requests n = .answered (.ok (.published e log)))
    (hafter : (lts W).Reachable (fun m ev => Unopposed W m ev ∧ ¬ YanksProbe W e.id m ev) m₁ m₂) :
    Shelf.Stands (probeKind W) pins e m₁.probes m₂.probes := by
  have hwf := wellFormed_of_reachable (fun _ ev _ => brings_univ W ev) hrun
  have hstart : Shelf.Stands (probeKind W) pins e m₁.probes m₁.probes := by
    rcases next_cases hwrite with ⟨_, a, heq, hs, -⟩ | ⟨_, _, heq, -, -⟩ | ⟨heq, -, -⟩
    · cases heq
      exact Shelf.stands_of_write hwf.probes hs hn
    · cases heq
    · cases heq
  refine (hafter.invariant
    (I := fun m => m.WellFormed W Set.univ ∧ Shelf.Stands (probeKind W) pins e m₁.probes m.probes)
    ⟨hwf.step (brings_univ W _) hwrite, hstart⟩ ?_).2
  rintro s ev s' ⟨hs, hst⟩ ⟨hun, hyanks⟩ hstep
  refine ⟨hs.step (brings_univ W _) hstep, ?_⟩
  rcases next_cases hstep with ⟨_, a, rfl, hstep', -⟩ | ⟨_, _, rfl, -, heq⟩ | ⟨rfl, heq, -⟩
  · exact hst.step hs.probes hpins hstep' hun hyanks
  · rwa [heq]
  · rw [heq]
    exact hst.restart

/-- So does a published schema. -/
theorem schema_stands {pins : SchemaCatalogEntry → α} {e : SchemaCatalogEntry}
    (hpins : ∀ x description readmeHash,
      pins ((schemaKind W).edit x description readmeHash) = pins x)
    (hrun : (lts W).Reachable (Unopposed W) empty m)
    (hwrite : m.next W (.schema (.write n flush)) = some m₁)
    (hn : m₁.schemas.requests n = .answered (.ok (.published e log)))
    (hafter : (lts W).Reachable (fun m ev => Unopposed W m ev ∧ ¬ YanksSchema W e.id m ev) m₁ m₂) :
    Shelf.Stands (schemaKind W) pins e m₁.schemas m₂.schemas := by
  have hwf := wellFormed_of_reachable (fun _ ev _ => brings_univ W ev) hrun
  have hstart : Shelf.Stands (schemaKind W) pins e m₁.schemas m₁.schemas := by
    rcases next_cases hwrite with ⟨_, _, heq, -, -⟩ | ⟨_, a, heq, hs, -⟩ | ⟨heq, -, -⟩
    · cases heq
    · cases heq
      exact Shelf.stands_of_write hwf.schemas hs hn
    · cases heq
  refine (hafter.invariant
    (I := fun m => m.WellFormed W Set.univ ∧ Shelf.Stands (schemaKind W) pins e m₁.schemas m.schemas)
    ⟨hwf.step (brings_univ W _) hwrite, hstart⟩ ?_).2
  rintro s ev s' ⟨hs, hst⟩ ⟨hun, hyanks⟩ hstep
  refine ⟨hs.step (brings_univ W _) hstep, ?_⟩
  rcases next_cases hstep with ⟨_, _, rfl, -, heq⟩ | ⟨_, a, rfl, hstep', -⟩ | ⟨rfl, -, heq⟩
  · rwa [heq]
  · exact hst.step hs.schemas hpins hstep' hun hyanks
  · rw [heq]
    exact hst.restart

end Published

/-- **A published version stands until it is yanked**: in every run in which no publish request
writes over an entry that is not yanked, what a publish request answered with success stays as it
was, no other request publishes the version, and one that arrives is answered that it exists. -/
theorem published_immutable :
    (∀ {m m₁ m₂ : Market} {n : Nat} {flush : Option Text} {e : CatalogEntry} {log : Option Text},
      (lts W).Reachable (Unopposed W) empty m →
      m.next W (.probe (.write n flush)) = some m₁ →
      m₁.probes.requests n = .answered (.ok (.published e log)) →
      (lts W).Reachable (fun m ev => Unopposed W m ev ∧ ¬ YanksProbe W e.id m ev) m₁ m₂ →
      (∃ x, m₂.probes.catalog.state[e.id]? = some x ∧ x.wasmHash = e.wasmHash ∧
        x.manifestHash = e.manifestHash ∧ x.sourceHash = e.sourceHash ∧
        x.publishedAt = e.publishedAt ∧ x.yankedAt = none) ∧
      (∀ k x log', m₂.probes.requests k = .answered (.ok (.published x log')) → x.id = e.id →
        m₁.probes.requests k = m₂.probes.requests k) ∧
      (∀ now header parts t sub d, requireAuthedPublisher W now header = .ok (t, sub) →
        (probeKind W).readForm sub parts = .ok d → (probeKind W).draftId d = e.id →
        (probeKind W).lookUp W m₂.probes.catalog now header parts =
          .error (probeKind W).versionExists)) ∧
    (∀ {m m₁ m₂ : Market} {n : Nat} {flush : Option Text} {e : SchemaCatalogEntry}
        {log : Option Text},
      (lts W).Reachable (Unopposed W) empty m →
      m.next W (.schema (.write n flush)) = some m₁ →
      m₁.schemas.requests n = .answered (.ok (.published e log)) →
      (lts W).Reachable (fun m ev => Unopposed W m ev ∧ ¬ YanksSchema W e.id m ev) m₁ m₂ →
      (∃ x, m₂.schemas.catalog.state[e.id]? = some x ∧ x.schemaHash = e.schemaHash ∧
        x.publishedAt = e.publishedAt ∧ x.yankedAt = none) ∧
      (∀ k x log', m₂.schemas.requests k = .answered (.ok (.published x log')) → x.id = e.id →
        m₁.schemas.requests k = m₂.schemas.requests k) ∧
      (∀ now header parts t sub d, requireAuthedPublisher W now header = .ok (t, sub) →
        (schemaKind W).readForm sub parts = .ok d → (schemaKind W).draftId d = e.id →
        (schemaKind W).lookUp W m₂.schemas.catalog now header parts =
          .error (schemaKind W).versionExists)) := by
  constructor
  · intro m m₁ m₂ n flush e log hrun hwrite hn hafter
    have hstands : Shelf.Stands (probeKind W) (fun x : CatalogEntry =>
        (x.wasmHash, x.manifestHash, x.sourceHash, x.publishedAt)) e m₁.probes m₂.probes :=
      probe_stands (fun _ _ _ => rfl) hrun hwrite hn hafter
    obtain ⟨x, hx, hpins, hlive⟩ := hstands.state
    simp only [Prod.mk.injEq] at hpins
    obtain ⟨hwasm, hmanifest, hsource, hat⟩ := hpins
    exact ⟨⟨x, hx, hwasm, hmanifest, hsource, hat, hlive⟩, hstands.alone,
      fun now header parts t sub d hauth hread hid => hstands.lookUp hauth hread hid⟩
  · intro m m₁ m₂ n flush e log hrun hwrite hn hafter
    have hstands : Shelf.Stands (schemaKind W) (fun x : SchemaCatalogEntry =>
        (x.schemaHash, x.publishedAt)) e m₁.schemas m₂.schemas :=
      schema_stands (fun _ _ _ => rfl) hrun hwrite hn hafter
    obtain ⟨x, hx, hpins, hlive⟩ := hstands.state
    simp only [Prod.mk.injEq] at hpins
    exact ⟨⟨x, hx, hpins.1, hpins.2, hlive⟩, hstands.alone,
      fun now header parts t sub d hauth hread hid => hstands.lookUp hauth hread hid⟩

/-! A run with two requests for one version. -/

/-- Contexts are the names of publishers, and all schemas are of one type. -/
def shopWorld : MarketWorld :=
  { demo with
    verified := false
    readContext := fun _ raw => .ok ⟨raw, some raw⟩
    minimalSchema := fun _ => .ok ("txt".toList, ["text/plain".toList]) }

/-- The context of a publisher. -/
def alice : ContextHeader := some (some "alice".toList)

/-- A part with a text. -/
def textPart (name value : String) : Part :=
  ⟨some name.toList, some value.toList, some (utf8 value.toList)⟩

/-- A form for one version of a probe. -/
def demoForm (source : String) : List Part :=
  [textPart "namespace" "text", textPart "name" "words", textPart "version" "0.1.0",
    textPart "manifest" "returns = \"int\"", textPart "source" source]

/-- The entry that comes of it. -/
def demoEntry (source : String) (wasm : Bytes) (now : Nat) : CatalogEntry where
  id := entryId shopWorld "alice".toList "text".toList "words".toList "0.1.0".toList
  publisherSub := "alice".toList
  namespace_ := "text".toList
  name := "words".toList
  version := "0.1.0".toList
  description := none
  wasmHash := sha256Hex shopWorld wasm
  manifestHash := sha256Hex shopWorld (utf8 "returns = \"int\"".toList)
  readmeHash := none
  sourceHash := some (sha256Hex shopWorld (utf8 source.toList))
  publishedAt := now
  yankedAt := none
  downloads := 0

/-- A form for one version of a schema. -/
def demoSchemaForm (schema : String) : List Part :=
  [textPart "version" "0.1.0", textPart "schema" schema]

/-- The entry that comes of it. -/
def demoSchemaEntry (schema : String) (now : Nat) : SchemaCatalogEntry where
  id := schemaEntryId shopWorld "alice".toList "txt".toList "0.1.0".toList
  publisherSub := "alice".toList
  fileType := "txt".toList
  version := "0.1.0".toList
  description := none
  schemaHash := sha256Hex shopWorld (utf8 schema.toList)
  readmeHash := none
  publishedAt := now
  yankedAt := none

/-- A publish request for a probe, up to where its entry is written. -/
def demoPublish (n now : Nat) (source : String) (wasm : Bytes) : List MarketEvent :=
  [.probe (.publish n now alice (demoForm source)),
    .probe (.build n now (.ok (wasm, [])) fun _ => none)]

/-- A publish request for a schema, up to where its entry is written. -/
def demoPublishSchema (n now : Nat) (schema : String) : List MarketEvent :=
  [.schema (.publish n now alice (demoSchemaForm schema)),
    .schema (.build n now () fun _ => none)]

/-- What events lead to, if no request is opposed and none of them yanks. -/
def demoAfter (m : Market) (evs : List MarketEvent) : Option Market :=
  Lts.exec (next shopWorld) (fun m ev => match ev with
    | .probe (.yank ..) | .schema (.yank ..) => false
    | .probe e => m.probes.clear (probeKind shopWorld) e
    | .schema e => m.schemas.clear (schemaKind shopWorld) e
    | .restart => true) m evs

theorem reachable_of_demoAfter {m m' : Market} {evs : List MarketEvent}
    (h : demoAfter m evs = some m') : (lts shopWorld).Reachable (fun m ev =>
      Unopposed shopWorld m ev ∧ ∀ id, ¬ YanksProbe shopWorld id m ev ∧
        ¬ YanksSchema shopWorld id m ev) m m' := by
  refine Lts.reachable_of_exec (fun m ev hev => ?_) h
  cases ev with
  | probe e =>
    cases e with
    | yank => cases hev
    | _ => exact ⟨Shelf.unopposed_of_clear hev, fun id => ⟨nofun, nofun⟩⟩
  | schema e =>
    cases e with
    | yank => cases hev
    | _ => exact ⟨Shelf.unopposed_of_clear hev, fun id => ⟨nofun, nofun⟩⟩
  | restart => exact ⟨trivial, fun id => ⟨nofun, nofun⟩⟩

/-- One request for a probe, and one for a schema, up to where their entries are written. -/
def demoStart : Market :=
  (demoAfter empty (demoPublish 0 5 "a" [1] ++ demoPublishSchema 0 5 "s")).getD empty

/-- The entry of the probe is written, edited, and its version is asked for again. -/
def demoProbe : Market := (demoStart.next shopWorld (.probe (.write 0 none))).getD empty

/-- What follows on it. -/
def demoProbeLater : Market :=
  (demoAfter demoProbe [.probe (.patch 7 alice (demoEntry "a" [1] 5).id
      ⟨some "counts words".toList, none⟩ (fun _ => none) none),
    .probe (.publish 1 8 alice (demoForm "b"))]).getD empty

/-- The same for the schema. -/
def demoSchema : Market := (demoStart.next shopWorld (.schema (.write 0 none))).getD empty

/-- What follows on it. -/
def demoSchemaLater : Market :=
  (demoAfter demoSchema [.schema (.patch 7 alice (demoSchemaEntry "s" 5).id
      ⟨some "plain text".toList, none⟩ (fun _ => none) none),
    .schema (.publish 1 8 alice (demoSchemaForm "t"))]).getD empty

theorem eq_some_getD {α : Type} {o : Option α} {d : α} (h : o.isSome = true) :
    o = some (o.getD d) := by
  cases o with
  | none => cases h
  | some a => rfl

/-- Two versions that were published are still there after an edit and another request. -/
theorem published_immutable_demo :
    (∃ x, demoProbeLater.probes.catalog.state[(demoEntry "a" [1] 5).id]? = some x ∧
      x.wasmHash = (demoEntry "a" [1] 5).wasmHash ∧ x.yankedAt = none) ∧
    (∃ x, demoSchemaLater.schemas.catalog.state[(demoSchemaEntry "s" 5).id]? = some x ∧
      x.schemaHash = (demoSchemaEntry "s" 5).schemaHash ∧ x.yankedAt = none) := by
  have hstart : (lts shopWorld).Reachable (Unopposed shopWorld) empty demoStart :=
    (reachable_of_demoAfter (eq_some_getD (by decide +kernel))).mono fun _ _ h => h.1
  constructor
  · obtain ⟨⟨x, hx, hwasm, -, -, -, hlive⟩, -⟩ := published_immutable.1 hstart
      (eq_some_getD (by decide +kernel) : _ = some demoProbe)
      (by decide +kernel : demoProbe.probes.requests 0 =
        .answered (.ok (.published (demoEntry "a" [1] 5) (some []))))
      ((reachable_of_demoAfter (eq_some_getD (by decide +kernel) : _ = some demoProbeLater)).mono
        fun _ _ h => ⟨h.1, (h.2 _).1⟩)
    exact ⟨x, hx, hwasm, hlive⟩
  · obtain ⟨⟨x, hx, hschema, -, hlive⟩, -⟩ := published_immutable.2 hstart
      (eq_some_getD (by decide +kernel) : _ = some demoSchema)
      (by decide +kernel : demoSchema.schemas.requests 0 =
        .answered (.ok (.published (demoSchemaEntry "s" 5) none)))
      ((reachable_of_demoAfter (eq_some_getD (by decide +kernel) : _ = some demoSchemaLater)).mono
        fun _ _ h => ⟨h.1, (h.2 _).2⟩)
    exact ⟨x, hx, hschema, hlive⟩

/-- Two requests for one version, both looked up before either is written. -/
def demoTwo : Market :=
  (Lts.exec (next shopWorld) (fun _ _ => true) empty
    (demoPublish 0 5 "a" [1] ++ demoPublish 1 6 "b" [2])).getD empty

/-- The first is written. -/
def demoFirst : Market := (demoTwo.next shopWorld (.probe (.write 0 none))).getD empty

/-- The second is written. -/
def demoSecond : Market := (demoFirst.next shopWorld (.probe (.write 1 none))).getD empty

/-- A version that was published with success is replaced by another request for it. -/
theorem published_replaced :
    (lts shopWorld).Reachable (fun _ _ => True) empty demoTwo ∧
      demoTwo.next shopWorld (.probe (.write 0 none)) = some demoFirst ∧
      demoFirst.probes.requests 0 =
        .answered (.ok (.published (demoEntry "a" [1] 5) (some []))) ∧
      demoFirst.next shopWorld (.probe (.write 1 none)) = some demoSecond ∧
      demoSecond.probes.requests 1 =
        .answered (.ok (.published (demoEntry "b" [2] 6) (some []))) ∧
      demoSecond.probes.catalog.state[(demoEntry "a" [1] 5).id]? = some (demoEntry "b" [2] 6) ∧
      (demoEntry "b" [2] 6).wasmHash ≠ (demoEntry "a" [1] 5).wasmHash :=
  ⟨Lts.reachable_of_exec (fun _ _ _ => trivial) (eq_some_getD (by decide +kernel)),
    eq_some_getD (by decide +kernel), by decide +kernel, eq_some_getD (by decide +kernel),
    by decide +kernel, by decide +kernel, by decide +kernel⟩

/-! ### Ownership and consistency -/

variable (W) in
/-- A step answers with an error. -/
def errs (m : Market) : MarketEvent → Prop
  | .probe e => ∃ err s blobs,
      m.probes.next W (probeKind W) m.blobs e = some ((some (.error err), s), blobs)
  | .schema e => ∃ err s blobs,
      m.schemas.next W (schemaKind W) m.blobs e = some ((some (.error err), s), blobs)
  | .restart => False

variable (W) in
/-- An entry whose write to the file fails was in memory before. -/
def Kept (m : Market) : MarketEvent → Prop
  | .probe e => m.probes.Kept W (probeKind W) m.blobs e
  | .schema e => m.schemas.Kept W (schemaKind W) m.blobs e
  | .restart => True

variable (W) in
/-- The publisher a step is of. -/
def actor (m : Market) : MarketEvent → Option Text
  | .probe e => m.probes.actor W e
  | .schema e => m.schemas.actor W e
  | .restart => none

theorem errs_cases {m m' : Market} {ev : MarketEvent} (hstep : m.next W ev = some m')
    (h : m.errs W ev) :
    (∃ e err, ev = .probe e ∧ Shelf.Step W (probeKind W) m.probes e (some (.error err))
      (m.probes.upserts W (probeKind W) m.blobs e) m'.probes ∧ m'.schemas = m.schemas) ∨
    (∃ e err, ev = .schema e ∧ Shelf.Step W (schemaKind W) m.schemas e (some (.error err))
      (m.schemas.upserts W (schemaKind W) m.blobs e) m'.schemas ∧ m'.probes = m.probes) := by
  cases ev with
  | probe e =>
    obtain ⟨err, s, blobs, hnext⟩ := h
    cases hstep.symm.trans (congrArg (Option.map _) hnext)
    exact .inl ⟨e, err, rfl, Shelf.step_of_next hnext, rfl⟩
  | schema e =>
    obtain ⟨err, s, blobs, hnext⟩ := h
    cases hstep.symm.trans (congrArg (Option.map _) hnext)
    exact .inr ⟨e, err, rfl, Shelf.step_of_next hnext, rfl⟩
  | restart => exact h.elim

/-- **Ownership and consistency**, where the known ids do not collide: in every run what names an
entry does not change; a request leaves every entry in place and changes only entries of the
publisher it is from; and a request that is answered with an error leaves the entries as they were
exactly when the entry whose write to the file failed was there. -/
theorem owned_and_consistent {C : Set Bytes} (hinj : Set.InjOn W.sha256 C) {m m' : Market}
    {ev : MarketEvent} (hrun : (lts W).Reachable (fun _ ev => Brings W C ev) empty m)
    (hbrings : Brings W C ev) (hstep : m.next W ev = some m') :
    (∀ {id : Text} {x e : CatalogEntry}, m.probes.catalog.state[id]? = some x →
      m'.probes.catalog.state[id]? = some e → (probeSpec W).key e = (probeSpec W).key x) ∧
    (∀ {id : Text} {x e : SchemaCatalogEntry}, m.schemas.catalog.state[id]? = some x →
      m'.schemas.catalog.state[id]? = some e → (schemaSpec W).key e = (schemaSpec W).key x) ∧
    (ev ≠ .restart → Shelf.Orderly (probeSpec W) (m.actor W ev) m.probes m'.probes ∧
      Shelf.Orderly (schemaSpec W) (m.actor W ev) m.schemas m'.schemas) ∧
    (m.errs W ev → ((m'.probes.catalog.state = m.probes.catalog.state ∧
      m'.schemas.catalog.state = m.schemas.catalog.state) ↔ m.Kept W ev)) := by
  have hwf := wellFormed_of_reachable (fun _ _ h => h) hrun
  have hwf' := hwf.step hbrings hstep
  refine ⟨hwf.probes.same_key hwf'.probes hinj, hwf.schemas.same_key hwf'.schemas hinj, ?_, ?_⟩
  · intro hev
    rcases next_cases hstep with ⟨e, a, rfl, hs, heq⟩ | ⟨e, a, rfl, hs, heq⟩ | ⟨rfl, -, -⟩
    · exact ⟨hwf.probes.orderly hinj hs, Shelf.orderly_of_catalog (congrArg _ heq)⟩
    · exact ⟨Shelf.orderly_of_catalog (congrArg _ heq), hwf.schemas.orderly hinj hs⟩
    · exact absurd rfl hev
  · intro herrs
    rcases errs_cases hstep herrs with ⟨e, err, rfl, hs, heq⟩ | ⟨e, err, rfl, hs, heq⟩
    · rw [heq]
      exact (and_iff_left rfl).trans hs.state_eq_iff
    · rw [heq]
      exact (and_iff_right rfl).trans hs.state_eq_iff

/-- The draft of a form for a probe. -/
def demoDraft (source : String) : ProbeDraft where
  publisherSub := "alice".toList
  namespace_ := "text".toList
  name := "words".toList
  version := "0.1.0".toList
  description := none
  source := utf8 source.toList
  manifest := utf8 "returns = \"int\"".toList
  readme := none

/-- A probe up to where its entry is written. -/
def demoReady : Market :=
  (Lts.exec (next shopWorld) (fun _ _ => true) empty (demoPublish 0 5 "a" [1])).getD empty

/-- The entry is written, and so is the file. -/
def demoWritten : Market := (demoReady.next shopWorld (.probe (.write 0 none))).getD empty

/-- The entry is written, and the file is not. -/
def demoUnwritten : Market :=
  (demoReady.next shopWorld (.probe (.write 0 (some "disk full".toList)))).getD empty

/-- The entry of a probe is written by its publisher. -/
theorem owned_and_consistent_demo : Shelf.Orderly (probeSpec shopWorld) (some "alice".toList)
    demoReady.probes demoWritten.probes := by
  have hauth : requireAuthedPublisher shopWorld 5 alice = .ok ("alice".toList, "alice".toList) := by
    decide +kernel
  have hread : (probeKind shopWorld).readForm "alice".toList (demoForm "a") =
      .ok (demoDraft "a") := by decide +kernel
  let C : Set Bytes := {entryIdBytes "alice".toList "text".toList "words".toList "0.1.0".toList}
  let first : MarketEvent := .probe (.publish 0 5 alice (demoForm "a"))
  let second : MarketEvent := .probe (.build 0 5 (.ok ([1], [])) fun _ => none)
  let between : Market := (empty.next shopWorld first).getD empty
  have hfirst : Brings shopWorld C first := by
    intro t sub d hauth' hread'
    cases hauth.symm.trans hauth'
    cases hread.symm.trans hread'
    exact Set.mem_singleton _
  have hrun : (lts shopWorld).Reachable (fun _ ev => Brings shopWorld C ev) empty demoReady :=
    ((Lts.Reachable.refl empty).tail hfirst
      (eq_some_getD (by decide +kernel) : _ = some between)).tail
      (show Brings shopWorld C second from trivial)
      (eq_some_getD (by decide +kernel) : between.next shopWorld second = some demoReady)
  have hactor : demoReady.actor shopWorld (.probe (.write 0 none)) = some "alice".toList := by
    decide +kernel
  have hresult := owned_and_consistent (Set.injOn_singleton _ _) hrun
    (show Brings shopWorld C (.probe (.write 0 none)) from trivial)
    (eq_some_getD (by decide +kernel) : _ = some demoWritten)
  rw [← hactor]
  exact (hresult.2.2.1 nofun).1

/-- A publish request is answered with an error, and its entry is in the catalog. -/
theorem unwritten_is_read : (lts shopWorld).Reachable (fun _ _ => True) empty demoReady ∧
    demoReady.next shopWorld (.probe (.write 0 (some "disk full".toList))) = some demoUnwritten ∧
    demoUnwritten.probes.requests 0 =
      .answered (.error ⟨500, "catalog_io".toList, "disk full".toList, none⟩) ∧
    demoReady.probes.catalog.state[(demoEntry "a" [1] 5).id]? = none ∧
    demoUnwritten.probes.catalog.state[(demoEntry "a" [1] 5).id]? = some (demoEntry "a" [1] 5) :=
  ⟨Lts.reachable_of_exec (fun _ _ _ => trivial) (eq_some_getD (by decide +kernel)),
    eq_some_getD (by decide +kernel), by decide +kernel, by decide +kernel, by decide +kernel⟩

end Market

end Omp
