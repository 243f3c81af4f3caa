import Mathlib.Data.List.AList
import Omp.Concrete
import Omp.Server
import Omp.Signed

/-!
# The gateway's cache of validated API keys

The gateway asks WorkOS whether an API key is valid, and remembers the answer for some time.  What
is remembered is dropped when it is next looked up after that time; when there is no room, all that
has expired is dropped, and if that does not make room, everything is.

A request waits for WorkOS without holding the lock of the cache, so that calls of several requests
come in any order.  The clock is read before the lock is taken, and may go backwards.

## Main definitions

* `ValidationCache.get`, `ValidationCache.insert` : the calls.
* `ValidationCache.latest` : the last tenant a key was inserted with.
* `Gateway.step` : a request arrives, or WorkOS answers.

## Main results

* `ValidationCache.lookup_after` : what is in the cache is what was inserted last.
* `validation_cache_bounded` : the cache keeps within its size, and within its time.
-/

namespace Omp

open Lib

/-! ### The cache -/

/-- `VALIDATION_CACHE_MAX_ENTRIES`. -/
def validationCacheMaxEntries : Nat := 10000

/-- `CachedValidation`. -/
structure CachedValidation where
  tenant : Text
  expiresAt : UInt64

/-- `ValidationCache`, by the digest of the token. -/
abbrev ValidationCache := AList fun _ : Hash => CachedValidation

namespace ValidationCache

/-- `HashMap::len`. -/
def len (m : ValidationCache) : Nat := m.entries.length

/-- `HashMap::retain`. -/
def retain (p : CachedValidation → Bool) (m : ValidationCache) : ValidationCache :=
  ⟨m.entries.filter fun e => p e.2, m.nodupKeys.sublist List.filter_sublist⟩

/-- `get`, when the clock says `now`. -/
def get (m : ValidationCache) (key : Hash) (now : UInt64) : Option Text × ValidationCache :=
  match m.lookup key with
  | some entry => if entry.expiresAt > now then (some entry.tenant, m) else (none, m.erase key)
  | none => (none, m)

/-- `insert`.  The clock is read when there is no room, as `full`, and at the end, as `now`. -/
def insert (m : ValidationCache) (key : Hash) (tenant : Text) (ttl full now : UInt64) :
    ValidationCache :=
  let m :=
    if validationCacheMaxEntries ≤ m.len then
      let m := m.retain fun v => v.expiresAt > full
      if validationCacheMaxEntries ≤ m.len then ∅ else m
    else m
  AList.insert key ⟨tenant, now + ttl⟩ m

/-- A call. -/
inductive Call where
  | get (key : Hash) (now : UInt64)
  | insert (key : Hash) (tenant : Text) (ttl full now : UInt64)

/-- What a call leaves. -/
def perform (m : ValidationCache) : Call → ValidationCache
  | .get key now => (m.get key now).2
  | .insert key tenant ttl full now => m.insert key tenant ttl full now

/-- The cache after some calls. -/
def after (calls : List Call) : ValidationCache := calls.foldl perform ∅

@[simp] theorem after_nil : after [] = ∅ := rfl

@[simp] theorem after_concat (calls : List Call) (c : Call) :
    after (calls ++ [c]) = (after calls).perform c := by
  simp [after]

/-! ### Its size -/

theorem len_erase_le (m : ValidationCache) (key : Hash) : len (m.erase key) ≤ m.len :=
  (List.kerase_sublist _ _).length_le

theorem len_get_le (m : ValidationCache) (key : Hash) (now : UInt64) :
    (m.get key now).2.len ≤ m.len := by
  unfold get
  split
  · split_ifs
    · exact Nat.le_refl _
    · exact len_erase_le _ _
  · exact Nat.le_refl _

theorem len_alist_insert_le (m : ValidationCache) (key : Hash) (v : CachedValidation) :
    len (AList.insert key v m) ≤ m.len + 1 := by
  simp only [len, AList.entries_insert, List.length_cons]
  exact Nat.succ_le_succ (List.kerase_sublist _ _).length_le

/-- There is room for what is inserted, whatever was there before. -/
theorem len_insert_le (m : ValidationCache) (key : Hash) (tenant : Text) (ttl full now : UInt64) :
    (m.insert key tenant ttl full now).len ≤ validationCacheMaxEntries := by
  refine (len_alist_insert_le _ _ _).trans ?_
  dsimp only
  split_ifs with hfull hstill
  · decide
  · omega
  · omega

theorem len_perform_le {m : ValidationCache} (h : m.len ≤ validationCacheMaxEntries) (c : Call) :
    (m.perform c).len ≤ validationCacheMaxEntries := by
  cases c with
  | get key now => exact (len_get_le m key now).trans h
  | insert key tenant ttl full now => exact len_insert_le m key tenant ttl full now

theorem len_after_le (calls : List Call) : (after calls).len ≤ validationCacheMaxEntries := by
  induction calls using List.reverseRecOn with
  | nil => exact Nat.zero_le _
  | append_singleton calls c ih =>
    rw [after_concat]
    exact len_perform_le ih c

/-! ### What is in it -/

/-- An insertion of a key: the tenant, for how long, and when. -/
structure Insertion where
  tenant : Text
  ttl : UInt64
  now : UInt64

/-- What a call inserts for a key. -/
def Call.inserts (key : Hash) : Call → Option Insertion
  | .get _ _ => none
  | .insert k tenant ttl _ now => if k = key then some ⟨tenant, ttl, now⟩ else none

/-- The last insertion of a key. -/
def latest (key : Hash) (calls : List Call) : Option Insertion :=
  calls.reverse.findSome? (Call.inserts key)

theorem latest_append (key : Hash) (calls calls' : List Call) :
    latest key (calls ++ calls') = (latest key calls').or (latest key calls) := by
  simp [latest, List.findSome?_append]

theorem latest_concat (key : Hash) (calls : List Call) (c : Call) :
    latest key (calls ++ [c]) = (c.inserts key).or (latest key calls) := by
  rw [latest_append]
  cases h : c.inserts key <;> simp [latest, h]

/-- Nothing is inserted after the last insertion. -/
theorem exists_of_latest {key : Hash} {calls : List Call} {i : Insertion}
    (h : latest key calls = some i) :
    ∃ before full later, calls = before ++ .insert key i.tenant i.ttl full i.now :: later ∧
      ∀ c ∈ later, c.inserts key = none := by
  obtain ⟨later, c, before, hcalls, hc, hlater⟩ := List.findSome?_eq_some_iff.1 h
  have hsplit : calls = before.reverse ++ c :: later.reverse := by
    rw [← calls.reverse_reverse, hcalls]
    simp
  cases c with
  | get k now => cases hc
  | insert k tenant ttl full now =>
    simp only [Call.inserts, Option.ite_none_right_eq_some, Option.some.injEq] at hc
    obtain ⟨rfl, rfl⟩ := hc
    exact ⟨_, full, _, hsplit, fun c hmem => hlater c (List.mem_reverse.1 hmem)⟩

theorem lookup_retain {m : ValidationCache} {p : CachedValidation → Bool} {key : Hash}
    {e : CachedValidation} (h : (m.retain p).lookup key = some e) : m.lookup key = some e :=
  AList.mem_lookup_iff.2 (List.mem_of_mem_filter (AList.mem_lookup_iff.1 h))

theorem lookup_get {m : ValidationCache} {key k : Hash} {now : UInt64} {e : CachedValidation}
    (h : (m.get k now).2.lookup key = some e) : m.lookup key = some e := by
  unfold get at h
  split at h
  · split_ifs at h
    · exact h
    · -- the entry that has expired is dropped, and no other
      rcases eq_or_ne key k with rfl | hne
      · rw [AList.lookup_erase] at h
        cases h
      · rwa [AList.lookup_erase_ne hne] at h
  · exact h

/-- A call leaves what was there, or what it inserts. -/
theorem lookup_perform {m : ValidationCache} {key : Hash} {c : Call} {e : CachedValidation}
    (h : (m.perform c).lookup key = some e) :
    (c.inserts key = none ∧ m.lookup key = some e) ∨
      ∃ i, c.inserts key = some i ∧ e = ⟨i.tenant, i.now + i.ttl⟩ := by
  cases c with
  | get k now => exact .inl ⟨rfl, lookup_get h⟩
  | insert k tenant ttl full now =>
    simp only [perform, insert] at h
    rcases eq_or_ne key k with rfl | hne
    · rw [AList.lookup_insert] at h
      exact .inr ⟨⟨tenant, ttl, now⟩, if_pos rfl, (Option.some.inj h).symm⟩
    · rw [AList.lookup_insert_ne hne] at h
      refine .inl ⟨if_neg (Ne.symm hne), ?_⟩
      split_ifs at h
      · exact absurd h (by simp)
      · exact lookup_retain h
      · exact h

/-- **What is in the cache is what was inserted last.** -/
theorem lookup_after {calls : List Call} {key : Hash} {e : CachedValidation}
    (h : (after calls).lookup key = some e) :
    ∃ i, latest key calls = some i ∧ e = ⟨i.tenant, i.now + i.ttl⟩ := by
  induction calls using List.reverseRecOn with
  | nil => cases h
  | append_singleton calls c ih =>
    rw [after_concat] at h
    rw [latest_concat]
    obtain ⟨hnone, hlookup⟩ | ⟨i, hi, rfl⟩ := lookup_perform h
    · rw [hnone]
      exact ih hlookup
    · exact ⟨i, by rw [hi]; rfl, rfl⟩

/-- A tenant is found only if it was inserted last, and has not expired. -/
theorem get_after {calls : List Call} {key : Hash} {now : UInt64} {tenant : Text}
    (h : ((after calls).get key now).1 = some tenant) :
    ∃ i, latest key calls = some i ∧ i.tenant = tenant ∧ now < i.now + i.ttl := by
  unfold get at h
  split at h
  · rename_i entry hentry
    split_ifs at h with hexp
    obtain ⟨i, hi, rfl⟩ := lookup_after hentry
    exact ⟨i, hi, Option.some.inj h, hexp⟩
  · cases h

/-- The end of the time does not overflow. -/
def Insertion.Fits (i : Insertion) : Prop := i.now.toNat + i.ttl.toNat < 2 ^ 64

theorem Insertion.Fits.lt_iff {i : Insertion} (h : i.Fits) (now : UInt64) :
    now < i.now + i.ttl ↔ now.toNat < i.now.toNat + i.ttl.toNat := by
  rw [UInt64.lt_iff_toNat_lt, UInt64.toNat_add, Nat.mod_eq_of_lt h]

end ValidationCache

/-! ### Requests -/

/-- `Principal`. -/
structure Principal where
  tenant : Text
  sub : Option Text

/-- The fields of `GatewayConfig` that requests are resolved with; the time that validations are
remembered is there if WorkOS is configured. -/
structure GatewayConfig where
  tokens : TextMap Text
  allowDevTokens : Bool
  validationCacheTtlSeconds : Option UInt64

/-- The headers that are read, as texts. -/
structure Headers where
  authorization : Option Text
  cookie : Option Text

/-- `parse_cookie`. -/
def parseCookie (headers : Headers) (name : Text) : Option Text := do
  ((← headers.cookie).splitOn ';').findSome? fun piece => stripPrefix (name ++ ['=']) (trim piece)

/-- `extract_bearer` of the gateway, which does not take an empty token. -/
def Headers.extractBearer (headers : Headers) : Option Text := do
  let token := trim (← stripPrefix "Bearer ".toList (← headers.authorization))
  if token = [] then none else some token

/-- `SESSION_COOKIE_NAME`. -/
def sessionCookieName : Text := "omp_session".toList

namespace Gateway

variable (W : World) (K : GatewayKey) (R : Readers) (config : GatewayConfig)

/-- `resolve_session_cookie`, when the clock says `now`. -/
def resolveSessionCookie (headers : Headers) (now : UInt64) : Option SessionClaims := do
  (decodeSession K R (← parseCookie headers sessionCookieName) now false).toOption

/-- `resolve_bearer_token`. -/
def resolveBearerToken (headers : Headers) : Option Text := do
  let token ← headers.extractBearer
  match if config.allowDevTokens then stripPrefix "dev-".toList token else none with
  | some (c :: t) => some (c :: t)
  | _ => config.tokens[hashToken W token]?

/-- `resolve_principal`, when the clock says `now`. -/
def resolvePrincipal (headers : Headers) (now : UInt64) : Option Principal :=
  match resolveSessionCookie K R headers now with
  | some claims => some ⟨claims.tenant.text, some claims.sub.text⟩
  | none => (resolveBearerToken W config headers).map fun tenant => ⟨tenant, none⟩

/-- `token_hash_bytes`. -/
def tokenHashBytes (token : Text) : Hash := W.sha256 (utf8 token)

end Gateway

/-- The cache, and the tokens of the requests that wait for WorkOS. -/
structure Gateway where
  validationCache : ValidationCache
  waiting : List Text

namespace Gateway

/-- What `resolve_principal_async` does without waiting: the part before `validate_api_key`, with
two readings of the clock, and the part after it, with the readings of `insert`. -/
inductive Action where
  | request (headers : Headers) (session now : UInt64)
  | answered (token : Text) (tenant : Option Text) (full now : UInt64)

/-- How far a request has got. -/
inductive Outcome where
  | accepted (principal : Principal)
  | refused
  | waiting

/-- The first state. -/
def start : Gateway := ⟨∅, []⟩

variable (W : World) (K : GatewayKey) (R : Readers) (config : GatewayConfig)

/-- `resolve_principal_async`, up to `validate_api_key`. -/
def request (s : Gateway) (headers : Headers) (session now : UInt64) : Outcome × Gateway :=
  match resolvePrincipal W K R config headers session with
  | some p => (.accepted p, s)
  | none =>
    match config.validationCacheTtlSeconds, headers.extractBearer with
    | some _, some token =>
      match s.validationCache.get (tokenHashBytes W token) now with
      | (some tenant, cache) => (.accepted ⟨tenant, none⟩, { s with validationCache := cache })
      | (none, cache) => (.waiting, ⟨cache, token :: s.waiting⟩)
    | _, _ => (.refused, s)

/-- `resolve_principal_async`, from what `validate_api_key` returned. -/
def answered (s : Gateway) (token : Text) (tenant : Option Text) (full now : UInt64) :
    Option (Outcome × Gateway) :=
  if token ∈ s.waiting then
    match config.validationCacheTtlSeconds, tenant with
    | some ttl, some tenant =>
      some (.accepted ⟨tenant, none⟩,
        ⟨s.validationCache.insert (tokenHashBytes W token) tenant ttl full now,
          s.waiting.erase token⟩)
    | _, _ => some (.refused, { s with waiting := s.waiting.erase token })
  else none

/-- What an action leads to, if there is a request that can take it. -/
def step (s : Gateway) : Action → Option (Outcome × Gateway)
  | .request headers session now => some (request W K R config s headers session now)
  | .answered token tenant full now => answered W config s token tenant full now

/-- The state after some actions. -/
def run (actions : List Action) : Option Gateway :=
  actions.foldlM (fun s a => (step W K R config s a).map Prod.snd) start

/-- The calls of the cache that an action makes. -/
def Action.calls : Action → List ValidationCache.Call
  | .request headers session now =>
    match resolvePrincipal W K R config headers session with
    | some _ => []
    | none =>
      match config.validationCacheTtlSeconds, headers.extractBearer with
      | some _, some token => [.get (tokenHashBytes W token) now]
      | _, _ => []
  | .answered token tenant full now =>
    match config.validationCacheTtlSeconds, tenant with
    | some ttl, some tenant => [.insert (tokenHashBytes W token) tenant ttl full now]
    | _, _ => []

variable {W K R config}

/-- The cache is only reached by its calls. -/
theorem cache_step {s s' : Gateway} {a : Action} {o : Outcome}
    (h : step W K R config s a = some (o, s')) :
    s'.validationCache =
      (a.calls W K R config).foldl ValidationCache.perform s.validationCache := by
  cases a with
  | request headers session now =>
    obtain ⟨-, rfl⟩ := Prod.mk.inj (Option.some.inj h).symm
    unfold Action.calls
    dsimp only
    split
    · rfl
    · split
      · split <;> rename_i hget <;> simp [ValidationCache.perform, hget]
      · rfl
  | answered token tenant full now =>
    simp only [step, answered, Option.ite_none_right_eq_some] at h
    obtain ⟨-, h⟩ := h
    unfold Action.calls
    dsimp only
    split at h <;> obtain ⟨-, rfl⟩ := Prod.mk.inj (Option.some.inj h).symm
    · simp [ValidationCache.perform, *]
    · rfl

/-- The calls that some actions make. -/
def calls (W : World) (K : GatewayKey) (R : Readers) (config : GatewayConfig)
    (actions : List Action) : List ValidationCache.Call :=
  actions.flatMap (Action.calls W K R config)

/-- **The cache of a run** is that of its calls. -/
theorem cache_run {actions : List Action} {s : Gateway}
    (h : run W K R config actions = some s) :
    s.validationCache = ValidationCache.after (calls W K R config actions) := by
  induction actions using List.reverseRecOn generalizing s with
  | nil =>
    cases h
    rfl
  | append_singleton actions a ih =>
    simp only [run, List.foldlM_append, List.foldlM_cons, List.foldlM_nil, Option.bind_eq_bind,
      Option.bind_eq_some_iff, Option.map_eq_some_iff] at h
    obtain ⟨s₁, hrun, s₂, ⟨⟨o, s₃⟩, hstep, rfl⟩, hs⟩ := h
    cases hs
    rw [cache_step hstep, ih hrun]
    simp [calls, ValidationCache.after]

/-- WorkOS has said that a token with this digest is valid. -/
def Action.Validates (W : World) (key : Hash) : Action → Prop
  | .request _ _ _ => False
  | .answered token tenant _ _ => tokenHashBytes W token = key ∧ tenant ≠ none

/-- Only a validation inserts something. -/
theorem latest_calls_eq_none {key : Hash} {actions : List Action}
    (h : ∀ a ∈ actions, ¬ a.Validates W key) :
    ValidationCache.latest key (calls W K R config actions) = none := by
  refine List.findSome?_eq_none_iff.2 fun c hc => ?_
  obtain ⟨a, ha, hc⟩ := List.mem_flatMap.1 (List.mem_reverse.1 hc)
  have hnot := h a ha
  unfold Action.calls at hc
  split at hc
  · split at hc
    · cases hc
    · split at hc
      · obtain rfl := List.mem_singleton.1 hc
        rfl
      · cases hc
  · split at hc
    · obtain rfl := List.mem_singleton.1 hc
      exact if_neg fun hkey => hnot ⟨hkey, by simp⟩
    · cases hc

/-- A request presents a token and nothing else that is accepted, at or after a time; or there is
an answer for one. -/
def Action.Presents (W : World) (K : GatewayKey) (R : Readers) (config : GatewayConfig)
    (token : Text) (time : Nat) : Action → Prop
  | .request headers session now => resolvePrincipal W K R config headers session = none ∧
      headers.extractBearer = some token ∧ time ≤ now.toNat
  | .answered token' _ _ _ => token' = token

/-- After the time of the last validation a token is not accepted without another one. -/
theorem refused_of_latest {actions : List Action} {s s' : Gateway} {a : Action} {o : Outcome}
    {token : Text} {time : Nat} (hrun : run W K R config actions = some s)
    (hstep : step W K R config s a = some (o, s'))
    (hlatest : ∀ i, ValidationCache.latest (tokenHashBytes W token) (calls W K R config actions) =
      some i → i.Fits ∧ i.now.toNat + i.ttl.toNat ≤ time)
    (hnot : ¬ a.Validates W (tokenHashBytes W token)) (ha : a.Presents W K R config token time)
    (p : Principal) : o ≠ .accepted p := by
  rintro rfl
  cases a with
  | request headers session now =>
    obtain ⟨hnone, htoken, htime⟩ := ha
    obtain ⟨hreq, -⟩ := Prod.mk.inj (Option.some.inj hstep)
    rw [hnone, htoken] at hreq
    dsimp only at hreq
    split at hreq
    · split at hreq
      · -- what the cache returns was inserted last, and too long ago
        rename_i htoken _ tenant cache hget
        cases htoken
        rw [cache_run hrun] at hget
        obtain ⟨i, hi, -, hlt⟩ := ValidationCache.get_after (congrArg Prod.fst hget)
        obtain ⟨hfits, hle⟩ := hlatest i hi
        rw [hfits.lt_iff] at hlt
        omega
      · cases hreq
    · cases hreq
  | answered token' tenant full now =>
    obtain rfl : token' = token := ha
    simp only [step, answered, Option.ite_none_right_eq_some] at hstep
    obtain ⟨-, hstep⟩ := hstep
    split at hstep
    · exact hnot ⟨rfl, by simp⟩
    · cases hstep

/-- **The cache of validations is bounded**: it never has more than 10000 entries; a call returns a
tenant only if the key was last inserted with it, and the time has not passed; and a token that
is not validated any more is not accepted after the time of its last validation. -/
theorem validation_cache_bounded :
    (∀ calls, (ValidationCache.after calls).len ≤ 10000) ∧
    (∀ (calls : List ValidationCache.Call) (key : Hash) (now : UInt64) (tenant : Text),
      (∀ k t ttl full now', .insert k t ttl full now' ∈ calls →
        now'.toNat + ttl.toNat < 2 ^ 64) →
      ((ValidationCache.after calls).get key now).1 = some tenant →
      ∃ before ttl full now' later, calls = before ++ .insert key tenant ttl full now' :: later ∧
        (∀ t ttl' full' now'', .insert key t ttl' full' now'' ∉ later) ∧
        now.toNat < now'.toNat + ttl.toNat) ∧
    ∀ (W : World) (K : GatewayKey) (R : Readers) (config : GatewayConfig) (ttl : UInt64)
      (before later : List Action) (token tenant : Text) (full now : UInt64) (s : Gateway),
      config.validationCacheTtlSeconds = some ttl → now.toNat + ttl.toNat < 2 ^ 64 →
      run W K R config (before ++ .answered token (some tenant) full now :: later) = some s →
      (∀ a ∈ later, ¬ a.Validates W (tokenHashBytes W token)) →
      ∀ (a : Action) (o : Outcome) (s' : Gateway), step W K R config s a = some (o, s') →
        ¬ a.Validates W (tokenHashBytes W token) →
        a.Presents W K R config token (now.toNat + ttl.toNat) → ∀ p, o ≠ .accepted p := by
  refine ⟨ValidationCache.len_after_le, ?_, ?_⟩
  · intro calls key now tenant hfits hget
    obtain ⟨i, hi, rfl, hlt⟩ := ValidationCache.get_after hget
    obtain ⟨before, full, later, rfl, hlater⟩ := ValidationCache.exists_of_latest hi
    have hfit : i.Fits := hfits key i.tenant _ full _ (by simp)
    refine ⟨before, i.ttl, full, i.now, later, rfl, fun t ttl' full' now'' hmem => ?_,
      (hfit.lt_iff now).1 hlt⟩
    have hnone := hlater _ hmem
    simp [ValidationCache.Call.inserts] at hnone
  · intro W K R config ttl before later token tenant full now s httl hfit hrun hlater a o s' hstep
      hnot ha
    refine refused_of_latest hrun hstep (fun i hi => ?_) hnot ha
    have hcalls : calls W K R config
        (before ++ .answered token (some tenant) full now :: later) =
        calls W K R config before ++ ([.insert (tokenHashBytes W token) tenant ttl full now] ++
          calls W K R config later) := by
      simp [calls, Action.calls, httl]
    have hlast : ValidationCache.latest (tokenHashBytes W token)
        [.insert (tokenHashBytes W token) tenant ttl full now] = some ⟨tenant, ttl, now⟩ := by
      simp [ValidationCache.latest, ValidationCache.Call.inserts]
    rw [hcalls, ValidationCache.latest_append, ValidationCache.latest_append,
      latest_calls_eq_none hlater, hlast] at hi
    cases hi
    exact ⟨hfit, Nat.le_refl _⟩

/-- WorkOS is configured, with the usual time. -/
def demoConfig : GatewayConfig := ⟨∅, false, some 60⟩

/-- Headers with a token. -/
def demoHeaders : Headers := ⟨some "Bearer key".toList, none⟩

theorem validation_cache_bounded_demo :
    (ValidationCache.after [.insert (Hash.ofNat 1) "acme".toList 60 0 100]).len ≤ 10000 ∧
    (∃ before ttl full now' later,
      [.insert (Hash.ofNat 1) "acme".toList 60 0 100] =
        before ++ ValidationCache.Call.insert (Hash.ofNat 1) "acme".toList ttl full now' :: later ∧
      (∀ t ttl' full' now'', .insert (Hash.ofNat 1) t ttl' full' now'' ∉ later) ∧
      159 < now'.toNat + ttl.toNat) ∧
    ∀ p, (request (demoWorld ⟨[], [], []⟩) demoKey demoReaders demoConfig
      ⟨ValidationCache.after [.get (tokenHashBytes (demoWorld ⟨[], [], []⟩) "key".toList) 0,
        .insert (tokenHashBytes (demoWorld ⟨[], [], []⟩) "key".toList) "acme".toList 60 0 0], []⟩
      demoHeaders 60 60).1 ≠ .accepted p := by
  obtain ⟨hlen, hget, hrefused⟩ := validation_cache_bounded
  refine ⟨hlen _, hget _ _ 159 _ ?_ (by decide), ?_⟩
  · intro k t ttl full now' hmem
    cases List.mem_singleton.1 hmem
    decide
  · exact hrefused (demoWorld ⟨[], [], []⟩) demoKey demoReaders demoConfig 60
      [.request demoHeaders 0 0] [] "key".toList "acme".toList 0 0 _ rfl (by decide) rfl (by simp)
      (.request demoHeaders 60 60) _ _ rfl id ⟨rfl, rfl, by decide⟩

end Gateway

end Omp
