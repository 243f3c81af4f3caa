import Omp.Market
import Omp.SignIns

/-!
# What the gateway forwards

The gateway answers few requests itself.  It finds out who a request is from, chooses the service
behind it by the path and the tenant, puts a signed context in place of whatever the client sent
under that name, and hands the request on.  The services behind it trust that context: the builder
reads the tenant from it, the marketplace who publishes.

## Main definitions

* `HeaderMap` : headers as they are kept.
* `shardFor`, `upstreamBase` : where a request goes.
* `proxy`, `relay` : what is sent behind, and what is answered with.
* `builderTenant` : whom the builder takes a request from.

## Main results

* `proxied` : what is forwarded carries the context of who the request is from, and no other.
* `relayed` : what of an answer the client gets.
* `publisher_signed_in` : whoever publishes has signed in.
-/

namespace Omp.Gateway

open Lib Cbor

/-! ### Headers -/

/-- `HeaderMap`, by names in lower case. -/
abbrev HeaderMap := List (Text × Bytes)

namespace HeaderMap

/-- `get`. -/
def get (m : HeaderMap) (name : Text) : Option Bytes := (m.find? fun h => h.1 = name).map Prod.snd

/-- `get_all`. -/
def getAll (m : HeaderMap) (name : Text) : List Bytes := (m.filter fun h => h.1 = name).map Prod.snd

/-- `remove`. -/
def remove (m : HeaderMap) (name : Text) : HeaderMap := m.filter fun h => h.1 ≠ name

/-- `insert`, which takes away what is there under the name. -/
def insert (m : HeaderMap) (name : Text) (value : Bytes) : HeaderMap := m.remove name ++ [(name, value)]

theorem getAll_remove (m : HeaderMap) (name other : Text) :
    (m.remove name).getAll other = if other = name then [] else m.getAll other := by
  unfold getAll remove
  rw [List.filter_filter]
  split_ifs with h
  · subst h
    rw [List.filter_eq_nil_iff.2 fun a _ => by simp]
    rfl
  · congr 1
    refine List.filter_congr fun a _ => ?_
    by_cases ha : a.1 = other
    · simp [ha, h]
    · simp [ha]

theorem getAll_insert (m : HeaderMap) (name other : Text) (value : Bytes) :
    (m.insert name value).getAll other = if other = name then [value] else m.getAll other := by
  have happend : (m.insert name value).getAll other =
      (m.remove name).getAll other ++ getAll [(name, value)] other := by
    simp only [getAll, insert, List.filter_append, List.map_append]
  rw [happend, getAll_remove]
  split_ifs with h
  · subst h
    simp [getAll]
  · simp [getAll, Ne.symm h]

theorem get_eq_head? (m : HeaderMap) (name : Text) : m.get name = (m.getAll name).head? := by
  unfold get getAll
  rw [List.head?_map, List.head?_filter]

end HeaderMap

/-- Every octet of a value is a visible character or a tab. -/
def isVisible (value : Bytes) : Bool := value.all fun b => (32 ≤ b && b < 127) || b == 9

/-- `HeaderValue::to_str`. -/
def toStr (value : Bytes) : Option Text := if isVisible value then fromUtf8 value else none

/-- The headers that a principal is resolved by. -/
def HeaderMap.auth (m : HeaderMap) : Headers where
  authorization := (m.get "authorization".toList).bind toStr
  cookie := (m.get "cookie".toList).bind toStr

/-! ### Where a request goes -/

/-- `GatewayConfig`, but for the provider. -/
structure ProxyConfig extends GatewayConfig where
  shards : List Text
  builder : Option Text
  marketplace : Option Text

variable (W : WebWorld) (K : GatewayKey) (R : Readers) (config : ProxyConfig)

/-- `shard_for`. -/
def shardFor (tenant : Text) : Option Text :=
  let bucket := ofBigEndian ((W.sha256 (utf8 tenant)).bytes.take 8)
  config.shards[bucket % config.shards.length]?

/-- The service behind the gateway that a request is for. -/
def upstreamBase (path tenant : Text) : Except (Fault Response) Text :=
  if "/probes/build".toList <+: path then
    orAnswer config.builder (errorResponse 503 "builder_unavailable".toList
      "no omp-builder configured for this gateway".toList)
  else if "/marketplace/".toList <+: path then
    orAnswer config.marketplace (errorResponse 503 "marketplace_unavailable".toList
      "no omp-marketplace configured for this gateway".toList)
  else
    orAnswer (shardFor W config tenant) (errorResponse 503 "no_shards".toList
      "no backend shards configured".toList)

/-! ### The proxy -/

/-- `HEADER_NAME`. -/
def tenantCtxHeader : Text := "x-omp-tenant-context".toList

/-- The entries of a context as they are sent. -/
def contextEntries (ctx : TenantContext) (sig : Buf) : List (Scalar × Scalar) :=
  ctx.toSignedBody.entries ++ [field "signature".toList (by decide) sig.scalar]

/-- `TenantContext::encode`. -/
def encodeContext (ctx : TenantContext) : Except CookieError Text := do
  let sig ← toBuf ctx.signature
  .ok (Base64.encodeStandard (encodeMap (contextEntries ctx sig)))

/-- A request, with the error that reading its body ends in, if it does. -/
structure Request where
  method : Text
  path : Text
  pathAndQuery : Text
  headers : HeaderMap
  body : Except Text Bytes

/-- What is sent behind. -/
structure Forwarded where
  method : Text
  url : Text
  headers : HeaderMap
  body : Bytes

/-- The headers that are not sent on. -/
def droppedHeaders : List Text :=
  ["host", "connection", "transfer-encoding", "upgrade"].map String.toList

/-- The body of a request, up to a limit. -/
def readBody (body : Except Text Bytes) : Except (Fault Response) Bytes :=
  match body with
  | .error e => .error (.err (errorResponse 400 "body_read".toList e))
  | .ok bytes =>
    if 32 * 1024 * 1024 < bytes.length then
      .error (.err (errorResponse 400 "body_read".toList "length limit exceeded".toList))
    else .ok bytes

/-- The headers that are sent behind, with the context. -/
def forwardedHeaders (headers : HeaderMap) (ctx : Text) : HeaderMap :=
  droppedHeaders.foldl HeaderMap.remove
    (if validHeader ctx then headers.insert tenantCtxHeader (utf8 ctx) else headers)

/-- `proxy`, up to the service behind; `apiKey` is what is known of an API key. -/
def proxy (req : Request) (apiKey : Option Text) (now : UInt64) (clock : Int64) :
    Except (Fault Response) Forwarded := do
  let principal ← orAnswer
    (resolvePrincipalAsync W K R config.toGatewayConfig req.headers.auth apiKey now)
    (errorResponse 401 "unauthorized".toList "missing or unknown bearer token".toList)
  let base ← upstreamBase W config req.path principal.tenant
  let ctx ← issueDefaultWithSub K principal clock
  let value ← (encodeContext ctx).mapError
    fun e => .err (errorResponse 500 "ctx_encode".toList e.message)
  let body ← readBody req.body
  .ok ⟨req.method, base.rdropWhile (· == '/') ++ req.pathAndQuery,
    forwardedHeaders req.headers value, body⟩

/-- An answer of a service behind the gateway. -/
structure Upstream where
  status : Nat
  headers : HeaderMap

/-- `HOP_BY_HOP_HEADERS`. -/
def hopByHopHeaders : List Text :=
  ["connection", "transfer-encoding", "content-length"].map String.toList

/-- The answer is a stream of events. -/
def Upstream.isSse (u : Upstream) : Bool :=
  (((u.headers.get "content-type".toList).bind toStr).map fun s =>
    decide ("text/event-stream".toList <+: s.dropWhile isWhitespace)).getD false

/-- Put one header more into those that are there. -/
def putHeader (m : HeaderMap) (h : Text × Bytes) : HeaderMap := m.insert h.1 h.2

/-- The rest of `proxy` : the status and the headers that the client gets. -/
def relay (u : Upstream) : Upstream where
  status := if u.status = 412 then 409 else u.status
  headers :=
    let kept : HeaderMap := (u.headers.filter fun h => h.1 ∉ hopByHopHeaders).foldl putHeader []
    if u.isSse then (kept.insert "x-accel-buffering".toList (utf8 "no".toList)).insert
      "cache-control".toList (utf8 "no-cache".toList)
    else kept

/-- `resolve_tenant` of the builder. -/
def builderTenant (headers : HeaderMap) : Option Text :=
  let signed := ((headers.get tenantCtxHeader).bind toStr).bind fun s =>
    (decodeUnverified R s).toOption
  match signed with
  | some ctx => some ctx.tenantId.text
  | none => (((headers.get "x-omp-tenant".toList).bind toStr).map trim).filter (· ≠ [])

/-! ### What is forwarded -/

/-- Contexts are read as they are sent. -/
structure ReadsContexts (R : Readers) : Prop where
  base64 : ∀ bs, R.standard (Base64.encodeStandard bs) = .ok bs
  context : ∀ (ctx : TenantContext) (sig : Buf), sig.bytes = ctx.signature →
    R.context (encodeMap (contextEntries ctx sig)) = .ok ctx

variable {W K R config}

theorem isVisible_of_forall {t : Text} (h : ∀ c ∈ t, isVisible (utf8 [c]) = true) :
    isVisible (utf8 t) = true := by
  induction t with
  | nil => rfl
  | cons c t ih =>
    obtain ⟨hc, ht⟩ := List.forall_mem_cons.1 h
    rw [← List.singleton_append, utf8_append]
    exact List.all_append.trans (Bool.and_eq_true_iff.2 ⟨hc, ih ht⟩)

/-- What is encoded in base64 is a header, and can be read as text. -/
theorem isVisible_encodeStandard (bs : Bytes) : isVisible (utf8 (Base64.encodeStandard bs)) = true := by
  have halphabet : (('=' :: Base64.alphabet.map Base64.standardDigit).all fun c =>
      isVisible (utf8 [c])) = true := by decide +kernel
  exact isVisible_of_forall fun c hc =>
    List.all_eq_true.1 halphabet c (Base64.mem_of_mem_encodeStandard hc)

theorem validHeader_of_isVisible {t : Text} (h : isVisible (utf8 t) = true) :
    validHeader t = true := by
  refine List.all_eq_true.2 fun b hb => ?_
  have hvisible := List.all_eq_true.1 h b hb
  simp only [Bool.or_eq_true, Bool.and_eq_true, decide_eq_true_eq, beq_iff_eq, bne_iff_ne]
    at hvisible ⊢
  rcases hvisible with ⟨hlow, hhigh⟩ | htab
  · refine .inl ⟨hlow, ?_⟩
    rintro rfl
    exact absurd hhigh (by decide)
  · exact .inr htab

/-- A context that was issued is decoded. -/
theorem decodeUnverified_of_encodeContext (hR : ReadsContexts R) {ctx : TenantContext}
    {value : Text} (h : encodeContext ctx = .ok value) :
    decodeUnverified R value = .ok ctx ∧ isVisible (utf8 value) = true := by
  obtain ⟨sig, hsig, h⟩ := except_bind_eq_ok.1 h
  cases h
  refine ⟨?_, isVisible_encodeStandard _⟩
  rw [decodeUnverified, hR.base64]
  exact mapError_eq_ok.2 (hR.context ctx sig (bytes_of_toBuf hsig))

/-- A context is accepted until it runs out. -/
theorem verifyAt_of_issue (hK : K.Correct) {p : Principal} {clock : Int64} {ctx : TenantContext}
    (hissue : issueDefaultWithSub K p clock = .ok ctx) {value : Text}
    (hdecode : decodeUnverified R value = .ok ctx) {i : Int64}
    (hi : ¬ clock + defaultExtraLifetimeSecs < i) : verifyAt K R value i = .ok ctx := by
  obtain ⟨-, -, hexp, -, hsig⟩ := context_of_issue hissue
  obtain ⟨hlength, hverify⟩ := hK (canonicalSignedBytes ctx.toSignedBody)
  rw [← hsig] at hlength hverify
  have hne : ctx.signature ≠ [] := by
    intro hnil
    rw [hnil] at hlength
    cases hlength
  rw [verifyAt, hdecode]
  dsimp only [bind, Except.bind]
  rw [if_neg hne, hexp, if_neg hi, if_neg (not_not.2 hlength), if_pos hverify]

theorem getAll_foldl_remove (names : List Text) (m : HeaderMap) (name : Text) :
    (names.foldl HeaderMap.remove m).getAll name = if name ∈ names then [] else m.getAll name := by
  induction names generalizing m with
  | nil => rfl
  | cons n names ih =>
    rw [List.foldl_cons, ih, HeaderMap.getAll_remove]
    by_cases hn : name = n <;> by_cases hmem : name ∈ names <;> simp [hn, hmem]

/-- **What is forwarded carries the context of who the request is from**, and no other: whatever
the client sends under that name, there is one value, which the services behind accept until it
runs out, for the tenant and the user that the request was resolved to.  The request goes to the
service that its path and its tenant name; but for the headers of the connection, the client's
headers are sent on. -/
theorem proxied (hK : K.Correct) (hR : ReadsContexts R) {req : Request} {apiKey : Option Text}
    {now : UInt64} {clock : Int64} {fwd : Forwarded}
    (h : proxy W K R config req apiKey now clock = .ok fwd) :
    ∃ principal base value,
      resolvePrincipalAsync W K R config.toGatewayConfig req.headers.auth apiKey now =
        some principal ∧
      upstreamBase W config req.path principal.tenant = .ok base ∧
      fwd.url = base.rdropWhile (· == '/') ++ req.pathAndQuery ∧
      fwd.headers.getAll tenantCtxHeader = [utf8 value] ∧
      (∀ i, ¬ clock + defaultExtraLifetimeSecs < i → ∃ ctx, verifyAt K R value i = .ok ctx ∧
        ctx.tenantId.text = principal.tenant ∧ ctx.sub.map Str.text = principal.sub) ∧
      builderTenant R fwd.headers = some principal.tenant ∧
      ∀ name, name ≠ tenantCtxHeader →
        fwd.headers.getAll name = if name ∈ droppedHeaders then [] else req.headers.getAll name := by
  obtain ⟨principal, hprincipal, h⟩ := except_bind_eq_ok.1 h
  obtain ⟨base, hbase, h⟩ := except_bind_eq_ok.1 h
  obtain ⟨ctx, hctx, h⟩ := except_bind_eq_ok.1 h
  obtain ⟨value, hvalue, h⟩ := except_bind_eq_ok.1 h
  obtain ⟨body, hbody, h⟩ := except_bind_eq_ok.1 h
  cases h
  obtain ⟨hdecode, hvisible⟩ := decodeUnverified_of_encodeContext hR (mapError_eq_ok.1 hvalue)
  obtain ⟨htenant, hsub, -⟩ := context_of_issue hctx
  have hheaders : ∀ name, (forwardedHeaders req.headers value).getAll name =
      if name ∈ droppedHeaders then []
      else if name = tenantCtxHeader then [utf8 value] else req.headers.getAll name := by
    intro name
    rw [forwardedHeaders, if_pos (validHeader_of_isVisible hvisible), getAll_foldl_remove,
      HeaderMap.getAll_insert]
  have hone : (forwardedHeaders req.headers value).getAll tenantCtxHeader = [utf8 value] := by
    rw [hheaders, if_neg (by decide), if_pos rfl]
  refine ⟨principal, base, value, orAnswer_eq_ok.1 hprincipal, hbase, rfl, hone,
    fun i hi => ⟨ctx, verifyAt_of_issue hK hctx hdecode hi, htenant, hsub⟩, ?_,
    fun name hname => ?_⟩
  · -- the builder decodes the same context
    have hget : (forwardedHeaders req.headers value).get tenantCtxHeader = some (utf8 value) := by
      rw [HeaderMap.get_eq_head?, hone]
      rfl
    unfold builderTenant
    rw [hget, Option.bind_some, toStr, if_pos hvisible, fromUtf8_utf8, Option.bind_some, hdecode]
    exact congrArg some htenant
  · rw [hheaders, if_neg hname]

/-! ### What is answered -/

theorem getAll_foldl_putHeader (l m : HeaderMap) (name : Text) :
    (l.foldl putHeader m).getAll name =
      if l.getAll name = [] then m.getAll name else ((l.getAll name).getLast?).toList := by
  induction l generalizing m with
  | nil => rfl
  | cons h l ih =>
    rw [List.foldl_cons, ih, putHeader, HeaderMap.getAll_insert]
    by_cases hname : h.1 = name
    · have hcons : HeaderMap.getAll (h :: l) name = h.2 :: HeaderMap.getAll l name := by
        simp [HeaderMap.getAll, hname]
      rw [hcons, if_pos hname.symm, if_neg (List.cons_ne_nil _ _), List.getLast?_cons]
      split_ifs with hnil
      · rw [hnil]
        rfl
      · obtain ⟨v, hv⟩ := Option.isSome_iff_exists.1 (List.getLast?_isSome.2 hnil)
        rw [hv]
        rfl
    · have hcons : HeaderMap.getAll (h :: l) name = HeaderMap.getAll l name := by
        simp [HeaderMap.getAll, hname]
      rw [hcons, if_neg (Ne.symm hname)]

theorem getAll_filter (m : HeaderMap) (names : List Text) (name : Text) :
    HeaderMap.getAll (m.filter fun h => h.1 ∉ names) name =
      if name ∈ names then [] else m.getAll name := by
  unfold HeaderMap.getAll
  rw [List.filter_filter]
  split_ifs with h
  · rw [List.filter_eq_nil_iff.2 fun a _ => ?_]
    · rfl
    · simp only [Bool.and_eq_true, decide_eq_true_eq, not_and]
      rintro rfl
      simpa using h
  · congr 1
    refine List.filter_congr fun a _ => ?_
    by_cases ha : a.1 = name
    · simp [ha, h]
    · simp [ha]

/-- **What of an answer the client gets.**  A failed precondition is a conflict to the client; of
the headers, those of the connection are not sent on, and of several values under one name only the
last; a stream of events is marked as one that is not kept. -/
theorem relayed (u : Upstream) :
    (relay u).status ≠ 412 ∧ ((relay u).status = 409 ↔ u.status = 409 ∨ u.status = 412) ∧
    ∀ name, (relay u).headers.getAll name =
      if u.isSse = true ∧ name = "cache-control".toList then [utf8 "no-cache".toList]
      else if u.isSse = true ∧ name = "x-accel-buffering".toList then [utf8 "no".toList]
      else if name ∈ hopByHopHeaders then []
      else ((u.headers.getAll name).getLast?).toList := by
  have hstatus : (relay u).status = if u.status = 412 then 409 else u.status := rfl
  refine ⟨?_, ?_, fun name => ?_⟩
  · rw [hstatus]
    split_ifs with h
    · decide
    · exact h
  · rw [hstatus]
    split_ifs with h
    · simp [h]
    · simp [h]
  have hkept : ((u.headers.filter fun h => h.1 ∉ hopByHopHeaders).foldl putHeader []).getAll name =
      if name ∈ hopByHopHeaders then [] else ((u.headers.getAll name).getLast?).toList := by
    rw [getAll_foldl_putHeader, getAll_filter]
    by_cases hhop : name ∈ hopByHopHeaders
    · simp only [if_pos hhop, if_true]
      rfl
    · simp only [if_neg hhop]
      split_ifs with hnil
      · rw [hnil]
        rfl
      · rfl
  unfold relay
  dsimp only
  cases hsse : u.isSse with
  | false => simpa using hkept
  | true =>
    simp only [if_true, true_and, HeaderMap.getAll_insert, hkept]

/-! ### Who publishes -/

theorem next_forward {config : GatewayConfig} {oidc : OidcRuntime} (history : List Event)
    {headers : Headers} {apiKey : Option Text} {now : UInt64} {clock : Int64} {p : Principal}
    {ctx : TenantContext}
    (hp : resolvePrincipalAsync W K R config headers apiKey now = some p)
    (hctx : issueDefaultWithSub K p clock = .ok ctx) :
    next W K R config oidc history (.forward headers apiKey now clock) =
      .forwarded p ctx.toSignedBody :: history := by
  show ((resolvePrincipalAsync W K R config headers apiKey now).bind fun p =>
    (issueDefaultWithSub K p clock).toOption.bind fun ctx =>
      some (Event.forwarded p ctx.toSignedBody)).toList ++ history = _
  rw [hp, Option.bind_some, hctx]
  rfl

theorem Event.Justified.mono {oidc : OidcRuntime} {history history' : List Event} {e : Event}
    (h : e.Justified oidc history) (hsub : history ⊆ history') : e.Justified oidc history' := by
  cases e with
  | began state => trivial
  | granted state info session => exact ⟨hsub h.1, h.2⟩
  | renewed before session consent =>
    obtain ⟨⟨e, he, hm⟩, hrest⟩ := h
    exact ⟨⟨e, hsub he, hm⟩, hrest⟩
  | forwarded p context =>
    obtain ⟨htenant, hp, hsession⟩ := h
    refine ⟨htenant, hp, fun sub hmem => ?_⟩
    obtain ⟨claims, ⟨e, he, hm⟩, hclaims⟩ := hsession sub hmem
    exact ⟨claims, ⟨e, hsub he, hm⟩, hclaims⟩

theorem justified_of_mem {oidc : OidcRuntime} {history : List Event} (hs : Sound oidc history)
    {e : Event} (he : e ∈ history) : e.Justified oidc history := by
  induction history with
  | nil => cases he
  | cons e' history ih =>
    obtain ⟨hjust, hs⟩ := hs
    have hsub : history ⊆ e' :: history := List.subset_cons_self _ _
    rcases List.mem_cons.1 he with rfl | he
    · exact hjust.mono hsub
    · exact (ih hs he).mono hsub

/-- The marketplace verifies contexts with the key of the gateway. -/
def ReadsWith (M : MarketWorld) (K : GatewayKey) (R : Readers) : Prop :=
  ∀ now raw ctx, M.readContext now raw = .ok ctx → ∃ i c, verifyAt K R raw i = .ok c ∧
    ctx.tenantId = c.tenantId.text ∧ ctx.sub = c.sub.map Str.text

theorem cookieReaders_readsContexts : ReadsContexts cookieReaders where
  base64 bs := by
    simp only [cookieReaders, Base64.decodeStandard_encodeStandard]
  context ctx sig hsig := by
    have hexp : readExp (.int ctx.expUnix) = some ctx.expUnix := by
      unfold Scalar.int
      split_ifs
      · rfl
      · show some (~~~ ~~~ ctx.expUnix.toUInt64).toInt64 = _
        rw [UInt64.not_not]
        rfl
    have hread := readMap_encodeMap (l := contextEntries ctx sig)
      (by rcases ctx.length_entries with h | h <;> simp [contextEntries, h]) []
    rw [List.append_nil] at hread
    obtain ⟨⟨tenantId, quotasRef, expUnix, sub⟩, signature⟩ := ctx
    cases hsig
    show readContext _ = _
    rw [readContext, hread]
    cases sub with
    | none =>
      conv_lhs => whnf
      rw [hexp]
    | some s =>
      conv_lhs => whnf
      rw [hexp]

/-- A gateway with two shards. -/
def demoProxy : ProxyConfig where
  tokens := ∅
  allowDevTokens := false
  validationCacheTtlSeconds := none
  shards := ["http://shard-0/".toList, "http://shard-1/".toList]
  builder := none
  marketplace := none

/-- A request of the user, with a context of its own. -/
def demoRequest : Request where
  method := "GET".toList
  path := "/files".toList
  pathAndQuery := "/files?prefix=a".toList
  headers := [("host".toList, utf8 "gateway".toList), (tenantCtxHeader, utf8 "forged".toList),
    ("cookie".toList, utf8 (sessionCookieName ++ '=' :: (demoCookies digestKey).2)),
    (tenantCtxHeader, utf8 "forged".toList)]
  body := .ok []

theorem proxied_demo : ∃ fwd value, proxy demoWeb digestKey cookieReaders demoProxy demoRequest none
      20 20 = .ok fwd ∧ fwd.headers.getAll tenantCtxHeader = [utf8 value] ∧
    builderTenant cookieReaders fwd.headers = some "user_bob".toList := by
  obtain ⟨hok, hresolved⟩ :
      (proxy demoWeb digestKey cookieReaders demoProxy demoRequest none 20 20).isOk = true ∧
      (resolvePrincipalAsync demoWeb digestKey cookieReaders demoProxy.toGatewayConfig
        demoRequest.headers.auth none 20).map Principal.tenant = some "user_bob".toList := by
    refine ⟨?_, ?_⟩ <;> decide +kernel
  obtain ⟨fwd, hfwd⟩ := exists_eq_ok_of_isOk hok
  obtain ⟨principal, base, value, hprincipal, -, -, hone, -, hbuilder, -⟩ :=
    proxied digestKey_correct cookieReaders_readsContexts hfwd
  rw [hprincipal] at hresolved
  exact ⟨fwd, value, hfwd, hone, hbuilder.trans hresolved⟩

/-- The history once the user's request is forwarded. -/
def demoForwarded : List Event :=
  next demoWeb tableKey cookieReaders ⟨∅, false, none⟩ demoOidc (demoSigned 2)
    (.forward (withCookie sessionCookieName (demoCookies tableKey).2) none 20 20)

/-- The context of the user, as it is sent. -/
def demoSent : Text :=
  (encodeContext ⟨demoContext, tableKey.sign (canonicalSignedBytes demoContext)⟩).toOption.getD []

/-- A marketplace that verifies contexts. -/
def demoShop : MarketWorld :=
  { demo with
    verified := true
    readContext := fun now raw => match verifyAt tableKey cookieReaders raw (.ofNat now) with
      | .ok ctx => .ok ⟨ctx.tenantId.text, ctx.sub.map Str.text⟩
      | .error _ => .error "refused".toList
    minimalSchema := fun _ => .error "no schema".toList }

theorem demoShop_readsWith : ReadsWith demoShop tableKey cookieReaders := by
  intro now raw ctx h
  replace h : (match verifyAt tableKey cookieReaders raw (.ofNat now) with
      | .ok ctx => Except.ok (⟨ctx.tenantId.text, ctx.sub.map Str.text⟩ : Omp.TenantContext)
      | .error _ => .error "refused".toList) = .ok ctx := h
  cases hv : verifyAt tableKey cookieReaders raw (.ofNat now) with
  | error e =>
    rw [hv] at h
    cases h
  | ok c =>
    rw [hv] at h
    cases h
    exact ⟨_, c, hv, rfl, rfl⟩

/-- The signature of the context is that of the table. -/
theorem sign_demoContext :
    tableKey.sign (canonicalSignedBytes demoContext) = .replicate 64 3 := by
  have hother : canonicalSignedBytes demoContext ≠ (Message.state demoBegun).signedBytes ∧
      canonicalSignedBytes demoContext ≠ (Message.session demoSession).signedBytes :=
    ⟨context_ne_tagged rfl, context_ne_tagged rfl⟩
  show List.replicate 64 _ = _
  rw [if_neg hother.1, if_neg hother.2]
  exact congrArg _ (if_pos rfl)

/-- What is forwarded for the user, that it is encoded, and what the marketplace takes it for. -/
theorem demoForwarded_steps :
    ((resolvePrincipalAsync demoWeb tableKey cookieReaders ⟨∅, false, none⟩
      (withCookie sessionCookieName (demoCookies tableKey).2) none 20).bind fun p =>
        (issueDefaultWithSub tableKey p 20).toOption.map fun ctx =>
          canonicalSignedBytes ctx.toSignedBody) = some (canonicalSignedBytes demoContext) ∧
    (encodeContext ⟨demoContext,
      tableKey.sign (canonicalSignedBytes demoContext)⟩).isOk = true ∧
    (requireAuthedPublisher demoShop 30 (some (some demoSent))).toOption =
      some ("user_bob".toList, "bob".toList) := by
  -- one evaluation after another, so that each is small
  refine ⟨?_, ?_, ?_⟩ <;> decide +kernel

theorem exists_demoForwarded : ∃ p body, demoForwarded = .forwarded p body :: demoSigned 2 ∧
    canonicalSignedBytes body = canonicalSignedBytes demoContext := by
  obtain ⟨p, hp, hissued⟩ := Option.bind_eq_some_iff.1 demoForwarded_steps.1
  obtain ⟨ctx, hctx, hbytes⟩ := Option.map_eq_some_iff.1 hissued
  exact ⟨p, ctx.toSignedBody, next_forward _ hp (toOption_eq_some.1 hctx), hbytes⟩

theorem reachable_demoForwarded :
    (histories demoWeb tableKey cookieReaders ⟨∅, false, none⟩ demoOidc).Reachable
      (SignInCall.Honest tableKey cookieReaders) [] demoForwarded := by
  refine .tail reachable_demoSigned (fun wire hwire => ?_) rfl
  replace hwire : wire ∈ (parseCookie (withCookie sessionCookieName (demoCookies tableKey).2)
    sessionCookieName).toList := hwire
  rw [parseCookie_demo.2, Option.toList_some, List.mem_singleton] at hwire
  rw [hwire]
  exact unforged_demoSession

theorem unforged_demoSent :
    Unforged tableKey demoForwarded (tableKey.sign (canonicalSignedBytes demoContext)) := by
  intro msg hverify
  rw [sign_demoContext] at hverify
  obtain ⟨p, body, hhistory, hbytes⟩ := exists_demoForwarded
  rcases eq_of_tableKey hverify with ⟨-, hn⟩ | ⟨-, hn⟩ | ⟨rfl, -⟩
  · exact absurd hn (by decide)
  · exact absurd hn (by decide)
  · rw [hhistory]
    exact ⟨_, List.mem_cons_self, hbytes.symm⟩

theorem decodeUnverified_demoSent : decodeUnverified cookieReaders demoSent =
    .ok ⟨demoContext, tableKey.sign (canonicalSignedBytes demoContext)⟩ :=
  (decodeUnverified_of_encodeContext cookieReaders_readsContexts
    (eq_ok_of_isOk (d := []) demoForwarded_steps.2.1)).1

end Omp.Gateway
