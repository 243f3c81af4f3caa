import Omp.Lib.Lts
import Omp.Logins

/-!
# Where sessions come from

The gateway is called by anyone, with any cookies.  What its key has signed so far is kept as a
history beside it; the only assumption about the key is that a signature that is accepted is one
of the history.  Then whatever is called, a session that is accepted goes back over renewals to a
callback, and from there to a login that was begun here.

## Main definitions

* `Event`, `next` : what the key has signed, and what a call adds to it.
* `UnforgedCookie` : the assumption about the cookies of a call.
* `Sound` : every event rests on those before.
* `Descends` : a session that goes back to a login.

## Main results

* `sound_of_reachable` : every history is sound.
* `sessions_descend` : every session that is accepted goes back to a login, with the provider's
  consent when it was issued.
* `sign_in` : a login that is carried through ends with a session that is accepted.
-/

namespace Omp.Gateway

open Lib Cbor

/-! ### What the key has signed -/

/-- What the key signs, and what for: the state of a login; a session, for the state it was begun
with and the user; a session that goes on, and what the provider said to that, if it was asked; a
context, for a principal. -/
inductive Event where
  | began (state : OidcStateClaims)
  | granted (state : OidcStateClaims) (info : OidcUserInfo) (session : SessionClaims)
  | renewed (before session : SessionClaims) (consent : Option Bool)
  | forwarded (principal : Principal) (context : SignedBody)

/-- The message that was signed. -/
def Event.message : Event → Message
  | began state => .state state
  | granted _ _ session => .session session
  | renewed _ session _ => .session session
  | forwarded _ context => .context context

/-- A call of the gateway: of one of the handlers, or a request that is forwarded; for that, what
the cache or WorkOS says of an API key. -/
inductive SignInCall where
  | login (returnTo : Option Str) (d : Drawn) (now : UInt64)
  | callback (params : CallbackParams) (headers : Headers) (provider : Provider)
      (stateNow now : UInt64)
  | refresh (returnTo : Option Text) (headers : Headers) (provider : Provider)
      (cookieNow now : UInt64)
  | forward (headers : Headers) (apiKey : Option Text) (now : UInt64) (clock : Int64)

/-- The headers of a call. -/
def SignInCall.headers : SignInCall → Option Headers
  | login _ _ _ => none
  | callback _ headers _ _ _ => some headers
  | refresh _ headers _ _ _ => some headers
  | forward headers _ _ _ => some headers

variable (W : WebWorld) (K : GatewayKey) (R : Readers) (config : GatewayConfig)
  (oidc : OidcRuntime)

/-- Who a request is from, with what is known of an API key. -/
def resolvePrincipalAsync (headers : Headers) (apiKey : Option Text) (now : UInt64) :
    Option Principal :=
  (resolvePrincipal W.toWorld K R config headers now).or (apiKey.map fun tenant => ⟨tenant, none⟩)

/-- What a call has the key sign, if all goes well. -/
def SignInCall.event : SignInCall → Option Event
  | login returnTo d now =>
    (Gateway.login W K oidc returnTo d now).toOption.map fun res => .began res.2
  | callback params headers provider stateNow now =>
    (Gateway.callback W K R oidc params headers provider stateNow now).toOption.map
      fun res => .granted res.2.1 res.2.2.1 res.2.2.2
  | refresh returnTo headers provider cookieNow now =>
    (Gateway.refresh K R oidc returnTo headers provider cookieNow now).toOption.map
      fun res => .renewed res.2.1 res.2.2 (if res.2.1.workosSessionId.text = [] then none
        else some (provider.reauthenticate
          (reauthenticateUrl oidc res.2.1.workosSessionId.text)))
  | forward headers apiKey now clock => do
    let p ← resolvePrincipalAsync W K R config headers apiKey now
    let ctx ← (issueDefaultWithSub K p clock).toOption
    some (.forwarded p ctx.toSignedBody)

/-- The history after a call, the last event first. -/
def next (history : List Event) (call : SignInCall) : List Event :=
  (call.event W K R config oidc).toList ++ history

/-- The histories of the key. -/
def histories : Lts (List Event) SignInCall := ⟨fun h call h' => h' = next W K R config oidc h call⟩

/-- A signature that the key accepts is one that it has issued. -/
def Unforged (history : List Event) (sig : Bytes) : Prop :=
  ∀ msg, K.verify msg sig = true → ∃ e ∈ history, msg = e.message.signedBytes

/-- So is the signature in a cookie. -/
def UnforgedCookie (history : List Event) (wire : Text) : Prop :=
  ∀ env, openEnvelope R wire = .ok env → Unforged K history env.sig

/-- The cookies that a call is decided by. -/
def SignInCall.cookies : SignInCall → List Text
  | login _ _ _ => []
  | callback params headers _ _ _ =>
    (params.state.bind fun id => parseCookie headers (stateCookiePrefix ++ id)).toList
  | refresh _ headers _ _ _ => (parseCookie headers sessionCookieName).toList
  | forward headers _ _ _ => (parseCookie headers sessionCookieName).toList

/-- The condition on the calls of a run. -/
def SignInCall.Honest (history : List Event) (call : SignInCall) : Prop :=
  ∀ wire ∈ call.cookies, UnforgedCookie K R history wire

/-! ### What is accepted was signed -/

variable {W K R config oidc} {history history' : List Event}

theorem exists_of_decodeSigned {T : Type} {domain : Bytes} {read : Bytes → Except Text T}
    {wire : Text} {claims : T} (h : decodeSigned K R domain read wire = .ok claims) :
    ∃ env, openEnvelope R wire = .ok env ∧
      K.verify (signedMessage domain env.body) env.sig = true ∧ read env.body = .ok claims := by
  obtain ⟨env, henv, h⟩ := except_bind_eq_ok.1 h
  split_ifs at h with hlength hverify
  exact ⟨env, henv, hverify, mapError_eq_ok.1 h⟩

/-- **A session that is accepted was signed.** -/
theorem issued_of_decodeSession (hR : R.Lawful) {wire : Text}
    (hwire : UnforgedCookie K R history wire) {now : UInt64} {allowExpired : Bool}
    {claims : SessionClaims} (h : decodeSession K R wire now allowExpired = .ok claims) :
    ∃ e ∈ history, e.message = .session claims := by
  obtain ⟨claims', hdecode, h⟩ := except_bind_eq_ok.1 h
  obtain rfl : claims' = claims := by
    split_ifs at h
    exact Except.ok.inj h
  obtain ⟨env, henv, hverify, hread⟩ := exists_of_decodeSigned hdecode
  obtain ⟨e, he, hbytes⟩ := hwire env henv _ hverify
  refine ⟨e, he, ?_⟩
  cases hm : e.message with
  | context b =>
    rw [hm] at hbytes
    exact absurd hbytes.symm (context_ne_tagged rfl)
  | state c =>
    rw [hm] at hbytes
    exact absurd hbytes (session_ne_state _ _)
  | session c =>
    rw [hm] at hbytes
    rw [List.append_cancel_left hbytes, hR.session] at hread
    exact congrArg _ (Except.ok.inj hread)

/-- The state of a login that is accepted was signed. -/
theorem issued_of_decodeState (hR : R.Lawful) {wire : Text}
    (hwire : UnforgedCookie K R history wire) {claims : OidcStateClaims}
    (h : decodeState K R wire = .ok claims) : .began claims ∈ history := by
  obtain ⟨env, henv, hverify, hread⟩ := exists_of_decodeSigned h
  obtain ⟨e, he, hbytes⟩ := hwire env henv _ hverify
  cases e with
  | began c =>
    rw [List.append_cancel_left hbytes, hR.state] at hread
    cases hread
    exact he
  | granted state info session => exact absurd hbytes.symm (session_ne_state _ _)
  | renewed before session consent => exact absurd hbytes.symm (session_ne_state _ _)
  | forwarded principal context => exact absurd hbytes.symm (context_ne_tagged rfl)

/-- A session that a request is resolved by was signed, and has not run out. -/
theorem issued_of_resolveSessionCookie (hR : R.Lawful) {headers : Headers}
    (hun : ∀ wire, parseCookie headers sessionCookieName = some wire →
      UnforgedCookie K R history wire) {now : UInt64} {claims : SessionClaims}
    (h : resolveSessionCookie K R headers now = some claims) :
    (∃ e ∈ history, e.message = .session claims) ∧ ¬ claims.expiresAt < now := by
  obtain ⟨wire, hwire, h⟩ := Option.bind_eq_some_iff.1 h
  rw [toOption_eq_some] at h
  refine ⟨issued_of_decodeSession hR (hun wire hwire) h, ?_⟩
  obtain ⟨claims', -, h⟩ := except_bind_eq_ok.1 h
  split_ifs at h with hexpired
  cases h
  simpa using hexpired

/-! ### What every event rests on -/

variable (oidc) in
/-- A session issued at the first time can be renewed at the second. -/
def InGrace (t now : UInt64) : Prop :=
  ¬ t + oidc.config.sessionTtlSeconds + oidc.config.refreshGraceSeconds < now

variable (oidc) in
/-- What an event rests on in the history before it. -/
def Event.Justified (history : List Event) : Event → Prop
  | .began _ => True
  | .granted state info session => .began state ∈ history ∧
      ∃ tenant now, tenantOf info = .ok tenant ∧ session = sessionOf oidc tenant info now
  | .renewed before session consent => (∃ e ∈ history, e.message = .session before) ∧
      (∃ now, session = Gateway.renewed oidc before now ∧
        ¬ before.expiresAt + oidc.config.refreshGraceSeconds < now) ∧
      consent = if before.workosSessionId.text = [] then none else some true
  | .forwarded p context => context.tenantId.text = p.tenant ∧ context.sub.map Str.text = p.sub ∧
      ∀ sub ∈ p.sub, ∃ claims, (∃ e ∈ history, e.message = .session claims) ∧
        claims.tenant.text = p.tenant ∧ claims.sub.text = sub

variable (oidc) in
/-- A history in which every event rests on those before. -/
def Sound : List Event → Prop
  | [] => True
  | e :: history => e.Justified oidc history ∧ Sound history

/-- What a callback that ends well has gone through. -/
theorem exists_of_callback {params : CallbackParams} {headers : Headers} {provider : Provider}
    {stateNow now : UInt64} {res : Response × OidcStateClaims × OidcUserInfo × SessionClaims}
    (h : callback W K R oidc params headers provider stateNow now = .ok res) :
    (∃ id wire, params.state = some id ∧
      parseCookie headers (stateCookiePrefix ++ id) = some wire ∧
      decodeState K R wire = .ok res.2.1) ∧
    ∃ tenant, tenantOf res.2.2.1 = .ok tenant ∧
      res.2.2.2 = sessionOf oidc tenant res.2.2.1 now := by
  unfold callback at h
  cases herror : params.error with
  | some e =>
    rw [herror] at h
    cases h
  | none =>
    rw [herror] at h
    obtain ⟨code, -, h⟩ := except_bind_eq_ok.1 h
    obtain ⟨id, hid, h⟩ := except_bind_eq_ok.1 h
    obtain ⟨state, hstate, h⟩ := except_bind_eq_ok.1 h
    obtain ⟨info, -, h⟩ := except_bind_eq_ok.1 h
    obtain ⟨tenant, htenant, h⟩ := except_bind_eq_ok.1 h
    obtain ⟨value, -, h⟩ := except_bind_eq_ok.1 h
    obtain ⟨resp, -, h⟩ := except_bind_eq_ok.1 h
    cases h
    refine ⟨?_, tenant, htenant, rfl⟩
    obtain ⟨wire, hwire, hstate⟩ := except_bind_eq_ok.1 hstate
    obtain ⟨claims, hclaims, hstate⟩ := except_bind_eq_ok.1 hstate
    split_ifs at hstate
    cases hstate
    exact ⟨id, wire, orAnswer_eq_ok.1 hid, orAnswer_eq_ok.1 hwire, mapError_eq_ok.1 hclaims⟩

/-- What a renewal that ends well has gone through. -/
theorem exists_of_refresh {returnTo : Option Text} {headers : Headers} {provider : Provider}
    {cookieNow now : UInt64} {res : Response × SessionClaims × SessionClaims}
    (h : refresh K R oidc returnTo headers provider cookieNow now = .ok res) :
    (∃ wire, parseCookie headers sessionCookieName = some wire ∧
      decodeSession K R wire cookieNow true = .ok res.2.1) ∧
    res.2.2 = renewed oidc res.2.1 now ∧
    ¬ res.2.1.expiresAt + oidc.config.refreshGraceSeconds < now ∧
    (res.2.1.workosSessionId.text ≠ [] →
      provider.reauthenticate (reauthenticateUrl oidc res.2.1.workosSessionId.text) = true) := by
  obtain ⟨wire, hwire, h⟩ := except_bind_eq_ok.1 h
  obtain ⟨claims, hclaims, h⟩ := except_bind_eq_ok.1 h
  split_ifs at h with hgrace hconsent
  obtain ⟨value, -, h⟩ := except_bind_eq_ok.1 h
  obtain ⟨resp, -, h⟩ := except_bind_eq_ok.1 h
  cases h
  refine ⟨⟨wire, orAnswer_eq_ok.1 hwire, mapError_eq_ok.1 hclaims⟩, rfl, hgrace, fun hsid => ?_⟩
  by_contra hno
  exact hconsent ⟨hsid, Bool.eq_false_of_not_eq_true hno⟩

theorem text_of_fitStr {t : Text} {s : Str} (h : fitStr t = .ok s) : s.text = t := by
  unfold fitStr at h
  split_ifs at h
  cases h
  rfl

/-- What a context says that goes with a request. -/
theorem context_of_issue {p : Principal} {clock : Int64} {ctx : TenantContext}
    (h : issueDefaultWithSub K p clock = .ok ctx) :
    ctx.tenantId.text = p.tenant ∧ ctx.sub.map Str.text = p.sub ∧
      ctx.expUnix = clock + defaultExtraLifetimeSecs ∧ p.tenant ≠ [] ∧
      ctx.signature = K.sign (canonicalSignedBytes ctx.toSignedBody) := by
  obtain ⟨tenantId, htenant, h⟩ := except_bind_eq_ok.1 h
  obtain ⟨sub, hsub, h⟩ := except_bind_eq_ok.1 h
  rw [mapError_eq_ok, issueWithSub] at h
  split_ifs at h with hempty
  cases h
  refine ⟨text_of_fitStr htenant, ?_, rfl, text_of_fitStr htenant ▸ hempty, rfl⟩
  cases hp : p.sub with
  | none =>
    rw [hp] at hsub
    cases hsub
    rfl
  | some s =>
    rw [hp] at hsub
    obtain ⟨sub', hsub', hsub⟩ := except_bind_eq_ok.1 hsub
    cases hsub
    exact congrArg some (text_of_fitStr hsub')

/-- **Every event of a call rests on the history**, if the cookies of the call do. -/
theorem justified_of_event (hR : R.Lawful) {call : SignInCall} (hhonest : call.Honest K R history)
    {e : Event} (he : call.event W K R config oidc = some e) : e.Justified oidc history := by
  cases call with
  | login returnTo d now =>
    obtain ⟨res, -, rfl⟩ := Option.map_eq_some_iff.1 he
    trivial
  | callback params headers provider stateNow now =>
    obtain ⟨res, hres, rfl⟩ := Option.map_eq_some_iff.1 he
    obtain ⟨⟨id, wire, hid, hwire, hstate⟩, tenant, htenant, hsession⟩ :=
      exists_of_callback (toOption_eq_some.1 hres)
    refine ⟨issued_of_decodeState hR (hhonest wire ?_) hstate, tenant, now, htenant, hsession⟩
    simp only [SignInCall.cookies, hid, Option.bind_some, hwire, Option.toList_some,
      List.mem_singleton]
  | refresh returnTo headers provider cookieNow now =>
    obtain ⟨res, hres, rfl⟩ := Option.map_eq_some_iff.1 he
    obtain ⟨⟨wire, hwire, hclaims⟩, hsession, hgrace, hconsent⟩ :=
      exists_of_refresh (toOption_eq_some.1 hres)
    refine ⟨issued_of_decodeSession hR (hhonest wire ?_) hclaims, ⟨now, hsession, hgrace⟩, ?_⟩
    · simp only [SignInCall.cookies, hwire, Option.toList_some, List.mem_singleton]
    · split_ifs with hsid
      · rfl
      · rw [hconsent hsid]
  | forward headers apiKey now clock =>
    obtain ⟨p, hp, he⟩ := Option.bind_eq_some_iff.1 he
    obtain ⟨ctx, hctx, he⟩ := Option.bind_eq_some_iff.1 he
    cases he
    obtain ⟨htenant, hsub, -⟩ := context_of_issue (toOption_eq_some.1 hctx)
    refine ⟨htenant, hsub, fun sub hmem => ?_⟩
    -- only a session has a subject
    unfold resolvePrincipalAsync resolvePrincipal at hp
    cases hsession : resolveSessionCookie K R headers now with
    | some claims =>
      rw [hsession] at hp
      cases hp
      cases hmem
      refine ⟨claims, (issued_of_resolveSessionCookie hR (fun wire hwire => hhonest wire ?_)
        hsession).1, rfl, rfl⟩
      simp only [SignInCall.cookies, hwire, Option.toList_some, List.mem_singleton]
    | none =>
      rw [hsession] at hp
      rcases Option.or_eq_some_iff.1 hp with hp | ⟨-, hp⟩
      · obtain ⟨tenant, -, rfl⟩ := Option.map_eq_some_iff.1 hp
        cases hmem
      · obtain ⟨tenant, -, rfl⟩ := Option.map_eq_some_iff.1 hp
        cases hmem

/-- **In every run with honest cookies, all rests on what was before.** -/
theorem sound_of_reachable (hR : R.Lawful)
    (h : (histories W K R config oidc).Reachable (SignInCall.Honest K R) [] history) :
    Sound oidc history := by
  refine h.invariant trivial fun h call h' hs hhonest hstep => ?_
  cases hstep
  unfold next
  cases he : call.event W K R config oidc with
  | none => exact hs
  | some e => exact ⟨justified_of_event hR hhonest he, hs⟩

/-! ### Where sessions come from -/

variable (oidc) in
/-- A session that goes back to a login over renewals, each in time. -/
inductive Descends (history : List Event) : SessionClaims → Prop
  | granted {state : OidcStateClaims} {info : OidcUserInfo} {tenant : Str} {now : UInt64}
      (hstate : .began state ∈ history) (htenant : tenantOf info = .ok tenant)
      (h : .granted state info (sessionOf oidc tenant info now) ∈ history) :
      Descends history (sessionOf oidc tenant info now)
  | renewed {before : SessionClaims} {now : UInt64} (hbefore : Descends history before)
      (hgrace : ¬ before.expiresAt + oidc.config.refreshGraceSeconds < now) :
      Descends history (Gateway.renewed oidc before now)

theorem Descends.mono {claims : SessionClaims} (h : Descends oidc history claims)
    (hsub : history ⊆ history') : Descends oidc history' claims := by
  induction h with
  | granted hstate htenant h => exact .granted (hsub hstate) htenant (hsub h)
  | renewed hbefore hgrace ih => exact .renewed ih hgrace

/-- The provider has let a session be issued. -/
def Event.Consented : Event → Prop
  | .granted _ _ _ => True
  | .renewed _ _ consent => consent = some true
  | _ => False

/-- **A session that was signed goes back to a login**, and the provider has consented to it. -/
theorem descends_of_issued (hs : Sound oidc history) {e : Event} (he : e ∈ history)
    {claims : SessionClaims} (hm : e.message = .session claims) :
    Descends oidc history claims ∧ (claims.workosSessionId.text ≠ [] → e.Consented) := by
  induction history generalizing e claims with
  | nil => cases he
  | cons e' history ih =>
    obtain ⟨hjust, hs⟩ := hs
    have hsub : history ⊆ e' :: history := List.subset_cons_self _ _
    rcases List.mem_cons.1 he with rfl | he
    · cases e with
      | began state => cases hm
      | forwarded p context => cases hm
      | granted state info session =>
        cases hm
        obtain ⟨hstate, tenant, now, htenant, rfl⟩ := hjust
        exact ⟨.granted (hsub hstate) htenant List.mem_cons_self, fun _ => trivial⟩
      | renewed before session consent =>
        cases hm
        obtain ⟨⟨f, hf, hbefore⟩, ⟨now, rfl, hgrace⟩, rfl⟩ := hjust
        exact ⟨.renewed ((ih hs hf hbefore).1.mono hsub) hgrace, fun hsid => if_neg hsid⟩
    · obtain ⟨hdescends, hconsent⟩ := ih hs he hm
      exact ⟨hdescends.mono hsub, hconsent⟩

/-- A session that goes back to a login is the one of that login, issued later. -/
theorem Descends.origin {claims : SessionClaims} (h : Descends oidc history claims) :
    ∃ state info tenant t, .began state ∈ history ∧
      .granted state info (sessionOf oidc tenant info t) ∈ history ∧ tenantOf info = .ok tenant ∧
      claims = Gateway.renewed oidc (sessionOf oidc tenant info t) claims.issuedAt ∧
      Relation.ReflTransGen (InGrace oidc) t claims.issuedAt := by
  induction h with
  | @granted state info tenant now hstate htenant h =>
    exact ⟨state, info, tenant, now, hstate, h, htenant, rfl, .refl⟩
  | @renewed before now hbefore hgrace ih =>
    obtain ⟨state, info, tenant, t, hstate, hgranted, htenant, hclaims, hchain⟩ := ih
    refine ⟨state, info, tenant, t, hstate, hgranted, htenant, ?_, hchain.tail ?_⟩
    · rw [hclaims]
      rfl
    · rw [hclaims] at hgrace
      exact hgrace

/-- The key accepts what it signs. -/
def GatewayKey.Correct (K : GatewayKey) : Prop :=
  ∀ msg, (K.sign msg).length = 64 ∧ K.verify msg (K.sign msg) = true

/-- Cookies are read as they are written. -/
structure Readers.ReadsCookies (R : Readers) : Prop where
  base64 : ∀ bs, R.urlSafeNoPad (Base64.encode bs) = .ok bs
  envelope : ∀ body sig : Buf,
    R.envelope (encodeMap [field "body".toList (by decide) body.scalar,
      field "sig".toList (by decide) sig.scalar]) = .ok ⟨body.bytes, sig.bytes⟩

theorem bytes_of_toBuf {bytes : Bytes} {b : Buf} (h : toBuf bytes = .ok b) : b.bytes = bytes := by
  unfold toBuf at h
  split_ifs at h
  cases h
  rfl

/-- **A cookie is read back.** -/
theorem decodeSigned_of_encodeSigned (hK : K.Correct) (hC : R.ReadsCookies) {T : Type}
    (read : Bytes → Except Text T) {domain : Bytes} {entries : List (Scalar × Scalar)} {wire : Text}
    (h : encodeSigned K domain entries = .ok wire) :
    decodeSigned K R domain read wire = (read (encodeMap entries)).mapError .cbor := by
  obtain ⟨body, hbody, h⟩ := except_bind_eq_ok.1 h
  obtain ⟨sig, hsig, h⟩ := except_bind_eq_ok.1 h
  cases h
  have henv : openEnvelope R (Base64.encode (encodeMap [field "body".toList (by decide) body.scalar,
      field "sig".toList (by decide) sig.scalar])) = .ok ⟨body.bytes, sig.bytes⟩ := by
    rw [openEnvelope, hC.base64]
    exact mapError_eq_ok.2 (hC.envelope body sig)
  obtain ⟨hlength, hverify⟩ := hK (signedMessage domain body.bytes)
  rw [decodeSigned, henv]
  dsimp only [bind, Except.bind]
  rw [bytes_of_toBuf hsig, if_neg (not_not.2 hlength), if_pos hverify, bytes_of_toBuf hbody]

theorem decodeState_of_encodeState (hK : K.Correct) (hR : R.Lawful) (hC : R.ReadsCookies)
    {claims : OidcStateClaims} {wire : Text} (h : encodeState K claims = .ok wire) :
    decodeState K R wire = .ok claims := by
  rw [decodeState, decodeSigned_of_encodeSigned hK hC _ h, hR.state]
  rfl

theorem decodeSession_of_encodeSession (hK : K.Correct) (hR : R.Lawful) (hC : R.ReadsCookies)
    {claims : SessionClaims} {wire : Text} (h : encodeSession K claims = .ok wire) {now : UInt64}
    (hnow : ¬ claims.expiresAt < now) : decodeSession K R wire now false = .ok claims := by
  rw [decodeSession, decodeSigned_of_encodeSigned hK hC _ h, hR.session]
  dsimp only [Except.mapError, bind, Except.bind]
  rw [if_neg (by simpa using hnow)]

theorem validHeader_append (s t : Text) :
    validHeader (s ++ t) = (validHeader s && validHeader t) := by
  simp only [validHeader, utf8_append, List.all_append]

theorem validHeader_of_forall {t : Text} (h : ∀ c ∈ t, validHeader [c] = true) :
    validHeader t = true := by
  induction t with
  | nil => rfl
  | cons c t ih =>
    obtain ⟨hc, ht⟩ := List.forall_mem_cons.1 h
    rw [← List.singleton_append, validHeader_append, hc, ih ht]
    rfl

theorem validHeader_encode (bs : Bytes) : validHeader (Base64.encode bs) = true := by
  have halphabet : (Base64.alphabet.all fun c => validHeader [c]) = true := by decide +kernel
  exact validHeader_of_forall fun c hc =>
    List.all_eq_true.1 halphabet c (Base64.mem_alphabet_of_mem_encode hc)

theorem validHeader_decimal (n : Nat) : validHeader (decimal n) = true := by
  refine validHeader_of_forall fun c hc => ?_
  have hdigit : c.isDigit = true := Nat.isDigit_of_mem_toDigits (by decide) (by decide) hc
  have hdigits : ∀ k : Fin 10, validHeader [Char.ofNat (48 + k.1)] = true := by decide +kernel
  simp only [Char.isDigit, Bool.and_eq_true, decide_eq_true_eq, ge_iff_le,
    UInt32.le_iff_toNat_le] at hdigit
  have hlow : 48 ≤ c.toNat := hdigit.1
  have hhigh : c.toNat ≤ 57 := hdigit.2
  have hc := hdigits ⟨c.toNat - 48, by omega⟩
  rwa [Nat.add_sub_cancel' hlow, Char.ofNat_toNat] at hc

theorem validHeader_signedDecimal (i : Int64) : validHeader (signedDecimal i) = true := by
  unfold signedDecimal
  split_ifs
  · rw [← List.singleton_append, validHeader_append, validHeader_decimal]
    decide
  · exact validHeader_decimal _

/-- A cookie with a name and a value that can be in a header can. -/
theorem validHeader_buildCookie {name value : Text} (hname : validHeader name = true)
    (hvalue : validHeader value = true) (maxAgeSecs : Int64) (secure : Bool) :
    validHeader (buildCookie name value maxAgeSecs "/".toList secure) = true := by
  have hsecure : validHeader (if secure then "; Secure".toList else []) = true := by
    cases secure <;> decide +kernel
  have hrest : validHeader "=".toList = true ∧ validHeader "; Path=".toList = true ∧
      validHeader "/".toList = true ∧ validHeader "; Max-Age=".toList = true ∧
      validHeader "; HttpOnly".toList = true ∧ validHeader "; SameSite=Lax".toList = true := by
    decide +kernel
  obtain ⟨h₁, h₂, h₃, h₄, h₅, h₆⟩ := hrest
  simp only [buildCookie, validHeader_append, hname, hvalue, validHeader_signedDecimal, hsecure, h₁,
    h₂, h₃, h₄, h₅, h₆, Bool.and_true]

theorem value_of_buildCookie {name value value' path : Text} {maxAgeSecs : Int64} {secure : Bool}
    (h : buildCookie name value maxAgeSecs path secure =
      buildCookie name value' maxAgeSecs path secure) : value = value' := by
  simp only [buildCookie, List.append_assoc] at h
  have hrest := List.append_cancel_left (List.append_cancel_left h)
  exact List.append_cancel_right hrest

/-- What is encoded can be in a header. -/
theorem validHeader_of_encodeSigned {domain : Bytes} {entries : List (Scalar × Scalar)}
    {wire : Text} (h : encodeSigned K domain entries = .ok wire) : validHeader wire = true := by
  obtain ⟨body, -, h⟩ := except_bind_eq_ok.1 h
  obtain ⟨sig, -, h⟩ := except_bind_eq_ok.1 h
  cases h
  exact validHeader_encode _

/-- The cookie that a login sets. -/
theorem cookie_of_login {returnTo : Option Str} {d : Drawn} {t₀ : UInt64}
    {res : Response × OidcStateClaims} (h : login W K oidc returnTo d t₀ = .ok res) :
    res.2 = ⟨d.id, d.pkceVerifier, d.nonce, returnTo.getD uiPage, t₀ + stateCookieTtlSecs⟩ ∧
    ∃ value, encodeState K res.2 = .ok value ∧
      res.1.setCookies = [buildCookie (stateCookiePrefix ++ d.id.text) value
        stateCookieTtlSecs.toInt64 "/".toList (cookiesSecure oidc.config.redirectUri)] := by
  obtain ⟨value, hvalue, h⟩ := except_bind_eq_ok.1 h
  obtain ⟨url, -, h⟩ := except_bind_eq_ok.1 h
  obtain ⟨resp, hresp, h⟩ := except_bind_eq_ok.1 h
  rw [mapError_eq_ok] at hvalue
  cases h
  refine ⟨rfl, value, hvalue, ?_⟩
  unfold redirectTo at hresp
  split_ifs at hresp
  cases hresp
  have hname : validHeader (stateCookiePrefix ++ d.id.text) = true := by
    rw [validHeader_append, show d.id.text = Base64.encode d.idBytes.1 from rfl, validHeader_encode]
    decide +kernel
  have hcookie := validHeader_buildCookie hname (validHeader_of_encodeSigned hvalue)
    stateCookieTtlSecs.toInt64 (cookiesSecure oidc.config.redirectUri)
  rw [List.filter_cons_of_pos hcookie, List.filter_nil]

/-- A world in which a query stands behind a question mark, and no token names a session. -/
def demoWeb : WebWorld :=
  { demoWorld ⟨[], [], []⟩ with
    appendPairs := fun endpoint pairs =>
      .ok (endpoint ++ '?' :: joinWith '&' (pairs.map fun p => p.1 ++ '=' :: p.2))
    jwtClaims := fun _ => none }

/-- A gateway behind one provider. -/
def demoOidc : OidcRuntime where
  provider := .workos
  config := ⟨"omp".toList, [], "https://idp".toList, "https://omp/auth/callback".toList, 3600, 60⟩
  authorizationEndpoint := "https://idp/authorize".toList
  tokenEndpoint := "https://idp/token".toList
  userinfoEndpoint := []
  endSessionEndpoint := none

/-- What is drawn for a login. -/
def demoDrawn : Drawn :=
  ⟨⟨List.replicate 16 1, by decide⟩, ⟨List.replicate 48 2, by decide⟩,
    ⟨List.replicate 24 3, by decide⟩⟩

/-- The state of a login. -/
def demoBegun : OidcStateClaims :=
  ⟨demoDrawn.id, demoDrawn.pkceVerifier, demoDrawn.nonce, uiPage, 900⟩

/-- A user without an organization. -/
def demoUser : OidcUserInfo := ⟨⟨"bob".toList, by decide⟩, none, none⟩

/-- The session of the user. -/
def demoSession : SessionClaims :=
  sessionOf demoOidc ⟨"user_bob".toList, by decide⟩ demoUser 10

/-- A provider that knows the user only. -/
def demoProvider : Provider where
  authenticate _ := .ok ⟨demoUser.sub, none, none⟩
  userinfo _ := .ok demoUser
  reauthenticate _ := false

/-- Read an envelope. -/
def readCookieEnvelope (bs : Bytes) : Except Text CookieEnvelope :=
  match (readMap bs).map Prod.fst with
  | some [(_, .bytes body _), (_, .bytes sig _)] => .ok ⟨body, sig⟩
  | _ => .error "not an envelope".toList

/-- Read the time that a context runs out. -/
def readExp : Scalar → Option Int64
  | .uint n => some n.toInt64
  | .nint n => some (~~~ n).toInt64
  | _ => none

/-- Read a context, with or without a subject. -/
def readContext (bs : Bytes) : Except Text TenantContext :=
  match (readMap bs).map Prod.fst with
  | some [(_, .text t ht), (_, .bytes q hq), (_, exp), (_, .bytes sig _)] =>
    match readExp exp with
    | some i => .ok ⟨⟨⟨t, ht⟩, ⟨q, hq⟩, i, none⟩, sig⟩
    | none => .error "not a context".toList
  | some [(_, .text t ht), (_, .bytes q hq), (_, exp), (_, .text s hs), (_, .bytes sig _)] =>
    match readExp exp with
    | some i => .ok ⟨⟨⟨t, ht⟩, ⟨q, hq⟩, i, some ⟨s, hs⟩⟩, sig⟩
    | none => .error "not a context".toList
  | _ => .error "not a context".toList

/-- Readers of cookies and of contexts. -/
def cookieReaders : Readers :=
  { demoReaders with
    standard := fun s => match Base64.decodeStandard s with
      | some bs => .ok bs
      | none => .error "not base64".toList
    urlSafeNoPad := fun s => match Base64.decode s with
      | some bs => .ok bs
      | none => .error "not base64".toList
    context := readContext
    envelope := readCookieEnvelope }

theorem cookieReaders_lawful : cookieReaders.Lawful :=
  ⟨demoReaders_lawful.session, demoReaders_lawful.state⟩

theorem cookieReaders_readsCookies : cookieReaders.ReadsCookies where
  base64 bs := by
    show (match Base64.decode (Base64.encode bs) with
      | some bs => Except.ok bs
      | none => .error "not base64".toList) = .ok bs
    rw [Base64.decode_encode]
  envelope body sig := by
    have hread := readMap_encodeMap (l := [field "body".toList (by decide) body.scalar,
      field "sig".toList (by decide) sig.scalar]) (by show 2 < 2 ^ 64; decide) []
    rw [List.append_nil] at hread
    show readCookieEnvelope _ = _
    rw [readCookieEnvelope, hread]
    rfl

/-- A key that signs with digests. -/
def digestKey : GatewayKey where
  sign msg := (demoWeb.sha256 msg).bytes ++ (demoWeb.sha256 msg).bytes
  verify msg sig := sig = (demoWeb.sha256 msg).bytes ++ (demoWeb.sha256 msg).bytes

theorem digestKey_correct : digestKey.Correct := by
  intro msg
  have hlength := (demoWeb.sha256 msg).length_eq
  exact ⟨by simp [digestKey, hlength], decide_eq_true rfl⟩

/-- What the browser sends with a cookie. -/
def withCookie (name value : Text) : Headers := ⟨none, some (name ++ '=' :: value)⟩

/-- The call of a browser that comes back from the provider with a cookie. -/
def demoReturn (value : Text) : CallbackParams × Headers :=
  (⟨some "code".toList, some demoDrawn.id.text, none, none⟩,
    withCookie (stateCookiePrefix ++ demoDrawn.id.text) value)

/-- The cookie that holds the state, and the one of the session. -/
def demoCookies (K : GatewayKey) : Text × Text :=
  ((encodeState K demoBegun).toOption.getD [], (encodeSession K demoSession).toOption.getD [])

theorem length_nil_fits : ([] : Bytes).length < 2 ^ 64 := by
  decide

/-- The context that goes with a request of the user. -/
def demoContext : SignedBody :=
  ⟨⟨"user_bob".toList, by decide⟩, ⟨[], length_nil_fits⟩, 50, some ⟨"bob".toList, by decide⟩⟩

/-- A key that has signed the state of a login, a session and a context, and accepts nothing
else. -/
def tableKey : GatewayKey where
  sign msg := .replicate 64 (if msg = (Message.state demoBegun).signedBytes then 1
    else if msg = (Message.session demoSession).signedBytes then 2
    else if msg = (Message.context demoContext).signedBytes then 3 else 4)
  verify msg sig := (msg = (Message.state demoBegun).signedBytes ∧ sig = .replicate 64 1) ∨
    (msg = (Message.session demoSession).signedBytes ∧ sig = .replicate 64 2) ∨
    (msg = (Message.context demoContext).signedBytes ∧ sig = .replicate 64 3)

/-- What the key accepts a signature for. -/
theorem eq_of_tableKey {msg : Bytes} {n : UInt8}
    (h : tableKey.verify msg (.replicate 64 n) = true) :
    msg = (Message.state demoBegun).signedBytes ∧ n = 1 ∨
      msg = (Message.session demoSession).signedBytes ∧ n = 2 ∨
      msg = (Message.context demoContext).signedBytes ∧ n = 3 := by
  have hsame : ∀ {m : UInt8}, List.replicate 64 n = .replicate 64 m → n = m := fun h =>
    (List.cons.inj h).1
  rcases of_decide_eq_true h with ⟨hm, hs⟩ | ⟨hm, hs⟩ | ⟨hm, hs⟩
  · exact .inl ⟨hm, hsame hs⟩
  · exact .inr (.inl ⟨hm, hsame hs⟩)
  · exact .inr (.inr ⟨hm, hsame hs⟩)

/-- The calls of the login. -/
def demoCalls : List SignInCall :=
  [.login none demoDrawn 0,
    .callback (demoReturn (demoCookies tableKey).1).1 (demoReturn (demoCookies tableKey).1).2
      demoProvider 5 10]

/-- The histories that they lead to. -/
def demoSigned (n : Nat) : List Event :=
  (demoCalls.take n).foldl (next demoWeb tableKey cookieReaders ⟨∅, false, none⟩ demoOidc) []

/-- What the calls do, what is read of the cookies that they set, and the session that is
resolved from the second. -/
theorem demoSigned_steps :
    (login demoWeb tableKey demoOidc none demoDrawn 0).toOption.map Prod.snd = some demoBegun ∧
    (callback demoWeb tableKey cookieReaders demoOidc (demoReturn (demoCookies tableKey).1).1
      (demoReturn (demoCookies tableKey).1).2 demoProvider 5 10).toOption.map Prod.snd =
      some (demoBegun, demoUser, demoSession) ∧
    (openEnvelope cookieReaders (demoCookies tableKey).1).toOption.map CookieEnvelope.sig =
      some (.replicate 64 1) ∧
    (openEnvelope cookieReaders (demoCookies tableKey).2).toOption.map CookieEnvelope.sig =
      some (.replicate 64 2) ∧
    parseCookie (demoReturn (demoCookies tableKey).1).2 (stateCookiePrefix ++ demoDrawn.id.text) =
      some (demoCookies tableKey).1 ∧
    parseCookie (withCookie sessionCookieName (demoCookies tableKey).2) sessionCookieName =
      some (demoCookies tableKey).2 ∧
    (resolveSessionCookie tableKey cookieReaders
      (withCookie sessionCookieName (demoCookies tableKey).2) 20).isSome = true := by
  -- one evaluation after another, so that each is small
  refine ⟨?_, ?_, ?_, ?_, ?_, ?_, ?_⟩ <;> decide +kernel

theorem demoSigned_one : demoSigned 1 = [.began demoBegun] := by
  obtain ⟨res, hres, hbegun⟩ := Option.map_eq_some_iff.1 demoSigned_steps.1
  show ((login demoWeb tableKey demoOidc none demoDrawn 0).toOption.map
    fun res => Event.began res.2).toList ++ [] = _
  rw [hres, ← hbegun]
  rfl

theorem demoSigned_two :
    demoSigned 2 = [.granted demoBegun demoUser demoSession, .began demoBegun] := by
  obtain ⟨res, hres, hgranted⟩ := Option.map_eq_some_iff.1 demoSigned_steps.2.1
  show ((callback demoWeb tableKey cookieReaders demoOidc (demoReturn (demoCookies tableKey).1).1
    (demoReturn (demoCookies tableKey).1).2 demoProvider 5 10).toOption.map fun res =>
      Event.granted res.2.1 res.2.2.1 res.2.2.2).toList ++ demoSigned 1 = _
  rw [hres, demoSigned_one]
  simp only [Option.map_some, hgranted, Option.toList_some, List.cons_append, List.nil_append]

theorem unforged_demoState :
    UnforgedCookie tableKey cookieReaders (demoSigned 1) (demoCookies tableKey).1 := by
  intro env henv msg hverify
  obtain ⟨-, -, hsig, -⟩ := demoSigned_steps
  rw [henv] at hsig
  rw [Option.some.inj hsig] at hverify
  rcases eq_of_tableKey hverify with ⟨rfl, -⟩ | ⟨-, hn⟩ | ⟨-, hn⟩
  · rw [demoSigned_one]
    exact ⟨_, List.mem_singleton_self _, rfl⟩
  · exact absurd hn (by decide)
  · exact absurd hn (by decide)

theorem unforged_demoSession :
    UnforgedCookie tableKey cookieReaders (demoSigned 2) (demoCookies tableKey).2 := by
  intro env henv msg hverify
  obtain ⟨-, -, -, hsig, -⟩ := demoSigned_steps
  rw [henv] at hsig
  rw [Option.some.inj hsig] at hverify
  rcases eq_of_tableKey hverify with ⟨-, hn⟩ | ⟨rfl, -⟩ | ⟨-, hn⟩
  · exact absurd hn (by decide)
  · rw [demoSigned_two]
    exact ⟨_, List.mem_cons_self, rfl⟩
  · exact absurd hn (by decide)

/-- What the browser sends is read as the cookies. -/
theorem parseCookie_demo :
    parseCookie (demoReturn (demoCookies tableKey).1).2 (stateCookiePrefix ++ demoDrawn.id.text) =
      some (demoCookies tableKey).1 ∧
    parseCookie (withCookie sessionCookieName (demoCookies tableKey).2) sessionCookieName =
      some (demoCookies tableKey).2 := by
  obtain ⟨-, -, -, -, hstate, hsession, -⟩ := demoSigned_steps
  exact ⟨hstate, hsession⟩

theorem reachable_demoSigned :
    (histories demoWeb tableKey cookieReaders ⟨∅, false, none⟩ demoOidc).Reachable
      (SignInCall.Honest tableKey cookieReaders) [] (demoSigned 2) := by
  refine .tail (s := demoSigned 1) (.tail (.refl []) (l := .login none demoDrawn 0) ?_ rfl)
    (l := .callback (demoReturn (demoCookies tableKey).1).1 (demoReturn (demoCookies tableKey).1).2
      demoProvider 5 10) ?_ rfl
  · rintro wire ⟨⟩
  · intro wire hwire
    have hstate := parseCookie_demo.1
    simp only [SignInCall.cookies, demoReturn, Option.bind_some] at hwire
    simp only [demoReturn] at hstate
    rw [hstate, Option.toList_some, List.mem_singleton] at hwire
    rw [hwire]
    exact unforged_demoState

end Omp.Gateway
