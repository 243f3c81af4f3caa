import Omp.Lib.Base64
import Omp.ValidationCache

/-!
# Signing in

A login starts with a cookie that holds its state, goes on at the provider, and ends with a callback
that trades the provider's code for the cookie of a session.  A session that runs out is renewed
without a login, within a time of grace and with the provider's consent.  The gateway remembers
nothing of all this: what it has signed is in the cookies, and whoever calls may send any.

What the provider answers, what is drawn and what the clock says are arguments of the handlers.  A
handler yields its answer with what it had the key sign.

## Main definitions

* `encodeSession`, `encodeState` : how cookies are written.
* `exchange` : what the provider says of a code.
* `login`, `callback`, `refresh`, `logout` : the handlers.
* `issueDefaultWithSub` : the context that goes with a request.
-/

namespace Omp.Gateway

open Lib Cbor

/-! ### Configuration -/

/-- `WorkOsConfig`, but for what the cache is configured with. -/
structure WorkOsConfig where
  clientId : Text
  clientSecret : Text
  issuerUrl : Text
  redirectUri : Text
  sessionTtlSeconds : UInt64
  refreshGraceSeconds : UInt64

/-- `AuthProvider`. -/
inductive AuthProvider where
  | workos | oidc
  deriving DecidableEq

/-- `OidcRuntime`. -/
structure OidcRuntime where
  provider : AuthProvider
  config : WorkOsConfig
  authorizationEndpoint : Text
  tokenEndpoint : Text
  userinfoEndpoint : Text
  endSessionEndpoint : Option Text

/-- What the handlers take from crates besides: a query behind a URL that parses, and the session
that the payload of a token names, if it is JSON. -/
structure WebWorld extends World where
  appendPairs : Text → List (Text × Text) → Except Text Text
  jwtClaims : Bytes → Option (Option Str)

/-! ### Answers -/

/-- An answer of a handler: its status, where it sends the browser, the cookies it sets, and the
code and the message of an error. -/
structure Response where
  status : Nat
  location : Option Text
  setCookies : List Text
  error : Option (Text × Text)

/-- `error_response`. -/
def errorResponse (status : Nat) (code message : Text) : Response :=
  ⟨status, none, [], some (code, message)⟩

/-- `error_resp`. -/
def errorResp (status : Nat) (message : Text) : Response :=
  errorResponse status "auth".toList message

/-- `HeaderValue::from_str` takes a text. -/
def validHeader (t : Text) : Bool := (utf8 t).all fun b => (32 ≤ b && b != 127) || b == 9

/-- `Redirect::to`, which panics where the address cannot be in a header, with the cookies that
can. -/
def redirectTo (uri : Text) (cookies : List Text) : Except (Fault Response) Response :=
  if validHeader uri then .ok ⟨303, some uri, cookies.filter validHeader, none⟩
  else .error .panic

/-- A signed number as it is written. -/
def signedDecimal (i : Int64) : Text :=
  if i.toInt < 0 then '-' :: decimal i.toInt.natAbs else decimal i.toInt.natAbs

/-- The texts of the errors of a context. -/
def CtxError.message : CtxError → Text
  | .base64 e => "base64 decode: ".toList ++ e
  | .cbor e => "cbor decode: ".toList ++ e
  | .missingSignature => "missing signature".toList
  | .badSignature => "bad signature".toList
  | .expired exp now => "expired (exp=".toList ++ signedDecimal exp ++ ", now=".toList ++
      signedDecimal now ++ ")".toList
  | .emptyTenant => "tenant id is empty".toList

/-- The texts of the errors of a cookie. -/
def CookieError.message : CookieError → Text
  | .base64 e => "base64: ".toList ++ e
  | .cbor e => "cbor: ".toList ++ e
  | .badSignature => "bad signature".toList
  | .expired exp now => "expired (exp=".toList ++ decimal exp.toNat ++ ", now=".toList ++
      decimal now.toNat ++ ")".toList

/-! ### Cookies -/

/-- `SESSION_PRESENCE_COOKIE`. -/
def sessionPresenceCookie : Text := "omp_signed_in".toList

/-- `STATE_COOKIE_PREFIX`. -/
def stateCookiePrefix : Text := "omp_oidc_state_".toList

/-- `STATE_COOKIE_TTL_SECS`. -/
def stateCookieTtlSecs : UInt64 := 15 * 60

/-- `build_cookie`. -/
def buildCookie (name value : Text) (maxAgeSecs : Int64) (path : Text) (secure : Bool) : Text :=
  name ++ "=".toList ++ value ++ "; Path=".toList ++ path ++ "; Max-Age=".toList ++
    signedDecimal maxAgeSecs ++ "; HttpOnly".toList ++
    (if secure then "; Secure".toList else []) ++ "; SameSite=Lax".toList

/-- `build_presence_cookie`. -/
def buildPresenceCookie (maxAgeSecs : Int64) (secure : Bool) : Text :=
  sessionPresenceCookie ++ "=1; Path=/; Max-Age=".toList ++ signedDecimal maxAgeSecs ++
    (if secure then "; Secure".toList else []) ++ "; SameSite=Lax".toList

/-- `cleared_presence_cookie`. -/
def clearedPresenceCookie (secure : Bool) : Text :=
  sessionPresenceCookie ++ "=; Path=/; Max-Age=0".toList ++
    (if secure then "; Secure".toList else []) ++ "; SameSite=Lax".toList

/-- `cleared_cookie`. -/
def clearedCookie (name path : Text) (secure : Bool) : Text := buildCookie name [] 0 path secure

/-- `cookies_secure`. -/
def cookiesSecure (redirectUri : Text) : Bool := "https://".toList <+: redirectUri

/-- `url_escape`. -/
def urlEscape (s : Text) : Text :=
  (utf8 s).flatMap fun b =>
    if (0x41 ≤ b && b ≤ 0x5A) || (0x61 ≤ b && b ≤ 0x7A) || (0x30 ≤ b && b ≤ 0x39) || b == 0x2D ||
      b == 0x5F || b == 0x2E || b == 0x7E || b == 0x2F then [Char.ofNat b.toNat]
    else ['%', upperHexDigit (b / 16), upperHexDigit (b % 16)]
where
  /-- A digit of `{:02X}`. -/
  upperHexDigit (n : UInt8) : Char := "0123456789ABCDEF".toList.getD n.toNat '0'

/-- A vector of octets, if it fits in memory. -/
def toBuf (bytes : Bytes) : Except CookieError Buf :=
  if h : bytes.length < 2 ^ 64 then .ok ⟨bytes, h⟩ else .error (.cbor "out of memory".toList)

/-- `encode_signed`. -/
def encodeSigned (K : GatewayKey) (domain : Bytes) (entries : List (Scalar × Scalar)) :
    Except CookieError Text := do
  let body ← toBuf (encodeMap entries)
  let sig ← toBuf (K.sign (signedMessage domain body.bytes))
  .ok (Base64.encode (encodeMap [field "body".toList (by decide) body.scalar,
    field "sig".toList (by decide) sig.scalar]))

/-- `encode_session`. -/
def encodeSession (K : GatewayKey) (claims : SessionClaims) : Except CookieError Text :=
  encodeSigned K sessionDomainTag claims.entries

/-- `encode_state`. -/
def encodeState (K : GatewayKey) (claims : OidcStateClaims) : Except CookieError Text :=
  encodeSigned K stateDomainTag claims.entries

/-! ### The provider -/

/-- What is sent to the token endpoint, besides what the gateway is configured with. -/
structure TokenRequest where
  code : Text
  codeVerifier : Text

/-- How an exchange fails. -/
inductive ExchangeFailure where
  | authenticateSend (e : Text)
  | authenticateStatus (status text : Text)
  | authenticateJson (e : Text)
  | tokenJson (e : Text)
  | tokenStatus (e : Text)
  | tokenSend (e : Text)
  | userinfoJson (e : Text)
  | userinfoStatus (e : Text)
  | userinfoSend (e : Text)

/-- The message of a failed exchange. -/
def ExchangeFailure.message : ExchangeFailure → Text
  | authenticateSend e => "authenticate_send: ".toList ++ e
  | authenticateStatus status text =>
    "authenticate_status ".toList ++ status ++ ": ".toList ++ text
  | authenticateJson e => "authenticate_json: ".toList ++ e
  | tokenJson e => "token_json: ".toList ++ e
  | tokenStatus e => "token_status: ".toList ++ e
  | tokenSend e => "token_send: ".toList ++ e
  | userinfoJson e => "userinfo_json: ".toList ++ e
  | userinfoStatus e => "userinfo_status: ".toList ++ e
  | userinfoSend e => "userinfo_send: ".toList ++ e

/-- `WorkosAuthenticateResponse`. -/
structure WorkosAuthenticateResponse where
  userId : Str
  organizationId : Option Str
  accessToken : Option Text

deriving instance DecidableEq for Str
deriving instance DecidableEq for SessionClaims
deriving instance DecidableEq for OidcStateClaims

/-- `OidcUserInfo`, which is also what the callback takes from either provider. -/
structure OidcUserInfo where
  sub : Str
  organizationId : Option Str
  sid : Option Str
  deriving DecidableEq

/-- What the provider answers: to a code, by itself or with the token that it is traded for; and
whether a session goes on, at an address. -/
structure Provider where
  authenticate : TokenRequest → Except ExchangeFailure WorkosAuthenticateResponse
  userinfo : TokenRequest → Except ExchangeFailure OidcUserInfo
  reauthenticate : Text → Bool

variable (W : WebWorld) (K : GatewayKey) (R : Readers)

/-- `extract_jwt_sid`. -/
def extractJwtSid (jwt : Text) : Option Str :=
  match jwt.splitOn '.' with
  | _ :: payload :: _ => do
    let bytes ← (R.urlSafeNoPad payload).toOption
    let claims ← W.jwtClaims bytes
    claims
  | _ => none

/-- The exchange of a code with either provider. -/
def exchange (oidc : OidcRuntime) (provider : Provider) (req : TokenRequest) :
    Except ExchangeFailure OidcUserInfo :=
  match oidc.provider with
  | .workos => do
    let parsed ← provider.authenticate req
    .ok ⟨parsed.userId, parsed.organizationId, parsed.accessToken.bind (extractJwtSid W R)⟩
  | .oidc => provider.userinfo req

/-! ### Handlers -/

/-- A string that is put together, unless it does not fit. -/
def concatStr (s : Text) (t : Str) : Except (Fault Response) Str :=
  if h : (utf8 (s ++ t.text)).length < 2 ^ 64 then .ok ⟨s ++ t.text, h⟩ else .error .panic

/-- The tenant of a user: the organization, or one for the user alone. -/
def tenantOf (info : OidcUserInfo) : Except (Fault Response) Str :=
  match info.organizationId with
  | some org => if org.text = [] then concatStr "user_".toList info.sub else .ok org
  | none => concatStr "user_".toList info.sub

/-- `random_b64url`, of what was drawn. -/
def randomB64url {n : Nat} (bytes : { bs : Bytes // bs.length = n }) (hn : n < 2 ^ 32) : Str where
  text := Base64.encode bytes.1
  fits := by
    have h₁ := length_utf8_le (Base64.encode bytes.1)
    have h₂ := Base64.length_encode_le bytes.1
    have h₃ := bytes.2
    omega

/-- What is drawn for a login. -/
structure Drawn where
  idBytes : { bs : Bytes // bs.length = 16 }
  verifierBytes : { bs : Bytes // bs.length = 48 }
  nonceBytes : { bs : Bytes // bs.length = 24 }

namespace Drawn

/-- The id of a login. -/
def id (d : Drawn) : Str := randomB64url d.idBytes (by decide)

/-- The verifier that shows the provider who has begun the login. -/
def pkceVerifier (d : Drawn) : Str := randomB64url d.verifierBytes (by decide)

/-- The nonce of a login. -/
def nonce (d : Drawn) : Str := randomB64url d.nonceBytes (by decide)

end Drawn

/-- The page that is shown after a login, if no other is asked for. -/
def uiPage : Str := ⟨"/ui/".toList, by decide⟩

/-- `pkce_challenge_s256`. -/
def pkceChallengeS256 (verifier : Text) : Text :=
  Base64.encode (W.sha256 (utf8 verifier)).bytes

/-- The query of the provider's page. -/
def authorizePairs (oidc : OidcRuntime) (d : Drawn) : List (Text × Text) :=
  [("response_type".toList, "code".toList), ("client_id".toList, oidc.config.clientId),
    ("redirect_uri".toList, oidc.config.redirectUri), ("state".toList, d.id.text),
    ("code_challenge".toList, pkceChallengeS256 W d.pkceVerifier.text),
    ("code_challenge_method".toList, "S256".toList)] ++
  match oidc.provider with
  | .workos => [("provider".toList, "authkit".toList)]
  | .oidc => [("scope".toList, "openid profile email".toList), ("nonce".toList, d.nonce.text)]

/-- `login`, with the claims that are signed. -/
def login (oidc : OidcRuntime) (returnTo : Option Str) (d : Drawn) (now : UInt64) :
    Except (Fault Response) (Response × OidcStateClaims) := do
  let claims : OidcStateClaims :=
    ⟨d.id, d.pkceVerifier, d.nonce, returnTo.getD uiPage, now + stateCookieTtlSecs⟩
  let value ← (encodeState K claims).mapError fun e => .err (errorResp 500 e.message)
  let cookie := buildCookie (stateCookiePrefix ++ d.id.text) value stateCookieTtlSecs.toInt64
    "/".toList (cookiesSecure oidc.config.redirectUri)
  let url ← (W.appendPairs oidc.authorizationEndpoint (authorizePairs W oidc d)).mapError
    fun e => .err (errorResp 500 e)
  let resp ← redirectTo url [cookie]
  .ok (resp, claims)

/-- `CallbackParams`. -/
structure CallbackParams where
  code : Option Text
  state : Option Text
  error : Option Text
  errorDescription : Option Text

/-- The answer that starts a login again. -/
def restartLogin : Response := ⟨303, some "/auth/login?return_to=%2Fui%2F".toList, [], none⟩

/-- A value, or an answer at once. -/
def orAnswer {α : Type} (o : Option α) (resp : Response) : Except (Fault Response) α :=
  match o with
  | some a => .ok a
  | none => .error (.err resp)

theorem orAnswer_eq_ok {α : Type} {o : Option α} {resp : Response} {a : α} :
    orAnswer o resp = .ok a ↔ o = some a := by
  cases o with
  | none => simp [orAnswer]
  | some b => simp [orAnswer]

/-- The state that a callback is for, from the cookie under its name. -/
def callbackState (headers : Headers) (stateId : Text) (now : UInt64) :
    Except (Fault Response) OidcStateClaims := do
  let value ← orAnswer (parseCookie headers (stateCookiePrefix ++ stateId)) restartLogin
  let claims ← (decodeState K R value).mapError fun _ => .err restartLogin
  if claims.id.text ≠ stateId then .error (.err restartLogin)
  else if claims.expiresAt < now then .error (.err restartLogin)
  else .ok claims

/-- The cookies of a session. -/
def sessionCookies (oidc : OidcRuntime) (value : Text) : List Text :=
  let secure := cookiesSecure oidc.config.redirectUri
  let ttl := oidc.config.sessionTtlSeconds.toInt64
  [buildCookie sessionCookieName value ttl "/".toList secure, buildPresenceCookie ttl secure]

theorem fits_nil : (utf8 []).length < 2 ^ 64 := by
  decide

/-- The session of a user, from now on. -/
def sessionOf (oidc : OidcRuntime) (tenant : Str) (info : OidcUserInfo) (now : UInt64) :
    SessionClaims :=
  ⟨tenant, info.sub, info.sid.getD ⟨[], fits_nil⟩, now, now + oidc.config.sessionTtlSeconds⟩

/-- `callback`, with the state it was for, the user, and the claims that are signed.  The clock is
read for the state, and for the session. -/
def callback (oidc : OidcRuntime) (params : CallbackParams) (headers : Headers)
    (provider : Provider) (stateNow now : UInt64) :
    Except (Fault Response) (Response × OidcStateClaims × OidcUserInfo × SessionClaims) := do
  if let some err := params.error then
    .error (.err (errorResp 400 ("oidc_error: ".toList ++ err ++ ": ".toList ++
      params.errorDescription.getD [])))
  let code ← orAnswer params.code (errorResp 400 "missing_code".toList)
  let stateId ← orAnswer params.state (errorResp 400 "missing_state".toList)
  let state ← callbackState K R headers stateId stateNow
  let info ← (exchange W R oidc provider ⟨code, state.pkceVerifier.text⟩).mapError
    fun e => .err (errorResp 502 e.message)
  let tenant ← tenantOf info
  let session := sessionOf oidc tenant info now
  let value ← (encodeSession K session).mapError fun e => .err (errorResp 500 e.message)
  let cleared := clearedCookie (stateCookiePrefix ++ stateId) "/".toList
    (cookiesSecure oidc.config.redirectUri)
  let resp ← redirectTo state.returnTo.text (sessionCookies oidc value ++ [cleared])
  .ok (resp, state, info, session)

/-- The answer that starts a login on the way to a page. -/
def loginFor (returnTo : Text) : Response :=
  ⟨303, some ("/auth/login?return_to=".toList ++ urlEscape returnTo), [], none⟩

/-- The address at which the provider is asked whether a session goes on. -/
def reauthenticateUrl (oidc : OidcRuntime) (sid : Text) : Text :=
  oidc.config.issuerUrl.rdropWhile (· == '/') ++ "/sessions/".toList ++ sid ++
    "/authenticate".toList

/-- The claims of a session that goes on from now on. -/
def renewed (oidc : OidcRuntime) (claims : SessionClaims) (now : UInt64) : SessionClaims :=
  { claims with issuedAt := now, expiresAt := now + oidc.config.sessionTtlSeconds }

/-- `refresh`, with the claims that went before and those that are signed.  The clock is read to
decode the cookie, which does not matter, and for the session. -/
def refresh (oidc : OidcRuntime) (returnTo : Option Text) (headers : Headers)
    (provider : Provider) (cookieNow now : UInt64) :
    Except (Fault Response) (Response × SessionClaims × SessionClaims) := do
  let returnTo := returnTo.getD uiPage.text
  let raw ← orAnswer (parseCookie headers sessionCookieName) (loginFor returnTo)
  let claims ← (decodeSession K R raw cookieNow true).mapError fun _ => .err (loginFor returnTo)
  if claims.expiresAt + oidc.config.refreshGraceSeconds < now then
    .error (.err (loginFor returnTo))
  else if claims.workosSessionId.text ≠ [] ∧
      provider.reauthenticate (reauthenticateUrl oidc claims.workosSessionId.text) = false then
    .error (.err (loginFor returnTo))
  else do
    let session := renewed oidc claims now
    let value ← (encodeSession K session).mapError fun e => .err (errorResp 500 e.message)
    let resp ← redirectTo returnTo (sessionCookies oidc value)
    .ok (resp, claims, session)

/-- Where a logout leads. -/
def logoutTarget (oidc : OidcRuntime) : Option Text → Text
  | none => uiPage.text
  | some sid => match oidc.endSessionEndpoint with
    | none => uiPage.text
    | some endpoint =>
      let pairs := match oidc.provider with
        | .workos => [("session_id".toList, sid), ("return_to".toList,
            ((stripSuffix "/auth/callback".toList oidc.config.redirectUri).map
              (· ++ "/ui/".toList)).getD uiPage.text)]
        | .oidc => [("client_id".toList, oidc.config.clientId),
            ("post_logout_redirect_uri".toList, uiPage.text)]
      match W.appendPairs endpoint pairs with
      | .ok url => url
      | .error _ => uiPage.text

/-- `logout`, where the routes are mounted. -/
def logout (oidc : OidcRuntime) (headers : Headers) (now : UInt64) :
    Except (Fault Response) Response :=
  let secure := cookiesSecure oidc.config.redirectUri
  let sid := ((parseCookie headers sessionCookieName).bind fun raw =>
    (decodeSession K R raw now true).toOption).map fun c => c.workosSessionId.text
  redirectTo (logoutTarget W oidc (sid.filter (· ≠ [])))
    [clearedCookie sessionCookieName "/".toList secure, clearedPresenceCookie secure]

/-- A string of a text that is in memory. -/
def fitStr (t : Text) : Except (Fault Response) Str :=
  if h : (utf8 t).length < 2 ^ 64 then .ok ⟨t, h⟩ else .error .panic

/-- `DEFAULT_EXTRA_LIFETIME_SECS`. -/
def defaultExtraLifetimeSecs : Int64 := 30

/-- `issue_default_with_sub` as the gateway calls it, with what it answers where that fails. -/
def issueDefaultWithSub (p : Principal) (clock : Int64) :
    Except (Fault Response) TenantContext := do
  let tenantId ← fitStr p.tenant
  let sub ← p.sub.mapM fitStr
  (issueWithSub K tenantId ⟨[], by decide⟩ (clock + defaultExtraLifetimeSecs) sub).mapError
    fun e => .err (errorResponse 500 "ctx_sign".toList e.message)

end Omp.Gateway
