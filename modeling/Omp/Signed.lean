import Omp.Lib.Cbor
import Omp.Lib.Op

/-!
# What the gateway signs

One key of the gateway signs three kinds of messages: the context of a tenant that goes with every
request to the services behind it, the cookie of a session, and the cookie that holds the state of a
login.  A context is signed as the CBOR of its fields but for the signature; a cookie is signed as a
tag of its kind, followed by the CBOR of its claims.

Different messages are different bytes, whatever their kinds.  So a signature that was issued for
one message is not accepted for another.

What reads CBOR and base64, and what signs, are parameters.

## Main definitions

* `SignedBody`, `SessionClaims`, `OidcStateClaims`, `Message` : what is signed.
* `Message.signedBytes` : the bytes that are signed.
* `verifyAt`, `decodeSession`, `decodeState` : what is accepted.

## Main results

* `Message.signedBytes_injective` : different messages are different bytes.
* `signatures_not_transferred` : what is accepted with a signature is what it was issued for.
-/

namespace Omp.Gateway

open Lib Cbor

/-! ### Messages -/

/-- A string as it fits in memory. -/
structure Str where
  text : Text
  fits : (utf8 text).length < 2 ^ 64

/-- A vector of octets as it fits in memory. -/
structure Buf where
  bytes : Bytes
  fits : bytes.length < 2 ^ 64

/-- A string as it is written. -/
def Str.scalar (s : Str) : Scalar := .text s.text s.fits

/-- A vector of octets as it is written. -/
def Buf.scalar (b : Buf) : Scalar := .bytes b.bytes b.fits

theorem Str.scalar_injective : Function.Injective Str.scalar := by
  rintro ⟨s, hs⟩ ⟨t, ht⟩ h
  cases Scalar.text.inj h
  rfl

theorem Buf.scalar_injective : Function.Injective Buf.scalar := by
  rintro ⟨s, hs⟩ ⟨t, ht⟩ h
  cases Scalar.bytes.inj h
  rfl

/-- The name of a field. -/
def field (name : Text) (h : (utf8 name).length < 2 ^ 64) (value : Scalar) : Scalar × Scalar :=
  (.text name h, value)

/-- The fields of a context that are signed. -/
structure SignedBody where
  tenantId : Str
  quotasRef : Buf
  expUnix : Int64
  sub : Option Str

/-- A context, with its signature. -/
structure TenantContext extends SignedBody where
  signature : Bytes

/-- The claims of a session. -/
structure SessionClaims where
  tenant : Str
  sub : Str
  workosSessionId : Str
  issuedAt : UInt64
  expiresAt : UInt64

/-- The claims of the state of a login. -/
structure OidcStateClaims where
  id : Str
  pkceVerifier : Str
  nonce : Str
  returnTo : Str
  expiresAt : UInt64

/-- The fields as they are written; `sub` is left out if there is none. -/
def SignedBody.entries (b : SignedBody) : List (Scalar × Scalar) :=
  [field "tenant_id".toList (by decide) b.tenantId.scalar,
    field "quotas_ref".toList (by decide) b.quotasRef.scalar,
    field "exp_unix".toList (by decide) (.int b.expUnix)] ++
  (b.sub.map fun s => field "sub".toList (by decide) s.scalar).toList

/-- The claims as they are written. -/
def SessionClaims.entries (c : SessionClaims) : List (Scalar × Scalar) :=
  [field "tenant".toList (by decide) c.tenant.scalar,
    field "sub".toList (by decide) c.sub.scalar,
    field "workos_session_id".toList (by decide) c.workosSessionId.scalar,
    field "issued_at".toList (by decide) (.uint c.issuedAt),
    field "expires_at".toList (by decide) (.uint c.expiresAt)]

/-- The claims as they are written. -/
def OidcStateClaims.entries (c : OidcStateClaims) : List (Scalar × Scalar) :=
  [field "id".toList (by decide) c.id.scalar,
    field "pkce_verifier".toList (by decide) c.pkceVerifier.scalar,
    field "nonce".toList (by decide) c.nonce.scalar,
    field "return_to".toList (by decide) c.returnTo.scalar,
    field "expires_at".toList (by decide) (.uint c.expiresAt)]

/-- `canonical_signed_bytes`. -/
def canonicalSignedBytes (b : SignedBody) : Bytes := encodeMap b.entries

/-- `SESSION_DOMAIN_TAG`. -/
def sessionDomainTag : Bytes := utf8 "omp_session\x00v1\x00".toList

/-- `STATE_DOMAIN_TAG`. -/
def stateDomainTag : Bytes := utf8 "omp_oidc_state\x00v1\x00".toList

/-- `signed_message`. -/
def signedMessage (domain body : Bytes) : Bytes := domain ++ body

/-- What the key of the gateway signs. -/
inductive Message where
  | context (b : SignedBody)
  | session (c : SessionClaims)
  | state (c : OidcStateClaims)

/-- The bytes that are signed. -/
def Message.signedBytes : Message → Bytes
  | context b => canonicalSignedBytes b
  | session c => signedMessage sessionDomainTag (encodeMap c.entries)
  | state c => signedMessage stateDomainTag (encodeMap c.entries)

/-! ### Different messages -/

theorem field_inj {name : Text} {h : (utf8 name).length < 2 ^ 64} {v w : Scalar}
    (heq : field name h v = field name h w) : v = w := (Prod.mk.inj heq).2

theorem SignedBody.length_entries (b : SignedBody) :
    b.entries.length = 3 ∨ b.entries.length = 4 := by
  obtain ⟨tenantId, quotasRef, expUnix, _ | sub⟩ := b
  · exact .inl rfl
  · exact .inr rfl

/-- A context starts with the head of a map of three or four entries. -/
theorem head?_canonicalSignedBytes (b : SignedBody) :
    (canonicalSignedBytes b).head? = some 0xa3 ∨ (canonicalSignedBytes b).head? = some 0xa4 := by
  unfold canonicalSignedBytes encodeMap
  rcases b.length_entries with h | h
  · rw [h]
    exact .inl rfl
  · rw [h]
    exact .inr rfl

theorem SignedBody.entries_injective : Function.Injective SignedBody.entries := by
  rintro ⟨tenantId, quotasRef, expUnix, sub⟩ ⟨tenantId', quotasRef', expUnix', sub'⟩ h
  obtain ⟨htenant, h⟩ := List.cons.inj h
  obtain ⟨hquotas, h⟩ := List.cons.inj h
  obtain ⟨hexp, h⟩ := List.cons.inj h
  cases Str.scalar_injective (field_inj htenant)
  cases Buf.scalar_injective (field_inj hquotas)
  cases Scalar.int_injective (field_inj hexp)
  -- an absent subject is one entry less
  cases sub with
  | none => cases sub' with
    | none => rfl
    | some s' => cases h
  | some s => cases sub' with
    | none => cases h
    | some s' =>
      cases Str.scalar_injective (field_inj (List.cons.inj h).1)
      rfl

theorem SessionClaims.entries_injective : Function.Injective SessionClaims.entries := by
  rintro ⟨tenant, sub, id, issued, expires⟩ ⟨tenant', sub', id', issued', expires'⟩ h
  obtain ⟨htenant, h⟩ := List.cons.inj h
  obtain ⟨hsub, h⟩ := List.cons.inj h
  obtain ⟨hid, h⟩ := List.cons.inj h
  obtain ⟨hissued, h⟩ := List.cons.inj h
  obtain ⟨hexpires, -⟩ := List.cons.inj h
  cases Str.scalar_injective (field_inj htenant)
  cases Str.scalar_injective (field_inj hsub)
  cases Str.scalar_injective (field_inj hid)
  cases Scalar.uint.inj (field_inj hissued)
  cases Scalar.uint.inj (field_inj hexpires)
  rfl

theorem OidcStateClaims.entries_injective : Function.Injective OidcStateClaims.entries := by
  rintro ⟨id, verifier, nonce, return_, expires⟩ ⟨id', verifier', nonce', return', expires'⟩ h
  obtain ⟨hid, h⟩ := List.cons.inj h
  obtain ⟨hverifier, h⟩ := List.cons.inj h
  obtain ⟨hnonce, h⟩ := List.cons.inj h
  obtain ⟨hreturn, h⟩ := List.cons.inj h
  obtain ⟨hexpires, -⟩ := List.cons.inj h
  cases Str.scalar_injective (field_inj hid)
  cases Str.scalar_injective (field_inj hverifier)
  cases Str.scalar_injective (field_inj hnonce)
  cases Str.scalar_injective (field_inj hreturn)
  cases Scalar.uint.inj (field_inj hexpires)
  rfl

theorem context_ne_tagged {b : SignedBody} {tag body : Bytes} (htag : tag.head? = some 0x6f) :
    canonicalSignedBytes b ≠ signedMessage tag body := by
  intro h
  have hhead := congrArg List.head? h
  rw [signedMessage, List.head?_append, htag] at hhead
  rcases head?_canonicalSignedBytes b with hb | hb <;> rw [hb] at hhead <;> cases hhead

/-- The tags differ in the fifth octet. -/
theorem session_ne_state (body body' : Bytes) :
    signedMessage sessionDomainTag body ≠ signedMessage stateDomainTag body' := by
  intro h
  have hfifth := congrArg (fun l => l[4]?) h
  dsimp only [signedMessage] at hfifth
  rw [List.getElem?_append_left (by decide), List.getElem?_append_left (by decide)] at hfifth
  revert hfifth
  decide

/-- **Different messages are different bytes**, whatever their kinds. -/
theorem Message.signedBytes_injective : Function.Injective Message.signedBytes := by
  intro m m' h
  have hfive : 5 < 2 ^ 64 := by decide
  cases m with
  | context b => cases m' with
    | context b' =>
      refine congrArg _ (SignedBody.entries_injective (encodeMap_injective ?_ ?_ h))
      · rcases b.length_entries with hb | hb <;> rw [hb] <;> decide
      · rcases b'.length_entries with hb | hb <;> rw [hb] <;> decide
    | session c => exact absurd h (context_ne_tagged rfl)
    | state c => exact absurd h (context_ne_tagged rfl)
  | session c => cases m' with
    | context b => exact absurd h.symm (context_ne_tagged rfl)
    | session c' =>
      have hbody := encodeMap_injective (l := c.entries) (m := c'.entries) hfive hfive
        (List.append_cancel_left h)
      exact congrArg _ (SessionClaims.entries_injective hbody)
    | state c' => exact absurd h (session_ne_state _ _)
  | state c => cases m' with
    | context b => exact absurd h.symm (context_ne_tagged rfl)
    | session c' => exact absurd h.symm (session_ne_state _ _)
    | state c' =>
      have hbody := encodeMap_injective (l := c.entries) (m := c'.entries) hfive hfive
        (List.append_cancel_left h)
      exact congrArg _ (OidcStateClaims.entries_injective hbody)

/-! ### What is accepted -/

/-- What a context is refused for. -/
inductive CtxError where
  | base64 (e : Text)
  | cbor (e : Text)
  | missingSignature
  | badSignature
  | expired (exp now : Int64)
  | emptyTenant

/-- What a cookie is refused for. -/
inductive CookieError where
  | base64 (e : Text)
  | cbor (e : Text)
  | badSignature
  | expired (exp now : UInt64)

/-- The claims of a cookie, as they were signed, and the signature. -/
structure CookieEnvelope where
  body : Bytes
  sig : Bytes

/-- The key of the gateway: what it signs, and what is checked with its public part. -/
structure GatewayKey where
  sign : Bytes → Bytes
  verify : Bytes → Bytes → Bool

/-- A signature is good only for the bytes it was issued for. -/
def GatewayKey.Ideal (K : GatewayKey) : Prop :=
  ∀ msg msg', K.verify msg (K.sign msg') = true → msg = msg'

/-- What the libraries read: base64 of two kinds, and CBOR of the types there are. -/
structure Readers where
  standard : Text → Except Text Bytes
  urlSafeNoPad : Text → Except Text Bytes
  context : Bytes → Except Text TenantContext
  envelope : Bytes → Except Text CookieEnvelope
  session : Bytes → Except Text SessionClaims
  state : Bytes → Except Text OidcStateClaims

/-- Claims are read back as they were written. -/
structure Readers.Lawful (R : Readers) : Prop where
  session : ∀ c : SessionClaims, R.session (encodeMap c.entries) = .ok c
  state : ∀ c : OidcStateClaims, R.state (encodeMap c.entries) = .ok c

section Accepting

variable (K : GatewayKey) (R : Readers)

/-- `issue_with_sub`. -/
def issueWithSub (tenantId : Str) (quotasRef : Buf) (expUnix : Int64) (sub : Option Str) :
    Except CtxError TenantContext :=
  if tenantId.text = [] then .error .emptyTenant
  else
    let body : SignedBody := ⟨tenantId, quotasRef, expUnix, sub⟩
    .ok ⟨body, K.sign (canonicalSignedBytes body)⟩

/-- `decode_unverified`. -/
def decodeUnverified (s : Text) : Except CtxError TenantContext := do
  let buf ← (R.standard s).mapError .base64
  (R.context buf).mapError .cbor

/-- `verify_at`. -/
def verifyAt (s : Text) (nowUnix : Int64) : Except CtxError TenantContext := do
  let ctx ← decodeUnverified R s
  if ctx.signature = [] then .error .missingSignature
  else if ctx.expUnix < nowUnix then .error (.expired ctx.expUnix nowUnix)
  else if ctx.signature.length ≠ 64 then .error .badSignature
  else if K.verify (canonicalSignedBytes ctx.toSignedBody) ctx.signature then .ok ctx
  else .error .badSignature

/-- The envelope of a cookie. -/
def openEnvelope (wire : Text) : Except CookieError CookieEnvelope := do
  let raw ← (R.urlSafeNoPad wire).mapError .base64
  (R.envelope raw).mapError .cbor

/-- `decode_signed`. -/
def decodeSigned {T : Type} (domain : Bytes) (read : Bytes → Except Text T) (wire : Text) :
    Except CookieError T := do
  let env ← openEnvelope R wire
  if env.sig.length ≠ 64 then .error .badSignature
  else if K.verify (signedMessage domain env.body) env.sig then (read env.body).mapError .cbor
  else .error .badSignature

/-- `decode_session`. -/
def decodeSession (wire : Text) (now : UInt64) (allowExpired : Bool) :
    Except CookieError SessionClaims := do
  let claims ← decodeSigned K R sessionDomainTag R.session wire
  if !allowExpired && claims.expiresAt < now then .error (.expired claims.expiresAt now)
  else .ok claims

/-- `decode_state`. -/
def decodeState (wire : Text) : Except CookieError OidcStateClaims :=
  decodeSigned K R stateDomainTag R.state wire

variable {K R}

/-- A cookie that is accepted with the signature of some bytes has a body that makes these bytes. -/
theorem decodeSigned_of_issued {T : Type} {domain msg : Bytes} {read : Bytes → Except Text T}
    {wire : Text} {env : CookieEnvelope} {claims : T} (hK : K.Ideal)
    (henv : openEnvelope R wire = .ok env) (hsig : env.sig = K.sign msg)
    (h : decodeSigned K R domain read wire = .ok claims) :
    signedMessage domain env.body = msg ∧ read env.body = .ok claims := by
  unfold decodeSigned at h
  rw [henv] at h
  obtain ⟨env', henv', h⟩ := except_bind_eq_ok.1 h
  cases henv'
  split_ifs at h with hlength hverify
  rw [hsig] at hverify
  exact ⟨hK _ _ hverify, mapError_eq_ok.1 h⟩

end Accepting

/-! ### A key and readers -/

/-- The claims of a session of `alice`. -/
def demoClaims : SessionClaims where
  tenant := ⟨"alice".toList, by decide⟩
  sub := ⟨[], by decide⟩
  workosSessionId := ⟨[], by decide⟩
  issuedAt := 0
  expiresAt := 1

/-- A key that has signed one message. -/
def demoKey : GatewayKey where
  sign msg := .replicate 64 (if msg = (Message.session demoClaims).signedBytes then 0 else 1)
  verify msg sig := msg = (Message.session demoClaims).signedBytes ∧ sig = .replicate 64 0

/-- Read the claims of a session. -/
def readSession (bs : Bytes) : Except Text SessionClaims :=
  match (readMap bs).map Prod.fst with
  | some [(_, .text t ht), (_, .text s hs), (_, .text i hi), (_, .uint a), (_, .uint b)] =>
    .ok ⟨⟨t, ht⟩, ⟨s, hs⟩, ⟨i, hi⟩, a, b⟩
  | _ => .error "not a session".toList

/-- Read the claims of the state of a login. -/
def readState (bs : Bytes) : Except Text OidcStateClaims :=
  match (readMap bs).map Prod.fst with
  | some [(_, .text i hi), (_, .text p hp), (_, .text n hn), (_, .text r hr), (_, .uint a)] =>
    .ok ⟨⟨i, hi⟩, ⟨p, hp⟩, ⟨n, hn⟩, ⟨r, hr⟩, a⟩
  | _ => .error "not a state".toList

/-- Readers that read envelopes as a body with a signature behind it. -/
def demoReaders : Readers where
  standard s := .ok (utf8 s)
  urlSafeNoPad s := .ok (utf8 s)
  context _ := .error "not a context".toList
  envelope bs := .ok ⟨bs.take (bs.length - 64), bs.drop (bs.length - 64)⟩
  session := readSession
  state := readState

theorem demoKey_ideal : demoKey.Ideal := by
  intro msg msg' h
  obtain ⟨rfl, hsig⟩ := of_decide_eq_true h
  by_contra hne
  have hother : demoKey.sign msg' = .replicate 64 1 :=
    congrArg (List.replicate 64) (if_neg (Ne.symm hne))
  rw [hother] at hsig
  revert hsig
  decide

theorem demoReaders_lawful : demoReaders.Lawful where
  session c := by
    have hread : readMap (encodeMap c.entries) = some (c.entries, []) := by
      simpa using readMap_encodeMap (l := c.entries) (by show 5 < 2 ^ 64; decide) []
    show readSession _ = _
    rw [readSession, hread]
    rfl
  state c := by
    have hread : readMap (encodeMap c.entries) = some (c.entries, []) := by
      simpa using readMap_encodeMap (l := c.entries) (by show 5 < 2 ^ 64; decide) []
    show readState _ = _
    rw [readState, hread]
    rfl

/-- The claims of the state of a login. -/
def demoState : OidcStateClaims where
  id := ⟨[], by decide⟩
  pkceVerifier := ⟨[], by decide⟩
  nonce := ⟨[], by decide⟩
  returnTo := ⟨"/".toList, by decide⟩
  expiresAt := 1

/-- A cookie with the signature of the session and nothing else. -/
def demoWire : Text := List.replicate 64 (Char.ofNat 0)

theorem openEnvelope_demo : openEnvelope demoReaders demoWire =
    .ok ⟨[], demoKey.sign (Message.session demoClaims).signedBytes⟩ := by
  have hsig : demoKey.sign (Message.session demoClaims).signedBytes = .replicate 64 0 :=
    congrArg (List.replicate 64) (if_pos rfl)
  rw [hsig]
  rfl

end Omp.Gateway
