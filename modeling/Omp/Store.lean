import Mathlib.Algebra.Group.Nat.Defs
import Omp.Lib.Cas
import Omp.Lib.Text

/-!
# Objects and the object store

Everything the repository keeps is an object: a type and a content.  The stored form of an
object is its frame, `<type> <length>\0<content>`, and its address is the SHA-256 of the frame.
`DiskStore` keeps one file for each address and never writes over one, so a store is a
content-addressed store in the sense of `Omp.Lib.Cas`.

The functions of third-party crates are the fields of `Platform`; nothing is assumed of them
except where a theorem names the assumption.

## Main definitions

* `Platform` : SHA-256, the AEAD cipher, HKDF and the `{:?}` form of strings.
* `OmpError` : the errors of the program, with their texts.
* `Store`, `Store.put`, `Store.get` : the object store.
-/

namespace Omp

open Lib

/-! ### Hashes -/

/-- A 32-byte object address. -/
structure Hash where
  /-- The digest. -/
  bytes : Bytes
  /-- A digest has 32 bytes. -/
  length_eq : bytes.length = 32
  deriving DecidableEq

/-- A 32-byte symmetric key. -/
abbrev Key := { bs : Bytes // bs.length = 32 }

/-- What the program takes from crates outside the repository. -/
structure Platform where
  /-- SHA-256. -/
  sha256 : Bytes → Hash
  /-- The `{:?}` form of a string. -/
  debugStr : Text → Text
  /-- The `{:?}` form of a character. -/
  debugChar : Char → Text
  /-- ChaCha20-Poly1305 encryption: key, nonce, associated data, plaintext.  It fails only on
  plaintexts of more than 256 GiB, which is not modelled. -/
  encrypt : Key → Bytes → Bytes → Bytes → Bytes
  /-- ChaCha20-Poly1305 decryption: key, nonce, associated data, ciphertext and tag. -/
  decrypt : Key → Bytes → Bytes → Bytes → Option Bytes
  /-- HKDF-SHA256 expanded to the twelve bytes of a nonce: key, info.  It fails only on
  outputs of more than 8160 bytes. -/
  hkdf12 : Key → Bytes → { bs : Bytes // bs.length = 12 }

/-- The decimal form of a number. -/
def decimal (n : Nat) : Text := Nat.toDigits 10 n

namespace Hash

/-- The lower-case hexadecimal form. -/
def hex (h : Hash) : Text := hexEncode h.bytes

/-- `impl FromStr for Hash`, with the text of `HashParseError`. -/
def parse (P : Platform) (s : Text) : Except Text Hash :=
  if (utf8 s).length ≠ 64 then
    .error ("hash has wrong length: ".toList ++ decimal (utf8 s).length ++
      " (expected 64 hex chars)".toList)
  else match hexDecode (utf8 s) with
    | .error b =>
      .error ("hash contains invalid hex character: ".toList ++ P.debugChar (Char.ofNat b.toNat))
    | .ok bs =>
      if h : bs.length = 32 then .ok ⟨bs, h⟩ else .error "hash has wrong length".toList

theorem length_utf8_hex (h : Hash) : (utf8 h.hex).length = 64 := by
  rw [hex, length_utf8_hexEncode, h.length_eq]

/-- A text of another length is not a hash in hexadecimal. -/
theorem hex_ne {h : Hash} {t : Text} (ht : (utf8 t).length ≠ 64) : h.hex ≠ t := by
  rintro rfl
  exact ht h.length_utf8_hex

theorem parse_hex (P : Platform) (h : Hash) : parse P h.hex = .ok h := by
  have hlen := h.length_utf8_hex
  have hdec : hexDecode (utf8 h.hex) = .ok h.bytes := hexDecode_hexEncode h.bytes
  rw [parse, if_neg (not_not.2 hlen), hdec]
  simp [h.length_eq]

theorem hex_injective : Function.Injective hex := fun g h heq => by
  have hbytes := congrArg (hexDecode ∘ utf8) heq
  simp only [Function.comp, hex, hexDecode_hexEncode, Except.ok.injEq] at hbytes
  cases g
  cases h
  simpa using hbytes

/-- A character of a hash in hexadecimal is neither a separator nor a line end. -/
theorem not_mem_hex {h : Hash} {c : Char} (hc : c.isAlphanum = false) : c ∉ h.hex := fun hmem => by
  have := hexDigit_mem hmem
  rw [hc] at this
  cases this

end Hash

/-! ### Errors -/

/-- The errors of the program.  Errors of the operating system are not modelled. -/
inductive OmpError where
  | notFound (msg : Text)
  | schemaValidation (msg : Text)
  | ingestValidation (msg : Text)
  | probeFailed (probe reason : Text)
  | conflict (msg : Text)
  | invalidPath (msg : Text)
  | unauthorized (msg : Text)
  | quotaExceeded (limit : Text)
  | corrupt (msg : Text)
  | internal (msg : Text)
  deriving DecidableEq

namespace OmpError

/-- The `Display` text of an error. -/
def display : OmpError → Text
  | notFound msg => "not found: ".toList ++ msg
  | schemaValidation msg => "schema validation failed: ".toList ++ msg
  | ingestValidation msg => "ingest validation failed: ".toList ++ msg
  | probeFailed probe reason => "probe failed: ".toList ++ probe ++ ": ".toList ++ reason
  | conflict msg => "conflict: ".toList ++ msg
  | invalidPath msg => "invalid path: ".toList ++ msg
  | unauthorized msg => "unauthorized: ".toList ++ msg
  | quotaExceeded limit => "quota exceeded: ".toList ++ limit
  | corrupt msg => "corrupt object: ".toList ++ msg
  | internal msg => "internal error: ".toList ++ msg

end OmpError

/-! ### Objects -/

/-- The types of stored objects. -/
inductive ObjectType where
  | blob | tree | manifest | commit | chunks | share | audit
  deriving DecidableEq

namespace ObjectType

/-- The name an object's frame starts with. -/
def asStr : ObjectType → Text
  | blob => "blob".toList
  | tree => "tree".toList
  | manifest => "manifest".toList
  | commit => "commit".toList
  | chunks => "chunks".toList
  | share => "share".toList
  | audit => "audit".toList

end ObjectType

/-- A stored object. -/
structure Object where
  /-- Its type. -/
  type : ObjectType
  /-- Its content. -/
  content : Bytes
  deriving DecidableEq

namespace Object

/-- The framed bytes: type, length, a NUL byte, content. -/
def frame (o : Object) : Bytes :=
  utf8 (o.type.asStr ++ ' ' :: decimal o.content.length ++ [Char.ofNat 0]) ++ o.content

variable (P : Platform)

/-- The address of an object: the hash of its framed bytes. -/
def address (o : Object) : Hash := P.sha256 o.frame

end Object

/-- `hash_of` : the address an object of the given type and content has. -/
def hashOf (P : Platform) (type : ObjectType) (content : Bytes) : Hash :=
  Object.address P ⟨type, content⟩

/-! ### The store -/

/-- The object store of a repository. -/
abbrev Store := Cas Object

/-- An operation on the object store. -/
abbrev StoreOp (α : Type) := Op Store OmpError α

namespace Store

variable (P : Platform)

/-- `ObjectStore::get` : the type and content stored at an address. -/
def get (s : Store) (h : Hash) : Option Object := s.find (Object.address P) h

/-- `ObjectStore::put` : store a content under a type and return its address. -/
def put (type : ObjectType) (content : Bytes) : StoreOp Hash :=
  Cas.put (Object.address P) OmpError ⟨type, content⟩

/-- No two different objects written to the store have the same SHA-256 address. -/
abbrev CollisionFree (s : Store) : Prop := Cas.CollisionFree (Object.address P) s

/-- The store holds an object of the given type at an address. -/
def Has (s : Store) (type : ObjectType) (h : Hash) : Prop :=
  ∃ content, s.get P h = some ⟨type, content⟩

variable {P}

theorem put_eq_ok {type : ObjectType} {content : Bytes} {s s' : Store} {h : Hash}
    (hp : (put P type content).run s = (.ok h, s')) :
    h = hashOf P type content ∧ s' = ⟨s.objects ++ [⟨type, content⟩]⟩ := by
  rw [put, Cas.run_put, Prod.mk.injEq, Except.ok.injEq] at hp
  exact ⟨hp.1.symm, hp.2.symm⟩

@[simp] theorem run_put (type : ObjectType) (content : Bytes) (s : Store) :
    (put P type content).run s =
      (.ok (hashOf P type content), ⟨s.objects ++ [⟨type, content⟩]⟩) := rfl

/-- **What was put is found**, as long as no address collides. -/
theorem get_of_put {type : ObjectType} {content : Bytes} {s s' s'' : Store} {h : Hash}
    (hp : (put P type content).run s = (.ok h, s')) (hle : s' ≤ s'')
    (hcf : CollisionFree P s'') : s''.get P h = some ⟨type, content⟩ := by
  obtain ⟨rfl, rfl⟩ := put_eq_ok hp
  exact Cas.find_of_mem hcf (Cas.mem_mono hle (by simp))

theorem get_mono {s s' : Store} (hle : s ≤ s') {h : Hash} {o : Object}
    (hg : s.get P h = some o) : s'.get P h = some o := Cas.find_mono hle hg

theorem Has.mono {s s' : Store} (hle : s ≤ s') {type : ObjectType} {h : Hash}
    (hh : Has P s type h) : Has P s' type h := by
  obtain ⟨content, hg⟩ := hh
  exact ⟨content, get_mono hle hg⟩

/-- An object that is found has the address it was found at. -/
theorem hashOf_of_get {s : Store} {h : Hash} {o : Object} (hg : s.get P h = some o) :
    hashOf P o.type o.content = h := (Cas.find_eq_some hg).2

end Store

/-! ### A platform to compute with -/

/-- The 32 bytes of a number, the highest first. -/
def Hash.ofNat (n : Nat) : Hash :=
  ⟨(List.range 32).map fun i => UInt8.ofNat (n >>> (8 * (31 - i))), by simp⟩

/-- A platform for concrete runs: a polynomial fingerprint in place of SHA-256, and a cipher
that only appends its tag. -/
def demo : Platform where
  sha256 bs := Hash.ofNat (bs.foldl (fun a b => (a * 257 + b.toNat + 1) % 2 ^ 256) 0)
  debugStr s := '"' :: s ++ ['"']
  debugChar c := ['\'', c, '\'']
  encrypt _ _ _ plaintext := plaintext ++ List.replicate 16 0
  decrypt _ _ _ ct := if ct.length < 16 then none else some (ct.take (ct.length - 16))
  hkdf12 _ _ := ⟨List.replicate 12 0, by simp⟩

end Omp
