import Etoeragcb.Lib.Base64
import Etoeragcb.Lib.Utf8
import Etoeragcb.Lib.Uuid
import Etoeragcb.Models.Content

/-!
# Signed file tokens

`FileTokenPayload` and `FileTokenSigner` of `app/documents/files.py`. HMAC-SHA256 and the conversions that pydantic makes
are parameters. The `schema_version` of a payload is always 1.
-/

namespace Etoeragcb.Documents

open Lib Models

/-- HMAC with SHA-256 under a key. -/
structure Hmac where
  digest : List UInt8 → List UInt8 → List UInt8
  length_digest : ∀ key message, (digest key message).length = 32

/-- What pydantic makes of a JSON value for a field. -/
structure Conversions where
  uuid : Json → Option UUID
  int : Json → Option Int
  isOne : Json → Bool
  uuid_text : ∀ u, uuid (.str u.text) = some u
  int_int : ∀ n, int (.int n) = some n
  one : isOne (.int 1) = true

structure FileTokenPayload where
  tenantId : UUID
  userId : UUID
  documentId : UUID
  documentVersionId : UUID
  fileSha256 : Text
  storageBinding : Text
  page : Option Int
  expiresAt : Int
  nonce : Text
deriving DecidableEq

/-- `^[0-9a-f]{64}$` -/
def isHexDigest (s : Text) : Bool := s.length == 64 && s.all fun c => isDigit c || ('a' ≤ c && c ≤ 'f')

def FileTokenPayload.valid (p : FileTokenPayload) : Bool :=
  isHexDigest p.fileSha256 && isHexDigest p.storageBinding && p.page.all (1 ≤ ·) && decide (0 < p.expiresAt) &&
    decide (16 ≤ p.nonce.length) && decide (p.nonce.length ≤ 64)

def fieldNames : List Text := ["schema_version", "tenant_id", "user_id", "document_id", "document_version_id", "file_sha256",
  "storage_binding", "page", "expires_at", "nonce"].map String.toList

def dumpPage : Option Int → Json
  | some n => .int n
  | none => .null

/-- `model_dump(mode='json')` -/
def FileTokenPayload.modelDump (p : FileTokenPayload) : List (Text × Json) :=
  [("schema_version".toList, .int 1), ("tenant_id".toList, .str p.tenantId.text), ("user_id".toList, .str p.userId.text),
    ("document_id".toList, .str p.documentId.text), ("document_version_id".toList, .str p.documentVersionId.text),
    ("file_sha256".toList, .str p.fileSha256), ("storage_binding".toList, .str p.storageBinding),
    ("page".toList, dumpPage p.page), ("expires_at".toList, .int p.expiresAt), ("nonce".toList, .str p.nonce)]

def strField : Json → Option Text
  | .str s => some s
  | _ => none

/-- `page: int | None = None` -/
def pageField (c : Conversions) : Option Json → Option (Option Int)
  | none => some none
  | some .null => some none
  | some v => (c.int v).map some

/-- `FileTokenPayload.model_validate` -/
def modelValidate (c : Conversions) : Json → Option FileTokenPayload
  | .obj members =>
      let field (name : String) := Json.get? members name.toList
      if members.all (fun x => fieldNames.contains x.1) ∧ (field "schema_version").all c.isOne then do
        let payload : FileTokenPayload := {
          tenantId := ← (field "tenant_id").bind c.uuid
          userId := ← (field "user_id").bind c.uuid
          documentId := ← (field "document_id").bind c.uuid
          documentVersionId := ← (field "document_version_id").bind c.uuid
          fileSha256 := ← (field "file_sha256").bind strField
          storageBinding := ← (field "storage_binding").bind strField
          page := ← pageField c (field "page")
          expiresAt := ← (field "expires_at").bind c.int
          nonce := ← (field "nonce").bind strField }
        if payload.valid then some payload else none
      else none
  | _ => none

/-- `orjson.loads` -/
def loads (bytes : List UInt8) : Option Json := (ofUtf8 bytes).bind Json.parse

/-- The integers that `orjson.dumps` writes. -/
def fits (n : Int) : Bool := -2 ^ 63 ≤ n && n < 2 ^ 64

/-! ## The signer -/

structure FileTokenSigner where
  secret : List UInt8
  ttl : Nat

structure FileVersion where
  id : UUID
  fileSha256 : Text
  storageKey : Text

/-- A call of `issue`, with the bytes that `token_urlsafe` draws. -/
structure IssueRequest where
  tenantId : UUID
  userId : UUID
  documentId : UUID
  version : FileVersion
  page : Option Int
  now : Time
  random : List UInt8
  length_random : random.length = 18

inductive TokenErrorCode
  | invalid | expired
deriving DecidableEq

/-- What `issue` and `verify` may raise. -/
inductive TokenFailure
  | fileTokenError (code : TokenErrorCode)
  | validationError | jsonEncodeError | unicodeEncodeError | typeError
deriving DecidableEq

/-- `int(t.timestamp())` -/
def timestamp (t : Time) : Nat := t / 1000000

def tokenMessage (encoded : Text) : List UInt8 := utf8 "rag-file-token-v1\x00".toList ++ utf8 encoded

def storageMessage (tenantId documentId versionId : UUID) (storageKey fileSha256 : Text) : List UInt8 :=
  utf8 "rag-file-storage-v1\x00".toList ++
    utf8 (['\x00'].intercalate [tenantId.text, documentId.text, versionId.text, storageKey, fileSha256])

def splitToken (token : Str) : Option (Str × Str) :=
  if codePoint '.' ∈ token then
    some (token.takeWhile (· ≠ codePoint '.'), (token.dropWhile (· ≠ codePoint '.')).drop 1)
  else none

variable (h : Hmac) (c : Conversions)

namespace FileTokenSigner

def signature (s : FileTokenSigner) (encoded : Text) : Text := b64encode (h.digest s.secret (tokenMessage encoded))

def storageBinding (s : FileTokenSigner) (tenantId documentId versionId : UUID) (storageKey fileSha256 : Text) : Text :=
  (h.digest s.secret (storageMessage tenantId documentId versionId storageKey fileSha256)).flatMap fun b =>
    hexDigits 2 b.toNat

def payload (s : FileTokenSigner) (r : IssueRequest) : FileTokenPayload where
  tenantId := r.tenantId
  userId := r.userId
  documentId := r.documentId
  documentVersionId := r.version.id
  fileSha256 := r.version.fileSha256
  storageBinding := s.storageBinding h r.tenantId r.documentId r.version.id r.version.storageKey r.version.fileSha256
  page := r.page
  expiresAt := timestamp (r.now + s.ttl * 1000000)
  nonce := b64encode r.random

def encodedPayload (s : FileTokenSigner) (r : IssueRequest) : Text :=
  b64encode (utf8 (Json.obj (s.payload h r).modelDump).encode)

def issue (s : FileTokenSigner) (r : IssueRequest) : Except TokenFailure (Text × Time) :=
  let payload := s.payload h r
  if ¬payload.valid then .error .validationError
  else if ¬(fits payload.expiresAt ∧ payload.page.all fits) then .error .jsonEncodeError
  else
    let encoded := s.encodedPayload h r
    .ok (encoded ++ '.' :: s.signature h encoded, r.now + s.ttl * 1000000)

/-- `verify` behind its comparison. -/
def readPayload (encoded : Text) (now : Time) : Except TokenFailure FileTokenPayload :=
  match ((b64decode encoded).bind loads).bind (modelValidate c) with
  | none => .error (.fileTokenError .invalid)
  | some payload => if payload.expiresAt ≤ timestamp now then .error (.fileTokenError .expired) else .ok payload

/-- `verify` behind its split. -/
def verifyParts (s : FileTokenSigner) (encoded provided : Str) (now : Time) : Except TokenFailure FileTokenPayload :=
  match Str.text? encoded with
  | none => .error .unicodeEncodeError
  | some encoded =>
      -- `compare_digest` takes strings of ASCII characters only, which `expected` is
      if provided.any (128 ≤ ·.val) then .error .typeError
      else if provided ≠ Str.ofText (s.signature h encoded) then .error (.fileTokenError .invalid)
      else readPayload c encoded now

def verify (s : FileTokenSigner) (token : Str) (now : Time) : Except TokenFailure FileTokenPayload :=
  if 4096 < token.length then .error (.fileTokenError .invalid)
  else
    match splitToken token with
    | none => .error (.fileTokenError .invalid)
    | some (encoded, provided) => s.verifyParts h c encoded provided now

/-! ## What a token is good for -/

/-- The token that a call of `issue` with the same secret returns, with the payload that it builds. -/
def Issued (s : FileTokenSigner) (token : Str) (p : FileTokenPayload) : Prop :=
  ∃ (issuer : FileTokenSigner) (r : IssueRequest) (t : Text) (e : Time), issuer.secret = s.secret ∧
    issuer.issue h r = .ok (t, e) ∧ token = Str.ofText t ∧ p = issuer.payload h r

/-- The messages that are authenticated with the secret for others. -/
inductive Authenticated (s : FileTokenSigner) : List UInt8 → Prop
  | token (issuer : FileTokenSigner) (same : issuer.secret = s.secret) (r : IssueRequest) (t : Text) (e : Time)
      (issued : issuer.issue h r = .ok (t, e)) : Authenticated s (tokenMessage (issuer.encodedPayload h r))
  | storage (tenantId documentId versionId : UUID) (storageKey fileSha256 : Text) :
      Authenticated s (storageMessage tenantId documentId versionId storageKey fileSha256)

/-- No code of a message that was never authenticated stands in the token. -/
def Unforged (s : FileTokenSigner) (token : Str) : Prop :=
  ∀ encoded, token = Str.ofText (encoded ++ '.' :: s.signature h encoded) → s.Authenticated h (tokenMessage encoded)

structure Honours (s : FileTokenSigner) (token : Str) (now : Time) : Prop where
  total : (∃ p, s.verify h c token now = .ok p) ∨ ∃ code, s.verify h c token now = .error (.fileTokenError code)
  issued : ∀ p, s.verify h c token now = .ok p ↔ s.Issued h token p ∧ timestamp now < p.expiresAt

end FileTokenSigner

/-- The text before the dot cannot be encoded, or that behind it cannot be compared. -/
def uncomparable (token : Str) : Bool :=
  decide (token.length ≤ 4096) && (splitToken token).any fun x => (Str.text? x.1).isNone || x.2.any (128 ≤ ·.val)

end Etoeragcb.Documents
