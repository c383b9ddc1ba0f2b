import Etoeragcb.Documents.Tokens
import Etoeragcb.Lib.Datetime
import Etoeragcb.Lib.Result

/-!
# Cursors

`app/core/pagination.py`. HMAC-SHA256 is a parameter, and the datetimes that are encoded have a time zone.
-/

namespace Etoeragcb.Core

open Lib Documents

/-- `InvalidCursorError`, and what `encode` and `decode` do not catch. -/
inductive CursorError
  | invalidCursor | overflowError | attributeError
deriving DecidableEq

/-- The datetime is one in UTC. -/
structure CursorPosition where
  occurredAt : Civil
  resourceId : UUID
deriving DecidableEq

structure CursorCodec where
  secret : List UInt8

def cursorBody (kind : Text) (position : CursorPosition) : List UInt8 :=
  utf8 (Json.obj [("at".toList, .str position.occurredAt.isoformatUtc), ("id".toList, .str position.resourceId.text),
    ("kind".toList, .str kind)]).encode

/-- `token.split('.', maxsplit=1)` -/
def splitCursor (token : Text) : Option (Text × Text) :=
  if '.' ∈ token then some (token.takeWhile (· ≠ '.'), (token.dropWhile (· ≠ '.')).drop 1) else none

/-- `datetime.fromisoformat(payload['at'])`, in UTC. -/
def readOccurredAt : Option Json → Except CursorError Civil
  | some (.str s) =>
      match fromisoformat s with
      | some (.aware a) => orRaise a.astimezoneUtc .overflowError
      | _ => .error .invalidCursor
  | _ => .error .invalidCursor

/-- `uuid.UUID(payload['id'])`, which looks for a method of texts unless the value is `None`. -/
def readResourceId : Option Json → Except CursorError UUID
  | some (.str s) => orRaise (UUID.ofText s) .invalidCursor
  | none | some .null => .error .invalidCursor
  | _ => .error .attributeError

def hasKind (expectedKind : Text) : Option Json → Bool
  | some (.str kind) => kind = expectedKind
  | _ => false

variable (h : Hmac)

namespace CursorCodec

def encode (codec : CursorCodec) (kind : Text) (occurredAt : Aware) (resourceId : UUID) : Except CursorError Text := do
  let utc ← orRaise occurredAt.astimezoneUtc .overflowError
  let body := cursorBody kind ⟨utc, resourceId⟩
  return b64encode body ++ '.' :: b64encode (h.digest codec.secret body)

def decode (codec : CursorCodec) (token expectedKind : Text) : Except CursorError CursorPosition := do
  let (encodedBody, encodedSignature) ← orRaise (splitCursor token) .invalidCursor
  let body ← orRaise (b64decode encodedBody) .invalidCursor
  let signature ← orRaise (b64decode encodedSignature) .invalidCursor
  if signature ≠ h.digest codec.secret body then throw .invalidCursor
  else
    match loads body with
    | some (.obj payload) =>
        if hasKind expectedKind (Json.get? payload "kind".toList) then do
          let occurredAt ← readOccurredAt (Json.get? payload "at".toList)
          let resourceId ← readResourceId (Json.get? payload "id".toList)
          return ⟨occurredAt, resourceId⟩
        else throw .invalidCursor
    | _ => throw .invalidCursor

end CursorCodec

end Etoeragcb.Core
