import Etoeragcb.Core.Pagination
import Etoeragcb.Lib.Keyset
import Mathlib.Data.Prod.Lex
import Mathlib.Order.OrderDual

/-!
# Listings of sessions and messages

`list_sessions` and `list_messages` of `app/sessions/routes.py`, with `load_owned_session` of `app/auth/dependencies.py`. The
database compares instants; its driver returns them with the time zone UTC or without one.
-/

namespace Etoeragcb.Sessions

open Lib Models Etoeragcb.Core Documents

structure Principal where
  userId : UserId
  tenantId : TenantId

/-- A row of `chat_sessions`. The timestamps are in UTC. -/
structure ChatSession where
  id : UUID
  tenantId : TenantId
  userId : UserId
  title : Text
  createdAt : Civil
  updatedAt : Civil
  deletedAt : Option Civil
deriving DecidableEq

structure ListedMessage where
  id : UUID
  tenantId : TenantId
  sessionId : UUID
  userId : UserId
  role : Text
  content : Text
  «meta» : List (Text × Json)
  clientRequestId : Option UUID
  createdAt : Civil

structure Store where
  sessions : List ChatSession
  messages : List ListedMessage
  sessions_nodup : (sessions.map (·.id)).Nodup
  messages_nodup : (messages.map (·.id)).Nodup

structure SessionResponse where
  id : UUID
  title : Text
  createdAt : Datetime
  updatedAt : Datetime
deriving DecidableEq

structure MessageResponse where
  id : UUID
  role : Text
  content : Text
  «meta» : List (Text × Json)
  clientRequestId : Option UUID
  createdAt : Datetime

inductive ListingError
  | httpException (statusCode : Nat) (detail : Text)
  | raised (e : CursorError)
  | indexError
deriving DecidableEq

/-- What the driver makes of a timestamp. -/
inductive Driver
  | aware | naive
deriving DecidableEq

def Driver.load (driver : Driver) (timestamp : Civil) : Datetime :=
  match driver with
  | .aware => .aware ⟨timestamp, .utc⟩
  | .naive => .naive timestamp

def asUtc : Datetime → Aware
  | .aware a => a
  | .naive c => ⟨c, .utc⟩

variable (h : Hmac) (codec : CursorCodec) (driver : Driver) (store : Store) (principal : Principal)

def sessionResponse (item : ChatSession) : SessionResponse :=
  ⟨item.id, item.title, driver.load item.createdAt, driver.load item.updatedAt⟩

def messageResponse (item : ListedMessage) : MessageResponse :=
  ⟨item.id, item.role, item.content, item.«meta», item.clientRequestId, driver.load item.createdAt⟩

def decodeCursor (cursor kind : Text) : Except ListingError CursorPosition :=
  match codec.decode h cursor kind with
  | .ok position => .ok position
  | .error .invalidCursor => .error (.httpException 422 "Invalid cursor".toList)
  | .error e => .error (.raised e)

def loadOwnedSession (sessionId : UUID) : Except ListingError ChatSession :=
  orRaise (store.sessions.find? fun s => s.id = sessionId ∧ s.tenantId = principal.tenantId ∧ s.userId = principal.userId ∧
    s.deletedAt = none) (.httpException 404 "Not found".toList)

/-- The page that shows up to `limit` of the rows, of which one more was looked for. -/
def pageOf {ρ β : Type} (rows : List ρ) (limit : Nat) (response : ρ → β) (encode : ρ → Except CursorError Text) :
    Except ListingError (Page β Text) :=
  let items := rows.take limit
  if limit < rows.length then
    match items.getLast? with
    | none => .error .indexError
    | some last =>
        match encode last with
        | .error e => .error (.raised e)
        | .ok cursor => .ok ⟨items.map response, some cursor⟩
  else .ok ⟨items.map response, none⟩

def ownedSessions : List ChatSession :=
  store.sessions.filter fun s => s.tenantId = principal.tenantId ∧ s.userId = principal.userId ∧ s.deletedAt = none

def ownedMessages (sessionId : UUID) : List ListedMessage :=
  store.messages.filter fun m => m.tenantId = principal.tenantId ∧ m.userId = principal.userId ∧ m.sessionId = sessionId

/-- `order_by(updated_at.desc(), id.desc())` -/
def sessionKey (s : ChatSession) : (ℕ ×ₗ ℕ)ᵒᵈ := OrderDual.toDual (toLex (s.updatedAt.micros, s.id.value))

/-- `order_by(created_at, id)` -/
def messageKey (m : ListedMessage) : ℕ ×ₗ ℕ := toLex (m.createdAt.micros, m.id.value)

def listSessions (cursor : Option Text) (limit : Nat) : Except ListingError (Page SessionResponse Text) := do
  let statement ←
    match cursor with
    | none => pure (ownedSessions store principal)
    | some cursor => do
        let position ← decodeCursor h codec cursor "sessions".toList
        pure ((ownedSessions store principal).filter fun s => s.updatedAt.micros < position.occurredAt.micros ∨
          (s.updatedAt.micros = position.occurredAt.micros ∧ s.id.value < position.resourceId.value))
  let rows := (sortBy sessionKey statement).take (limit + 1)
  pageOf rows limit (sessionResponse driver) fun item =>
    codec.encode h "sessions".toList (asUtc (driver.load item.updatedAt)) item.id

def listMessages (sessionId : UUID) (cursor : Option Text) (limit : Nat) :
    Except ListingError (Page MessageResponse Text) := do
  let _ ← loadOwnedSession store principal sessionId
  let statement ←
    match cursor with
    | none => pure (ownedMessages store principal sessionId)
    | some cursor => do
        let position ← decodeCursor h codec cursor "messages".toList
        pure ((ownedMessages store principal sessionId).filter fun m => position.occurredAt.micros < m.createdAt.micros ∨
          (m.createdAt.micros = position.occurredAt.micros ∧ position.resourceId.value < m.id.value))
  let rows := (sortBy messageKey statement).take (limit + 1)
  pageOf rows limit (messageResponse driver) fun item =>
    codec.encode h "messages".toList (asUtc (driver.load item.createdAt)) item.id

end Etoeragcb.Sessions
