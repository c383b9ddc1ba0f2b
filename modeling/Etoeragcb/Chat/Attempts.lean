import Etoeragcb.Chat.Schemas
import Etoeragcb.Core.Idempotency
import Mathlib.Data.List.Sort

/-!
# Chat attempts

`ChatCoordinator.accept`, `_persist` and `_fail` of `app/chat/orchestrator.py` and the pruning of
idempotency records of `app/operations/maintenance.py`, each one transaction, and their interleavings.
-/

namespace Etoeragcb.Chat

open Lib Models Etoeragcb.Core

structure ChatDb where
  users : Table UserId User
  sessions : Table SessionId ChatSession
  messages : Table MessageId Message
  records : Records StoredChatReplay

/-! ## Transactions -/

def chatOperation : Text := "chat".toList

/-- The object that `accept` hashes. -/
structure RequestPayload where
  sessionId : SessionId
  message : Text
  collectionIds : List CollectionId
  documentIds : List DocumentId
  webSearch : Bool
  clientRequestId : ClientRequestId
deriving DecidableEq

def requestPayload (request : ChatRequest) : RequestPayload where
  sessionId := request.sessionId
  message := request.message
  collectionIds := request.collectionIds.insertionSort (· ≤ ·)
  documentIds := request.documentIds.insertionSort (· ≤ ·)
  webSearch := request.webSearch
  clientRequestId := request.clientRequestId

def ownedSession (db : ChatDb) (tenantId : TenantId) (userId : UserId) (sessionId : SessionId) :
    Option ChatSession :=
  (db.sessions.get? sessionId).filter fun s =>
    s.tenantId = tenantId && s.userId = userId && s.deletedAt.isNone

def messagesOf (messages : Table MessageId Message) (tenantId : TenantId) (userId : UserId)
    (clientRequestId : ClientRequestId) : List (MessageId × Message) :=
  messages.select fun _ m =>
    m.tenantId = tenantId && m.userId = userId && m.clientRequestId = some clientRequestId

/-- A message is inserted unless its key is taken or a message of the user has its client request id. -/
def insertMessage (messages : Table MessageId Message) (id : MessageId) (m : Message) :
    Except String (Table MessageId Message) :=
  if m.clientRequestId.any fun c => messagesOf messages m.tenantId m.userId c ≠ [] then
    .error "IntegrityError"
  else
    orRaise (messages.insert? id m) "IntegrityError"

def userMessageId (replay : StoredChatReplay) : Except String MessageId :=
  orRaise (replay.events.findSome? fun
    | .start _ id _ _ _ _ => some id
    | _ => none) "stored chat replay has no user message"

/-- The part of `accept` after a granted claim: the user message is found or stored. -/
def storeUserMessage (db : ChatDb) (records : Records StoredChatReplay) (claimed : Bool) (tenantId : TenantId)
    (userId : UserId) (request : ChatRequest) (idempotencyKey : Text) (messageId : MessageId) :
    Except String (ChatDb × AcceptedChat) :=
  match (messagesOf db.messages tenantId userId request.clientRequestId).head? with
  | some (id, existing) =>
      if claimed ∨ existing.role ≠ .user ∨ existing.sessionId ≠ request.sessionId ∨
          existing.content ≠ request.message then
        throw "ChatConflictError"
      else
        return ({ db with records }, ⟨request, tenantId, userId, id, idempotencyKey, none⟩)
  | none => do
      let messages ← insertMessage db.messages messageId {
        tenantId, userId
        sessionId := request.sessionId
        role := .user
        content := request.message
        metaClientRequestId := none
        clientRequestId := some request.clientRequestId }
      return ({ db with records, messages }, ⟨request, tenantId, userId, messageId, idempotencyKey, none⟩)

/-- `ChatCoordinator.accept`, under the digest that the canonical request is hashed with. -/
def accept (digest : RequestPayload → Text) (idempotencyTtl : Nat) (db : ChatDb) (tenantId : TenantId)
    (userId : UserId) (request : ChatRequest) (idempotencyKey : Text) (messageId : MessageId) (now : Time) :
    Except String (ChatDb × AcceptedChat) := do
  let _ ← orRaise (ownedSession db tenantId userId request.sessionId) "ChatSessionNotFoundError"
  let (records, claim) ← claimIdempotency db.records tenantId userId chatOperation idempotencyKey
    (digest (requestPayload request)) idempotencyTtl now
  match claim.state with
  | .conflict => throw "ChatConflictError"
  | .inProgress => throw "ChatInProgressError"
  | .replay => do
      let replay ← orRaise claim.response "stored chat replay is invalid"
      let id ← userMessageId replay
      return (db, ⟨request, tenantId, userId, id, idempotencyKey, some replay⟩)
  | _ => storeUserMessage db records (claim.state = .claimed) tenantId userId request idempotencyKey messageId

/-- `ChatCoordinator._persist` -/
def persist (db : ChatDb) (accepted : AcceptedChat) (assistantId : MessageId) (answer : Text)
    (transcript : List StreamEvent) (now : Time) : Except String ChatDb := do
  let _ ← orRaise ((db.users.get? accepted.userId).filter fun u => u.isActive && u.disabledAt.isNone)
    "chat owner is no longer active"
  let _ ← orRaise (ownedSession db accepted.tenantId accepted.userId accepted.request.sessionId)
    "chat owner is no longer active"
  let messages ← insertMessage db.messages assistantId {
    tenantId := accepted.tenantId
    sessionId := accepted.request.sessionId
    userId := accepted.userId
    role := .assistant
    content := answer
    metaClientRequestId := some accepted.request.clientRequestId
    clientRequestId := none }
  let records ← completeIdempotency db.records accepted.tenantId accepted.userId chatOperation
    accepted.idempotencyKey ⟨assistantId, transcript⟩ (some assistantId) now
  return { db with messages, records }

/-- `ChatCoordinator._fail`; its own errors are logged only. -/
def fail (db : ChatDb) (accepted : AcceptedChat) (now : Time) : ChatDb :=
  match failIdempotency db.records accepted.tenantId accepted.userId chatOperation
      accepted.idempotencyKey now with
  | .ok records => { db with records }
  | .error _ => db

/-- The idempotency records that `prune_ephemeral_records` deletes. -/
def prune (db : ChatDb) (olderThan : Time) : ChatDb :=
  { db with records := db.records.delete fun _ r => r.expiresAt < olderThan }

/-! ## Interleavings -/

abbrev AttemptId := Nat

/-- How far an attempt has come. An attempt that crashed stays where it is. -/
inductive Attempt
  | fresh
  | running (accepted : AcceptedChat)
  | failing (accepted : AcceptedChat)
  | persisted (accepted : AcceptedChat)
  | ended
deriving DecidableEq

def Attempt.accepted? : Attempt → Option AcceptedChat
  | .running a | .failing a | .persisted a => some a
  | .fresh | .ended => none

structure ChatState where
  db : ChatDb
  attempts : AttemptId → Attempt

def ChatState.fresh (users : Table UserId User) (sessions : Table SessionId ChatSession) : ChatState where
  db := ⟨users, sessions, .empty, .empty⟩
  attempts := fun _ => .fresh

inductive ChatAction
  | accept (i : AttemptId) (tenantId : TenantId) (userId : UserId) (request : ChatRequest)
      (idempotencyKey : Text) (messageId : MessageId) (now : Time)
  | persist (i : AttemptId) (assistantId : MessageId) (answer : Text) (transcript : List StreamEvent)
      (now : Time)
  | fail (i : AttemptId) (now : Time)
  | prune (olderThan : Time)
  /-- Users and chat sessions change outside the chat. -/
  | administer (users : Table UserId User) (sessions : Table SessionId ChatSession)

def ChatState.goOn (s : ChatState) (db : ChatDb) (i : AttemptId) (p : Attempt) : ChatState :=
  ⟨db, Function.update s.attempts i p⟩

/-- One action; `none` when it cannot happen in the state. A request that is refused changes nothing, and a
replayed one only streams its transcript. -/
def chatStep (digest : RequestPayload → Text) (idempotencyTtl : Nat) (s : ChatState) :
    ChatAction → Option ChatState
  | .accept i tenantId userId request key messageId now =>
      match s.attempts i with
      | .fresh =>
          match accept digest idempotencyTtl s.db tenantId userId request key messageId now with
          | .ok (db, accepted) =>
              some (s.goOn db i (if accepted.replay.isSome then .ended else .running accepted))
          | .error _ => some (s.goOn s.db i .ended)
      | _ => none
  | .persist i assistantId answer transcript now =>
      match s.attempts i with
      | .running accepted =>
          match persist s.db accepted assistantId answer transcript now with
          | .ok db => some (s.goOn db i (.persisted accepted))
          | .error _ => some (s.goOn s.db i (.failing accepted))
      | _ => none
  | .fail i now => (s.attempts i).accepted?.map fun accepted => s.goOn (fail s.db accepted now) i .ended
  | .prune olderThan => some { s with db := prune s.db olderThan }
  | .administer users sessions => some { s with db := { s.db with users, sessions } }

/-- An attempt persists under a record in progress only if the record carries the hash of its request. -/
def persistsOwn (digest : RequestPayload → Text) (s : ChatState) : ChatAction → Bool
  | .persist i _ _ _ _ => (s.attempts i).accepted?.all fun a =>
      ((lockedRecord s.db.records a.tenantId a.userId chatOperation a.idempotencyKey).toOption).all fun r =>
        r.2.status ≠ .inProgress || r.2.requestHash = digest (requestPayload a.request)
  | _ => true

end Etoeragcb.Chat
