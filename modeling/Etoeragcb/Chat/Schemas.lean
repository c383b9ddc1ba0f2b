import Etoeragcb.Models.Chat

/-!
# Chat requests and stream events

The types of `app/chat/schemas.py`. Identifiers that the events carry as strings stay identifiers.
-/

namespace Etoeragcb.Chat

open Lib Models

structure ChatRequest where
  sessionId : SessionId
  message : Text
  collectionIds : List CollectionId
  documentIds : List DocumentId
  webSearch : Bool
  clientRequestId : ClientRequestId
deriving DecidableEq

inductive SourceType
  | document | web
deriving DecidableEq

structure Citation where
  marker : Text
  sourceId : Text
  sourceType : SourceType
  title : Text
  documentId : Option DocumentId
  documentVersionId : Option VersionId
  sourceFilename : Option Text
  pageStart : Option Nat
  pageEnd : Option Nat
  uri : Option Text
deriving DecidableEq

structure UsageSummary where
  promptTokens : Nat
  completionTokens : Nat
  totalTokens : Nat
deriving DecidableEq

inductive Stage
  | planning | retrieving | reranking | generating
deriving DecidableEq

inductive Route
  | answer | noAnswer | conversation
deriving DecidableEq

inductive StreamEvent
  | start (requestId : ClientRequestId) (userMessageId : MessageId) (sessionId : SessionId)
      (collectionIds : List CollectionId) (documentIds : List DocumentId) (webSearch : Bool)
  | status (stage : Stage)
  | delta (text : Text)
  | replace (text : Text)
  | citations (items : List (Text × Citation))
  | done (messageId : MessageId) (route : Route) (usage : UsageSummary)
  | error (code : String) (retryable : Bool)
deriving DecidableEq

structure StoredChatReplay where
  assistantMessageId : MessageId
  events : List StreamEvent
deriving DecidableEq

structure AcceptedChat where
  request : ChatRequest
  tenantId : TenantId
  userId : UserId
  userMessageId : MessageId
  idempotencyKey : Text
  replay : Option StoredChatReplay
deriving DecidableEq

end Etoeragcb.Chat
