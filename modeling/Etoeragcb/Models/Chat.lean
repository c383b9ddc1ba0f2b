import Etoeragcb.Models.Content

/-!
# The rows of the chat

The tables of `app/models/content.py` and `app/models/auth.py` that chat attempts read or write.
-/

namespace Etoeragcb.Models

open Lib

abbrev SessionId := Nat
abbrev MessageId := Nat
abbrev ClientRequestId := Nat

structure User where
  isActive : Bool
  disabledAt : Option Time
deriving DecidableEq

structure ChatSession where
  tenantId : TenantId
  userId : UserId
  deletedAt : Option Time
deriving DecidableEq

inductive Role
  | user | assistant | system
deriving DecidableEq

/-- A row of `messages`. Of the metadata only the request that an assistant message answers is kept. -/
structure Message where
  tenantId : TenantId
  sessionId : SessionId
  userId : UserId
  role : Role
  content : Text
  metaClientRequestId : Option ClientRequestId
  clientRequestId : Option ClientRequestId
deriving DecidableEq

inductive RequestStatus
  | inProgress | completed | failed
deriving DecidableEq

/-- The primary key of `idempotency_requests`. -/
structure RequestKey where
  tenantId : TenantId
  userId : UserId
  operation : Text
  key : Text
deriving DecidableEq

/-- A row of `idempotency_requests` that stores responses of type `ρ`. -/
structure IdempotencyRequest (ρ : Type) where
  requestHash : Text
  status : RequestStatus
  response : Option ρ
  resourceId : Option MessageId
  expiresAt : Time
  createdAt : Time
  updatedAt : Time
deriving DecidableEq

end Etoeragcb.Models
