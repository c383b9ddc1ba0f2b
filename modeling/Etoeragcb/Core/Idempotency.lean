import Etoeragcb.Lib.Machine
import Etoeragcb.Lib.Result
import Etoeragcb.Models.Chat

/-!
# Durable idempotency

The functions of `app/core/idempotency.py` over the table `idempotency_requests`.
-/

namespace Etoeragcb.Core

open Lib Models

inductive ClaimState
  | claimed | recovered | inProgress | replay | conflict
deriving DecidableEq

structure ClaimResult (ρ : Type) where
  state : ClaimState
  response : Option ρ
  resourceId : Option MessageId
deriving DecidableEq

def isKeyChar (c : Char) : Bool := isLetter c || isDigit c || c ∈ ['.', '_', ':', '-']

def validateIdempotencyKey (key : Text) : Except String Text :=
  match strip key with
  | c :: cs =>
      if (isLetter c || isDigit c) && cs.all isKeyChar && 7 ≤ cs.length && cs.length ≤ 127 then .ok (c :: cs)
      else .error "Idempotency-Key must contain 8-128 safe characters"
  | [] => .error "Idempotency-Key must contain 8-128 safe characters"

variable {ρ : Type}

abbrev Records (ρ : Type) := Table RequestKey (IdempotencyRequest ρ)

/-- `claim_idempotency`: the row is inserted, or the row that is there is locked and judged. The time to live is in the
unit of the instants. -/
def claimIdempotency (records : Records ρ) (tenantId : TenantId) (userId : UserId) (operation key : Text)
    (requestHash : Text) (ttl : Nat) (now : Time) : Except String (Records ρ × ClaimResult ρ) := do
  let k : RequestKey := ⟨tenantId, userId, operation, ← validateIdempotencyKey key⟩
  match records.insert? k ⟨requestHash, .inProgress, none, none, now + ttl, now, now⟩ with
  | some records => return (records, ⟨.claimed, none, none⟩)
  | none => do
      let record ← orRaise (records.get? k) "idempotency row disappeared during claim"
      if record.requestHash ≠ requestHash then
        return (records, ⟨.conflict, none, none⟩)
      else if record.status = .completed then
        return (records, ⟨.replay, record.response, record.resourceId⟩)
      else if record.status = .inProgress ∧ now < record.expiresAt then
        return (records, ⟨.inProgress, none, none⟩)
      else
        return (records.modify k fun r => { r with
          status := .inProgress, response := none, resourceId := none
          expiresAt := now + ttl, updatedAt := now }, ⟨.recovered, none, none⟩)

def lockedRecord (records : Records ρ) (tenantId : TenantId) (userId : UserId) (operation key : Text) :
    Except String (RequestKey × IdempotencyRequest ρ) := do
  let k : RequestKey := ⟨tenantId, userId, operation, ← validateIdempotencyKey key⟩
  return (k, ← orRaise (records.get? k) "idempotency claim does not exist")

def completeIdempotency (records : Records ρ) (tenantId : TenantId) (userId : UserId)
    (operation key : Text) (response : ρ) (resourceId : Option MessageId) (now : Time) :
    Except String (Records ρ) := do
  let (k, record) ← lockedRecord records tenantId userId operation key
  if record.status ≠ .inProgress then
    throw "only an in-progress idempotency claim can be completed"
  else
    return records.modify k fun r => { r with
      status := .completed, response := some response, resourceId := resourceId, updatedAt := now }

def failIdempotency (records : Records ρ) (tenantId : TenantId) (userId : UserId)
    (operation key : Text) (now : Time) : Except String (Records ρ) := do
  let (k, record) ← lockedRecord records tenantId userId operation key
  if record.status = .completed then
    return records
  else
    return records.modify k fun r => { r with status := .failed, updatedAt := now }

/-! ## Claims on one key -/

/-- A claim that was granted, and whether its holder has called `complete` or `fail`. -/
structure Holder where
  claimedAt : Time
  ttl : Nat
  settled : Bool
deriving DecidableEq

/-- The table and the holders of the claims on one key, in the order of their claims. -/
structure ClaimsState (ρ : Type) where
  records : Records ρ
  holders : List Holder

def ClaimsState.fresh : ClaimsState ρ := ⟨.empty, []⟩

inductive ClaimsAction (ρ : Type)
  | claim (ttl : Nat) (now : Time)
  | complete (holder : Nat) (response : ρ) (resourceId : Option MessageId) (now : Time)
  | fail (holder : Nat) (now : Time)

def ClaimState.granted : ClaimState → Bool
  | .claimed | .recovered => true
  | .inProgress | .replay | .conflict => false

def settle (holders : List Holder) (i : Nat) : List Holder :=
  holders.modify i fun h => { h with settled := true }

/-- The calls that are made with one key and one request hash. A call that raises changes no row. -/
def claimsStep (tenantId : TenantId) (userId : UserId) (operation key requestHash : Text)
    (s : ClaimsState ρ) : ClaimsAction ρ → Option (ClaimsState ρ)
  | .claim ttl now =>
      match claimIdempotency s.records tenantId userId operation key requestHash ttl now with
      | .ok (records, result) => some {
          records
          holders := if result.state.granted then s.holders ++ [⟨now, ttl, false⟩] else s.holders }
      | .error _ => some s
  | .complete i response resourceId now =>
      if i < s.holders.length then
        match completeIdempotency s.records tenantId userId operation key response resourceId now with
        | .ok records => some ⟨records, settle s.holders i⟩
        | .error _ => some ⟨s.records, settle s.holders i⟩
      else none
  | .fail i now =>
      if i < s.holders.length then
        match failIdempotency s.records tenantId userId operation key now with
        | .ok records => some ⟨records, settle s.holders i⟩
        | .error _ => some ⟨s.records, settle s.holders i⟩
      else none

/-- The calls of a run that leave the leases of others alone: a failed record is not claimed with an earlier
time than it failed at, and a record that is not completed fails only when every other claim that is not
settled has expired. -/
def timely (tenantId : TenantId) (userId : UserId) (operation key : Text) (s : ClaimsState ρ) :
    ClaimsAction ρ → Bool
  | .claim _ now => ((lockedRecord s.records tenantId userId operation key).toOption).all fun r =>
      r.2.status ≠ .failed || r.2.updatedAt ≤ now
  | .complete _ _ _ _ => true
  | .fail i now => ((lockedRecord s.records tenantId userId operation key).toOption).all fun r =>
      r.2.status = .completed || (s.holders.eraseIdx i).all fun h => h.settled || h.claimedAt + h.ttl ≤ now

end Etoeragcb.Core
