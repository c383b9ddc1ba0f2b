import Etoeragcb.Core.Idempotency

/-!
# What the calls do to a record
-/

namespace Etoeragcb.Core

open Lib Models

variable {ρ : Type} {records records' : Records ρ} {tenantId : TenantId} {userId : UserId}
  {operation key requestHash : Text} {ttl now : Nat} {result : ClaimResult ρ} {k : RequestKey}

theorem claimIdempotency_cases
    (h : claimIdempotency records tenantId userId operation key requestHash ttl now = .ok (records', result)) :
    ∃ K, validateIdempotencyKey key = .ok K ∧
      (records.insert? ⟨tenantId, userId, operation, K⟩
          ⟨requestHash, .inProgress, none, none, now + ttl, now, now⟩ = some records' ∧
        result = ⟨.claimed, none, none⟩ ∨
      ∃ record, records.get? ⟨tenantId, userId, operation, K⟩ = some record ∧
        (record.requestHash ≠ requestHash ∧ records' = records ∧ result = ⟨.conflict, none, none⟩ ∨
        record.requestHash = requestHash ∧
          (record.status = .completed ∧ records' = records ∧
            result = ⟨.replay, record.response, record.resourceId⟩ ∨
          record.status = .inProgress ∧ now < record.expiresAt ∧ records' = records ∧
            result = ⟨.inProgress, none, none⟩ ∨
          record.status ≠ .completed ∧ (record.status = .inProgress → record.expiresAt ≤ now) ∧
            (records' = records.modify ⟨tenantId, userId, operation, K⟩ fun r => { r with
              status := .inProgress, response := none, resourceId := none
              expiresAt := now + ttl, updatedAt := now }) ∧
            result = ⟨.recovered, none, none⟩))) := by
  simp only [claimIdempotency, bind_eq_ok] at h
  obtain ⟨K, hK, h⟩ := h
  refine ⟨K, hK, ?_⟩
  split at h
  · rename_i rs hins
    simp only [pure_eq_ok, Prod.mk.injEq] at h
    obtain ⟨rfl, rfl⟩ := h
    exact Or.inl ⟨hins, rfl⟩
  · simp only [bind_eq_ok, orRaise_eq_ok] at h
    obtain ⟨record, hr, h⟩ := h
    refine Or.inr ⟨record, hr, ?_⟩
    by_cases hh : record.requestHash = requestHash
    · refine Or.inr ⟨hh, ?_⟩
      simp only [hh, ne_eq, not_true_eq_false, ↓reduceIte] at h
      by_cases hc : record.status = .completed
      · simp only [hc, ↓reduceIte, pure_eq_ok, Prod.mk.injEq] at h
        exact Or.inl ⟨hc, h.1.symm, h.2.symm⟩
      · simp only [hc, ↓reduceIte] at h
        by_cases hp : record.status = .inProgress ∧ now < record.expiresAt
        · simp only [hp, and_self, ↓reduceIte, pure_eq_ok, Prod.mk.injEq] at h
          exact Or.inr (Or.inl ⟨hp.1, hp.2, h.1.symm, h.2.symm⟩)
        · simp only [hp, ↓reduceIte, pure_eq_ok, Prod.mk.injEq] at h
          exact Or.inr (Or.inr ⟨hc, fun hi => Nat.not_lt.mp fun hlt => hp ⟨hi, hlt⟩, h.1.symm, h.2.symm⟩)
    · simp only [ne_eq, hh, not_false_eq_true, ↓reduceIte, pure_eq_ok, Prod.mk.injEq] at h
      exact Or.inl ⟨hh, h.1.symm, h.2.symm⟩

theorem lockedRecord_eq_ok {r : IdempotencyRequest ρ} :
    lockedRecord records tenantId userId operation key = .ok (k, r) ↔
      ∃ K, validateIdempotencyKey key = .ok K ∧ k = ⟨tenantId, userId, operation, K⟩ ∧
        records.get? k = some r := by
  simp only [lockedRecord, bind_eq_ok, orRaise_eq_ok, pure_eq_ok, Prod.mk.injEq]
  constructor
  · rintro ⟨K, hK, r', hr, rfl, rfl⟩
    exact ⟨K, hK, rfl, hr⟩
  · rintro ⟨K, hK, rfl, hr⟩
    exact ⟨K, hK, r, hr, rfl, rfl⟩

theorem completeIdempotency_cases {response : ρ} {resourceId : Option MessageId}
    (h : completeIdempotency records tenantId userId operation key response resourceId now = .ok records') :
    ∃ k record, lockedRecord records tenantId userId operation key = .ok (k, record) ∧
      record.status = .inProgress ∧
      records' = records.modify k fun r => { r with
        status := .completed, response := some response, resourceId := resourceId, updatedAt := now } := by
  simp only [completeIdempotency, bind_eq_ok, Prod.exists] at h
  obtain ⟨k, record, hl, h⟩ := h
  by_cases hs : record.status = .inProgress
  · simp only [hs, ne_eq, not_true_eq_false, ↓reduceIte, pure_eq_ok] at h
    exact ⟨k, record, hl, hs, h.symm⟩
  · simp [hs] at h

theorem failIdempotency_cases
    (h : failIdempotency records tenantId userId operation key now = .ok records') :
    ∃ k record, lockedRecord records tenantId userId operation key = .ok (k, record) ∧
      (record.status = .completed ∧ records' = records ∨
      record.status ≠ .completed ∧
        records' = records.modify k fun r => { r with status := .failed, updatedAt := now }) := by
  simp only [failIdempotency, bind_eq_ok, Prod.exists] at h
  obtain ⟨k, record, hl, h⟩ := h
  refine ⟨k, record, hl, ?_⟩
  by_cases hs : record.status = .completed
  · simp only [hs, ↓reduceIte, pure_eq_ok] at h
    exact Or.inl ⟨hs, h.symm⟩
  · simp only [hs, ↓reduceIte, pure_eq_ok] at h
    exact Or.inr ⟨hs, h.symm⟩

end Etoeragcb.Core
