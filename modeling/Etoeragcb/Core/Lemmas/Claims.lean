import Etoeragcb.Core.Lemmas.Idempotency

/-!
# Claims on one key

The record of a key bounds the leases of the holders that have not settled.
-/

namespace Etoeragcb.Core

open Lib Models

variable {ρ : Type} {s s' : ClaimsState ρ} {a : ClaimsAction ρ} {tenantId : TenantId} {userId : UserId}
  {operation key requestHash K : Text} {ttl now : Nat} {result : ClaimResult ρ} {records' : Records ρ}
  {record : IdempotencyRequest ρ}

/-- Until when the record keeps other claims out; a completed record keeps them out for good. -/
def keptUntil (r : IdempotencyRequest ρ) : Option Time :=
  match r.status with
  | .inProgress => some r.expiresAt
  | .failed => some r.updatedAt
  | .completed => none

/-- The lease of the holder does not outlast what the record keeps. -/
def Covers (r : IdempotencyRequest ρ) (h : Holder) : Prop :=
  ∀ t, keptUntil r = some t → h.claimedAt + h.ttl ≤ t

/-- The record of the key covers every holder that has not settled. -/
def Guarded (k : RequestKey) (s : ClaimsState ρ) : Prop :=
  ∀ h ∈ s.holders, h.settled = false → ∃ r, s.records.get? k = some r ∧ Covers r h

theorem covers_completed {h : Holder} (hs : record.status = .completed) : Covers record h := by
  intro t ht
  simp [keptUntil, hs] at ht

theorem mem_settle {holders : List Holder} {i : Nat} {h : Holder} (hm : h ∈ settle holders i)
    (hu : h.settled = false) : h ∈ holders.eraseIdx i := by
  induction holders generalizing i with
  | nil => simp [settle] at hm
  | cons x xs ih =>
      cases i with
      | zero =>
          simp only [settle, List.modify_zero_cons, List.mem_cons] at hm
          rcases hm with rfl | hm
          · cases hu
          · exact hm
      | succ i =>
          simp only [settle, List.modify_succ_cons, List.mem_cons] at hm
          rw [List.eraseIdx_cons_succ, List.mem_cons]
          exact hm.imp id ih

theorem timely_claim (h : timely tenantId userId operation key s (.claim ttl now) = true)
    (hK : validateIdempotencyKey key = .ok K)
    (hr : s.records.get? ⟨tenantId, userId, operation, K⟩ = some record) (hf : record.status = .failed) :
    record.updatedAt ≤ now := by
  have hl := lockedRecord_eq_ok.mpr ⟨K, hK, rfl, hr⟩
  simpa [timely, hl, Except.toOption, hf] using h

theorem timely_fail {i : Nat} (h : timely tenantId userId operation key s (.fail i now) = true)
    (hK : validateIdempotencyKey key = .ok K)
    (hr : s.records.get? ⟨tenantId, userId, operation, K⟩ = some record) (hc : record.status ≠ .completed) :
    ∀ h ∈ s.holders.eraseIdx i, h.settled = false → h.claimedAt + h.ttl ≤ now := by
  have hl := lockedRecord_eq_ok.mpr ⟨K, hK, rfl, hr⟩
  simp only [timely, hl, Except.toOption, Option.all_some, hc, decide_false, Bool.false_or, List.all_eq_true,
    Bool.or_eq_true, decide_eq_true_eq] at h
  intro x hx hu
  exact (h x hx).resolve_left (by simp [hu])

theorem Guarded.granted (h : Guarded ⟨tenantId, userId, operation, K⟩ s)
    (hK : validateIdempotencyKey key = .ok K)
    (ht : timely tenantId userId operation key s (.claim ttl now) = true)
    (hc : claimIdempotency s.records tenantId userId operation key requestHash ttl now = .ok (records', result))
    (hg : result.state.granted = true) :
    (∀ x ∈ s.holders, x.settled = false → x.claimedAt + x.ttl ≤ now) ∧
      ∃ r, records'.get? ⟨tenantId, userId, operation, K⟩ = some r ∧ keptUntil r = some (now + ttl) := by
  obtain ⟨K', hK', hcase⟩ := claimIdempotency_cases hc
  rw [hK] at hK'; cases hK'
  rcases hcase with ⟨hins, rfl⟩ | ⟨r, hr, ⟨_, _, rfl⟩ | ⟨_, ⟨_, _, rfl⟩ | ⟨_, _, _, rfl⟩ | ⟨hnc, hexp, rfl, rfl⟩⟩⟩
  · refine ⟨fun x hx hu => ?_, _, by rw [Table.get?_insert? hins, if_pos rfl], rfl⟩
    obtain ⟨r, hr, _⟩ := h x hx hu
    rw [Table.insert?_fresh hins] at hr; cases hr
  · cases hg
  · cases hg
  · cases hg
  · refine ⟨fun x hx hu => ?_, _, by rw [Table.get?_modify, if_pos rfl, hr]; rfl, rfl⟩
    obtain ⟨r', hr', hcov⟩ := h x hx hu
    rw [hr] at hr'; cases hr'
    cases hs : r.status with
    | completed => exact absurd hs hnc
    | inProgress => exact Nat.le_trans (hcov r.expiresAt (by simp [keptUntil, hs])) (hexp hs)
    | failed =>
        exact Nat.le_trans (hcov r.updatedAt (by simp [keptUntil, hs])) (timely_claim ht hK hr hs)

theorem claimIdempotency_refused
    (hc : claimIdempotency s.records tenantId userId operation key requestHash ttl now = .ok (records', result))
    (hg : result.state.granted = false) : records' = s.records := by
  obtain ⟨K', _, ⟨_, rfl⟩ | ⟨r, _, ⟨_, rfl, _⟩ | ⟨_, ⟨_, rfl, _⟩ | ⟨_, _, rfl, _⟩ | ⟨_, _, _, rfl⟩⟩⟩⟩ :=
    claimIdempotency_cases hc
  · cases hg
  · rfl
  · rfl
  · rfl
  · cases hg

theorem Guarded.step (h : Guarded ⟨tenantId, userId, operation, K⟩ s)
    (hK : validateIdempotencyKey key = .ok K) (ht : timely tenantId userId operation key s a = true)
    (hs : claimsStep tenantId userId operation key requestHash s a = some s') :
    Guarded ⟨tenantId, userId, operation, K⟩ s' := by
  -- Settling a holder only removes a lease to be covered.
  have hsettle : ∀ {i x}, x ∈ settle s.holders i → x.settled = false → x ∈ s.holders :=
    fun hx hu => List.mem_of_mem_eraseIdx (mem_settle hx hu)
  cases a with
  | claim ttl now =>
      simp only [claimsStep] at hs
      split at hs
      · rename_i records result hc
        cases hs
        cases hg : result.state.granted with
        | false =>
            rw [claimIdempotency_refused hc hg]
            simpa using h
        | true =>
            obtain ⟨hexp, r, hr, hkept⟩ := h.granted hK ht hc hg
            intro x hx hu
            refine ⟨r, hr, fun t ht' => ?_⟩
            rw [hkept] at ht'; cases ht'
            simp only [↓reduceIte, List.mem_append, List.mem_singleton] at hx
            rcases hx with hx | rfl
            · exact Nat.le_trans (hexp x hx hu) (Nat.le_add_right ..)
            · exact Nat.le_refl _
      · cases hs; exact h
  | complete i response resourceId now =>
      simp only [claimsStep] at hs
      split at hs
      · split at hs
        · rename_i records hc
          cases hs
          obtain ⟨k, record, hl, _, rfl⟩ := completeIdempotency_cases hc
          obtain ⟨K', hK', rfl, hr⟩ := lockedRecord_eq_ok.mp hl
          rw [hK] at hK'; cases hK'
          intro x hx hu
          exact ⟨_, by rw [Table.get?_modify, if_pos rfl, hr]; rfl, covers_completed rfl⟩
        · cases hs
          exact fun x hx hu => h x (hsettle hx hu) hu
      · cases hs
  | fail i now =>
      simp only [claimsStep] at hs
      split at hs
      · split at hs
        · rename_i records hc
          cases hs
          obtain ⟨k, record, hl, ⟨hcomp, rfl⟩ | ⟨hnc, rfl⟩⟩ := failIdempotency_cases hc
          · exact fun x hx hu => h x (hsettle hx hu) hu
          · obtain ⟨K', hK', rfl, hr⟩ := lockedRecord_eq_ok.mp hl
            rw [hK] at hK'; cases hK'
            intro x hx hu
            refine ⟨_, by rw [Table.get?_modify, if_pos rfl, hr]; rfl, fun t ht' => ?_⟩
            cases ht'
            exact timely_fail ht hK hr hnc x (mem_settle hx hu) hu
        · cases hs
          exact fun x hx hu => h x (hsettle hx hu) hu
      · cases hs

end Etoeragcb.Core
