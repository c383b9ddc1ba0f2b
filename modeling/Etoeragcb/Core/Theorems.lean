import Etoeragcb.Core.Lemmas.Claims

/-!
# What a claim guarantees its holder
-/

namespace Etoeragcb.Core

open Lib Models

variable {ρ : Type} {s : ClaimsState ρ} {tenantId : TenantId} {userId : UserId} {operation key requestHash : Text}

/-- While a granted claim is neither settled nor expired, no other claim is granted. -/
def ClaimExclusive (tenantId : TenantId) (userId : UserId) (operation key requestHash : Text)
    (s : ClaimsState ρ) (ttl now : Nat) : Prop :=
  ∀ h ∈ s.holders, h.settled = false → now < h.claimedAt + h.ttl → ∀ records result,
    claimIdempotency s.records tenantId userId operation key requestHash ttl now = .ok (records, result) →
      result.state.granted = false

/-- Two claims of one key of which the first fails after it has expired and the second has recovered it. -/
def lateFail : List (ClaimsAction Unit) := [.claim 10 0, .claim 10 20, .fail 0 21]

theorem not_claimExclusive : ¬∀ (tenantId : TenantId) (userId : UserId) (operation key requestHash : Text)
    (s : ClaimsState Unit) (ttl now : Nat),
    Run (claimsStep tenantId userId operation key requestHash) (fun _ _ => True) .fresh s →
      ClaimExclusive tenantId userId operation key requestHash s ttl now := by
  intro hall
  have hrun : (exec (claimsStep 1 1 ['c'] "abcdefgh".toList ['h']) (fun _ _ => True) .fresh lateFail).map
      (fun s => (s.holders, ((claimIdempotency s.records 1 1 ['c'] "abcdefgh".toList ['h'] 10 22).toOption.map
        fun x => x.2.state))) =
      some ([⟨0, 10, true⟩, ⟨20, 10, false⟩], some .recovered) := by decide
  obtain ⟨s, hs, he⟩ := Option.map_eq_some_iff.mp hrun
  simp only [Prod.mk.injEq, Option.map_eq_some_iff] at he
  obtain ⟨hholders, ⟨records, result⟩, hok, hstate⟩ := he
  have hclaim : claimIdempotency s.records 1 1 ['c'] "abcdefgh".toList ['h'] 10 22 = .ok (records, result) := by
    cases h : claimIdempotency s.records 1 1 ['c'] "abcdefgh".toList ['h'] 10 22 with
    | error e => rw [h] at hok; cases hok
    | ok x => rw [h] at hok; cases hok; rfl
  have hgranted := hall 1 1 ['c'] "abcdefgh".toList ['h'] s 10 22 (Run.of_exec hs) ⟨20, 10, false⟩
    (by simp [hholders]) rfl (by decide) records result hclaim
  simp only at hstate
  rw [hstate] at hgranted; cases hgranted

/-- If no claim fails a record while the lease of another holder goes on, and no failed record is claimed with
an earlier time than it failed at, a granted claim excludes the others until it is settled or has expired. -/
theorem claim_exclusive {ttl now : Nat}
    (h : Run (claimsStep tenantId userId operation key requestHash)
      (fun s a => timely tenantId userId operation key s a) .fresh s)
    (ht : timely tenantId userId operation key s (.claim ttl now)) :
    ClaimExclusive tenantId userId operation key requestHash s ttl now := by
  intro x hx hu hnow records result hc
  obtain ⟨K, hK, _⟩ := claimIdempotency_cases hc
  have hguard : Guarded ⟨tenantId, userId, operation, K⟩ s :=
    Run.invariant (fun _ _ _ hg ha hs => hg.step hK ha hs) h fun _ hm => by cases hm
  cases hg : result.state.granted with
  | false => rfl
  | true =>
      have hle := (hguard.granted hK ht hc hg).1 x hx hu
      exact absurd hnow (Nat.not_lt.mpr hle)

/-- The expired holder of `lateFail` does not call, and the claim that recovered its record is alone. -/
theorem claim_exclusive_recovered : ∃ s,
    exec (claimsStep 1 1 ['c'] "abcdefgh".toList ['h']) (fun s a => timely 1 1 ['c'] "abcdefgh".toList s a)
        (.fresh : ClaimsState Unit) (lateFail.take 2) = some s ∧
      s.holders = [⟨0, 10, false⟩, ⟨20, 10, false⟩] ∧
      ClaimExclusive 1 1 ['c'] "abcdefgh".toList ['h'] s 10 22 := by
  have hrun : (exec (claimsStep 1 1 ['c'] "abcdefgh".toList ['h'])
      (fun s a => timely 1 1 ['c'] "abcdefgh".toList s a) (.fresh : ClaimsState Unit) (lateFail.take 2)).map
      (fun s => (s.holders, timely 1 1 ['c'] "abcdefgh".toList s (.claim 10 22))) =
      some ([⟨0, 10, false⟩, ⟨20, 10, false⟩], true) := by decide
  obtain ⟨s, hs, he⟩ := Option.map_eq_some_iff.mp hrun
  simp only [Prod.mk.injEq] at he
  exact ⟨s, hs, he.1, claim_exclusive (Run.of_exec hs) he.2⟩

end Etoeragcb.Core
