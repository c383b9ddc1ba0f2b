import Etoeragcb.Rag.Lemmas.Rerun
import Etoeragcb.Rag.Theorems.Reranking

/-!
# Deduplication of a result

Whether the result of `deduplicate` has duplicates left.
-/

namespace Etoeragcb.Rag

open Lib Models

/-- A survivor may be a duplicate of an earlier one only by a term that the earlier one got too late. Without such terms a
result is its own result. -/
theorem deduplicate_rerun {overlapThreshold nearDuplicateThreshold : ℚ} (ht : 0 ≤ overlapThreshold ∧ overlapThreshold ≤ 1)
    (hn : 0 ≤ nearDuplicateThreshold ∧ nearDuplicateThreshold ≤ 1) {candidates : List RerankedEvidence}
    (hids : (candidates.map (·.candidate.candidateId)).Nodup) :
    ∃ result, deduplicate overlapThreshold nearDuplicateThreshold candidates = .ok result ∧
      (result.candidates.Pairwise fun x y => ∀ reason similarity,
        duplicateReason overlapThreshold nearDuplicateThreshold x.candidate y.candidate = some (reason, similarity) →
          reason.IsLikeness ∧ Late candidates result x y) ∧
      (deduplicate overlapThreshold nearDuplicateThreshold result.candidates = .ok ⟨result.candidates, []⟩ ↔
        result.candidates.Pairwise fun x y =>
          duplicateReason overlapThreshold nearDuplicateThreshold x.candidate y.candidate = none) ∧
      ((result.candidates.Pairwise fun x y => ¬Late candidates result x y) →
        deduplicate overlapThreshold nearDuplicateThreshold result.candidates = .ok ⟨result.candidates, []⟩) := by
  have hloop : ∀ l, deduplicate overlapThreshold nearDuplicateThreshold l =
      dedupLoop overlapThreshold nearDuplicateThreshold ⟨[], []⟩ (sortBy stableRerankedKey l) := fun l => by
    rw [deduplicate, if_neg (not_not.mpr ht), if_neg (not_not.mpr hn)]
  obtain ⟨result, hresult, hsub, -⟩ := deduplicate_spec ht hn candidates
  have hsorted : ((sortBy stableRerankedKey candidates).map core).Pairwise
      fun a b => stableRerankedKey a ≤ stableRerankedKey b :=
    List.pairwise_map.mpr (sortBy_pairwise stableRerankedKey candidates)
  have hkept : (result.candidates.map core).Pairwise fun a b => stableRerankedKey a ≤ stableRerankedKey b :=
    hsorted.sublist hsub
  rw [List.pairwise_map] at hkept
  have hself : sortBy stableRerankedKey result.candidates = result.candidates := sortBy_eq_self hkept
  have hlate := dedupLoop_late (((sortBy_perm stableRerankedKey candidates).map _).nodup_iff.mpr hids)
    (sortBy_pairwise _ _) ((hloop _).symm.trans hresult)
  simp only [Late, Lacked, mem_sortBy] at hlate
  have hagain : deduplicate overlapThreshold nearDuplicateThreshold result.candidates = .ok ⟨result.candidates, []⟩ ↔
      result.candidates.Pairwise fun x y =>
        duplicateReason overlapThreshold nearDuplicateThreshold x.candidate y.candidate = none := by
    rw [hloop, hself]
    refine dedupLoop_eq_self_iff.trans (and_iff_right ?_)
    nofun
  refine ⟨result, hresult, hlate, hagain, fun hno => hagain.mpr ?_⟩
  refine (hlate.and hno).imp fun {x y} h => ?_
  cases hreason : duplicateReason overlapThreshold nearDuplicateThreshold x.candidate y.candidate with
  | none => rfl
  | some d => exact absurd (h.1 d.1 d.2 hreason).2 h.2

def heatsDigest : Text := "5f67171cae0ea02101e90f875cf7439dab2264bd89470e4e7c0b3936903e3b10".toList

/-- Two overlapping passages, the second with an exact term, and a copy of the first one that has the term, too. -/
def sampleRepeated : List RerankedEvidence :=
  [⟨{ sampleEvidence ['a'] "heat".toList heatDigest 1 with
      sourceKey := ['d'], sectionKey := ['d'], charStart := some 0, charEnd := some 4 }, 1, 1⟩,
   ⟨{ sampleEvidence ['b'] "heats".toList heatsDigest 2 with
      sourceKey := ['d'], sectionKey := ['d'], charStart := some 0, charEnd := some 5, matchedExactTerms := [['t']] }, 1, 2⟩,
   ⟨{ sampleEvidence ['c'] "heat".toList heatDigest 3 with matchedExactTerms := [['t']] }, 1, 3⟩]

theorem deduplicate_rerun_repeated : ∃ result, deduplicate (4 / 5) (17 / 20) sampleRepeated = .ok result ∧
    (result.candidates.Pairwise fun x y => ∀ reason similarity,
      duplicateReason (4 / 5) (17 / 20) x.candidate y.candidate = some (reason, similarity) →
        reason.IsLikeness ∧ Late sampleRepeated result x y) ∧
    (deduplicate (4 / 5) (17 / 20) result.candidates = .ok ⟨result.candidates, []⟩ ↔
      result.candidates.Pairwise fun x y => duplicateReason (4 / 5) (17 / 20) x.candidate y.candidate = none) ∧
    ((result.candidates.Pairwise fun x y => ¬Late sampleRepeated result x y) →
      deduplicate (4 / 5) (17 / 20) result.candidates = .ok ⟨result.candidates, []⟩) :=
  deduplicate_rerun (by norm_num) (by norm_num) (by decide)

/-- The copy is merged into the first passage, and then the second one is a duplicate of it. -/
theorem not_deduplicate_rerun : ¬∀ (overlapThreshold nearDuplicateThreshold : ℚ) (candidates : List RerankedEvidence),
    (0 ≤ overlapThreshold ∧ overlapThreshold ≤ 1) → (0 ≤ nearDuplicateThreshold ∧ nearDuplicateThreshold ≤ 1) →
    (candidates.map (·.candidate.candidateId)).Nodup →
    ∃ result, deduplicate overlapThreshold nearDuplicateThreshold candidates = .ok result ∧
      ∃ again, deduplicate overlapThreshold nearDuplicateThreshold result.candidates = .ok again ∧ again.decisions = [] := by
  intro h
  obtain ⟨result, hresult, again, hagain, hnone⟩ := h (4 / 5) (17 / 20) sampleRepeated (by norm_num) (by norm_num) (by decide)
  have hrun : ((deduplicate (4 / 5) (17 / 20) sampleRepeated).bind fun r =>
      (deduplicate (4 / 5) (17 / 20) r.candidates).map (·.decisions)) =
        .ok [⟨['b'], ['a'], .overlappingSpan, 1⟩] := by decide +kernel
  rw [hresult, Except.bind, hagain, Except.map, hnone] at hrun
  cases hrun

end Etoeragcb.Rag
