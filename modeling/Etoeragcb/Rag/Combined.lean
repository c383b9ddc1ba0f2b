import Etoeragcb.Rag.Postprocess

/-!
# Documents and the web

`app/rag/combined.py`, from what the two branches have found to the packed context. The reranker answers with the scores
of the candidates that it is given.
-/

namespace Etoeragcb.Rag

open Lib Models

/-- The loop of `merge_candidate_pool`. The first argument bounds the number of its rounds. -/
def mergeLoop {α : Type} (documents web : List α) (limit : Nat) : Nat → List α → Nat → List α
  | 0, merged, _ => merged
  | rounds + 1, merged, index =>
      if merged.length < limit ∧ (index < documents.length ∨ index < web.length) then
        let merged := merged ++ documents[index]?.toList
        if index < documents.length ∧ limit ≤ merged.length then merged
        else mergeLoop documents web limit rounds (merged ++ web[index]?.toList) (index + 1)
      else merged

def poolCandidate (candidate : EvidenceCandidate) (rank : Nat) : EvidenceCandidate :=
  { candidate with
    retrievalRank := rank
    provenance := Dict.set (Dict.set candidate.provenance "branch_retrieval_rank".toList (.int candidate.retrievalRank))
      "combined_pool_rank".toList (.int rank) }

def mergeCandidatePool (documents web : List EvidenceCandidate) (limit : Nat) : List EvidenceCandidate :=
  let orderedDocuments := sortBy stableCandidateKey documents
  let orderedWeb := sortBy stableCandidateKey web
  let merged := mergeLoop orderedDocuments orderedWeb limit (max documents.length web.length) [] 0
  ((merged.take limit).zipIdx 1).map fun x => poolCandidate x.1 x.2

structure WebCandidate where
  candidate : EvidenceCandidate
  isWeb : candidate.sourceType = .web
  valid : candidate.validate = .ok candidate

structure CombinedRetrievalResult where
  combinedPool : List EvidenceCandidate
  postRetrieval : PostRetrievalResult

structure CombinedRetrievalService where
  poolLimit : Nat
  maxCandidates : Nat
  reranker : (candidates : List EvidenceCandidate) → Scores (bounded maxCandidates candidates).length
  packer : ContextPacker
  gate : ConfidenceGate
  filter : CandidateConfidenceFilter

/-- `retrieve`, with what the branches return. There is no result when a candidate is not valid evidence. -/
def CombinedRetrievalService.retrieve (service : CombinedRetrievalService) (documents : List RetrievalCandidate)
    (web : List WebCandidate) : Option CombinedRetrievalResult := do
  let documentCandidates ← (documentEvidence documents).toOption
  let combined := mergeCandidatePool documentCandidates (web.map (·.candidate)) service.poolLimit
  let post ← (process service.filter service.gate service.maxCandidates service.packer combined
    (service.reranker combined)).toOption
  return ⟨combined, post⟩

end Etoeragcb.Rag
