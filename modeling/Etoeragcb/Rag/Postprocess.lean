import Etoeragcb.Rag.Context

/-!
# From the pool to the gate

`TeiReranker.rerank` of `app/rag/reranker.py` from its scores on, `app/rag/confidence.py`, `app/rag/gate.py` and
`PostRetrievalService.process` of `app/rag/postprocess.py`. Scores are rational numbers.
-/

namespace Etoeragcb.Rag

open Lib Models

/-- `Field(ge=0.0, le=1.0)` -/
def inUnit (q : ℚ) : Bool := 0 ≤ q && q ≤ 1

/-! ## Reranking -/

/-- The scores that `_cache_get` or `_score` return for `n` candidates. Both refuse any others. -/
structure Scores (n : Nat) where
  values : List ℚ
  length_eq : values.length = n
  inUnit_of_mem : ∀ s ∈ values, inUnit s = true

def stableCandidateKey (c : EvidenceCandidate) : ℕ ×ₗ Text := toLex (c.retrievalRank, c.candidateId)

def RerankedEvidence.validate (x : RerankedEvidence) : Except String RerankedEvidence :=
  if inUnit x.rerankScore then (if 1 ≤ x.rerankRank then .ok x else .error "rerank_rank") else .error "rerank_score"

/-- The candidates that are scored. -/
def bounded (maxCandidates : Nat) (candidates : List EvidenceCandidate) : List EvidenceCandidate :=
  (sortBy stableCandidateKey candidates).take maxCandidates

/-- The bounded candidates with their scores, the best score first. -/
def rerank (maxCandidates : Nat) (candidates : List EvidenceCandidate)
    (scores : Scores (bounded maxCandidates candidates).length) : Except String (List RerankedEvidence) :=
  let order := sortBy (fun x => toLex (-x.2, stableCandidateKey x.1))
    ((bounded maxCandidates candidates).zip scores.values)
  (order.zipIdx 1).mapM fun x => RerankedEvidence.validate ⟨x.1.1, x.1.2, x.2⟩

/-! ## The confidence filter -/

inductive WeakReason
  | belowScoreMin | outsideTopDelta
deriving DecidableEq

structure CandidateConfidenceDecision where
  candidateId : Text
  rerankRank : Nat
  rerankScore : ℚ
  reason : WeakReason
deriving DecidableEq

structure CandidateConfidenceResult where
  candidates : List RerankedEvidence
  decisions : List CandidateConfidenceDecision
  topScore : Option ℚ
  effectiveScoreCutoff : ℚ
  scoreMin : ℚ
  topDelta : ℚ
deriving DecidableEq

def CandidateConfidenceDecision.validate (d : CandidateConfidenceDecision) :
    Except String CandidateConfidenceDecision :=
  if 1 ≤ d.rerankRank then (if inUnit d.rerankScore then .ok d else .error "rerank_score") else .error "rerank_rank"

def CandidateConfidenceResult.validate (r : CandidateConfidenceResult) : Except String CandidateConfidenceResult :=
  if r.topScore.all inUnit ∧ inUnit r.effectiveScoreCutoff ∧ inUnit r.scoreMin ∧ inUnit r.topDelta then .ok r
  else .error "candidate confidence"

/-- The limits that the constructor accepts. -/
structure CandidateConfidenceFilter where
  scoreMin : ℚ
  topDelta : ℚ
  inUnit_scoreMin : inUnit scoreMin = true
  inUnit_topDelta : inUnit topDelta = true

variable (f : CandidateConfidenceFilter)

def topScore (ranked : List RerankedEvidence) : Option ℚ := ranked.head?.map (·.rerankScore)

def effectiveCutoff (ranked : List RerankedEvidence) : ℚ :=
  match topScore ranked with
  | some top => max f.scoreMin (top - f.topDelta)
  | none => f.scoreMin

def weakDecision (x : RerankedEvidence) : CandidateConfidenceDecision :=
  ⟨x.candidate.candidateId, x.rerankRank, x.rerankScore,
    if x.rerankScore < f.scoreMin then .belowScoreMin else .outsideTopDelta⟩

def CandidateConfidenceFilter.filter (candidates : List RerankedEvidence) :
    Except String CandidateConfidenceResult := do
  let ranked := sortBy stableRerankedKey candidates
  let cutoff := effectiveCutoff f ranked
  let decisions ← (ranked.filter fun x => x.rerankScore < cutoff).mapM fun x => (weakDecision f x).validate
  CandidateConfidenceResult.validate ⟨ranked.filter fun x => cutoff ≤ x.rerankScore, decisions, topScore ranked,
    cutoff, f.scoreMin, f.topDelta⟩

/-! ## The gate -/

structure DatasetProvenance where
  name : Option Text
  version : Option Text
  sha256 : Option Text
  examples : Nat
deriving DecidableEq

def DatasetProvenance.complete (d : DatasetProvenance) : Bool :=
  d.name.isSome && d.version.isSome && d.sha256.isSome && 0 < d.examples

structure ModelProvenance where
  embeddingModel : Text
  embeddingRevision : Text
  rerankerModel : Text
  rerankerRevision : Text
deriving DecidableEq

structure GateThresholds where
  topScoreMin : ℚ
  scoreMarginMin : ℚ
  exactScoreMin : ℚ
  minEvidence : Nat
deriving DecidableEq

structure GateConfiguration where
  artifactId : Text
  calibrated : Bool
  dataset : DatasetProvenance
  models : ModelProvenance
  thresholds : Option GateThresholds
  /-- `validate_calibration` -/
  calibration : if calibrated then thresholds.isSome ∧ dataset.complete else thresholds = none

structure GateArtifact where
  configuration : GateConfiguration
  sha256 : Text
  isSha256_sha256 : isSha256 sha256 = true

structure GateScores where
  topScore : Option ℚ
  secondScore : Option ℚ
  scoreMargin : Option ℚ
  bestExactScore : Option ℚ
  evidenceCount : Nat
deriving DecidableEq

def GateScores.validate (s : GateScores) : Except String GateScores :=
  if s.topScore.all inUnit ∧ s.secondScore.all inUnit ∧ s.scoreMargin.all inUnit ∧ s.bestExactScore.all inUnit then
    .ok s
  else .error "gate scores"

inductive GateReason
  | thresholdsPassed | exactThresholdPassed | noCandidates | calibrationUnavailable | modelRevisionMismatch
  | insufficientEvidence | topScoreBelowThreshold | scoreMarginBelowThreshold
deriving DecidableEq

inductive Route
  | answer | noAnswer
deriving DecidableEq

structure GateDecision where
  route : Route
  reasons : List GateReason
  scores : GateScores
  artifactId : Text
  artifactSha256 : Text
  calibrated : Bool
  datasetName : Option Text
  datasetVersion : Option Text
  datasetSha256 : Option Text
deriving DecidableEq

def GateDecision.validate (d : GateDecision) : Except String GateDecision :=
  if isSha256 d.artifactSha256 then .ok d else .error "artifact_sha256"

structure ConfidenceGate where
  artifact : GateArtifact
  models : ModelProvenance

variable (g : ConfidenceGate)

def ConfidenceGate.decision (route : Route) (reasons : List GateReason) (scores : GateScores) :
    Except String GateDecision :=
  let config := g.artifact.configuration
  GateDecision.validate ⟨route, reasons, scores, config.artifactId, g.artifact.sha256, config.calibrated,
    config.dataset.name, config.dataset.version, config.dataset.sha256⟩

def gateScores (ranked : List RerankedEvidence) : GateScores :=
  let exactScores := (ranked.filter fun x => x.candidate.matchedExactTerms ≠ []).map (·.rerankScore)
  let top := topScore ranked
  let second := topScore ranked.tail
  { topScore := top
    secondScore := second
    scoreMargin := match top, second with
      | some top, some second => some (top - second)
      | _, _ => top
    bestExactScore := exactScores.max?
    evidenceCount := ranked.length }

def gateFailures (t : GateThresholds) (s : GateScores) : List GateReason :=
  (if s.evidenceCount < t.minEvidence then [.insufficientEvidence] else []) ++
    (if s.topScore.all (· < t.topScoreMin) then [.topScoreBelowThreshold] else []) ++
    (if s.scoreMargin.all (· < t.scoreMarginMin) then [.scoreMarginBelowThreshold] else [])

def ConfidenceGate.evaluate (candidates : List RerankedEvidence) : Except String GateDecision := do
  let ranked := sortBy stableRerankedKey candidates
  let scores ← (gateScores ranked).validate
  let config := g.artifact.configuration
  if ranked = [] then g.decision .noAnswer [.noCandidates] scores
  else if ¬config.calibrated then g.decision .noAnswer [.calibrationUnavailable] scores
  else if config.models ≠ g.models then g.decision .noAnswer [.modelRevisionMismatch] scores
  else match config.thresholds with
    | none => g.decision .noAnswer [.calibrationUnavailable] scores
    | some t =>
        if scores.bestExactScore.any (t.exactScoreMin ≤ ·) then g.decision .answer [.exactThresholdPassed] scores
        else match gateFailures t scores with
          | [] => g.decision .answer [.thresholdsPassed] scores
          | failures => g.decision .noAnswer failures scores

/-! ## The whole -/

structure PostRetrievalResult where
  reranked : List RerankedEvidence
  deduplication : DeduplicationResult
  confidenceFilter : CandidateConfidenceResult
  context : PackedContext
  gate : GateDecision

/-- `process`, with the scores of the reranker and the default thresholds of deduplication. -/
def process (maxCandidates : Nat) (packer : ContextPacker) (candidates : List EvidenceCandidate)
    (scores : Scores (bounded maxCandidates candidates).length) : Except String PostRetrievalResult := do
  let reranked ← rerank maxCandidates candidates scores
  let deduplication ← deduplicate (4 / 5) (17 / 20) reranked
  let confidenceFilter ← f.filter deduplication.candidates
  let context ← packer.pack confidenceFilter.candidates
  let gate ← g.evaluate (context.sources.map (·.evidence))
  return ⟨reranked, deduplication, confidenceFilter, context, gate⟩

end Etoeragcb.Rag
