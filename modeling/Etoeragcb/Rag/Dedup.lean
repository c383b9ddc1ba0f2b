import Etoeragcb.Lib.Sort
import Etoeragcb.Rag.Candidates
import Mathlib.Algebra.Order.Field.Rat
import Mathlib.Data.Char
import Mathlib.Data.Finset.Card
import Mathlib.Data.Finset.Union
import Mathlib.Data.List.Lex
import Mathlib.Data.Prod.Lex

/-!
# Duplicates

`app/rag/dedup.py`. A decision is validated when it is made.
-/

namespace Etoeragcb.Rag

open Lib Models

inductive DuplicateReason
  | contentHash | lexicalHash | overlappingSpan | nearDuplicate
deriving DecidableEq

structure DuplicateDecision where
  droppedCandidateId : Text
  keptCandidateId : Text
  reason : DuplicateReason
  similarity : ℚ
deriving DecidableEq

/-- `similarity: float = Field(ge=0.0, le=1.0)` -/
def DuplicateDecision.validate (d : DuplicateDecision) : Except String DuplicateDecision :=
  if 0 ≤ d.similarity ∧ d.similarity ≤ 1 then .ok d else .error "similarity"

structure DeduplicationResult where
  candidates : List RerankedEvidence
  decisions : List DuplicateDecision
deriving DecidableEq

def stableRerankedKey (x : RerankedEvidence) : ℕ ×ₗ Text := toLex (x.rerankRank, x.candidate.candidateId)

/-! ## Similarity -/

/-- The share of the shorter of two ranges that lies in the other one. -/
def rangeOverlap (a b : Nat × Nat) : ℚ :=
  let intersection : ℤ := max 0 (min (a.2 : ℤ) b.2 - max (a.1 : ℤ) b.1)
  let shortest : ℤ := min ((a.2 : ℤ) - a.1) ((b.2 : ℤ) - b.1)
  if 0 < shortest then intersection / shortest else 0

def EvidenceCandidate.range? (c : EvidenceCandidate) : Option (Nat × Nat) :=
  match c.charStart, c.charEnd with
  | some start, some stop => some (start, stop)
  | _, _ => none

def spanOverlap (first second : EvidenceCandidate) : ℚ :=
  if first.sourceKey ≠ second.sourceKey ∨ first.sectionKey ≠ second.sectionKey then 0
  else match first.range?, second.range? with
  | some a, some b => rangeOverlap a b
  | _, _ => 0

/-- `text.split()` -/
def splitWords (text : Text) : List Text := (text.splitOnP isSpace).filter (· ≠ [])

def shingles (text : Text) : Finset (List Text) :=
  let tokens := splitWords text
  if tokens.length < 3 then (if tokens = [] then ∅ else {tokens})
  else ((List.range (tokens.length - 2)).map fun index => (tokens.drop index).take 3).toFinset

def shingleSimilarity (left right : Text) : ℚ :=
  if shingles left = ∅ ∨ shingles right = ∅ then 0
  else (shingles left ∩ shingles right).card / (shingles left ∪ shingles right).card

variable (overlapThreshold nearDuplicateThreshold : ℚ)

def duplicateReason (left right : EvidenceCandidate) : Option (DuplicateReason × ℚ) :=
  if left.contentSha256 = right.contentSha256 then some (.contentHash, 1)
  else if left.lexicalSha256 = right.lexicalSha256 then some (.lexicalHash, 1)
  else if ∃ term ∈ right.matchedExactTerms, term ∉ left.matchedExactTerms then none
  else if overlapThreshold ≤ spanOverlap left right then some (.overlappingSpan, spanOverlap left right)
  else if nearDuplicateThreshold ≤ shingleSimilarity left.textLexical right.textLexical then
    some (.nearDuplicate, shingleSimilarity left.textLexical right.textLexical)
  else none

/-! ## The loop -/

/-- `tuple(dict.fromkeys(items))` -/
def fromkeys (items : List Text) : List Text := items.foldl (fun seen x => if x ∈ seen then seen else seen ++ [x]) []

def mergeExactProvenance (survivor duplicate : RerankedEvidence) : RerankedEvidence :=
  let left := survivor.candidate
  let right := duplicate.candidate
  { survivor with candidate := { left with
      matchedExactTerms := fromkeys (left.matchedExactTerms ++ right.matchedExactTerms)
      matchedHints := fromkeys (left.matchedHints ++ right.matchedHints)
      collapsedCandidateIds := left.collapsedCandidateIds ++ [right.candidateId] } }

/-- The first of the kept candidates that `current` duplicates takes it in. -/
def absorb (current : RerankedEvidence) : List RerankedEvidence → Option (List RerankedEvidence × DuplicateDecision)
  | [] => none
  | existing :: kept =>
      match duplicateReason overlapThreshold nearDuplicateThreshold existing.candidate current.candidate with
      | some (reason, similarity) =>
          some (mergeExactProvenance existing current :: kept,
            ⟨current.candidate.candidateId, existing.candidate.candidateId, reason, similarity⟩)
      | none => (absorb current kept).map fun x => (existing :: x.1, x.2)

def dedupLoop : DeduplicationResult → List RerankedEvidence → Except String DeduplicationResult
  | result, [] => .ok result
  | result, current :: rest =>
      match absorb overlapThreshold nearDuplicateThreshold current result.candidates with
      | none => dedupLoop { result with candidates := result.candidates ++ [current] } rest
      | some (kept, decision) => do
          let decision ← decision.validate
          dedupLoop ⟨kept, result.decisions ++ [decision]⟩ rest

def deduplicate (candidates : List RerankedEvidence) : Except String DeduplicationResult :=
  if ¬(0 ≤ overlapThreshold ∧ overlapThreshold ≤ 1) then .error "overlap_threshold must be between zero and one"
  else if ¬(0 ≤ nearDuplicateThreshold ∧ nearDuplicateThreshold ≤ 1) then
    .error "near_duplicate_threshold must be between zero and one"
  else dedupLoop overlapThreshold nearDuplicateThreshold ⟨[], []⟩ (sortBy stableRerankedKey candidates)

end Etoeragcb.Rag
