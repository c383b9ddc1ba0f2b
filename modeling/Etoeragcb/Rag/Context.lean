import Etoeragcb.Rag.Dedup

/-!
# The context of an answer

`app/rag/context.py`. The token counter is a parameter, and it does not fail.
-/

namespace Etoeragcb.Rag

open Lib Models

inductive SkipReason
  | sectionCap | sourceCap | domainCap | sourceTypeCap | candidateCap | tokenBudget
deriving DecidableEq

structure ContextSkip where
  candidateId : Text
  reason : SkipReason
deriving DecidableEq

structure PackedSource where
  sourceId : Text
  evidence : RerankedEvidence
deriving DecidableEq

structure PackedContext where
  text : Text
  tokenCount : Nat
  tokenBudget : Nat
  sources : List PackedSource
  skipped : List ContextSkip
deriving DecidableEq

def natStr (n : Nat) : Text := Nat.toDigits 10 n

/-- `^S[1-9][0-9]*$` -/
def isSourceId : Text → Bool
  | 'S' :: d :: ds => isDigit d && d != '0' && ds.all isDigit
  | _ => false

def PackedSource.validate (s : PackedSource) : Except String PackedSource :=
  if isSourceId s.sourceId then .ok s else .error "source_id"

def PackedContext.validate (c : PackedContext) : Except String PackedContext :=
  if 1 ≤ c.tokenBudget then .ok c else .error "token_budget"

/-- The limits that the constructor accepts. -/
structure ContextPacker where
  count : Text → Nat
  tokenBudget : Nat
  maxCandidates : Nat
  sectionLimit : Nat
  sourceLimit : Nat
  domainLimit : Nat
  webLimit : Option Nat
  limits_pos : 1 ≤ tokenBudget ∧ 1 ≤ maxCandidates ∧ 1 ≤ sectionLimit ∧ 1 ≤ sourceLimit ∧ 1 ≤ domainLimit
  webLimit_mem : ∀ n, webLimit = some n → 1 ≤ n ∧ n ≤ maxCandidates

/-! ## The order -/

/-- Candidates that stand for terms no earlier one has, with these terms. -/
def termRepresentatives : List Text → List RerankedEvidence → List RerankedEvidence
  | _, [] => []
  | represented, x :: ranked =>
      if ∃ term ∈ x.candidate.matchedExactTerms, term ∉ represented then
        x :: termRepresentatives (represented ++ x.candidate.matchedExactTerms) ranked
      else termRepresentatives represented ranked

/-- The first candidate of a source type that is not among the representatives joins them. -/
def addRepresentative (ranked representatives : List RerankedEvidence) (sourceType : SourceType) :
    List RerankedEvidence :=
  representatives ++ (ranked.find? fun x => x.candidate.sourceType = sourceType ∧
    x.candidate.candidateId ∉ representatives.map (·.candidate.candidateId)).toList

def evidenceOrder (candidates : List RerankedEvidence) : List RerankedEvidence :=
  let ranked := sortBy stableRerankedKey candidates
  let representatives := termRepresentatives [] ranked
  let representatives := addRepresentative ranked representatives .document
  let representatives := addRepresentative ranked representatives .web
  representatives ++ ranked.filter fun x =>
    x.candidate.candidateId ∉ representatives.map (·.candidate.candidateId)

/-! ## The text -/

def formatSource (x : RerankedEvidence × Nat) : Text :=
  let candidate := x.1.candidate
  let sourceId := 'S' :: natStr x.2
  let metadata := [("type=" ++ (match candidate.sourceType with
      | .document => "document"
      | .web => "web")).toList, "title=".toList ++ candidate.title] ++
    (candidate.sourceFilename.map fun s => "file=".toList ++ s).toList ++
    (match candidate.pageStart, candidate.pageEnd with
      | some start, some stop => ["pages=".toList ++ natStr start ++ '-' :: natStr stop]
      | _, _ => []) ++
    (candidate.uri.map fun s => "url=".toList ++ s).toList
  let content := match candidate.sourceType with
    | .web => "--- BEGIN UNTRUSTED WEB SOURCE ".toList ++ sourceId ++ " ---\n".toList ++ candidate.textOriginal ++
        "\n--- END UNTRUSTED WEB SOURCE ".toList ++ sourceId ++ " ---".toList
    | .document => candidate.textOriginal
  '[' :: sourceId ++ "] ".toList ++ (" | ".toList).intercalate metadata ++ '\n' :: content

def formatContext (candidates : List RerankedEvidence) : Text :=
  ("\n\n".toList).intercalate ((candidates.zipIdx 1).map formatSource)

/-! ## Packing -/

/-- What `pack` has selected and skipped, with the text and its count. -/
structure Packing where
  selected : List RerankedEvidence
  skipped : List ContextSkip
  context : Text
  tokenCount : Nat

variable (packer : ContextPacker)

def capReason (selected : List RerankedEvidence) (c : EvidenceCandidate) : Option SkipReason :=
  if packer.maxCandidates ≤ selected.length then some .candidateCap
  else if packer.sectionLimit ≤ selected.countP (·.candidate.sectionKey = c.sectionKey) then some .sectionCap
  else if packer.sourceLimit ≤ selected.countP (·.candidate.sourceKey = c.sourceKey) then some .sourceCap
  else if c.domain ≠ none ∧ packer.domainLimit ≤ selected.countP (·.candidate.domain = c.domain) then some .domainCap
  else if c.sourceType = .web ∧ packer.webLimit.any fun n => n ≤ selected.countP (·.candidate.sourceType = .web) then
    some .sourceTypeCap
  else none

def packItem (p : Packing) (item : RerankedEvidence) : Packing :=
  let skip := fun reason => { p with skipped := p.skipped ++ [⟨item.candidate.candidateId, reason⟩] }
  match capReason packer p.selected item.candidate with
  | some reason => skip reason
  | none =>
      let tentative := formatContext (p.selected ++ [item])
      if packer.tokenBudget < packer.count tentative then skip .tokenBudget
      else ⟨p.selected ++ [item], p.skipped, tentative, packer.count tentative⟩

def ContextPacker.pack (candidates : List RerankedEvidence) : Except String PackedContext := do
  let p := (evidenceOrder candidates).foldl (packItem packer) ⟨[], [], [], 0⟩
  let sources ← (p.selected.zipIdx 1).mapM fun x => PackedSource.validate ⟨'S' :: natStr x.2, x.1⟩
  PackedContext.validate ⟨p.context, p.tokenCount, packer.tokenBudget, sources, p.skipped⟩

end Etoeragcb.Rag
