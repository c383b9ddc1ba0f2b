import Etoeragcb.Lib.Dict
import Etoeragcb.Models.Retrieval
import Mathlib.Algebra.Group.Nat.Defs

/-!
# Evidence

`app/rag/candidates.py`. A model is validated when it is built, and one error names each field that fails.
-/

namespace Etoeragcb.Rag

open Lib Models

inductive SourceType
  | document | web
deriving DecidableEq

/-- The values that a provenance holds. -/
inductive ProvenanceValue
  | none
  | bool (b : Bool)
  | int (n : ℤ)
  | float (q : ℚ)
  | text (s : Text)
  | texts (ss : List Text)
deriving DecidableEq

abbrev Provenance := List (Text × ProvenanceValue)

/-- The member `collapsed_candidate_ids` of the provenance, the ids of the duplicates that were merged, stands apart from
the others. -/
structure EvidenceCandidate where
  candidateId : Text
  sourceType : SourceType
  sourceKey : Text
  sectionKey : Text
  domain : Option Text
  title : Text
  sourceFilename : Option Text
  uri : Option Text
  pageStart : Option Nat
  pageEnd : Option Nat
  charStart : Option Nat
  charEnd : Option Nat
  textOriginal : Text
  textLexical : Text
  contentSha256 : Text
  lexicalSha256 : Text
  retrievalRank : Nat
  retrievalScore : ℚ
  matchedExactTerms : List Text
  matchedHints : List Text
  collapsedCandidateIds : List Text
  provenance : Provenance
deriving DecidableEq

structure RerankedEvidence where
  candidate : EvidenceCandidate
  rerankScore : ℚ
  rerankRank : Nat
deriving DecidableEq

/-- `^[0-9a-f]{64}$` -/
def isSha256 (s : Text) : Bool :=
  decide (s.length = 64) && s.all fun c => isDigit c || ('a' ≤ c && c ≤ 'f')

/-- `hashlib.sha256(s.encode()).hexdigest()` -/
structure Sha256 where
  hexdigest : Text → Text
  isSha256_hexdigest : ∀ s, isSha256 (hexdigest s) = true

/-- The constraints of the fields, with their names. -/
def EvidenceCandidate.fieldChecks (c : EvidenceCandidate) : List (String × Bool) :=
  [("candidate_id", 1 ≤ c.candidateId.length && c.candidateId.length ≤ 512),
   ("source_key", 1 ≤ c.sourceKey.length && c.sourceKey.length ≤ 2048),
   ("section_key", 1 ≤ c.sectionKey.length && c.sectionKey.length ≤ 2048),
   ("domain", c.domain.all fun s => s.length ≤ 253),
   ("title", 1 ≤ c.title.length && c.title.length ≤ 1024),
   ("source_filename", c.sourceFilename.all fun s => s.length ≤ 1024),
   ("uri", c.uri.all fun s => s.length ≤ 4096),
   ("page_start", c.pageStart.all fun n => 1 ≤ n),
   ("page_end", c.pageEnd.all fun n => 1 ≤ n),
   ("text_original", 1 ≤ c.textOriginal.length),
   ("text_lexical", 1 ≤ c.textLexical.length),
   ("content_sha256", isSha256 c.contentSha256),
   ("lexical_sha256", isSha256 c.lexicalSha256),
   ("retrieval_rank", 1 ≤ c.retrievalRank)]

/-- `validate_source_fields` -/
def EvidenceCandidate.sourceErrors (c : EvidenceCandidate) : List String :=
  if c.sourceType = .web ∧ (c.domain = none ∨ c.uri = none) then ["web evidence requires domain and uri"]
  else if c.pageStart.isNone ≠ c.pageEnd.isNone then ["page_start and page_end must be provided together"]
  else if c.pageEnd.getD 0 < c.pageStart.getD 0 then ["page_end cannot precede page_start"]
  else if c.charStart.isNone ≠ c.charEnd.isNone then ["char_start and char_end must be provided together"]
  else if c.charStart ≠ none ∧ c.charEnd.getD 0 ≤ c.charStart.getD 0 then ["char_end must follow char_start"]
  else []

/-- The fields are checked first, and the model as a whole if they are all valid. -/
def EvidenceCandidate.validate (c : EvidenceCandidate) : Except (List String) EvidenceCandidate :=
  match (c.fieldChecks.filter fun x => !x.2).map Prod.fst with
  | [] => if c.sourceErrors = [] then .ok c else .error c.sourceErrors
  | fields => .error fields

def hexDigit (n : Nat) : Char := if n < 10 then Char.ofNat (48 + n) else Char.ofNat (87 + n)

/-- `str` of the UUID that is a number. -/
def uuidStr (n : Nat) : Text :=
  let digits := (List.range 32).map fun i => hexDigit (n / 16 ^ (31 - i) % 16)
  digits.take 8 ++ '-' :: (digits.drop 8).take 4 ++ '-' :: (digits.drop 12).take 4 ++ '-' :: (digits.drop 16).take 4 ++
    '-' :: digits.drop 20

def provenanceOption {α : Type} (value : α → ProvenanceValue) : Option α → ProvenanceValue
  | some a => value a
  | none => .none

def documentProvenance (candidate : RetrievalCandidate) : Provenance :=
  [("tenant_id".toList, .text (uuidStr candidate.tenantId)),
   ("document_id".toList, .text (uuidStr candidate.documentId)),
   ("document_version_id".toList, .text (uuidStr candidate.documentVersionId)),
   ("section_id".toList, .text (uuidStr candidate.sectionId)),
   ("section_path_original".toList, .text candidate.sectionPathOriginal),
   ("chunk_index".toList, .int candidate.chunkIndex),
   ("dense_rank".toList, provenanceOption (fun (n : ℕ) => .int n) candidate.denseRank),
   ("dense_score".toList, provenanceOption .float candidate.denseScore),
   ("sparse_rank".toList, provenanceOption (fun (n : ℕ) => .int n) candidate.sparseRank),
   ("sparse_score".toList, provenanceOption .float candidate.sparseScore),
   ("exact_rank".toList, provenanceOption (fun (n : ℕ) => .int n) candidate.exactRank),
   ("hint_rank".toList, provenanceOption (fun (n : ℕ) => .int n) candidate.hintRank),
   ("is_neighbor".toList, .bool candidate.isNeighbor),
   ("neighbor_of".toList, provenanceOption (fun n => .text (uuidStr n)) candidate.neighborOf)]

/-- `EvidenceCandidate.from_retrieval` before the validation. -/
def evidenceOf (candidate : RetrievalCandidate) : EvidenceCandidate where
  candidateId := uuidStr candidate.chunkId
  sourceType := .document
  sourceKey := uuidStr candidate.documentId
  sectionKey := uuidStr candidate.sectionId
  domain := none
  title := candidate.documentTitle
  sourceFilename := some candidate.sourceFilename
  uri := none
  pageStart := some candidate.pageStart
  pageEnd := some candidate.pageEnd
  charStart := some candidate.charStart
  charEnd := some candidate.charEnd
  textOriginal := candidate.textOriginal
  textLexical := candidate.textLexical
  contentSha256 := candidate.contentSha256
  lexicalSha256 := candidate.lexicalSha256
  retrievalRank := candidate.rank
  retrievalScore := candidate.fusionScore
  matchedExactTerms := candidate.matchedExactTerms
  matchedHints := candidate.matchedHints
  collapsedCandidateIds := []
  provenance := documentProvenance candidate

def fromRetrieval (candidate : RetrievalCandidate) : Except (List String) EvidenceCandidate :=
  (evidenceOf candidate).validate

def documentEvidence (candidates : List RetrievalCandidate) : Except (List String) (List EvidenceCandidate) :=
  candidates.mapM fromRetrieval

end Etoeragcb.Rag
