import Etoeragcb.Chat.Events
import Etoeragcb.Lib.Uuid
import Etoeragcb.Rag.Combined

/-!
# What a message keeps of its sources

The citations of `citations_for_answer` over packed sources, and the members `citations` and `retrieval.sources` of
`_assistant_metadata` in `app/chat/orchestrator.py`, as JSON. How JSON writes a score is a parameter.
-/

namespace Etoeragcb.Chat

open Lib Models

/-! ## Citations of packed sources -/

def uuidOrNone : Option Rag.ProvenanceValue → Option Nat
  | some (.text s) => (UUID.ofText s).map UUID.value
  | _ => none

def sourceTypeOf : Rag.SourceType → SourceType
  | .document => .document
  | .web => .web

/-- The fields of the candidate of a source that its citation takes over. -/
def citedCandidate (c : Rag.EvidenceCandidate) : EvidenceCandidate where
  sourceType := sourceTypeOf c.sourceType
  title := c.title
  sourceFilename := c.sourceFilename
  uri := c.uri
  pageStart := c.pageStart
  pageEnd := c.pageEnd
  documentId := uuidOrNone (Dict.get? c.provenance "document_id".toList)
  documentVersionId := uuidOrNone (Dict.get? c.provenance "document_version_id".toList)

/-- A source with its id read as one. No other id is packed. -/
def citedSource? (s : Rag.PackedSource) : Option PackedSource :=
  match s.sourceId with
  | 'S' :: ds => if h : isCanonical ds = true then some ⟨⟨ds, h⟩, citedCandidate s.evidence.candidate⟩ else none
  | _ => none

/-! ## JSON -/

def optionJson {α : Type} (value : α → Json) : Option α → Json
  | some a => value a
  | none => .null

def natJson (n : Nat) : Json := .int n

def SourceType.text : SourceType → Text
  | document => "document".toList
  | web => "web".toList

/-- `model_dump(mode="json")` -/
def Citation.json (c : Citation) : Json :=
  .obj [("marker".toList, .str c.marker),
    ("source_id".toList, .str c.sourceId),
    ("source_type".toList, .str c.sourceType.text),
    ("title".toList, .str c.title),
    ("document_id".toList, optionJson (fun n => .str (Rag.uuidStr n)) c.documentId),
    ("document_version_id".toList, optionJson (fun n => .str (Rag.uuidStr n)) c.documentVersionId),
    ("source_filename".toList, optionJson .str c.sourceFilename),
    ("page_start".toList, optionJson natJson c.pageStart),
    ("page_end".toList, optionJson natJson c.pageEnd),
    ("uri".toList, optionJson .str c.uri)]

variable (scoreJson : ℚ → FloatLiteral)

def provenanceJson : Rag.ProvenanceValue → Json
  | .none => .null
  | .bool b => .bool b
  | .int n => .int n
  | .float q => .float (scoreJson q)
  | .text s => .str s
  | .texts ss => .arr (ss.map .str)

def keptProvenance : List Text :=
  ["document_id", "document_version_id", "section_id", "chunk_index", "search_rank", "redirect_count",
    "combined_pool_rank"].map String.toList

def sourceJson (packed : Rag.PackedSource) : Json :=
  let evidence := packed.evidence
  let candidate := evidence.candidate
  .obj [("source_id".toList, .str packed.sourceId),
    ("candidate_id".toList, .str candidate.candidateId),
    ("source_type".toList, .str (sourceTypeOf candidate.sourceType).text),
    ("source_key".toList, .str candidate.sourceKey),
    ("content_sha256".toList, .str candidate.contentSha256),
    ("retrieval_rank".toList, natJson candidate.retrievalRank),
    ("rerank_rank".toList, natJson evidence.rerankRank),
    ("rerank_score".toList, .float (scoreJson evidence.rerankScore)),
    ("provenance".toList, .obj ((Dict.restrict candidate.provenance keptProvenance).map fun x =>
      (x.1, provenanceJson scoreJson x.2)))]

def assistantMetadata (citations : List (Text × Citation)) (sources : List Rag.PackedSource) : Json :=
  .obj [("citations".toList, .obj (citations.map fun x => (x.1, x.2.json))),
    ("retrieval".toList, .obj [("sources".toList, .arr (sources.map (sourceJson scoreJson)))])]

/-- The metadata that `_persist` stores with an answer, unless a citation does not validate. -/
def persistedMetadata (answer : SanitizedAnswer) (sources : List Rag.PackedSource) : Except Failure Json :=
  (citationsForAnswer answer (sources.filterMap citedSource?)).map fun citations =>
    assistantMetadata scoreJson citations sources

end Etoeragcb.Chat
