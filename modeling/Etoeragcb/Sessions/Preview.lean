import Etoeragcb.Lib.Uuid
import Etoeragcb.Models.Content
import Etoeragcb.Rag.Candidates

/-!
# The source behind a citation

`_resolve_document_source` of `app/sessions/routes.py`.
-/

namespace Etoeragcb.Sessions

open Lib Models

structure ResolvedSource where
  chunkId : ChunkId
  documentId : DocumentId
  documentVersionId : VersionId
  contentSha256 : Text
  sectionId : Option SectionId
  chunkIndex : Option Nat
deriving DecidableEq

/-- `value == s` for a text `s` -/
def isText (value : Option Json) (s : Text) : Bool :=
  match value with
  | some (.str t) => decide (t = s)
  | _ => false

/-- `uuid.UUID(str(value))`. What `str` makes of a value that is neither a text nor an integer is never a UUID. -/
def readUuid : Option Json → Option Nat
  | some (.str s) => (UUID.ofText s).map UUID.value
  | some (.int n) => (UUID.ofText (encodeInt n)).map UUID.value
  | _ => none

def readSection : Option Json → Option (Option SectionId)
  | none | some .null => some none
  | value => (readUuid value).map some

/-- An index may be missing, and is not negative. -/
def readIndex : Option Json → Option (Option Nat)
  | none | some .null => some none
  | some (.int n) => if n < 0 then none else some (some n.toNat)
  | _ => none

/-- The members of an item that describes the source of a document with the id `sourceId`. -/
def matchingSource? (sourceId : Text) : Json → Option (List (Text × Json))
  | .obj item =>
      if isText (Json.get? item "source_id".toList) sourceId && isText (Json.get? item "source_type".toList) "document".toList then
        some item
      else none
  | _ => none

def resolveSource (citation source : List (Text × Json)) : Option ResolvedSource := do
  let some (.obj provenance) := Json.get? source "provenance".toList | none
  let some (.str contentSha256) := Json.get? source "content_sha256".toList | none
  let chunkId ← readUuid (Json.get? source "candidate_id".toList)
  let documentId ← readUuid (Json.get? provenance "document_id".toList)
  let documentVersionId ← readUuid (Json.get? provenance "document_version_id".toList)
  let citationDocumentId ← readUuid (Json.get? citation "document_id".toList)
  let citationVersionId ← readUuid (Json.get? citation "document_version_id".toList)
  let sectionId ← readSection (Json.get? provenance "section_id".toList)
  if documentId ≠ citationDocumentId ∨ documentVersionId ≠ citationVersionId then none
  else do
    let chunkIndex ← readIndex (Json.get? provenance "chunk_index".toList)
    if Rag.isSha256 contentSha256 then
      return ⟨chunkId, documentId, documentVersionId, contentSha256, sectionId, chunkIndex⟩
    else none

def resolveDocumentSource (metadata : Json) (sourceId : Text) : Option ResolvedSource := do
  let .obj metadata := metadata | none
  let some (.obj citations) := Json.get? metadata "citations".toList | none
  let some (.obj retrieval) := Json.get? metadata "retrieval".toList | none
  let some (.obj citation) := Json.get? citations ('[' :: (sourceId ++ [']'])) | none
  let some (.arr sources) := Json.get? retrieval "sources".toList | none
  if isText (Json.get? citation "source_id".toList) sourceId && isText (Json.get? citation "source_type".toList) "document".toList then
    match sources.filterMap (matchingSource? sourceId) with
    | [source] => resolveSource citation source
    | _ => none
  else none

end Etoeragcb.Sessions
