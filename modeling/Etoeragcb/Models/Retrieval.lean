import Etoeragcb.Models.Content
import Mathlib.Data.Rat.Defs

/-!
# The records of retrieval

`RetrievalPlan` of `app/rag/planner.py` and `RetrievalCandidate` of `app/rag/retriever.py`. Scores are rational
numbers.
-/

namespace Etoeragcb.Models

open Lib

inductive Intent
  | smalltalk | metaTalk | knowledge
deriving DecidableEq

structure RetrievalPlan where
  intent : Intent
  query : Text
  exactTerms : List Text
  documentHints : List Text
  collectionHints : List Text
  headingHints : List Text
deriving DecidableEq

structure RetrievalCandidate where
  chunkId : ChunkId
  tenantId : TenantId
  documentId : DocumentId
  documentVersionId : VersionId
  sectionId : SectionId
  documentTitle : Text
  sourceFilename : Text
  sectionPathOriginal : Text
  pageStart : Nat
  pageEnd : Nat
  charStart : Nat
  charEnd : Nat
  chunkIndex : Nat
  contentSha256 : Text
  lexicalSha256 : Text
  tokenCount : Nat
  textOriginal : Text
  textLexical : Text
  rank : Nat
  fusionScore : ℚ
  denseRank : Option Nat
  denseScore : Option ℚ
  sparseRank : Option Nat
  sparseScore : Option ℚ
  exactRank : Option Nat
  hintRank : Option Nat
  matchedExactTerms : List Text
  matchedHints : List Text
  isNeighbor : Bool
  neighborOf : Option ChunkId
deriving DecidableEq

end Etoeragcb.Models
