import Etoeragcb.Lib.Sort
import Etoeragcb.Rag.Scope
import Mathlib.Algebra.Order.Field.Rat
import Mathlib.Data.List.Infix
import Mathlib.Data.Prod.Lex

/-!
# Hybrid retrieval

`HybridRetriever.retrieve` of `app/rag/retriever.py`, from the hits of the two branches on. A sum of reciprocal ranks
is an exact rational.
-/

namespace Etoeragcb.Rag

open Lib Models Content

structure BranchHit where
  chunkId : ChunkId
  score : ℚ
deriving DecidableEq

structure BranchResults where
  dense : List BranchHit
  sparse : List BranchHit
deriving DecidableEq

structure Evidence where
  fusionScore : ℚ
  denseRank : Option Nat
  denseScore : Option ℚ
  sparseRank : Option Nat
  sparseScore : Option ℚ
  exactRank : Option Nat
  hintRank : Option Nat
  matchedExactTerms : List Text
  matchedHints : List Text
deriving DecidableEq

def Evidence.new : Evidence := ⟨0, none, none, none, none, none, none, [], []⟩

structure HydratedChunk where
  chunkId : ChunkId
  chunk : Chunk
  sectionId : SectionId
  sectionRow : Section
  document : Document
deriving DecidableEq

structure RetrieverLimits where
  poolLimit : Nat
  sectionChunkLimit : Nat
  neighborRadius : Nat
  rrfK : Nat

def rrf (k rank : Nat) : ℚ := 1 / (k + rank)

/-! ## The branches -/

/-- `setdefault`, and the evidence changed. -/
def recordHit (result : Table ChunkId Evidence) (id : ChunkId) (f : Evidence → Evidence) : Table ChunkId Evidence :=
  ((result.insert? id .new).getD result).modify id f

def fuseDense (k : Nat) (result : Table ChunkId Evidence) (hit : BranchHit × Nat) : Table ChunkId Evidence :=
  recordHit result hit.1.chunkId fun e =>
    { e with denseRank := some hit.2, denseScore := some hit.1.score, fusionScore := e.fusionScore + rrf k hit.2 }

def fuseSparse (k : Nat) (result : Table ChunkId Evidence) (hit : BranchHit × Nat) : Table ChunkId Evidence :=
  recordHit result hit.1.chunkId fun e =>
    { e with sparseRank := some hit.2, sparseScore := some hit.1.score, fusionScore := e.fusionScore + rrf k hit.2 }

def fuseBranches (k : Nat) (branches : BranchResults) : Table ChunkId Evidence :=
  (branches.sparse.zipIdx 1).foldl (fuseSparse k) ((branches.dense.zipIdx 1).foldl (fuseDense k) .empty)

/-! ## Hydration -/

def inScope (tenantId : TenantId) (versionIds : List VersionId) (_ : ChunkId) (chunk : Chunk) : Bool :=
  chunk.tenantId = tenantId && chunk.documentVersionId ∈ versionIds

def joinChunk (db : Db) (id : ChunkId) (chunk : Chunk) : Option HydratedChunk := do
  let sectionId ← chunk.sectionId
  let sectionRow ← db.sections.where?
    (fun _ s => s.tenantId = chunk.tenantId && s.documentVersionId = chunk.documentVersionId) sectionId
  let document ← db.documents.where? (fun _ d => d.tenantId = chunk.tenantId && d.deletedAt.isNone) chunk.documentId
  return ⟨id, chunk, sectionId, sectionRow, document⟩

def hydrateChunks (db : Db) (tenantId : TenantId) (versionIds : List VersionId) (chunkIds : List ChunkId) :
    List HydratedChunk :=
  chunkIds.filterMap fun id => (db.chunks.where? (inScope tenantId versionIds) id).bind (joinChunk db id)

/-! ## Ranks -/

/-- `haystack.find(needle)` where the needle occurs. -/
def findText (needle haystack : Text) : Nat :=
  ((List.range (haystack.length + 1)).find? fun i => needle.isPrefixOf (haystack.drop i)).getD 0

/-- The terms with their lexical forms, if these are not empty. -/
def normalizedTerms (u : Unicode) (exactTerms : List Text) : List (Text × Text) :=
  (exactTerms.map fun term => (term, normalizeLexical u term)).filter fun x => x.2 ≠ []

def matchedTerms (terms : List (Text × Text)) (chunk : Chunk) : List (Text × Text) :=
  terms.filter fun x => x.2 <:+: chunk.textLexical

def matchedBoosts (boosts : List HintBoost) (chunk : Chunk) : List Text :=
  (boosts.filter fun boost =>
    (boost.target = .inDocument ∧ chunk.documentId ∈ boost.targetIds) ∨
      (boost.target = .inSection ∧ chunk.sectionId.any (· ∈ boost.targetIds))).map (·.hint)

/-- An entry of `exact_matches` or `hint_matches`, with its place in the base order. -/
structure Match where
  chunkId : ChunkId
  count : Nat
  position : Nat
  place : Nat

def exactMatch (terms : List (Text × Text)) (x : HydratedChunk × Nat) : Option Match :=
  match matchedTerms terms x.1.chunk with
  | [] => none
  | m :: ms =>
      some ⟨x.1.chunkId, (m :: ms).length, (((m :: ms).map fun t => findText t.2 x.1.chunk.textLexical).min?).getD 0, x.2⟩

def hintMatch (boosts : List HintBoost) (x : HydratedChunk × Nat) : Option Match :=
  match matchedBoosts boosts x.1.chunk with
  | [] => none
  | m :: ms => some ⟨x.1.chunkId, (m :: ms).length, 0, x.2⟩

/-- The ids of the matches: most terms first, then the first position, the base order and the id. -/
def matchOrder (matches_ : List Match) : List ChunkId :=
  (sortBy (fun m => toLex (-(m.count : ℤ), toLex (m.position, toLex (m.place, m.chunkId)))) matches_).map (·.chunkId)

def rankIn (order : List ChunkId) (id : ChunkId) : Option Nat :=
  if id ∈ order then some (order.idxOf id + 1) else none

def rankScore (k : Nat) (rank : Option Nat) : ℚ := (rank.map (rrf k)).getD 0

/-- The best score first, then the id. -/
def scoreKey (score : ChunkId → ℚ) (h : HydratedChunk) : ℚ ×ₗ ChunkId := toLex (-score h.chunkId, h.chunkId)

def candidateFromRecord (record : HydratedChunk) (evidence : Evidence) (rank : Nat) (isNeighbor : Bool)
    (neighborOf : Option ChunkId) : RetrievalCandidate where
  chunkId := record.chunkId
  tenantId := record.chunk.tenantId
  documentId := record.chunk.documentId
  documentVersionId := record.chunk.documentVersionId
  sectionId := record.sectionId
  documentTitle := record.document.title
  sourceFilename := record.document.sourceFilename
  sectionPathOriginal := record.sectionRow.pathOriginal
  pageStart := record.chunk.pageStart
  pageEnd := record.chunk.pageEnd
  charStart := record.chunk.charStart
  charEnd := record.chunk.charEnd
  chunkIndex := record.chunk.chunkIndex
  contentSha256 := record.chunk.contentSha256
  lexicalSha256 := record.chunk.lexicalSha256
  tokenCount := record.chunk.tokenCount
  textOriginal := record.chunk.textOriginal
  textLexical := record.chunk.textLexical
  rank := rank
  fusionScore := evidence.fusionScore
  denseRank := evidence.denseRank
  denseScore := evidence.denseScore
  sparseRank := evidence.sparseRank
  sparseScore := evidence.sparseScore
  exactRank := evidence.exactRank
  hintRank := evidence.hintRank
  matchedExactTerms := evidence.matchedExactTerms
  matchedHints := evidence.matchedHints
  isNeighbor := isNeighbor
  neighborOf := neighborOf

def rankHydrated (u : Unicode) (k : Nat) (evidence : Table ChunkId Evidence) (hydrated : List HydratedChunk)
    (exactTerms : List Text) (boosts : List HintBoost) : List RetrievalCandidate :=
  let terms := normalizedTerms u exactTerms
  let found := fun id => (evidence.get? id).getD .new
  let base := (sortBy (scoreKey fun id => (found id).fusionScore) hydrated).zipIdx
  let exactOrder := matchOrder (base.filterMap (exactMatch terms))
  let hintOrder := matchOrder (base.filterMap (hintMatch boosts))
  let ranked := fun h : HydratedChunk =>
    let exactRank := rankIn exactOrder h.chunkId
    let hintRank := rankIn hintOrder h.chunkId
    { found h.chunkId with
      exactRank, hintRank
      fusionScore := (found h.chunkId).fusionScore + rankScore k exactRank + rankScore k hintRank
      matchedExactTerms := (matchedTerms terms h.chunk).map Prod.fst
      matchedHints := matchedBoosts boosts h.chunk }
  let final := sortBy (fun h => toLex (-(ranked h).fusionScore, h.chunkId)) hydrated
  (final.zipIdx 1).map fun x => candidateFromRecord x.1 (ranked x.1) x.2 false none

/-! ## The pool -/

def sectionCount (candidates : List RetrievalCandidate) (s : SectionId) : Nat :=
  candidates.countP fun c => c.sectionId = s

def capSections (limit sectionLimit : Nat) : List RetrievalCandidate → List RetrievalCandidate → List RetrievalCandidate
  | selected, [] => selected
  | selected, c :: candidates =>
      if sectionLimit ≤ sectionCount selected c.sectionId then capSections limit sectionLimit selected candidates
      else if (selected ++ [c]).length = limit then selected ++ [c]
      else capSections limit sectionLimit (selected ++ [c]) candidates

def isNear (radius : Nat) (root : RetrievalCandidate) (chunk : Chunk) : Bool :=
  chunk.sectionId = some root.sectionId && root.chunkIndex ≤ chunk.chunkIndex + radius &&
    chunk.chunkIndex ≤ root.chunkIndex + radius

def distance (root : RetrievalCandidate) (chunk : Chunk) : Nat :=
  max (root.chunkIndex - chunk.chunkIndex) (chunk.chunkIndex - root.chunkIndex)

def nearestRoot (radius : Nat) (roots : List RetrievalCandidate) (chunk : Chunk) : Option (RetrievalCandidate × Nat) :=
  (sortBy (fun x => toLex (distance x.1 chunk, x.2)) (roots.zipIdx.filter fun x => isNear radius x.1 chunk)).head?

/-- A neighbor with the keys it is sorted by. -/
structure NeighborRecord where
  rootRank : Nat
  distance : Nat
  candidate : RetrievalCandidate

def neighborRecord (radius : Nat) (roots : List RetrievalCandidate) (record : HydratedChunk) : Option NeighborRecord :=
  (nearestRoot radius roots record.chunk).map fun (root, rank) =>
    { rootRank := rank
      distance := distance root record.chunk
      candidate := candidateFromRecord record
        { Evidence.new with fusionScore := root.fusionScore, matchedHints := root.matchedHints } 0 true
        (some root.chunkId) }

def loadNeighbors (db : Db) (scope : ResolvedScope) (roots : List RetrievalCandidate) (radius : Nat)
    (excluded : List ChunkId) : List RetrievalCandidate :=
  let rows := db.chunks.select fun id chunk => inScope scope.tenantId scope.versionIds id chunk &&
    id ∉ excluded && roots.any fun root => isNear radius root chunk
  let records := (rows.filterMap fun x => joinChunk db x.1 x.2).filterMap (neighborRecord radius roots)
  (sortBy (fun r => toLex (r.rootRank, toLex (r.distance, toLex (r.candidate.chunkIndex, r.candidate.chunkId))))
    records).map (·.candidate)

def addNeighbors (poolLimit sectionLimit : Nat) :
    List RetrievalCandidate → List RetrievalCandidate → List RetrievalCandidate
  | combined, [] => combined
  | combined, c :: neighbors =>
      if poolLimit ≤ combined.length then combined
      else if sectionLimit ≤ sectionCount combined c.sectionId then addNeighbors poolLimit sectionLimit combined neighbors
      else addNeighbors poolLimit sectionLimit (combined ++ [c]) neighbors

def withRanks (candidates : List RetrievalCandidate) : List RetrievalCandidate :=
  (candidates.zipIdx 1).map fun x => { x.1 with rank := x.2 }

/-- `HybridRetriever.retrieve` with the hits that the backend returned. -/
def retrieve (u : Unicode) (limits : RetrieverLimits) (db : Db) (exactTerms : List Text) (scope : ResolvedScope)
    (branches : BranchResults) : List RetrievalCandidate :=
  let evidence := fuseBranches limits.rrfK branches
  let chunkIds := evidence.rows.map Prod.fst
  let hydrated := hydrateChunks db scope.tenantId scope.versionIds chunkIds
  let ranked := rankHydrated u limits.rrfK evidence hydrated exactTerms scope.boosts
  if ranked = [] then []
  else
    let reserve := if limits.neighborRadius = 0 then 0 else min (limits.poolLimit / 4) ranked.length
    let primaries := capSections (max 1 (limits.poolLimit - reserve)) limits.sectionChunkLimit [] ranked
    if limits.neighborRadius = 0 ∨ limits.poolLimit ≤ primaries.length then withRanks primaries
    else
      let neighbors := loadNeighbors db scope primaries limits.neighborRadius chunkIds
      withRanks (addNeighbors limits.poolLimit limits.sectionChunkLimit primaries neighbors)

end Etoeragcb.Rag
