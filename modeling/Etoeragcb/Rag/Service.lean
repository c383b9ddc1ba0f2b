import Etoeragcb.Ingest.Indexer
import Etoeragcb.Lib.Json
import Etoeragcb.Lib.Snapshot
import Etoeragcb.Rag.Retriever

/-!
# The retrieval service

`RetrievalService.retrieve` of `app/rag/service.py` behind its planning, with the queries of `MetadataResolver.resolve`
and of `HybridRetriever.retrieve` one by one. Between two queries anything may be committed.
-/

namespace Etoeragcb.Rag

open Lib Models Content Ingest

/-! ## The records -/

inductive FallbackReason
  | timeout | httpError | invalidResponse | plannerError
deriving DecidableEq

structure PlanningResult where
  plan : RetrievalPlan
  usedFallback : Bool
  fallbackReason : Option FallbackReason
deriving DecidableEq

structure RetrievalResult where
  planning : PlanningResult
  scope : ResolvedScope
  candidates : List RetrievalCandidate
  cacheHit : Bool
deriving DecidableEq

/-- What the key of a cached retrieval is made from. -/
structure RetrievalPayload where
  tenantId : TenantId
  generationId : Option GenerationId
  retrievalRevision : Nat
  plan : RetrievalPlan
  documentIds : List DocumentId
  collectionIds : List CollectionId
  embeddingRevision : Text
  retrievalSignature : Text
deriving DecidableEq

structure Store (ε : Type) where
  db : Db
  points : Table ChunkId (IndexPoint ε)

/-- What the service is made of. The hexadecimal digest, the text of an id, the embedder and the hits of a search are
parameters. The hits are assumed to depend on the points that the filter leaves and on nothing else, in particular not
on the other points of an approximate index. -/
structure RetrievalSettings (ε : Type) where
  resolver : Resolver
  limits : RetrieverLimits
  denseLimit : Nat
  sparseLimit : Nat
  embeddingRevision : Text
  retrievalSignature : Text
  sha256 : Text → Text
  uuidText : Nat → Text
  embed : Text → Except String (List ε)
  sparseLexicalVector : Text → SparseVector
  denseHits : ε → (ChunkId → Option (IndexPoint ε)) → Nat → List BranchHit
  sparseHits : SparseVector → (ChunkId → Option (IndexPoint ε)) → Nat → List BranchHit

structure RetrievalRequest where
  tenantId : TenantId
  planning : PlanningResult
  explicitDocumentIds : List DocumentId
  explicitCollectionIds : List CollectionId
deriving DecidableEq

variable {ε : Type} (settings : RetrievalSettings ε)

/-- `tuple(sorted(set(ids), key=str))` -/
def normalizedIds (ids : List Nat) : List Nat := sortedUuids ids.toFinset.val

/-! ## Resolution -/

/-- The queries of a resolution, the last one about the sections of the versions that are left. -/
def scopeOf (r : Resolver) (k : Corpus) (db : Db) (tenantId : TenantId) (tenant : Tenant) (plan : RetrievalPlan)
    (explicitDocuments : Finset DocumentId) (explicitCollections : Finset CollectionId) : ResolvedScope :=
  let allowed := explicitlyAllowed k explicitDocuments explicitCollections
  let documentOutcomes := plan.documentHints.map (documentOutcome r allowed k.entries)
  let collectionOutcomes := plan.collectionHints.map (collectionOutcome r k.collections k.rows k.members)
  let allowed := narrowed allowed documentOutcomes collectionOutcomes
  let versionIds := versionIdsOf k allowed
  let headingOutcomes := headingOutcomesIn r db tenantId versionIds plan.headingHints
  let hardSections := exactTargets headingOutcomes
  { tenantId, versionIds
    generationId := tenant.activeIndexGenerationId
    retrievalRevision := tenant.retrievalRevision
    documentIds := sortedUuids allowed.val
    sectionIds := if hardSections.Nonempty then some (sortedUuids hardSections.val) else none
    decisions := explicitDecision .document explicitDocuments ++ explicitDecision .collection explicitCollections ++
      (documentOutcomes ++ collectionOutcomes ++ headingOutcomes).map (·.decision)
    boosts := boostsOf .inDocument documentOutcomes ++ boostsOf .inDocument collectionOutcomes ++
      boostsOf .inSection headingOutcomes }

/-- `MetadataResolver.resolve`, query by query. -/
def resolveReads (r : Resolver) (tenantId : TenantId) (plan : RetrievalPlan) (explicitDocumentIds : List DocumentId)
    (explicitCollectionIds : List CollectionId) : Reads (Store ε) (Except String ResolvedScope) :=
  .ask fun s => match s.db.tenants.get? tenantId with
    | none => .done (.error "scope not found")
    | some tenant => .ask fun s =>
        let entries := manifestEntry s.db tenantId tenant.activeIndexGenerationId
        let documents := manifestDocuments s.db tenantId tenant.activeIndexGenerationId
        if ¬explicitDocumentIds.toFinset ⊆ documents then .done (.error "scope not found")
        else .ask fun s =>
          let rows := s.db.collections.where? (isLive tenantId)
          let collections := s.db.collections.keysWhere (isLive tenantId)
          if ¬explicitCollectionIds.toFinset ⊆ collections then .done (.error "scope not found")
          else .ask fun s =>
            let members := memberships s.db tenantId documents collections
            .ask fun s => .done (.ok (scopeOf r ⟨entries, documents, rows, collections, members⟩ s.db tenantId tenant plan
              explicitDocumentIds.toFinset explicitCollectionIds.toFinset))

/-! ## Search -/

def scopeFilter (scope : ResolvedScope) (_ : ChunkId) (p : IndexPoint ε) : Bool :=
  p.tenantId = scope.tenantId && p.documentVersionId ∈ scope.versionIds && p.documentId ∈ scope.documentIds &&
    scope.sectionIds.all (p.sectionId ∈ ·)

/-- `QdrantHybridSearch.query_branches` -/
def queryBranches (dense : ε) (sparse : SparseVector) (scope : ResolvedScope) : Reads (Store ε) BranchResults :=
  if scope.versionIds = [] then .done ⟨[], []⟩
  else .ask fun s =>
    let denseHits := settings.denseHits dense (s.points.where? (scopeFilter scope)) settings.denseLimit
    if sparse.indices = [] then .done ⟨denseHits, []⟩
    else .ask fun s =>
      .done ⟨denseHits, settings.sparseHits sparse (s.points.where? (scopeFilter scope)) settings.sparseLimit⟩

/-- `HybridRetriever.retrieve` behind `query_branches`. -/
def hydrateReads (exactTerms : List Text) (scope : ResolvedScope) (branches : BranchResults) :
    Reads (Store ε) (List RetrievalCandidate) :=
  let limits := settings.limits
  let evidence := fuseBranches limits.rrfK branches
  let chunkIds := evidence.rows.map Prod.fst
  .ask fun s =>
    let hydrated := hydrateChunks s.db scope.tenantId scope.versionIds chunkIds
    let ranked := rankHydrated settings.resolver.unicode limits.rrfK evidence hydrated exactTerms scope.boosts
    if ranked = [] then .done []
    else
      let reserve := if limits.neighborRadius = 0 then 0 else min (limits.poolLimit / 4) ranked.length
      let primaries := capSections (max 1 (limits.poolLimit - reserve)) limits.sectionChunkLimit [] ranked
      if limits.neighborRadius = 0 ∨ limits.poolLimit ≤ primaries.length then .done (withRanks primaries)
      else .ask fun s =>
        let neighbors := loadNeighbors s.db scope primaries limits.neighborRadius chunkIds
        .done (withRanks (addNeighbors limits.poolLimit limits.sectionChunkLimit primaries neighbors))

/-- The candidates of a scope: none without a version or for a message that asks for no knowledge. -/
def searchReads (plan : RetrievalPlan) (scope : ResolvedScope) :
    Reads (Store ε) (Except String (List RetrievalCandidate)) :=
  if plan.intent = .knowledge ∧ scope.versionIds ≠ [] then
    match settings.embed plan.query with
    | .error e => .done (.error e)
    | .ok [dense] =>
        let sparse := settings.sparseLexicalVector (normalizeLexical settings.resolver.unicode plan.query)
        (queryBranches settings dense sparse scope).bind fun branches =>
          (hydrateReads settings plan.exactTerms scope branches).bind fun candidates => .done (.ok candidates)
    | .ok _ => .done (.error "query embedder returned an invalid embedding count")
  else .done (.ok [])

/-! ## The cache -/

def cacheKey (sha256 : Text → Text) (namespace_ : Text) (payload : Json) : Text :=
  "rag:".toList ++ namespace_ ++ ":v1:".toList ++ sha256 payload.encode

def textsJson (texts : List Text) : Json := .arr (texts.map .str)

/-- `model_dump(mode="json")`, with sorted keys. -/
def planJson (plan : RetrievalPlan) : Json :=
  .obj [("collection_hints".toList, textsJson plan.collectionHints), ("document_hints".toList, textsJson plan.documentHints),
    ("exact_terms".toList, textsJson plan.exactTerms), ("heading_hints".toList, textsJson plan.headingHints),
    ("intent".toList, .str (match plan.intent with
      | .smalltalk => "smalltalk".toList
      | .metaTalk => "meta".toList
      | .knowledge => "knowledge".toList)),
    ("query".toList, .str plan.query)]

def RetrievalPayload.json (uuidText : Nat → Text) (payload : RetrievalPayload) : Json :=
  .obj [("collection_ids".toList, textsJson (payload.collectionIds.map uuidText)),
    ("document_ids".toList, textsJson (payload.documentIds.map uuidText)),
    ("embedding_revision".toList, .str payload.embeddingRevision),
    ("generation_id".toList, match payload.generationId with
      | none => .null
      | some g => .int g),
    ("plan".toList, planJson payload.plan), ("retrieval_revision".toList, .int payload.retrievalRevision),
    ("retrieval_signature".toList, .str payload.retrievalSignature),
    ("tenant_id".toList, .str (uuidText payload.tenantId))]

def retrievalKey (request : RetrievalRequest) (scope : ResolvedScope) : Text :=
  cacheKey settings.sha256 "retrieval".toList (RetrievalPayload.json settings.uuidText
    { tenantId := request.tenantId
      generationId := scope.generationId
      retrievalRevision := scope.retrievalRevision
      plan := request.planning.plan
      documentIds := normalizedIds request.explicitDocumentIds
      collectionIds := normalizedIds request.explicitCollectionIds
      embeddingRevision := settings.embeddingRevision
      retrievalSignature := settings.retrievalSignature })

/-- How far a call of `retrieve` has come. -/
inductive Retrieval (ε : Type)
  | resolving (rest : Reads (Store ε) (Except String ResolvedScope))
  | looking (scope : ResolvedScope)
  | searching (scope : ResolvedScope) (rest : Reads (Store ε) (Except String (List RetrievalCandidate)))
  | storing (result : RetrievalResult)
  | returned (result : RetrievalResult)
  | raised (detail : String)

def Retrieval.start (request : RetrievalRequest) : Retrieval ε :=
  .resolving (resolveReads settings.resolver request.tenantId request.planning.plan
    (normalizedIds request.explicitDocumentIds) (normalizedIds request.explicitCollectionIds))

/-- The cached results by their keys; what the cache holds is the dump of a result. -/
abbrev RetrievalCache := Text → Option RetrievalResult

def Retrieval.query (request : RetrievalRequest) (store : Store ε) : Retrieval ε → Option (Retrieval ε)
  | .resolving (.ask next) => some (.resolving (next store))
  | .resolving (.done (.ok scope)) => some (.looking scope)
  | .resolving (.done (.error e)) => some (.raised e)
  | .searching scope (.ask next) => some (.searching scope (next store))
  | .searching scope (.done (.ok candidates)) => some (.storing ⟨request.planning, scope, candidates, false⟩)
  | .searching _ (.done (.error e)) => some (.raised e)
  | .looking _ | .storing _ | .returned _ | .raised _ => none

/-- The lookup in the cache, which may fail. -/
def Retrieval.lookup (request : RetrievalRequest) (cache : RetrievalCache) (answers : Bool) :
    Retrieval ε → Option (Retrieval ε)
  | .looking scope =>
      match if answers then cache (retrievalKey settings request scope) else none with
      | some result => some (.returned { result with cacheHit := true })
      | none => some (.searching scope (searchReads settings request.planning.plan scope))
  | _ => none

/-- The result is cached, unless that fails or is off. -/
def Retrieval.cache (request : RetrievalRequest) (cache : RetrievalCache) (stores : Bool) :
    Retrieval ε → Option (Retrieval ε × RetrievalCache)
  | .storing result =>
      some (.returned result,
        if stores then Function.update cache (retrievalKey settings request result.scope) (some result) else cache)
  | _ => none

/-- `retrieve` without a cache on a store that nobody changes meanwhile. -/
def retrieveNow (store : Store ε) (request : RetrievalRequest) : Except String RetrievalResult := do
  let scope ← resolve settings.resolver store.db request.tenantId request.planning.plan
    (normalizedIds request.explicitDocumentIds) (normalizedIds request.explicitCollectionIds)
  let candidates ← (searchReads settings request.planning.plan scope).eval store
  return ⟨request.planning, scope, candidates, false⟩

end Etoeragcb.Rag
