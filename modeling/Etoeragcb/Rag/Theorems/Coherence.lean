import Etoeragcb.Ingest.Theorems
import Etoeragcb.Rag.Lemmas.Coherence
import Etoeragcb.Rag.Theorems

/-!
# The cache of retrievals is coherent
-/

namespace Etoeragcb.Rag

open Lib Models Ingest Collections

variable {ε : Type} {deployment : DeploymentSettings ε} {tenants : Table TenantId Tenant} {s : Deployment ε}

/-- Whatever is committed between the queries of a call, and whether its result comes from the cache or not: as long as
the tenant has the revision of its scope, the scope and the candidates are those of a call now. -/
theorem retrieve_coherent (hf : Faithful deployment.toRetrievalSettings) (ht : Untouched tenants)
    (h : Run (deploymentStep deployment) (fun s a => careful s a) (.fresh tenants) s) {q : RetrievalId}
    {request : RetrievalRequest} {result : RetrievalResult}
    (hq : s.retrievals q = some (request, .returned result))
    (hr : s.db.retrievalRevision request.tenantId = some result.scope.retrievalRevision) :
    result.planning.plan = request.planning.plan ∧
      retrieveNow deployment.toRetrievalSettings s.store request =
        .ok { result with planning := request.planning, cacheHit := false } := by
  have hagrees : Agrees deployment.toRetrievalSettings request result s.store :=
    (coherent_of_run hf ht h).calls q request _ hq
  have hrevision : revisionOf request.tenantId s.store = result.scope.retrievalRevision := by
    simp only [revisionOf, Deployment.store, hr, Option.getD_some]
  exact ⟨hagrees.plan, (hagrees.current.2 hrevision).retrieveNow⟩

def sampleSettings : DeploymentSettings Unit where
  resolver := sampleResolver
  limits := ⟨8, 4, 0, 60⟩
  denseLimit := 4
  sparseLimit := 4
  embeddingRevision := "e1".toList
  retrievalSignature := "rrf60-v1".toList
  sha256 := id
  uuidText := decimal
  embed := fun _ => .ok [()]
  sparseLexicalVector := fun _ => ⟨[], []⟩
  denseHits := fun _ points _ => ([90, 91].filter fun i => (points i).isSome).map fun i => ⟨i, 1⟩
  sparseHits := fun _ _ _ => []
  heartbeatTimeout := 60
  lower := id
  versionOfChunk := fun i => i - 20

theorem faithful_sampleSettings : Faithful sampleSettings.toRetrievalSettings where
  sha256 := fun _ _ h => h
  uuidText := fun m n h => by
    have hdecimal := congrArg ofDecimal (show decimal m = decimal n from h)
    rwa [ofDecimal_decimal, ofDecimal_decimal] at hdecimal

def sampleRequest : RetrievalRequest where
  tenantId := 1
  planning := ⟨⟨.knowledge, "text".toList, [], [], [], []⟩, false, none⟩
  explicitDocumentIds := []
  explicitCollectionIds := []

def queries (q : RetrievalId) (n : Nat) : List (DeploymentAction Unit) := List.replicate n (.query q)

/-- A collection is made during the first call: the second one misses its result, and the third one finds the second's. -/
def cachedRun : List (DeploymentAction Unit) :=
  [.archive (.ingest (.upload 1 7 [] [] [] 70 700 0)), .archive (.ingest (.start 0 700 1)), .archive (.parse 0),
    .archive (persistOne 0 90 2), .clearPoints 0, .upsertPoints 0 [(90, ⟨(), ⟨[], []⟩, 1, 7, 70, 90⟩)],
    .archive (.ingest (.markReady 0 3)), .archive (.ingest (.activate 0 4)), .retrieve 0 sampleRequest] ++
  queries 0 6 ++ [.lookup 0 true, .collection (.create 1 5 ['c'])] ++ queries 0 3 ++
  [.cache 0 true, .retrieve 1 sampleRequest] ++ queries 1 6 ++ [.lookup 1 true] ++ queries 1 3 ++
  [.cache 1 true, .retrieve 2 sampleRequest] ++ queries 2 6 ++ [.lookup 2 true]

def Deployment.returned (d : Deployment ε) (q : RetrievalId) : Option (RetrievalRequest × RetrievalResult) :=
  match d.retrievals q with
  | some (request, .returned result) => some (request, result)
  | _ => none

theorem Deployment.returned_eq_some {d : Deployment ε} {q : RetrievalId} {request : RetrievalRequest}
    {result : RetrievalResult} (h : d.returned q = some (request, result)) :
    d.retrievals q = some (request, .returned result) := by
  unfold returned at h
  split at h
  · rename_i hq
    obtain ⟨rfl, rfl⟩ := Prod.mk.inj (Option.some.inj h)
    exact hq
  · cases h

theorem retrieve_coherent_cached : ∃ s result,
    exec (deploymentStep sampleSettings) (fun s a => careful s a) (.fresh oneTenant) cachedRun = some s ∧
      s.retrievals 2 = some (sampleRequest, .returned result) ∧ result.cacheHit = true ∧
      result.candidates.map (·.chunkId) = [90] ∧ result.planning.plan = sampleRequest.planning.plan ∧
      retrieveNow sampleSettings.toRetrievalSettings s.store sampleRequest =
        .ok { result with planning := sampleRequest.planning, cacheHit := false } := by
  have hrun : (exec (deploymentStep sampleSettings) (fun s a => careful s a) (.fresh oneTenant) cachedRun).bind (fun s =>
      (s.returned 2).map fun x => (x.1, x.2.cacheHit, x.2.candidates.map (·.chunkId),
        decide (s.db.retrievalRevision 1 = some x.2.scope.retrievalRevision))) =
      some (sampleRequest, true, [90], true) := by decide +kernel
  obtain ⟨s, hs, he⟩ := Option.bind_eq_some_iff.mp hrun
  obtain ⟨⟨request, result⟩, hresult, he⟩ := Option.map_eq_some_iff.mp he
  simp only [Prod.mk.injEq] at he
  obtain ⟨rfl, hhit, hcandidates, hrevision⟩ := he
  have hreturned := Deployment.returned_eq_some hresult
  obtain ⟨hplan, hnow⟩ := retrieve_coherent faithful_sampleSettings oneTenant_untouched (Run.of_exec hs) hreturned
    (of_decide_eq_true hrevision)
  exact ⟨s, result, hs, hreturned, hhit, hcandidates, hplan, hnow⟩

end Etoeragcb.Rag
