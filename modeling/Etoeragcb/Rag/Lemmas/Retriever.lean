import Etoeragcb.Rag.Lemmas.Scope
import Etoeragcb.Rag.Retriever

/-!
# What a retrieval reads
-/

namespace Etoeragcb.Rag

open Lib Models Content

variable {u : Unicode} {r : Resolver} {limits : RetrieverLimits} {db db' : Db} {tenantId : TenantId}
  {plan : RetrievalPlan} {explicitDocumentIds : List DocumentId} {explicitCollectionIds : List CollectionId}
  {scope : ResolvedScope} {branches : BranchResults} {exactTerms : List Text} {roots : List RetrievalCandidate}

theorem inScope_tenant {versionIds : List VersionId} {id : ChunkId} {chunk : Chunk}
    (h : inScope tenantId versionIds id chunk = true) : chunk.tenantId = tenantId := by
  simp only [inScope, Bool.and_eq_true, decide_eq_true_eq] at h
  exact h.1

/-! ## Rows of one tenant -/

theorem SameRows.joinChunk (h : SameRows tenantId db db') {id : ChunkId} {chunk : Chunk}
    (ht : chunk.tenantId = tenantId) : joinChunk db id chunk = joinChunk db' id chunk := by
  simp only [Rag.joinChunk]
  rw [h.sections.where?, h.documents.where?]
  · intro _ document hd
    simp only [Bool.and_eq_true, decide_eq_true_eq] at hd
    rw [hd.1, ht]
  · intro _ row hr
    simp only [Bool.and_eq_true, decide_eq_true_eq] at hr
    rw [hr.1, ht]

theorem SameRows.hydrateChunks (h : SameRows tenantId db db') (versionIds : List VersionId) (chunkIds : List ChunkId) :
    hydrateChunks db tenantId versionIds chunkIds = hydrateChunks db' tenantId versionIds chunkIds := by
  simp only [Rag.hydrateChunks]
  rw [h.chunks.where? fun _ _ => inScope_tenant]
  refine List.filterMap_congr fun id _ => Option.bind_congr fun chunk hchunk => ?_
  exact h.joinChunk (inScope_tenant (Table.where?_eq_some.mp hchunk).2)

theorem neighborRecord_chunkId {radius : Nat} {id : ChunkId} {chunk : Chunk} {n : NeighborRecord}
    (h : (joinChunk db id chunk).bind (neighborRecord radius roots) = some n) : n.candidate.chunkId = id := by
  simp only [joinChunk, Option.bind_eq_bind, Option.bind_eq_some_iff, Option.pure_def, Option.some.injEq] at h
  obtain ⟨_, ⟨_, -, _, -, _, -, rfl⟩, h⟩ := h
  simp only [neighborRecord, Option.map_eq_some_iff] at h
  obtain ⟨_, -, rfl⟩ := h
  rfl

theorem loadNeighbors_congr {radius : Nat} {excluded : List ChunkId}
    (hchunks : Table.Agree (fun id chunk => inScope scope.tenantId scope.versionIds id chunk = true) db.chunks db'.chunks)
    (hjoin : ∀ id chunk, db.chunks.get? id = some chunk → inScope scope.tenantId scope.versionIds id chunk = true →
      joinChunk db id chunk = joinChunk db' id chunk) :
    loadNeighbors db scope roots radius excluded = loadNeighbors db' scope roots radius excluded := by
  simp only [loadNeighbors, List.filterMap_filterMap]
  set p : ChunkId → Chunk → Bool := fun id chunk => inScope scope.tenantId scope.versionIds id chunk &&
    id ∉ excluded && roots.any fun root => isNear radius root chunk with hp
  have hin : ∀ id chunk, p id chunk = true → inScope scope.tenantId scope.versionIds id chunk = true := by
    intro id chunk hc
    simp only [hp, Bool.and_eq_true] at hc
    exact hc.1.1
  have hrecords : ((db.chunks.select p).filterMap fun x => (joinChunk db x.1 x.2).bind (neighborRecord radius roots)).Perm
      ((db'.chunks.select p).filterMap fun x => (joinChunk db' x.1 x.2).bind (neighborRecord radius roots)) := by
    refine ((hchunks.select_perm hin).filterMap _).trans (List.Perm.of_eq (List.filterMap_congr fun x hx => ?_))
    obtain ⟨hrow, hx⟩ := Table.mem_select.mp hx
    rw [hjoin x.1 x.2 ((hchunks x.1 x.2 (hin x.1 x.2 hx)).mpr hrow) (hin x.1 x.2 hx)]
  congr 1
  refine sortBy_congr_perm hrecords ?_
  intro a ha b hb hkey
  obtain ⟨x, hx, hxa⟩ := List.mem_filterMap.mp ha
  obtain ⟨y, hy, hyb⟩ := List.mem_filterMap.mp hb
  simp only [toLex_inj, Prod.mk.injEq, neighborRecord_chunkId hxa, neighborRecord_chunkId hyb] at hkey
  have hrow := (Table.mem_select.mp hx).1.symm.trans ((congrArg _ hkey.2.2.2).trans (Table.mem_select.mp hy).1)
  have hxy : x = y := Prod.ext hkey.2.2.2 (Option.some.inj hrow)
  rw [hxy, hyb] at hxa
  exact (Option.some.inj hxa).symm

theorem SameRows.loadNeighbors (h : SameRows scope.tenantId db db') (roots : List RetrievalCandidate) (radius : Nat)
    (excluded : List ChunkId) :
    loadNeighbors db scope roots radius excluded = loadNeighbors db' scope roots radius excluded :=
  loadNeighbors_congr (fun id chunk hc => h.chunks id chunk (inScope_tenant hc))
    fun _ _ _ hc => h.joinChunk (inScope_tenant hc)

theorem SameRows.retrieve (h : SameRows scope.tenantId db db') :
    retrieve u limits db exactTerms scope branches = retrieve u limits db' exactTerms scope branches := by
  simp only [Rag.retrieve, h.hydrateChunks, h.loadNeighbors]

/-! ## Exact terms -/

theorem mem_rankHydrated {k : Nat} {evidence : Table ChunkId Evidence} {hydrated : List HydratedChunk}
    {boosts : List HintBoost} {c : RetrievalCandidate} (h : c ∈ rankHydrated u k evidence hydrated exactTerms boosts) :
    ∃ x ∈ hydrated, ∃ e rank, e.matchedExactTerms = (matchedTerms (normalizedTerms u exactTerms) x.chunk).map Prod.fst ∧
      c = candidateFromRecord x e rank false none := by
  simp only [rankHydrated, List.mem_map] at h
  obtain ⟨⟨x, i⟩, hx, rfl⟩ := h
  exact ⟨x, mem_sortBy.mp (List.fst_mem_of_mem_zipIdx hx), _, i, rfl, rfl⟩

theorem mem_matchedTerms {chunk : Chunk} {term : Text} (ht : term ∈ exactTerms)
    (hne : normalizeLexical u term ≠ []) (hin : normalizeLexical u term <:+: chunk.textLexical) :
    term ∈ (matchedTerms (normalizedTerms u exactTerms) chunk).map Prod.fst := by
  simp only [matchedTerms, normalizedTerms, List.mem_map, List.mem_filter, decide_eq_true_eq]
  exact ⟨(term, normalizeLexical u term), ⟨⟨⟨term, ht, rfl⟩, hne⟩, hin⟩, rfl⟩

end Etoeragcb.Rag
