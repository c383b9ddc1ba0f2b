import Etoeragcb.Rag.Lemmas.Retriever

/-!
# What the pool of a retrieval admits
-/

namespace Etoeragcb.Rag

open Lib Models Content

variable {u : Unicode} {limits : RetrieverLimits} {db : Db} {scope : ResolvedScope} {exactTerms : List Text}
  {branches : BranchResults} {limit sectionLimit radius : Nat} {selected candidates roots result : List RetrievalCandidate}
  {c : RetrievalCandidate}

/-! ## Admission -/

/-- The candidates that are taken in after `selected`. Only a full pool or a full section leaves one out. -/
structure Admits (limit sectionLimit : Nat) (selected candidates result : List RetrievalCandidate) : Prop where
  taken : ∃ taken, result = selected ++ taken ∧ taken.Sublist candidates
  length_le : result.length ≤ limit
  count_le : ∀ s, sectionCount result s ≤ sectionLimit
  left : ∀ c ∈ candidates, c ∈ result ∨ sectionLimit ≤ sectionCount result c.sectionId ∨ result.length = limit

@[simp] theorem sectionCount_append (l l' : List RetrievalCandidate) (s : SectionId) :
    sectionCount (l ++ l') s = sectionCount l s + sectionCount l' s := List.countP_append

theorem sectionCount_admit {s : SectionId} (hcount : ∀ s, sectionCount selected s ≤ sectionLimit)
    (hc : ¬sectionLimit ≤ sectionCount selected c.sectionId) : sectionCount (selected ++ [c]) s ≤ sectionLimit := by
  have hs := hcount s
  simp only [sectionCount_append]
  by_cases hcs : c.sectionId = s
  · subst hcs
    have hone : sectionCount [c] c.sectionId = 1 := by simp [sectionCount]
    omega
  · simpa [sectionCount, hcs] using hs

theorem Admits.nil (hlength : selected.length ≤ limit) (hcount : ∀ s, sectionCount selected s ≤ sectionLimit) :
    Admits limit sectionLimit selected [] selected :=
  ⟨⟨[], (List.append_nil _).symm, List.Sublist.slnil⟩, hlength, hcount, nofun⟩

theorem Admits.full (hlength : selected.length = limit) (hcount : ∀ s, sectionCount selected s ≤ sectionLimit) :
    Admits limit sectionLimit selected candidates selected :=
  ⟨⟨[], (List.append_nil _).symm, List.nil_sublist _⟩, hlength.le, hcount, fun _ _ => Or.inr (Or.inr hlength)⟩

theorem Admits.skip (hc : sectionLimit ≤ sectionCount selected c.sectionId)
    (h : Admits limit sectionLimit selected candidates result) :
    Admits limit sectionLimit selected (c :: candidates) result := by
  obtain ⟨⟨taken, rfl, hsub⟩, hlength, hcount, hleft⟩ := h
  refine ⟨⟨taken, rfl, hsub.cons c⟩, hlength, hcount, fun d hd => ?_⟩
  rcases List.mem_cons.mp hd with rfl | hd
  · right; left
    rw [sectionCount_append]
    omega
  · exact hleft d hd

theorem Admits.take (h : Admits limit sectionLimit (selected ++ [c]) candidates result) :
    Admits limit sectionLimit selected (c :: candidates) result := by
  obtain ⟨⟨taken, rfl, hsub⟩, hlength, hcount, hleft⟩ := h
  refine ⟨⟨c :: taken, by simp, hsub.cons_cons c⟩, hlength, hcount, fun d hd => ?_⟩
  rcases List.mem_cons.mp hd with rfl | hd
  · left
    simp
  · exact hleft d hd

theorem capSections_admits (hlength : selected.length < limit) (hcount : ∀ s, sectionCount selected s ≤ sectionLimit) :
    Admits limit sectionLimit selected candidates (capSections limit sectionLimit selected candidates) := by
  induction candidates generalizing selected with
  | nil => exact Admits.nil hlength.le hcount
  | cons c candidates ih =>
      rw [capSections]
      split
      · rename_i hfull
        exact (ih hlength hcount).skip hfull
      · rename_i hc
        have hcount' : ∀ s, sectionCount (selected ++ [c]) s ≤ sectionLimit := fun s => sectionCount_admit hcount hc
        split
        · rename_i hlimit
          exact (Admits.full hlimit hcount').take
        · rename_i hlimit
          have hlength' : (selected ++ [c]).length < limit := by
            simp only [List.length_append, List.length_singleton] at hlimit ⊢
            omega
          exact (ih hlength' hcount').take

theorem addNeighbors_admits (hlength : selected.length ≤ limit) (hcount : ∀ s, sectionCount selected s ≤ sectionLimit) :
    Admits limit sectionLimit selected candidates (addNeighbors limit sectionLimit selected candidates) := by
  induction candidates generalizing selected with
  | nil => exact Admits.nil hlength hcount
  | cons c candidates ih =>
      rw [addNeighbors]
      split
      · rename_i hlimit
        exact Admits.full (le_antisymm hlength hlimit) hcount
      · rename_i hlimit
        split
        · rename_i hfull
          exact (ih hlength hcount).skip hfull
        · rename_i hc
          have hlength' : (selected ++ [c]).length ≤ limit := by
            simp only [List.length_append, List.length_singleton]
            omega
          exact (ih hlength' fun s => sectionCount_admit hcount hc).take

/-! ## Stored candidates -/

/-- A candidate shows a chunk of the scope, and the document of the chunk is there. -/
structure FromScope (db : Db) (scope : ResolvedScope) (c : RetrievalCandidate) (chunk : Chunk) (document : Document) : Prop where
  row : db.chunks.get? c.chunkId = some chunk
  documentRow : db.documents.get? c.documentId = some document
  live : document.deletedAt = none
  documentTenant : document.tenantId = scope.tenantId
  tenant : c.tenantId = scope.tenantId
  version : c.documentVersionId ∈ scope.versionIds
  chunkTenant : chunk.tenantId = c.tenantId
  chunkVersion : chunk.documentVersionId = c.documentVersionId
  chunkDocument : chunk.documentId = c.documentId
  chunkSection : chunk.sectionId = some c.sectionId
  chunkIndex : chunk.chunkIndex = c.chunkIndex

theorem fromScope_of_joinChunk {id : ChunkId} {chunk : Chunk} {x : HydratedChunk} {evidence : Evidence} {rank : Nat}
    {isNeighbor : Bool} {neighborOf : Option ChunkId} (hget : db.chunks.get? id = some chunk)
    (hscope : inScope scope.tenantId scope.versionIds id chunk = true) (hjoin : joinChunk db id chunk = some x) :
    FromScope db scope (candidateFromRecord x evidence rank isNeighbor neighborOf) chunk x.document := by
  simp only [joinChunk, Option.bind_eq_bind, Option.bind_eq_some_iff, Option.pure_def, Option.some.injEq] at hjoin
  obtain ⟨sectionId, hsection, sectionRow, -, document, hdocument, rfl⟩ := hjoin
  rw [Table.where?_eq_some] at hdocument
  simp only [Bool.and_eq_true, decide_eq_true_eq, Option.isNone_iff_eq_none] at hdocument
  simp only [inScope, Bool.and_eq_true, decide_eq_true_eq] at hscope
  exact ⟨hget, hdocument.1, hdocument.2.2, hdocument.2.1.trans hscope.1, hscope.1, hscope.2, rfl, rfl, rfl, hsection, rfl⟩

theorem mem_hydrateChunks {ids : List ChunkId} {x : HydratedChunk} {tenantId : TenantId} {versionIds : List VersionId} :
    x ∈ hydrateChunks db tenantId versionIds ids ↔ ∃ id ∈ ids, ∃ chunk, db.chunks.get? id = some chunk ∧
      inScope tenantId versionIds id chunk = true ∧ joinChunk db id chunk = some x := by
  simp only [hydrateChunks, List.mem_filterMap, Option.bind_eq_some_iff, Table.where?_eq_some, and_assoc]

theorem joinChunk_row {id : ChunkId} {chunk : Chunk} {x : HydratedChunk} (h : joinChunk db id chunk = some x) :
    x.chunkId = id ∧ x.chunk = chunk ∧ chunk.sectionId = some x.sectionId := by
  simp only [joinChunk, Option.bind_eq_bind, Option.bind_eq_some_iff, Option.pure_def, Option.some.injEq] at h
  obtain ⟨_, hsection, _, -, _, -, rfl⟩ := h
  exact ⟨rfl, rfl, hsection⟩

theorem map_filterMap_sublist {α β γ : Type} {f : α → Option β} {g : β → γ} {h : α → γ} {l : List α}
    (hf : ∀ a ∈ l, ∀ b, f a = some b → g b = h a) : ((l.filterMap f).map g).Sublist (l.map h) := by
  induction l with
  | nil => exact List.Sublist.slnil
  | cons a l ih =>
      have htail := ih fun a' ha' => hf a' (List.mem_cons_of_mem a ha')
      cases ha : f a with
      | none =>
          rw [List.filterMap_cons_none ha]
          exact htail.cons _
      | some b =>
          rw [List.filterMap_cons_some ha, List.map_cons, List.map_cons, hf a List.mem_cons_self b ha]
          exact htail.cons_cons _

theorem hydrateChunks_sublist {ids : List ChunkId} {tenantId : TenantId} {versionIds : List VersionId} :
    ((hydrateChunks db tenantId versionIds ids).map (·.chunkId)).Sublist ids := by
  have hids : ∀ id ∈ ids, ∀ x, (db.chunks.where? (inScope tenantId versionIds) id).bind (joinChunk db id) = some x →
      x.chunkId = id := fun id _ x hx => by
    obtain ⟨chunk, -, hjoin⟩ := Option.bind_eq_some_iff.mp hx
    exact (joinChunk_row hjoin).1
  simpa [hydrateChunks] using map_filterMap_sublist hids

/-! ## The ranked candidates -/

theorem rankHydrated_perm {k : Nat} {evidence : Table ChunkId Evidence} {hydrated : List HydratedChunk}
    {boosts : List HintBoost} :
    ((rankHydrated u k evidence hydrated exactTerms boosts).map (·.chunkId)).Perm (hydrated.map (·.chunkId)) := by
  simp only [rankHydrated, List.map_map]
  have hfst : ∀ (l : List HydratedChunk) (f : HydratedChunk × Nat → RetrievalCandidate), (∀ x, (f x).chunkId = x.1.chunkId) →
      (l.zipIdx 1).map ((·.chunkId) ∘ f) = l.map (·.chunkId) := by
    intro l f hf
    conv_rhs => rw [← List.zipIdx_map_fst 1 l, List.map_map]
    exact List.map_congr_left fun x _ => hf x
  rw [hfst _ _ fun _ => rfl]
  exact (sortBy_perm _ hydrated).map _

def rankedCandidates (u : Unicode) (limits : RetrieverLimits) (db : Db) (exactTerms : List Text) (scope : ResolvedScope)
    (branches : BranchResults) : List RetrievalCandidate :=
  rankHydrated u limits.rrfK (fuseBranches limits.rrfK branches)
    (hydrateChunks db scope.tenantId scope.versionIds ((fuseBranches limits.rrfK branches).rows.map Prod.fst)) exactTerms
    scope.boosts

theorem rankedCandidates_sublist (u : Unicode) (limits : RetrieverLimits) (db : Db) (exactTerms : List Text)
    (scope : ResolvedScope) (branches : BranchResults) :
    ∃ ids, ids.Sublist ((fuseBranches limits.rrfK branches).rows.map Prod.fst) ∧
      ((rankedCandidates u limits db exactTerms scope branches).map (·.chunkId)).Perm ids :=
  ⟨_, hydrateChunks_sublist, rankHydrated_perm⟩

theorem mem_rankedCandidates (h : c ∈ rankedCandidates u limits db exactTerms scope branches) :
    (∃ chunk document, FromScope db scope c chunk document) ∧ c.isNeighbor = false := by
  obtain ⟨x, hx, evidence, rank, -, rfl⟩ := mem_rankHydrated h
  obtain ⟨id, -, chunk, hget, hscope, hjoin⟩ := mem_hydrateChunks.mp hx
  exact ⟨⟨chunk, x.document, fromScope_of_joinChunk hget hscope hjoin⟩, rfl⟩

/-! ## The neighbors -/

theorem nearestRoot_eq_some {chunk : Chunk} {root : RetrievalCandidate} {rank : Nat}
    (h : nearestRoot radius roots chunk = some (root, rank)) : root ∈ roots ∧ isNear radius root chunk = true := by
  have hmem := List.mem_filter.mp (mem_sortBy.mp (List.mem_of_mem_head? h))
  exact ⟨List.fst_mem_of_mem_zipIdx hmem.1, hmem.2⟩

/-- A neighbor stands in the section of its root, and is not far from it. -/
structure NeighborOf (radius : Nat) (roots : List RetrievalCandidate) (c : RetrievalCandidate) : Prop where
  root : ∃ root ∈ roots, c.neighborOf = some root.chunkId ∧ c.sectionId = root.sectionId ∧
    root.chunkIndex ≤ c.chunkIndex + radius ∧ c.chunkIndex ≤ root.chunkIndex + radius

theorem mem_loadNeighbors {excluded : List ChunkId} (h : c ∈ loadNeighbors db scope roots radius excluded) :
    (∃ chunk document, FromScope db scope c chunk document) ∧ c.chunkId ∉ excluded ∧ c.isNeighbor = true ∧
      NeighborOf radius roots c := by
  simp only [loadNeighbors, List.mem_map, mem_sortBy, List.mem_filterMap] at h
  obtain ⟨record, ⟨x, ⟨row, hrow, hjoin⟩, hrecord⟩, rfl⟩ := h
  obtain ⟨hget, hselected⟩ := Table.mem_select.mp hrow
  simp only [Bool.and_eq_true, decide_eq_true_eq] at hselected
  obtain ⟨⟨root, rank⟩, hroot, rfl⟩ := Option.map_eq_some_iff.mp hrecord
  obtain ⟨hmem, hnear⟩ := nearestRoot_eq_some hroot
  obtain ⟨hid, hchunk, hsection⟩ := joinChunk_row hjoin
  simp only [isNear, Bool.and_eq_true, decide_eq_true_eq] at hnear
  rw [hchunk, hsection, Option.some.injEq] at hnear
  have hout : x.chunkId ∉ excluded := hid ▸ hselected.1.2
  refine ⟨⟨row.2, x.document, fromScope_of_joinChunk hget hselected.1.1 hjoin⟩, hout, rfl, root, hmem, rfl,
    hnear.1.1, ?_⟩
  simp only [candidateFromRecord, hchunk]
  exact ⟨hnear.1.2, hnear.2⟩

theorem loadNeighbors_nodup {excluded : List ChunkId} :
    ((loadNeighbors db scope roots radius excluded).map (·.chunkId)).Nodup := by
  simp only [loadNeighbors, List.map_map, List.filterMap_filterMap]
  set rows := db.chunks.select fun id chunk => inScope scope.tenantId scope.versionIds id chunk &&
    id ∉ excluded && roots.any fun root => isNear radius root chunk with hrows
  have hsublist : ((rows.filterMap fun x => (joinChunk db x.1 x.2).bind (neighborRecord radius roots)).map
      (·.candidate.chunkId)).Sublist (rows.map Prod.fst) :=
    map_filterMap_sublist fun x _ n hn => neighborRecord_chunkId hn
  have hnodup : (rows.map Prod.fst).Nodup := by
    rw [hrows]
    exact db.chunks.keys_nodup.sublist (List.filter_sublist.map _)
  exact ((sortBy_perm _ _).map _).nodup_iff.mpr (hnodup.sublist hsublist)

/-! ## The retrieval -/

/-- How many of the ranked candidates are let in, so that neighbors have the rest of the pool. -/
def primaryLimit (limits : RetrieverLimits) (ranked : List RetrievalCandidate) : Nat :=
  max 1 (limits.poolLimit - if limits.neighborRadius = 0 then 0 else min (limits.poolLimit / 4) ranked.length)

/-- The pool of a retrieval: primaries that are let in by their ranks, and neighbors of them. -/
theorem retrieve_eq (u : Unicode) (db : Db) (exactTerms : List Text) (scope : ResolvedScope) (branches : BranchResults)
    (hpool : 0 < limits.poolLimit) :
    ∃ primaries added, retrieve u limits db exactTerms scope branches = withRanks (primaries ++ added) ∧
      Admits (primaryLimit limits (rankedCandidates u limits db exactTerms scope branches)) limits.sectionChunkLimit []
        (rankedCandidates u limits db exactTerms scope branches) primaries ∧
      added.Sublist (loadNeighbors db scope primaries limits.neighborRadius
        ((fuseBranches limits.rrfK branches).rows.map Prod.fst)) ∧
      (primaries ++ added).length ≤ limits.poolLimit ∧
      ∀ s, sectionCount (primaries ++ added) s ≤ limits.sectionChunkLimit := by
  set ranked := rankedCandidates u limits db exactTerms scope branches with hranked
  set primaries := capSections (primaryLimit limits ranked) limits.sectionChunkLimit [] ranked with hprimaries
  have hadmits : Admits (primaryLimit limits ranked) limits.sectionChunkLimit [] ranked primaries :=
    capSections_admits (by simp [primaryLimit]) (by simp [sectionCount])
  have hle : primaries.length ≤ limits.poolLimit := by
    refine hadmits.length_le.trans ?_
    simp only [primaryLimit]
    omega
  have halone : ∃ added, withRanks primaries = withRanks (primaries ++ added) ∧
      added.Sublist (loadNeighbors db scope primaries limits.neighborRadius
        ((fuseBranches limits.rrfK branches).rows.map Prod.fst)) ∧
      (primaries ++ added).length ≤ limits.poolLimit ∧
      ∀ s, sectionCount (primaries ++ added) s ≤ limits.sectionChunkLimit :=
    ⟨[], by rw [List.append_nil], List.nil_sublist _, by rwa [List.append_nil], by rw [List.append_nil]; exact hadmits.count_le⟩
  have hrun : retrieve u limits db exactTerms scope branches =
      if ranked = [] then [] else if limits.neighborRadius = 0 ∨ limits.poolLimit ≤ primaries.length then withRanks primaries
      else withRanks (addNeighbors limits.poolLimit limits.sectionChunkLimit primaries
        (loadNeighbors db scope primaries limits.neighborRadius ((fuseBranches limits.rrfK branches).rows.map Prod.fst))) := rfl
  refine ⟨primaries, ?_⟩
  rw [hrun]
  split
  · rename_i hnone
    have hempty : primaries = [] := by rw [hprimaries, hnone]; rfl
    obtain ⟨added, hadded, hrest⟩ := halone
    exact ⟨added, by rw [← hadded, hempty]; rfl, hadmits, hrest⟩
  · split
    · obtain ⟨added, hadded, hrest⟩ := halone
      exact ⟨added, hadded, hadmits, hrest⟩
    · obtain ⟨⟨added, hadded, hsub⟩, hlength, hcount, -⟩ := addNeighbors_admits hle hadmits.count_le
      rw [hadded]
      rw [hadded] at hlength hcount
      exact ⟨added, rfl, hadmits, hsub, hlength, hcount⟩

/-! ## Ranks -/

theorem withRanks_map {α : Type} (f : RetrievalCandidate → α) (hf : ∀ c rank, f { c with rank } = f c)
    (l : List RetrievalCandidate) : (withRanks l).map f = l.map f := by
  conv_rhs => rw [← List.zipIdx_map_fst 1 l, List.map_map]
  rw [withRanks, List.map_map]
  exact List.map_congr_left fun x _ => hf x.1 x.2

theorem withRanks_rank (l : List RetrievalCandidate) : (withRanks l).map (·.rank) = List.range' 1 l.length := by
  rw [withRanks, List.map_map, ← List.zipIdx_map_snd 1 l]
  rfl

@[simp] theorem length_withRanks (l : List RetrievalCandidate) : (withRanks l).length = l.length := by
  simp [withRanks]

theorem countP_withRanks {p : RetrievalCandidate → Bool} (hp : ∀ c rank, p { c with rank } = p c)
    (l : List RetrievalCandidate) : (withRanks l).countP p = l.countP p := by
  have hmap : ∀ l : List RetrievalCandidate, l.countP p = (l.map p).countP id := fun l => by rw [List.countP_map]; rfl
  rw [hmap, hmap, withRanks_map p hp]

theorem sectionCount_withRanks (l : List RetrievalCandidate) (s : SectionId) :
    sectionCount (withRanks l) s = sectionCount l s :=
  countP_withRanks (fun _ _ => rfl) l

theorem mem_withRanks {l : List RetrievalCandidate} : c ∈ withRanks l → ∃ x ∈ l, ∃ rank, c = { x with rank } := by
  intro h
  obtain ⟨x, hx, rfl⟩ := List.mem_map.mp h
  exact ⟨x.1, List.fst_mem_of_mem_zipIdx hx, x.2, rfl⟩

theorem withRanks_mem {l : List RetrievalCandidate} (h : c ∈ l) : ∃ rank, { c with rank } ∈ withRanks l := by
  rw [← List.zipIdx_map_fst 1 l] at h
  obtain ⟨x, hx, rfl⟩ := List.mem_map.mp h
  exact ⟨x.2, List.mem_map_of_mem hx⟩

end Etoeragcb.Rag
