import Etoeragcb.Ingest.Lemmas.View
import Etoeragcb.Rag.Lemmas.Outside
import Etoeragcb.Rag.Lemmas.Retriever
import Etoeragcb.Rag.Service

/-!
# What a retrieval sees of the store

The rows of the active manifest of a tenant, the documents and the versions that it lists, and the live collections with
those of its documents. Two stores that look the same to a tenant answer every query of a retrieval alike.
-/

namespace Etoeragcb.Rag

open Lib Models Content Ingest

variable {ε : Type} {settings : RetrievalSettings ε} {r : Resolver} {db db' : Db} {s s' : Store ε} {tenantId : TenantId}
  {tenant : Tenant} {plan : RetrievalPlan} {scope : ResolvedScope} {explicitDocumentIds : List DocumentId}
  {explicitCollectionIds : List CollectionId}

/-! ## The view -/

def ListedVersion (db : Db) (tenantId : TenantId) (v : VersionId) : Prop := ∃ d, db.listed tenantId d = some v

def ListedDocument (db : Db) (tenantId : TenantId) (d : DocumentId) : Prop := ∃ v, db.listed tenantId d = some v

structure Visible (ε : Type) where
  tenant : Option Tenant
  rows : DocumentId → Option IndexGenerationDocument
  documents : Set (DocumentId × Document)
  collections : Set (CollectionId × KnowledgeCollection)
  memberships : Set ((DocumentId × CollectionId) × TenantId)
  sections : Set (SectionId × Section)
  chunks : Set (ChunkId × Chunk)
  points : Set (ChunkId × IndexPoint ε)

def activeRows (db : Db) (tenantId : TenantId) (d : DocumentId) : Option IndexGenerationDocument :=
  (db.activeGeneration tenantId).bind fun g => db.generationDocuments.get? (g, d)

def visible (tenantId : TenantId) (s : Store ε) : Visible ε where
  tenant := s.db.tenants.get? tenantId
  rows := activeRows s.db tenantId
  documents := s.db.documents.part fun d _ => ListedDocument s.db tenantId d
  collections := s.db.collections.part fun _ c => c.tenantId = tenantId ∧ c.deletedAt = none
  memberships := s.db.documentCollections.part fun k t => t = tenantId ∧ ListedDocument s.db tenantId k.1
  sections := s.db.sections.part fun _ x => ListedVersion s.db tenantId x.documentVersionId
  chunks := s.db.chunks.part fun _ x => ListedVersion s.db tenantId x.documentVersionId
  points := s.points.part fun _ p => ListedVersion s.db tenantId p.documentVersionId

/-- The revision of the tenant, which grows whenever what it sees changes. -/
def revisionOf (tenantId : TenantId) (s : Store ε) : Nat := (s.db.retrievalRevision tenantId).getD 0

theorem listed_eq (db : Db) (tenantId : TenantId) (d : DocumentId) :
    db.listed tenantId d = (activeRows db tenantId d).map (·.documentVersionId) := by
  rw [activeRows, Option.map_bind]
  rfl

/-- The rows that the stores may differ in. -/
structure SameVisible (tenantId : TenantId) (s s' : Store ε) : Prop where
  tenant : s'.db.tenants.get? tenantId = s.db.tenants.get? tenantId
  rows : activeRows s'.db tenantId = activeRows s.db tenantId
  documents : Table.Agree (fun d _ => ListedDocument s.db tenantId d) s.db.documents s'.db.documents
  collections : Table.Agree (fun _ c => c.tenantId = tenantId ∧ c.deletedAt = none) s.db.collections s'.db.collections
  memberships : Table.Agree (fun k t => t = tenantId ∧ ListedDocument s.db tenantId k.1) s.db.documentCollections
    s'.db.documentCollections
  sections : Table.Agree (fun _ x => ListedVersion s.db tenantId x.documentVersionId) s.db.sections s'.db.sections
  chunks : Table.Agree (fun _ x => ListedVersion s.db tenantId x.documentVersionId) s.db.chunks s'.db.chunks
  points : Table.Agree (fun _ p => ListedVersion s.db tenantId p.documentVersionId) s.points s'.points

theorem listedDocument_of_rows (h : activeRows s'.db tenantId = activeRows s.db tenantId) :
    ListedDocument s'.db tenantId = ListedDocument s.db tenantId := by
  funext d
  simp only [ListedDocument, listed_eq, h]

theorem listedVersion_of_rows (h : activeRows s'.db tenantId = activeRows s.db tenantId) :
    ListedVersion s'.db tenantId = ListedVersion s.db tenantId := by
  funext v
  simp only [ListedVersion, listed_eq, h]

theorem visible_eq_iff : visible tenantId s' = visible tenantId s ↔ SameVisible tenantId s s' := by
  constructor
  · intro h
    have hrows : activeRows s'.db tenantId = activeRows s.db tenantId := congrArg Visible.rows h
    have hdocument := listedDocument_of_rows hrows
    have hversion := listedVersion_of_rows hrows
    have hdocuments := congrArg Visible.documents h
    have hmemberships := congrArg Visible.memberships h
    have hsections := congrArg Visible.sections h
    have hchunks := congrArg Visible.chunks h
    have hpoints := congrArg Visible.points h
    simp only [visible, hdocument, hversion] at hdocuments hmemberships hsections hchunks hpoints
    exact {
      tenant := congrArg Visible.tenant h
      rows := hrows
      documents := Table.part_eq_iff.mp hdocuments.symm
      collections := Table.part_eq_iff.mp (congrArg Visible.collections h).symm
      memberships := Table.part_eq_iff.mp hmemberships.symm
      sections := Table.part_eq_iff.mp hsections.symm
      chunks := Table.part_eq_iff.mp hchunks.symm
      points := Table.part_eq_iff.mp hpoints.symm }
  · intro h
    simp only [visible, listedDocument_of_rows h.rows, listedVersion_of_rows h.rows, h.tenant, h.rows,
      Table.part_eq_iff.mpr h.documents, Table.part_eq_iff.mpr h.collections, Table.part_eq_iff.mpr h.memberships,
      Table.part_eq_iff.mpr h.sections, Table.part_eq_iff.mpr h.chunks, Table.part_eq_iff.mpr h.points]

/-! ## The queries of a resolution -/

theorem manifestEntry_listed {d : DocumentId} {e : DocumentEntry}
    (h : manifestEntry db tenantId (db.activeGeneration tenantId) d = some e) :
    db.listed tenantId d = some e.versionId := by
  obtain ⟨g, v, document, hg, hrow, -, -, -, rfl⟩ := manifestEntry_eq_some.mp h
  simp [Db.listed, hg, Db.manifest, hrow]

theorem SameVisible.activeGeneration (h : SameVisible tenantId s s') :
    s'.db.activeGeneration tenantId = s.db.activeGeneration tenantId := by
  rw [Db.activeGeneration, Db.activeGeneration, h.tenant]

theorem SameVisible.manifestEntry (h : SameVisible tenantId s s') :
    manifestEntry s'.db tenantId (s.db.activeGeneration tenantId) =
      manifestEntry s.db tenantId (s.db.activeGeneration tenantId) := by
  funext d
  apply Option.ext
  intro e
  rw [manifestEntry_eq_some, manifestEntry_eq_some]
  refine exists_congr fun g => exists_congr fun v => exists_congr fun document => and_congr_right fun hg => ?_
  have hrow : s'.db.generationDocuments.get? (g, d) = s.db.generationDocuments.get? (g, d) := by
    have hrows := congrFun h.rows d
    rwa [activeRows, activeRows, h.activeGeneration, hg] at hrows
  rw [hrow]
  refine and_congr_right fun hd => and_congr_left fun _ => ?_
  exact (h.documents d document ⟨v, by simp [Db.listed, hg, Db.manifest, hd]⟩).symm

theorem SameVisible.manifestDocuments (h : SameVisible tenantId s s') :
    manifestDocuments s'.db tenantId (s.db.activeGeneration tenantId) =
      manifestDocuments s.db tenantId (s.db.activeGeneration tenantId) := by
  ext d
  rw [mem_manifestDocuments, mem_manifestDocuments, h.manifestEntry]

theorem isLive_iff {c : CollectionId} {row : KnowledgeCollection} (h : isLive tenantId c row = true) :
    row.tenantId = tenantId ∧ row.deletedAt = none := by
  simpa [isLive] using h

theorem SameVisible.memberships_manifest (h : SameVisible tenantId s s') (collections : Finset CollectionId) :
    Rag.memberships s'.db tenantId (Rag.manifestDocuments s.db tenantId (s.db.activeGeneration tenantId)) collections =
      Rag.memberships s.db tenantId (Rag.manifestDocuments s.db tenantId (s.db.activeGeneration tenantId)) collections := by
  funext c
  simp only [Rag.memberships]
  rw [h.memberships.keysWhere]
  intro k t hk
  simp only [Bool.and_eq_true, decide_eq_true_eq] at hk
  obtain ⟨e, he⟩ := mem_manifestDocuments.mp hk.1.2
  exact ⟨hk.1.1, e.versionId, manifestEntry_listed he⟩

theorem SameVisible.headingOutcomesIn (h : SameVisible tenantId s s') {versionIds : List VersionId} {hints : List Text}
    (hv : ∀ v ∈ versionIds, ListedVersion s.db tenantId v) :
    headingOutcomesIn r s'.db tenantId versionIds hints = headingOutcomesIn r s.db tenantId versionIds hints := by
  have hlisted : ∀ (i : SectionId) (row : Section), inVersions tenantId versionIds i row = true →
      ListedVersion s.db tenantId row.documentVersionId := by
    intro i row hrow
    simp only [inVersions, Bool.and_eq_true, decide_eq_true_eq] at hrow
    exact hv _ hrow.2
  simp only [Rag.headingOutcomesIn]
  rw [h.sections.where? hlisted, h.sections.keysWhere hlisted]

theorem resolved_eq_scopeOf (ds cs : Finset Nat) : resolved r db tenantId tenant plan ds cs =
    scopeOf r (corpus db tenantId tenant.activeIndexGenerationId) db tenantId tenant plan ds cs := rfl

theorem SameVisible.scopeOf_eq (h : SameVisible tenantId s s') {k : Corpus} {ds cs : Finset Nat}
    (hv : ∀ v ∈ (scopeOf r k s.db tenantId tenant plan ds cs).versionIds, ListedVersion s.db tenantId v) :
    scopeOf r k s'.db tenantId tenant plan ds cs = scopeOf r k s.db tenantId tenant plan ds cs := by
  simp only [scopeOf] at hv ⊢
  rw [h.headingOutcomesIn hv]

theorem listedVersion_of_resolved (r : Resolver) (plan : RetrievalPlan) (ds cs : Finset Nat) (ht : db.tenants.get? tenantId = some tenant) :
    ∀ v ∈ (resolved r db tenantId tenant plan ds cs).versionIds, ListedVersion db tenantId v := by
  intro v hv
  obtain ⟨d, -, g, document, hg, hrow, -⟩ := (resolved_versionIds ht).mp hv
  exact ⟨d, by simp [Db.listed, hg, Db.manifest, hrow]⟩

/-- The queries of a resolution are steady, and at one time they amount to the resolution. -/
theorem resolveReads_spec (r : Resolver) (tenantId : TenantId) (plan : RetrievalPlan)
    (explicitDocumentIds : List DocumentId) (explicitCollectionIds : List CollectionId) (s : Store ε) :
    (resolveReads r tenantId plan explicitDocumentIds explicitCollectionIds).Steady (visible tenantId) s ∧
      (resolveReads r tenantId plan explicitDocumentIds explicitCollectionIds).eval s =
        resolve r s.db tenantId plan explicitDocumentIds explicitCollectionIds := by
  cases ht : s.db.tenants.get? tenantId with
  | none =>
      refine ⟨⟨fun s' hv => ?_, ?_⟩, ?_⟩
      · simp only [(visible_eq_iff.mp hv).tenant]
      · simp only [ht]
        trivial
      · simp only [resolveReads, Reads.eval, ht, resolve, orRaise]
        rfl
  | some tenant =>
      have hg : tenant.activeIndexGenerationId = s.db.activeGeneration tenantId := by simp [Db.activeGeneration, ht]
      constructor
      · refine ⟨fun s' hv => ?_, ?_⟩
        · simp only [(visible_eq_iff.mp hv).tenant]
        simp only [ht, hg]
        refine ⟨fun s' hv => ?_, Reads.Steady.ite (fun _ => trivial) fun _ => ?_⟩
        · simp only [(visible_eq_iff.mp hv).manifestEntry, (visible_eq_iff.mp hv).manifestDocuments]
        refine ⟨fun s' hv => ?_, Reads.Steady.ite (fun _ => trivial) fun _ => ?_⟩
        · have h := visible_eq_iff.mp hv
          simp only [h.collections.where? (p := isLive tenantId) fun _ _ => isLive_iff,
            h.collections.keysWhere (p := isLive tenantId) fun _ _ => isLive_iff]
        refine ⟨fun s' hv => ?_, ?_⟩
        · simp only [(visible_eq_iff.mp hv).memberships_manifest]
        refine ⟨fun s' hv => ?_, trivial⟩
        have h := visible_eq_iff.mp hv
        have hversions := listedVersion_of_resolved r plan explicitDocumentIds.toFinset explicitCollectionIds.toFinset ht
        rw [resolved_eq_scopeOf, hg] at hversions
        exact congrArg (fun scope => Reads.done (Except.ok scope)) (h.scopeOf_eq hversions)
      · simp only [resolveReads, Reads.eval, ht, Reads.eval_ite]
        simp only [resolve, orRaise, ht, corpus, bind, Except.bind]
        rfl

/-! ## The queries of a search -/

/-- A chunk belongs to the document of its version. -/
def Grounded (db : Db) : Prop :=
  ∀ id chunk, db.chunks.get? id = some chunk → ∃ row, db.versions.get? chunk.documentVersionId = some row ∧
    row.documentId = chunk.documentId

theorem Grounded.listedDocument (hg : Grounded db) (hs : (view db).Sound) {id : ChunkId} {chunk : Chunk}
    (hc : db.chunks.get? id = some chunk) (hv : ListedVersion db tenantId chunk.documentVersionId) :
    ListedDocument db tenantId chunk.documentId := by
  obtain ⟨row, hrow, he⟩ := hg id chunk hc
  obtain ⟨d, hd⟩ := hv
  obtain ⟨g, -, hm⟩ := Option.bind_eq_some_iff.mp hd
  obtain ⟨r, hr, hrv⟩ := Option.map_eq_some_iff.mp hm
  obtain ⟨rv, hrv', hdocument⟩ := hs.row_version (g := g) (d := d) hr
  rw [hrv, view_version hrow] at hrv'
  cases hrv'
  refine ⟨chunk.documentVersionId, ?_⟩
  rw [← he, show row.documentId = d from hdocument]
  exact hd

theorem SameVisible.chunks_where (h : SameVisible tenantId s s') {versionIds : List VersionId}
    (hv : ∀ v ∈ versionIds, ListedVersion s.db tenantId v) :
    s'.db.chunks.where? (inScope tenantId versionIds) = s.db.chunks.where? (inScope tenantId versionIds) := by
  rw [h.chunks.where?]
  intro _ chunk hc
  simp only [inScope, Bool.and_eq_true, decide_eq_true_eq] at hc
  exact hv _ hc.2

theorem SameVisible.joinChunk_eq (h : SameVisible tenantId s s') {id : ChunkId} {chunk : Chunk}
    (hv : ListedVersion s.db tenantId chunk.documentVersionId) (hd : ListedDocument s.db tenantId chunk.documentId) :
    joinChunk s'.db id chunk = joinChunk s.db id chunk := by
  have hdocument : s'.db.documents.get? chunk.documentId = s.db.documents.get? chunk.documentId :=
    Option.ext fun row => (h.documents chunk.documentId row hd).symm
  simp only [joinChunk]
  rw [h.sections.where?]
  · simp only [Table.where?, hdocument]
  · intro _ row hrow
    simp only [Bool.and_eq_true, decide_eq_true_eq] at hrow
    rw [hrow.2]
    exact hv

theorem SameVisible.hydrateChunks_eq (h : SameVisible tenantId s s') (hg : Grounded s.db) (hs : (view s.db).Sound)
    {versionIds : List VersionId} (hv : ∀ v ∈ versionIds, ListedVersion s.db tenantId v) (chunkIds : List ChunkId) :
    hydrateChunks s'.db tenantId versionIds chunkIds = hydrateChunks s.db tenantId versionIds chunkIds := by
  simp only [hydrateChunks, h.chunks_where hv]
  refine List.filterMap_congr fun id _ => Option.bind_congr fun chunk hchunk => ?_
  obtain ⟨hget, hin⟩ := Table.where?_eq_some.mp hchunk
  simp only [inScope, Bool.and_eq_true, decide_eq_true_eq] at hin
  have hlisted := hv _ hin.2
  exact h.joinChunk_eq hlisted (hg.listedDocument hs hget hlisted)

theorem SameVisible.loadNeighbors_eq (h : SameVisible scope.tenantId s s') (hg : Grounded s.db)
    (hs : (view s.db).Sound) (hv : ∀ v ∈ scope.versionIds, ListedVersion s.db scope.tenantId v)
    (roots : List RetrievalCandidate) (radius : Nat) (excluded : List ChunkId) :
    loadNeighbors s'.db scope roots radius excluded = loadNeighbors s.db scope roots radius excluded := by
  refine (loadNeighbors_congr (fun id chunk hc => ?_) fun id chunk hget hc => ?_).symm
  · simp only [inScope, Bool.and_eq_true, decide_eq_true_eq] at hc
    exact h.chunks id chunk (hv _ hc.2)
  · simp only [inScope, Bool.and_eq_true, decide_eq_true_eq] at hc
    have hlisted := hv _ hc.2
    exact (h.joinChunk_eq hlisted (hg.listedDocument hs hget hlisted)).symm

theorem SameVisible.points_where (h : SameVisible scope.tenantId s s')
    (hv : ∀ v ∈ scope.versionIds, ListedVersion s.db scope.tenantId v) :
    s'.points.where? (scopeFilter scope) = s.points.where? (scopeFilter scope) := by
  rw [h.points.where?]
  intro _ p hp
  simp only [scopeFilter, Bool.and_eq_true, decide_eq_true_eq] at hp
  exact hv _ hp.1.1.2

theorem queryBranches_steady (hv : ∀ v ∈ scope.versionIds, ListedVersion s.db scope.tenantId v) (dense : ε)
    (sparse : SparseVector) : (queryBranches settings dense sparse scope).Steady (visible scope.tenantId) s := by
  refine Reads.Steady.ite (fun _ => trivial) fun _ => ⟨fun s' h => ?_, Reads.Steady.ite (fun _ => trivial) fun _ =>
    ⟨fun s' h => ?_, trivial⟩⟩
  · simp only [(visible_eq_iff.mp h).points_where hv]
  · simp only [(visible_eq_iff.mp h).points_where hv]

theorem hydrateReads_steady (hg : Grounded s.db) (hs : (view s.db).Sound)
    (hv : ∀ v ∈ scope.versionIds, ListedVersion s.db scope.tenantId v) (exactTerms : List Text)
    (branches : BranchResults) :
    (hydrateReads settings exactTerms scope branches).Steady (visible scope.tenantId) s := by
  refine ⟨fun s' h => ?_, Reads.Steady.ite (fun _ => trivial) fun _ => Reads.Steady.ite (fun _ => trivial) fun _ =>
    ⟨fun s' h => ?_, trivial⟩⟩
  · simp only [(visible_eq_iff.mp h).hydrateChunks_eq hg hs hv]
  · simp only [(visible_eq_iff.mp h).loadNeighbors_eq hg hs hv]

theorem searchReads_steady (hg : Grounded s.db) (hs : (view s.db).Sound)
    (hv : ∀ v ∈ scope.versionIds, ListedVersion s.db scope.tenantId v) :
    (searchReads settings plan scope).Steady (visible scope.tenantId) s := by
  refine Reads.Steady.ite (fun _ => ?_) fun _ => trivial
  cases settings.embed plan.query with
  | error e => trivial
  | ok vectors =>
      cases vectors with
      | nil => trivial
      | cons dense vectors =>
          cases vectors with
          | nil =>
              exact Reads.Steady.bind (queryBranches_steady hv dense _)
                (Reads.Steady.bind (hydrateReads_steady hg hs hv _ _) trivial)
          | cons _ _ => trivial

end Etoeragcb.Rag
