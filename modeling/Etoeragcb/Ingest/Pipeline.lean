import Etoeragcb.Lib.Result
import Etoeragcb.Models.Content

/-!
# The committed transactions of ingestion

The transactions of `app/ingest/jobs.py`, `tombstone_document` of `app/ingest/reconcile.py` and the rows that
`app/documents/routes.py` commits for an upload. Each is a function of the database: it returns the
database it commits, or the text of the error that rolls it back.
-/

namespace Etoeragcb.Ingest

open Lib Models

/-! ## Index generations -/

def latest {ρ : Type} (rows : List (Nat × ρ)) : Option (Nat × ρ) :=
  rows.foldl (fun best x => match best with
    | none => some x
    | some b => if b.1 < x.1 then some x else some b) none

/-- The key that an autoincrementing column gives to the next row. -/
def nextKey {ρ : Type} (t : Table Nat ρ) : Nat := (t.rows.map Prod.fst).foldr max 0 + 1

/-- The rows that `_copy_manifest` selects, moved to the target generation. -/
def copiedRows (rows : Table (GenerationId × DocumentId) IndexGenerationDocument) (source : GenerationId)
    (target : GenerationId) (tenantId : TenantId) (excludeDocumentId : DocumentId) :
    List ((GenerationId × DocumentId) × IndexGenerationDocument) :=
  (rows.select fun k r => k.1 = source && r.tenantId = tenantId && k.2 ≠ excludeDocumentId).map
    fun x => ((target, x.1.2), ⟨tenantId, x.2.documentVersionId⟩)

def copyManifest (rows : Table (GenerationId × DocumentId) IndexGenerationDocument)
    (source : Option GenerationId) (target : GenerationId) (tenantId : TenantId)
    (excludeDocumentId : DocumentId) :
    Except String (Table (GenerationId × DocumentId) IndexGenerationDocument) :=
  match source with
  | none => .ok rows
  | some source =>
      orRaise (rows.insertAll? (copiedRows rows source target tenantId excludeDocumentId)) "IntegrityError"

def dropManifest (rows : Table (GenerationId × DocumentId) IndexGenerationDocument) (g : GenerationId) :
    Table (GenerationId × DocumentId) IndexGenerationDocument :=
  rows.delete fun k _ => k.1 = g

/-- `_copy_manifest` without the document, followed by the row of its new version. -/
def buildManifest (rows : Table (GenerationId × DocumentId) IndexGenerationDocument)
    (source : Option GenerationId) (target : GenerationId) (tenantId : TenantId)
    (documentId : DocumentId) (row : IndexGenerationDocument) :
    Except String (Table (GenerationId × DocumentId) IndexGenerationDocument) := do
  let rows ← copyManifest rows source target tenantId documentId
  orRaise (rows.insert? (target, documentId) row) "IntegrityError"

/-! ## `IngestionPipeline` -/

/-- What a run of `process` keeps of the job, the version and the document that `_start` returns. The
attempt tells the claims of one job apart. -/
structure Claim where
  jobId : JobId
  versionId : VersionId
  tenantId : TenantId
  attempt : Nat
deriving DecidableEq

/-- A job that is processing with a heartbeat younger than the timeout. -/
def leaseHeld (heartbeatTimeout : Nat) (job : IngestionJob) (now : Time) : Bool :=
  job.status = .processing && job.heartbeatAt.any fun at_ => now ≤ at_ + heartbeatTimeout

/-- The rows that `_start` writes when it takes a job. -/
def claimed (db : Db) (jobId : JobId) (versionId : VersionId) (now : Time) : Db :=
  { db with
    jobs := db.jobs.modify jobId fun j =>
      { j with status := .processing, attempt := j.attempt + 1, heartbeatAt := some now, error := none }
    versions := db.versions.modify versionId fun v =>
      { v with status := .processing, errorCode := none, errorDetail := none } }

/-- `_start`; `none` when the job is left alone. -/
def start (heartbeatTimeout : Nat) (db : Db) (jobId : JobId) (now : Time) :
    Except String (Db × Option Claim) := do
  let job ← orRaise (db.jobs.get? jobId) "ingestion job does not exist"
  let version ← orRaise ((db.versions.get? job.documentVersionId).filter (·.tenantId = job.tenantId))
    "document version does not exist"
  let _ ← orRaise ((db.documents.get? version.documentId).filter (·.tenantId = version.tenantId))
    "document does not exist"
  if job.status = .succeeded then
    return (db, none)
  else if leaseHeld heartbeatTimeout job now then
    return (db, none)
  else
    return (claimed db jobId job.documentVersionId now,
      some ⟨jobId, job.documentVersionId, version.tenantId, job.attempt + 1⟩)

structure BuiltSection where
  id : SectionId
  parentId : Option SectionId
  headingLexical : Text
  pathOriginal : Text
  pathLexical : Text
deriving DecidableEq

structure BuiltChunk where
  id : ChunkId
  sectionId : SectionId
  chunkIndex : Nat
  pageStart : Nat
  pageEnd : Nat
  charStart : Nat
  charEnd : Nat
  contentSha256 : Text
  lexicalSha256 : Text
  tokenCount : Nat
  textOriginal : Text
  textLexical : Text
deriving DecidableEq

def sectionRow (versionId : VersionId) (version : DocumentVersion) (s : BuiltSection) :
    SectionId × Section :=
  (s.id, ⟨version.tenantId, version.documentId, versionId, s.parentId, s.headingLexical,
    s.pathOriginal, s.pathLexical⟩)

def chunkRow (versionId : VersionId) (version : DocumentVersion) (c : BuiltChunk) : ChunkId × Chunk :=
  (c.id, ⟨version.tenantId, version.documentId, versionId, some c.sectionId, c.chunkIndex, c.pageStart,
    c.pageEnd, c.charStart, c.charEnd, c.contentSha256, c.lexicalSha256, c.tokenCount, c.textOriginal,
    c.textLexical⟩)

/-- The preparing generation of a version that a former run left behind. -/
def priorGeneration (db : Db) (versionId : VersionId) : Option (GenerationId × IndexGeneration) :=
  latest (db.generations.select fun _ g =>
    g.changedDocumentVersionId = some versionId && g.status = .preparing)

/-- The generation that `_persist_staged_content` fills: the one left behind, emptied and based on the
active one, or a new one. -/
def prepareGeneration (db : Db) (tenant : Tenant) (versionId : VersionId) (version : DocumentVersion) :
    Except String (Db × GenerationId) :=
  match priorGeneration db versionId with
  | none => do
      let g := nextKey db.generations
      let generations ← orRaise (db.generations.insert? g {
        tenantId := version.tenantId
        reason := "document_upload"
        changedDocumentVersionId := some versionId
        parentGenerationId := tenant.activeIndexGenerationId
        status := .preparing
        retrievalRevision := tenant.retrievalRevision + 1
        activatedAt := none }) "IntegrityError"
      return ({ db with generations }, g)
  | some (g, _) =>
      return ({ db with
        generationDocuments := dropManifest db.generationDocuments g
        generations := db.generations.modify g fun r => { r with
          parentGenerationId := tenant.activeIndexGenerationId
          retrievalRevision := tenant.retrievalRevision + 1 } }, g)

/-- The version and job rows that `_persist_staged_content` writes. -/
def persisted (db : Db) (c : Claim) (g : GenerationId) (pageCount sectionCount chunkCount : Nat)
    (now : Time) : Db :=
  { db with
    versions := db.versions.modify c.versionId fun v => { v with
      status := .processing, pageCount, sectionCount, chunkCount, indexGenerationId := some g }
    jobs := db.jobs.modify c.jobId fun j => { j with heartbeatAt := some now } }

/-- `_persist_staged_content`: the content of the version is replaced, and a generation that lists the
version is prepared from the active one. -/
def persistStagedContent (db : Db) (c : Claim) (sections : List BuiltSection) (chunks : List BuiltChunk)
    (pageCount : Nat) (now : Time) : Except String (Db × GenerationId × List CollectionId) := do
  let tenant ← orRaise (db.tenants.get? c.tenantId) "ingestion state disappeared"
  let version ← orRaise (db.versions.get? c.versionId) "ingestion state disappeared"
  let _ ← orRaise (db.jobs.get? c.jobId) "ingestion state disappeared"
  let keptChunks := db.chunks.delete fun _ r => r.documentVersionId = c.versionId
  let keptSections := db.sections.delete fun _ r => r.documentVersionId = c.versionId
  let (db, g) ← prepareGeneration db tenant c.versionId version
  let generationDocuments ← buildManifest db.generationDocuments tenant.activeIndexGenerationId g
    c.tenantId version.documentId ⟨version.tenantId, c.versionId⟩
  let newSections ← orRaise (keptSections.insertAll? (sections.map (sectionRow c.versionId version)))
    "IntegrityError"
  let newChunks ← orRaise (keptChunks.insertAll? (chunks.map (chunkRow c.versionId version)))
    "IntegrityError"
  let db := { db with sections := newSections, chunks := newChunks, generationDocuments }
  return (persisted db c g pageCount sections.length chunks.length now,
    g, (db.documentCollections.select fun k t =>
      k.1 = version.documentId && t = version.tenantId).map fun x => x.1.2)

def readied (db : Db) (c : Claim) (now : Time) : Db :=
  { db with
    versions := db.versions.modify c.versionId fun v => { v with status := .ready }
    jobs := db.jobs.modify c.jobId fun j => { j with heartbeatAt := some now } }

def markReady (db : Db) (c : Claim) (now : Time) : Except String Db := do
  let _ ← orRaise (db.versions.get? c.versionId) "ingestion state disappeared before validation"
  let job ← orRaise (db.jobs.get? c.jobId) "ingestion state disappeared before validation"
  if job.status = .succeeded then
    return db
  else
    return readied db c now

/-- The manifest of a generation that was prepared from another parent is built again from the active
generation. -/
def rebase (db : Db) (tenantId : TenantId) (tenant : Tenant) (g : GenerationId)
    (generation : IndexGeneration) (documentId : DocumentId) (versionId : VersionId) :
    Except String (Table (GenerationId × DocumentId) IndexGenerationDocument) :=
  if generation.parentGenerationId = tenant.activeIndexGenerationId then
    .ok db.generationDocuments
  else
    buildManifest (dropManifest db.generationDocuments g) tenant.activeIndexGenerationId g tenantId
      documentId ⟨tenantId, versionId⟩

def newerActive (db : Db) (document : Document) (versionId : VersionId) (version : DocumentVersion) :
    Bool :=
  document.activeVersionId.any fun active =>
    active ≠ versionId && (db.versionNumber active).any fun n => version.version < n

/-- The rows that `_activate` writes once its checks have passed. -/
def activated (db : Db) (c : Claim) (g : GenerationId) (version : DocumentVersion) (document : Document)
    (tenant : Tenant)
    (generationDocuments : Table (GenerationId × DocumentId) IndexGenerationDocument) (now : Time) :
    Db :=
  { db with
    generationDocuments
    versions := db.versions.update fun v r =>
      if v = c.versionId then { r with status := .active, activatedAt := some now }
      else if document.activeVersionId = some v then { r with status := .superseded }
      else r
    generations := db.generations.modify g fun r => { r with
      parentGenerationId := tenant.activeIndexGenerationId
      status := .active
      retrievalRevision := tenant.retrievalRevision + 1
      activatedAt := some now }
    documents := db.documents.modify version.documentId fun d => { d with
      activeVersionId := some c.versionId }
    tenants := db.tenants.modify version.tenantId fun t => { t with
      activeIndexGenerationId := some g
      retrievalRevision := t.retrievalRevision + 1 }
    jobs := db.jobs.modify c.jobId fun j => { j with
      status := .succeeded, heartbeatAt := some now, error := none } }

def activate (db : Db) (c : Claim) (g : GenerationId) (now : Time) : Except String Db := do
  let version ← orRaise (db.versions.get? c.versionId) "ingestion state disappeared before activation"
  let generation ← orRaise (db.generations.get? g) "ingestion state disappeared before activation"
  let job ← orRaise (db.jobs.get? c.jobId) "ingestion state disappeared before activation"
  if job.status = .succeeded then
    return db
  else
    let tenant ← orRaise (db.tenants.get? version.tenantId) "document was deleted before activation"
    let document ← orRaise ((db.documents.get? version.documentId).filter fun d =>
      d.tenantId = version.tenantId && d.deletedAt.isNone) "document was deleted before activation"
    if newerActive db document c.versionId version then
      throw "a newer document version is already active"
    else
      let rows ← rebase db version.tenantId tenant g generation version.documentId c.versionId
      return activated db c g version document tenant rows now

def markFailed (db : Db) (jobId : JobId) (detail : String) (now : Time) : Db :=
  match db.jobs.get? jobId with
  | none => db
  | some job =>
      if job.status = .succeeded then db
      else
        let db := { db with jobs := db.jobs.modify jobId fun j => { j with
          status := .failed, error := some detail, heartbeatAt := some now } }
        match db.versions.get? job.documentVersionId with
        | none => db
        | some version =>
            if version.status = .active then db
            else { db with
              versions := db.versions.modify job.documentVersionId fun v => { v with
                status := .failed
                errorCode := some "INGESTION_FAILED"
                errorDetail := some detail }
              generations := db.generations.update fun g r =>
                if version.indexGenerationId = some g ∧ r.status = .preparing then
                  { r with status := .failed }
                else r }

/-! ## Deletion -/

/-- A version of the document that has not been activated or given up. -/
def pending (tenantId : TenantId) (documentId : DocumentId) (v : DocumentVersion) : Bool :=
  v.documentId = documentId && v.tenantId = tenantId &&
    (v.status = .staged || v.status = .processing || v.status = .ready)

def failPending (db : Db) (tenantId : TenantId) (documentId : DocumentId) : Db :=
  let ids := (db.versions.select fun _ v => pending tenantId documentId v).map Prod.fst
  { db with
    versions := db.versions.update fun v r =>
      if v ∈ ids then { r with
        status := .failed
        errorCode := some "DOCUMENT_DELETED"
        errorDetail := some "Document was deleted before activation" }
      else r
    jobs := db.jobs.update fun _ j =>
      if j.documentVersionId ∈ ids then { j with
        status := .failed, error := some "Document was deleted before activation" }
      else j
    generations := db.generations.update fun _ g =>
      if g.changedDocumentVersionId.any (· ∈ ids) ∧ g.status = .preparing then
        { g with status := .failed }
      else g }

/-- The rows that `tombstone_document` writes once the manifest without the document stands. -/
def tombstoned (db : Db) (tenantId : TenantId) (documentId : DocumentId) (document : Document)
    (g : GenerationId) (now : Time) : Db :=
  { db with
    versions := db.versions.update fun v r =>
      if document.activeVersionId = some v then { r with status := .superseded } else r
    documents := db.documents.modify documentId fun d =>
      { d with deletedAt := some now, activeVersionId := none }
    tenants := db.tenants.modify tenantId fun t => { t with
      activeIndexGenerationId := some g
      retrievalRevision := t.retrievalRevision + 1 } }

/-- `tombstone_document`; the revision it returns is the tenant's new one. -/
def tombstoneDocument (db : Db) (tenantId : TenantId) (documentId : DocumentId) (now : Time) :
    Except String (Db × Nat) := do
  let tenant ← orRaise (db.tenants.get? tenantId) "document does not exist"
  let document ← orRaise ((db.documents.get? documentId).filter fun d =>
    d.tenantId = tenantId && d.deletedAt.isNone) "document does not exist"
  let db := failPending db tenantId documentId
  let g := nextKey db.generations
  let generations ← orRaise (db.generations.insert? g {
    tenantId := tenantId
    reason := "document_delete"
    changedDocumentVersionId := none
    parentGenerationId := tenant.activeIndexGenerationId
    status := .active
    retrievalRevision := tenant.retrievalRevision + 1
    activatedAt := some now }) "IntegrityError"
  let generationDocuments ← copyManifest db.generationDocuments tenant.activeIndexGenerationId g
    tenantId documentId
  return (tombstoned { db with generations, generationDocuments } tenantId documentId document g now,
    tenant.retrievalRevision + 1)

/-! ## Uploads -/

def nextVersion (db : Db) (documentId : DocumentId) : Nat :=
  ((db.versions.select fun _ v => v.documentId = documentId).map fun x => x.2.version).foldr max 0 + 1

def stageVersion (db : Db) (tenantId : TenantId) (documentId : DocumentId) (versionId : VersionId)
    (jobId : JobId) (now : Time) : Except String Db := do
  let versions ← orRaise (db.versions.insert? versionId {
    tenantId, documentId
    version := nextVersion db documentId
    status := .staged
    pageCount := 0
    sectionCount := 0
    chunkCount := 0
    indexGenerationId := none
    errorCode := none
    errorDetail := none
    createdAt := now
    activatedAt := none
    garbageCollectedAt := none }) "IntegrityError"
  let jobs ← orRaise (db.jobs.insert? jobId {
    tenantId
    documentVersionId := versionId
    status := .staged
    attempt := 0
    heartbeatAt := none
    error := none }) "IntegrityError"
  return { db with versions, jobs }

/-- The collections of a new document must all be there (`_validate_collections`). -/
def validCollections (db : Db) (tenantId : TenantId) (collectionIds : List CollectionId) : Bool :=
  (db.collections.select fun k c =>
    c.tenantId = tenantId && k ∈ collectionIds && c.deletedAt.isNone).length = collectionIds.length

/-- The rows that `upload_document` commits for a new document. The file, the quota and the idempotency
record are left out. -/
def uploadDocument (db : Db) (tenantId : TenantId) (documentId : DocumentId) (title sourceFilename : Text)
    (collectionIds : List CollectionId) (versionId : VersionId) (jobId : JobId) (now : Time) :
    Except String Db := do
  let _ ← orRaise (db.tenants.get? tenantId) "Not found"
  let documents ← orRaise (db.documents.insert? documentId {
    tenantId, title, sourceFilename, activeVersionId := none, deletedAt := none }) "IntegrityError"
  if validCollections db tenantId collectionIds then
    let documentCollections ← orRaise (db.documentCollections.insertAll?
      (collectionIds.map fun c => ((documentId, c), tenantId))) "IntegrityError"
    stageVersion { db with documents, documentCollections } tenantId documentId versionId jobId now
  else
    throw "Not found"

def liveDocument (db : Db) (tenantId : TenantId) (documentId : DocumentId) : Except String Document :=
  orRaise ((db.documents.get? documentId).filter fun d => d.tenantId = tenantId && d.deletedAt.isNone)
    "Not found"

/-- The rows that `upload_document` commits for a new version of a document. -/
def uploadVersion (db : Db) (tenantId : TenantId) (documentId : DocumentId) (title : Text)
    (collectionIds : List CollectionId) (versionId : VersionId) (jobId : JobId) (now : Time) :
    Except String Db := do
  let _ ← orRaise (db.tenants.get? tenantId) "Not found"
  let document ← liveDocument db tenantId documentId
  let current := (db.documentCollections.select fun k t => k.1 = documentId && t = tenantId).map
    fun x => x.1.2
  if document.title ≠ title then
    throw "Change the document title separately before uploading a new version"
  else if collectionIds ≠ [] ∧ ¬(collectionIds ⊆ current ∧ current ⊆ collectionIds) then
    throw "Change collection membership separately before uploading a new version"
  else
    stageVersion db tenantId documentId versionId jobId now

def reindexDocument (db : Db) (tenantId : TenantId) (documentId : DocumentId) (versionId : VersionId)
    (jobId : JobId) (now : Time) : Except String Db := do
  let _ ← orRaise (db.tenants.get? tenantId) "Not found"
  let document ← liveDocument db tenantId documentId
  let source ← orRaise document.activeVersionId "Not found"
  let _ ← orRaise ((db.versions.get? source).filter (·.tenantId = tenantId)) "Active version is missing"
  stageVersion db tenantId documentId versionId jobId now

end Etoeragcb.Ingest
