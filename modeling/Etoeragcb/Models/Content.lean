import Etoeragcb.Lib.Table
import Etoeragcb.Lib.Text

/-!
# The rows of the content database

The tables of `app/models/content.py`, with the columns that the modelled transactions read or write.
Identifiers are opaque numbers, and an instant is a number of microseconds, as is a duration that is added to one.
-/

namespace Etoeragcb.Models

open Lib

abbrev Time := Nat
abbrev TenantId := Nat
abbrev UserId := Nat
abbrev DocumentId := Nat
abbrev VersionId := Nat
abbrev GenerationId := Nat
abbrev JobId := Nat
abbrev CollectionId := Nat
abbrev SectionId := Nat
abbrev ChunkId := Nat

structure Tenant where
  activeIndexGenerationId : Option GenerationId
  retrievalRevision : Nat
deriving DecidableEq

structure KnowledgeCollection where
  tenantId : TenantId
  name : Text
  deletedAt : Option Time
deriving DecidableEq

structure Document where
  tenantId : TenantId
  title : Text
  sourceFilename : Text
  activeVersionId : Option VersionId
  deletedAt : Option Time
deriving DecidableEq

inductive VersionStatus
  | staged | processing | ready | active | failed | superseded
deriving DecidableEq

structure DocumentVersion where
  tenantId : TenantId
  documentId : DocumentId
  version : Nat
  status : VersionStatus
  pageCount : Nat
  sectionCount : Nat
  chunkCount : Nat
  indexGenerationId : Option GenerationId
  errorCode : Option String
  errorDetail : Option String
  createdAt : Time
  activatedAt : Option Time
  garbageCollectedAt : Option Time
deriving DecidableEq

structure Section where
  tenantId : TenantId
  documentId : DocumentId
  documentVersionId : VersionId
  parentId : Option SectionId
  headingLexical : Text
  pathOriginal : Text
  pathLexical : Text
deriving DecidableEq

structure Chunk where
  tenantId : TenantId
  documentId : DocumentId
  documentVersionId : VersionId
  sectionId : Option SectionId
  chunkIndex : Nat
  pageStart : Nat
  pageEnd : Nat
  charStart : Nat
  charEnd : Nat
  contentSha256 : Text
  lexicalSha256 : Text
  tokenCount : Nat
  textOriginal : Text
  textLexical : Text
deriving DecidableEq

inductive GenerationStatus
  | preparing | active | failed
deriving DecidableEq

structure IndexGeneration where
  tenantId : TenantId
  reason : String
  changedDocumentVersionId : Option VersionId
  parentGenerationId : Option GenerationId
  status : GenerationStatus
  retrievalRevision : Nat
  activatedAt : Option Time
deriving DecidableEq

/-- A row of `index_generation_documents`; its key is the generation and the document. -/
structure IndexGenerationDocument where
  tenantId : TenantId
  documentVersionId : VersionId
deriving DecidableEq

inductive JobStatus
  | staged | queued | processing | succeeded | failed
deriving DecidableEq

structure IngestionJob where
  tenantId : TenantId
  documentVersionId : VersionId
  status : JobStatus
  attempt : Nat
  heartbeatAt : Option Time
  error : Option String
deriving DecidableEq

structure Db where
  tenants : Table TenantId Tenant
  collections : Table CollectionId KnowledgeCollection
  documents : Table DocumentId Document
  versions : Table VersionId DocumentVersion
  sections : Table SectionId Section
  chunks : Table ChunkId Chunk
  generations : Table GenerationId IndexGeneration
  generationDocuments : Table (GenerationId × DocumentId) IndexGenerationDocument
  jobs : Table JobId IngestionJob
  documentCollections : Table (DocumentId × CollectionId) TenantId

def Db.fresh (tenants : Table TenantId Tenant) : Db where
  tenants := tenants
  collections := .empty
  documents := .empty
  versions := .empty
  sections := .empty
  chunks := .empty
  generations := .empty
  generationDocuments := .empty
  jobs := .empty
  documentCollections := .empty

namespace Db

variable (db : Db)

def activeGeneration (t : TenantId) : Option GenerationId :=
  (db.tenants.get? t).bind Tenant.activeIndexGenerationId

def retrievalRevision (t : TenantId) : Option Nat :=
  (db.tenants.get? t).map Tenant.retrievalRevision

def manifest (g : GenerationId) (d : DocumentId) : Option VersionId :=
  (db.generationDocuments.get? (g, d)).map IndexGenerationDocument.documentVersionId

def listed (t : TenantId) (d : DocumentId) : Option VersionId :=
  (db.activeGeneration t).bind (db.manifest · d)

def activeVersion (t : TenantId) (d : DocumentId) : Option VersionId :=
  (db.documents.get? d).bind fun row =>
    if row.tenantId = t ∧ row.deletedAt = none then row.activeVersionId else none

def versionNumber (v : VersionId) : Option Nat := (db.versions.get? v).map DocumentVersion.version

def activeNumber (t : TenantId) (d : DocumentId) : Option Nat :=
  (db.activeVersion t d).bind db.versionNumber

end Db

end Etoeragcb.Models
