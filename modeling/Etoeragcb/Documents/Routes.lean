import Etoeragcb.Core.Idempotency
import Etoeragcb.Ingest.Pipeline
import Etoeragcb.Ingest.Storage
import Etoeragcb.Lib.Sort
import Mathlib.Algebra.GroupWithZero.Nat

/-!
# Uploads and reindexing

`upload_document` from its staged file on and `reindex_document` of `app/documents/routes.py`, both behind the rate
limit and until their commit. While an exception is handled nothing else raises.
-/

namespace Etoeragcb.Documents

open Lib Models Ingest Etoeragcb.Core

structure UploadAccepted where
  documentId : DocumentId
  documentVersionId : VersionId
  version : Nat
  jobId : JobId
  status : VersionStatus
deriving DecidableEq

/-- The columns of `document_versions` that describe the raw file. -/
structure VersionFile where
  tenantId : TenantId
  fileSha256 : Text
  fileSizeBytes : Nat
  storageKey : StorageKey
deriving DecidableEq

/-- The content database with the columns of files, the MIME types of the documents and the idempotency records. -/
structure Rows where
  content : Db
  mimes : Table DocumentId Text
  versionFiles : Table VersionId VersionFile
  records : Records UploadAccepted

/-- What is hashed of a request. -/
inductive Payload
  | upload (title : Text) (documentId : Option DocumentId) (collectionIds : List CollectionId) (filename mime : Text)
      (size : Nat) (sha256 : Text)
  | reindex (documentId : DocumentId)
deriving DecidableEq

structure Settings where
  unicode : Unicode
  canonicalRequestHash : Payload → Text
  idempotencyTtl : Nat
  quotaBytes : Nat

/-- Who makes a request, its key and time, and the identifiers that it draws. -/
structure Request where
  tenantId : TenantId
  userId : UserId
  idempotencyKey : Text
  now : Time
  newDocumentId : DocumentId
  newVersionId : VersionId
  newJobId : JobId

structure UploadRequest extends Request where
  title : Text
  documentId : Option DocumentId
  collectionIds : List CollectionId
  staged : StagedUpload

structure ReindexRequest extends Request where
  documentId : DocumentId

abbrev RequestHandler := Handler Rows

variable (settings : Settings)

/-! ## What both share -/

def requestHash (payload : Payload) : RequestHandler Text := do
  reach .requestHash
  return settings.canonicalRequestHash payload

def lockTenant (r : Request) : RequestHandler Unit := do
  reach .tenant
  let _ ← orFail ((← rows).content.tenants.get? r.tenantId) (.http 404 "Not found")

/-- `claim_idempotency` -/
def claim (r : Request) (operation hash : Text) : RequestHandler (ClaimResult UploadAccepted) := do
  reach .claim
  let _ ← orFail (validateIdempotencyKey r.idempotencyKey).toOption .valueError
  let w ← rows
  let (records, result) ← orFail (claimIdempotency w.records r.tenantId r.userId operation r.idempotencyKey hash
    settings.idempotencyTtl r.now).toOption .other
  setRows { w with records }
  return result

def validateQuota (r : Request) (newSize : Nat) : RequestHandler Unit := do
  reach .quota
  let used := (((← rows).versionFiles.select fun _ f => f.tenantId = r.tenantId).map (·.2.fileSizeBytes)).sum
  if settings.quotaBytes < used + newSize then throw (.http 413 "Tenant document quota exceeded")

def findDocument (r : Request) (documentId : DocumentId) : RequestHandler Document := do
  reach .document
  orFail (((← rows).content.documents.get? documentId).filter fun d => d.tenantId = r.tenantId && d.deletedAt.isNone)
    (.http 404 "Not found")

def selectNextVersion (documentId : DocumentId) : RequestHandler Nat := do
  reach .nextVersion
  return nextVersion (← rows).content documentId

def addVersion (r : Request) (documentId : DocumentId) (file : VersionFile) (w : Rows) : Option Rows := do
  let content ← (stageVersion w.content r.tenantId documentId r.newVersionId r.newJobId r.now).toOption
  let versionFiles ← w.versionFiles.insert? r.newVersionId file
  return { w with content, versionFiles }

/-- `complete_idempotency` -/
def complete (r : Request) (operation : Text) (response : UploadAccepted) : RequestHandler Unit := do
  reach .complete
  let w ← rows
  writeRows ((completeIdempotency w.records r.tenantId r.userId operation r.idempotencyKey response
    (some response.documentId) r.now).toOption.map fun records => { w with records }) .other

/-! ## `upload_document` -/

def loadOrCreateDocument (r : UploadRequest) : RequestHandler DocumentId := do
  match r.documentId with
  | none => do
      reach .document
      let w ← rows
      writeRows (do
        let documents ← w.content.documents.insert? r.newDocumentId ⟨r.tenantId, r.title, r.staged.sourceFilename, none, none⟩
        let mimes ← w.mimes.insert? r.newDocumentId r.staged.mime
        return { w with content := { w.content with documents }, mimes }) .integrityError
      return r.newDocumentId
  | some documentId => do
      let document ← findDocument r.toRequest documentId
      if (← rows).mimes.get? documentId ≠ some r.staged.mime then
        throw (.http 422 "A new version must use the original document MIME type")
      else if document.title ≠ r.title then
        throw (.http 409 "Change the document title separately before uploading a new version")
      else return documentId

/-- The collections of a new document must be there, those of an old one must not change. -/
def checkCollections (r : UploadRequest) (documentId : DocumentId) : RequestHandler Unit := do
  if r.collectionIds ≠ [] then
    reach .collections
    let content := (← rows).content
    let current := (content.documentCollections.select fun k t => k.1 = documentId && t = r.tenantId).map (·.1.2)
    if r.documentId = none then
      if !validCollections content r.tenantId r.collectionIds then throw (.http 404 "Not found")
    else if ¬(r.collectionIds ⊆ current ∧ current ⊆ r.collectionIds) then
      throw (.http 409 "Change collection membership separately before uploading a new version")

def flushUpload (r : UploadRequest) (documentId : DocumentId) (key : StorageKey) : RequestHandler Unit := do
  reach .flush
  let w ← rows
  writeRows (do
    let w ← addVersion r.toRequest documentId ⟨r.tenantId, r.staged.fileSha256, r.staged.sizeBytes, key⟩ w
    let added := if r.documentId = none then r.collectionIds.map fun c => ((documentId, c), r.tenantId) else []
    let documentCollections ← w.content.documentCollections.insertAll? added
    return { w with content := { w.content with documentCollections } }) .integrityError

def uploadOperation : Text := "document_upload".toList

/-- What follows a claim that was granted. -/
def storeUpload (r : UploadRequest) : RequestHandler UploadAccepted := do
  validateQuota settings r.toRequest r.staged.sizeBytes
  let documentId ← loadOrCreateDocument r
  checkCollections r documentId
  let version ← selectNextVersion documentId
  let key ← commit settings.unicode r.staged r.tenantId documentId r.newVersionId
  flushUpload r documentId key
  let response : UploadAccepted := ⟨documentId, r.newVersionId, version, r.newJobId, .staged⟩
  complete r.toRequest uploadOperation response
  commitSession
  return response

/-- The `try` of `upload_document`. -/
def acceptUpload (r : UploadRequest) (hash : Text) : RequestHandler UploadAccepted := do
  lockTenant r.toRequest
  let result ← claim settings r.toRequest uploadOperation hash
  match result.state with
  | .replay => do
      rollback
      discard r.staged
      orFail result.response .valueError
  | .conflict => do
      rollback
      discard r.staged
      throw (.http 409 "Idempotency-Key was already used for a different upload")
  | .inProgress => do
      rollback
      discard r.staged
      throw (.http 425 "An identical upload is still being accepted")
  | .claimed | .recovered => storeUpload settings r

/-- What every `except` of `upload_document` does, where `committed` is still false. -/
def undoUpload (staged : StagedUpload) : RequestHandler Unit := do
  undoRows
  match (← getState).storageKey with
  | some key => removeFile (.original key)
  | none => removeFile (.staging staged.tempPath)

/-- What the `except` clauses raise. -/
def uploadFailure : Failure → Failure
  | .http status detail => .http status detail
  | .integrityError | .osError | .valueError => .http 409 "Upload could not be accepted"
  | .other => .other

def uploadDocument (r : UploadRequest) : RequestHandler UploadAccepted := do
  let hash ← requestHash settings (.upload r.title r.documentId (sortBy id r.collectionIds) r.staged.sourceFilename
    r.staged.mime r.staged.sizeBytes r.staged.fileSha256)
  try
    acceptUpload settings r hash
  catch e =>
    undoUpload r.staged
    throw (uploadFailure e)

/-! ## `reindex_document` -/

def reindexOperation : Text := "document_reindex".toList

def findSource (r : Request) (document : Document) : RequestHandler VersionFile := do
  let active ← orFail document.activeVersionId (.http 404 "Not found")
  reach .source
  let w ← rows
  let _ ← orFail ((w.content.versions.get? active).filter (·.tenantId = r.tenantId)) (.http 409 "Active version is missing")
  orFail (w.versionFiles.get? active) (.http 409 "Active version is missing")

/-- The `try` of `reindex_document`. -/
def acceptReindex (r : ReindexRequest) (source : VersionFile) (version : Nat) : RequestHandler UploadAccepted := do
  let key ← clone source.storageKey r.tenantId r.documentId r.newVersionId
  reach .flush
  writeRows (addVersion r.toRequest r.documentId { source with storageKey := key } (← rows)) .integrityError
  let response : UploadAccepted := ⟨r.documentId, r.newVersionId, version, r.newJobId, .staged⟩
  complete r.toRequest reindexOperation response
  commitSession
  return response

/-- What the `except` of `reindex_document` does. -/
def undoReindex : RequestHandler Unit := do
  undoRows
  match (← getState).storageKey with
  | some key => removeFile (.original key)
  | none => pure ()

def reindexDocument (r : ReindexRequest) : RequestHandler UploadAccepted := do
  lockTenant r.toRequest
  let document ← findDocument r.toRequest r.documentId
  let source ← findSource r.toRequest document
  let hash ← requestHash settings (.reindex r.documentId)
  let result ← claim settings r.toRequest reindexOperation hash
  match result.state with
  | .replay => do
      rollback
      orFail result.response .valueError
  | .conflict => do
      rollback
      throw (.http 409 "Idempotency-Key was already used for a different reindex request")
  | .inProgress => do
      rollback
      throw (.http 425 "This reindex request is still being accepted")
  | .claimed | .recovered => do
      validateQuota settings r.toRequest source.fileSizeBytes
      let version ← selectNextVersion r.documentId
      try
        acceptReindex r source version
      catch e =>
        undoReindex
        throw e

end Etoeragcb.Documents
