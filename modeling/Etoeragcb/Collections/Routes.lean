import Etoeragcb.Lib.Result
import Etoeragcb.Lib.Unicode
import Etoeragcb.Models.Content

/-!
# The requests about collections

The mutations of `app/collections/routes.py`. Each is a function of the database: it returns the database that it
commits, or the detail of the response that rolls it back. Of a collection the name and the deletion are kept.
-/

namespace Etoeragcb.Collections

open Lib Models

/-- `RetrievalRevisionResponse`; a mutation of a collection itself has always changed something. -/
structure RevisionResponse where
  retrievalRevision : Nat
  changed : Bool
deriving DecidableEq

/-- `body.model_fields_set` with the values of the fields. -/
structure CollectionUpdate where
  name : Option (Option Text)
  description : Option (Option Text)
deriving DecidableEq

inductive CollectionRequest
  | create (tenantId : TenantId) (collectionId : CollectionId) (name : Text)
  | update (tenantId : TenantId) (collectionId : CollectionId) (body : CollectionUpdate)
  | delete (tenantId : TenantId) (collectionId : CollectionId) (now : Time)
  | addDocument (tenantId : TenantId) (collectionId : CollectionId) (documentId : DocumentId)
  | removeDocument (tenantId : TenantId) (collectionId : CollectionId) (documentId : DocumentId)

def CollectionRequest.tenantId : CollectionRequest → TenantId
  | .create t _ _ | .update t _ _ | .delete t _ _ | .addDocument t _ _ | .removeDocument t _ _ => t

abbrev SqlLower := Text → Text

variable (lower : SqlLower) (db : Db) (tenantId : TenantId)

def activeCollection (collectionId : CollectionId) : Except String KnowledgeCollection :=
  orRaise (db.collections.where? (fun _ c => c.tenantId = tenantId && c.deletedAt.isNone) collectionId) "Not found"

def activeDocument (documentId : DocumentId) : Except String Document :=
  orRaise (db.documents.where? (fun _ d => d.tenantId = tenantId && d.deletedAt.isNone) documentId) "Not found"

def bumpRevision : Except String (Db × Nat) := do
  let tenant ← orRaise (db.tenants.get? tenantId) "tenant disappeared during retrieval revision update"
  return ({ db with tenants := db.tenants.modify tenantId fun t => { t with retrievalRevision := t.retrievalRevision + 1 } },
    tenant.retrievalRevision + 1)

def currentRevision : Except String Nat := do
  let tenant ← orRaise (db.tenants.get? tenantId) "tenant does not exist"
  return tenant.retrievalRevision

/-- The name is that of another live collection of the tenant, up to case. -/
def nameTaken (collectionId : CollectionId) (name : Text) : Bool :=
  (db.collections.select fun k c => k ≠ collectionId && c.tenantId = tenantId && c.deletedAt.isNone &&
    lower c.name = lower name) ≠ []

def committed : Except String (Db × RevisionResponse) := do
  let (db, revision) ← bumpRevision db tenantId
  return (db, ⟨revision, true⟩)

def committedIf (changed : Bool) (changedDb : Db) : Except String (Db × RevisionResponse) := do
  if changed then committed changedDb tenantId
  else return (db, ⟨← currentRevision db tenantId, false⟩)

def createCollection (collectionId : CollectionId) (name : Text) : Except String (Db × RevisionResponse) := do
  let collections ← orRaise (db.collections.insert? collectionId ⟨tenantId, name, none⟩) "Collection name already exists"
  if nameTaken lower db tenantId collectionId name then throw "Collection name already exists"
  else committed { db with collections } tenantId

def nameAfter (collection : KnowledgeCollection) (body : CollectionUpdate) : Except String Text :=
  match body.name with
  | none => .ok collection.name
  | some none => .error "Collection name cannot be null"
  | some (some name) => .ok name

def updateCollection (collectionId : CollectionId) (body : CollectionUpdate) : Except String (Db × RevisionResponse) := do
  let collection ← activeCollection db tenantId collectionId
  if body.name = none ∧ body.description = none then throw "At least one field is required"
  else
    let name ← nameAfter collection body
    if nameTaken lower db tenantId collectionId name then throw "Collection name already exists"
    else committed { db with collections := db.collections.modify collectionId fun c => { c with name } } tenantId

def deleteCollection (collectionId : CollectionId) (now : Time) : Except String (Db × RevisionResponse) := do
  let _ ← activeCollection db tenantId collectionId
  committed { db with
    collections := db.collections.modify collectionId fun c => { c with deletedAt := some now }
    documentCollections := db.documentCollections.delete fun k t => t = tenantId && k.2 = collectionId } tenantId

/-- The insertion does nothing where the membership is there. -/
def addDocument (collectionId : CollectionId) (documentId : DocumentId) : Except String (Db × RevisionResponse) := do
  let _ ← activeCollection db tenantId collectionId
  let _ ← activeDocument db tenantId documentId
  match db.documentCollections.insert? (documentId, collectionId) tenantId with
  | some documentCollections => committedIf db tenantId true { db with documentCollections }
  | none => committedIf db tenantId false db

def removeDocument (collectionId : CollectionId) (documentId : DocumentId) : Except String (Db × RevisionResponse) := do
  let _ ← activeCollection db tenantId collectionId
  let _ ← activeDocument db tenantId documentId
  let changed := (db.documentCollections.where? (fun _ t => t = tenantId) (documentId, collectionId)).isSome
  committedIf db tenantId changed { db with
    documentCollections := db.documentCollections.delete fun k t => t = tenantId && k = (documentId, collectionId) }

def CollectionRequest.handle : CollectionRequest → Except String (Db × RevisionResponse)
  | .create t c name => createCollection lower db t c name
  | .update t c body => updateCollection lower db t c body
  | .delete t c now => deleteCollection db t c now
  | .addDocument t c d => Collections.addDocument db t c d
  | .removeDocument t c d => Collections.removeDocument db t c d

end Etoeragcb.Collections
