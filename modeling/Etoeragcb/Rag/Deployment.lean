import Etoeragcb.Collections.Routes
import Etoeragcb.Ingest.Collector
import Etoeragcb.Rag.Service

/-!
# Retrievals beside everything else

Calls of `retrieve` interleaved, query by query, with ingestion and its points, garbage collection, requests about
collections and the expiry of cached results.
-/

namespace Etoeragcb.Rag

open Lib Models Ingest Collections

abbrev RetrievalId := Nat

structure Deployment (ε : Type) where
  archive : Archive
  points : Table ChunkId (IndexPoint ε)
  cache : RetrievalCache
  retrievals : RetrievalId → Option (RetrievalRequest × Retrieval ε)

variable {ε : Type}

namespace Deployment

def fresh (tenants : Table TenantId Tenant) : Deployment ε where
  archive := .fresh tenants
  points := .empty
  cache := fun _ => none
  retrievals := fun _ => none

variable (d : Deployment ε)

def db : Db := d.archive.ingest.db

def store : Store ε := ⟨d.db, d.points⟩

def withDb (db : Db) : Deployment ε :=
  { d with archive := { d.archive with ingest := { d.archive.ingest with db } } }

/-- The points of versions that a collector has selected are deleted, those of the tenant of the version. -/
def pointsAfter : ArchiveAction → Table ChunkId (IndexPoint ε)
  | .deletePayloads k => d.points.delete fun _ p => d.archive.collectors[k]?.any fun c =>
      p.documentVersionId ∈ c.ids && (d.db.versions.get? p.documentVersionId).any (·.tenantId = p.tenantId)
  | _ => d.points

/-- The claim of a run that has persisted its content and not marked it as ready. -/
def indexing (r : RunId) : Option Claim :=
  match d.archive.ingest.runs r with
  | .staged c _ => some c
  | _ => none

def isPointOf (c : Claim) (p : IndexPoint ε) : Bool :=
  p.tenantId = c.tenantId && p.documentVersionId = c.versionId &&
    (d.db.versions.get? c.versionId).any (·.documentId = p.documentId)

def goOn (q : RetrievalId) (request : RetrievalRequest) (retrieval : Retrieval ε) : Deployment ε :=
  { d with retrievals := Function.update d.retrievals q (some (request, retrieval)) }

end Deployment

inductive DeploymentAction (ε : Type)
  | archive (a : ArchiveAction)
  | clearPoints (r : RunId)
  | upsertPoints (r : RunId) (batch : List (ChunkId × IndexPoint ε))
  | collection (request : CollectionRequest)
  | retrieve (q : RetrievalId) (request : RetrievalRequest)
  | query (q : RetrievalId)
  | lookup (q : RetrievalId) (answers : Bool)
  | cache (q : RetrievalId) (stores : Bool)
  | expire (key : Text)

/-- What the steps of a deployment depend on. A chunk id is made from a version (`stable_chunk_id`). -/
structure DeploymentSettings (ε : Type) extends RetrievalSettings ε where
  heartbeatTimeout : Nat
  lower : SqlLower
  versionOfChunk : ChunkId → VersionId

/-- One action; `none` when it cannot happen in the state. -/
def deploymentStep (settings : DeploymentSettings ε) (d : Deployment ε) : DeploymentAction ε → Option (Deployment ε)
  | .archive a => (archiveStep settings.heartbeatTimeout d.archive a).map fun archive =>
      { d with archive, points := d.pointsAfter a }
  | .clearPoints r => (d.indexing r).map fun c =>
      { d with points := deleteVersions d.points c.tenantId [c.versionId] }
  | .upsertPoints r batch => (d.indexing r).bind fun c =>
      if batch.all fun x => settings.versionOfChunk x.1 = c.versionId && d.isPointOf c x.2 then
        some { d with points := upsert d.points batch }
      else none
  | .collection request =>
      match request.handle settings.lower d.db with
      | .ok (db, _) => some (d.withDb db)
      | .error _ => none
  | .retrieve q request =>
      match d.retrievals q with
      | none => some (d.goOn q request (.start settings.toRetrievalSettings request))
      | some _ => none
  | .query q => (d.retrievals q).bind fun (request, retrieval) =>
      (retrieval.query request d.store).map (d.goOn q request)
  | .lookup q answers => (d.retrievals q).bind fun (request, retrieval) =>
      (retrieval.lookup settings.toRetrievalSettings request d.cache answers).map (d.goOn q request)
  | .cache q stores => (d.retrievals q).bind fun (request, retrieval) =>
      (retrieval.cache settings.toRetrievalSettings request d.cache stores).map fun (retrieval, cache) =>
        { d.goOn q request retrieval with cache }
  | .expire key => some { d with cache := Function.update d.cache key none }

/-- No run touches content or points of a version that is active, and none activates a version that a collector has
selected. -/
def careful (d : Deployment ε) : DeploymentAction ε → Bool
  | .archive a => sparesSelected d.archive a && match a with
      | .ingest a => !persistsActive d.archive.ingest a
      | _ => true
  | .clearPoints r | .upsertPoints r _ => (d.indexing r).all fun c =>
      !(d.db.versions.get? c.versionId).any (·.status = .active)
  | _ => true

end Etoeragcb.Rag
