import Etoeragcb.Models.Content
import Mathlib.Data.Rat.Defs

/-!
# The points of the index

`QdrantChunkIndex` of `app/ingest/indexer.py` as a table of points. Of a payload the fields that a search filters by
are kept.
-/

namespace Etoeragcb.Ingest

open Lib Models

/-- `SparseVector` of `app/ingest/hashing.py`. -/
structure SparseVector where
  indices : List Nat
  values : List ℚ
deriving DecidableEq

structure IndexPoint (ε : Type) where
  dense : ε
  sparse : SparseVector
  tenantId : TenantId
  documentId : DocumentId
  documentVersionId : VersionId
  sectionId : SectionId
deriving DecidableEq

variable {ε : Type}

def upsert (points : Table ChunkId (IndexPoint ε)) (batch : List (ChunkId × IndexPoint ε)) :
    Table ChunkId (IndexPoint ε) :=
  batch.foldl (fun points x => points.put x.1 x.2) points

def deleteVersions (points : Table ChunkId (IndexPoint ε)) (tenantId : TenantId) (versionIds : List VersionId) :
    Table ChunkId (IndexPoint ε) :=
  points.delete fun _ p => p.tenantId = tenantId && p.documentVersionId ∈ versionIds

end Etoeragcb.Ingest
