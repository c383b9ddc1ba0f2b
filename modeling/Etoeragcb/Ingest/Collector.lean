import Etoeragcb.Ingest.Machine
import Etoeragcb.Lib.Sort
import Mathlib.Data.Finset.SDiff
import Mathlib.Data.Prod.Lex
import Mathlib.Order.WithBot

/-!
# Garbage collection beside ingestion

`garbage_collect_inactive_versions` of `app/ingest/reconcile.py` in its three phases, and the raw files that runs of
`process` parse. A raw file is known by its version, whose identifier is part of the storage key. The points of the
index are left out.
-/

namespace Etoeragcb.Ingest

open Lib Models

/-! ## The transactions of a collector -/

/-- A column of instants in descending order, in which a missing value comes first. -/
def descending (at_ : Option Time) : (WithTop Time)ᵒᵈ :=
  OrderDual.toDual (match at_ with
    | none => ⊤
    | some t => WithTop.some t)

/-- The active generations of the tenant that were activated last. -/
def retained (db : Db) (tenantId : TenantId) (retainedGenerations : Nat) : List GenerationId :=
  ((sortBy (fun x => toLex (descending x.2.activatedAt, OrderDual.toDual x.1))
    (db.generations.select fun _ g => g.tenantId = tenantId && g.status = .active)).take retainedGenerations).map
      Prod.fst

def protectedVersions (db : Db) (tenantId : TenantId) (retainedGenerations : Nat) : List VersionId :=
  ((db.generationDocuments.select fun k r =>
    r.tenantId = tenantId && k.1 ∈ retained db tenantId retainedGenerations).map (·.2.documentVersionId)) ++
  ((db.versions.select fun _ v => v.tenantId = tenantId &&
    (v.status = .staged || v.status = .processing || v.status = .ready || v.status = .active)).map Prod.fst)

/-- The versions that the first transaction selects. -/
def candidates (db : Db) (tenantId : TenantId) (retainedGenerations : Nat) (olderThan : Option Time) :
    List VersionId :=
  (db.versions.select fun id v => v.tenantId = tenantId && (v.status = .failed || v.status = .superseded) &&
    v.garbageCollectedAt.isNone && olderThan.all (v.createdAt < ·) &&
    id ∉ protectedVersions db tenantId retainedGenerations).map Prod.fst

def collected (db : Db) (ids : List VersionId) (now : Time) : Db :=
  { db with
    chunks := db.chunks.delete fun _ c => c.documentVersionId ∈ ids
    sections := db.sections.delete fun _ r => r.documentVersionId ∈ ids
    versions := db.versions.update fun v r =>
      if v ∈ ids then { r with garbageCollectedAt := some now } else r }

/-! ## The machine -/

inductive Phase
  | selected | emptied | finished
deriving DecidableEq

/-- A call of `garbage_collect_inactive_versions` with the versions that it has selected. -/
structure Collector where
  ids : List VersionId
  phase : Phase
deriving DecidableEq

structure Archive where
  ingest : State
  /-- The versions whose raw file exists. -/
  files : Finset VersionId
  /-- The runs that have parsed their raw file. -/
  parsed : RunId → Bool
  /-- The chunks that the last `_persist_staged_content` of a version has stored. -/
  stored : VersionId → List (ChunkId × Chunk)
  collectors : List Collector

def Archive.fresh (tenants : Table TenantId Tenant) : Archive where
  ingest := .fresh tenants
  files := ∅
  parsed := fun _ => false
  stored := fun _ => []
  collectors := []

/-- Ingestion, the parsing of a raw file by a run, and the phases of collectors. -/
inductive ArchiveAction
  | ingest (a : Action)
  | parse (r : RunId)
  | select (tenantId : TenantId) (retainedGenerations : Nat) (olderThan : Option Time)
  | deletePayloads (k : Nat)
  | deleteRows (k : Nat) (now : Time)

namespace Archive

variable (s : Archive)

/-- Only content that was parsed is persisted, and only a file that exists is cloned. -/
def admits : Action → Bool
  | .persist r _ _ _ _ => s.parsed r
  | .reindex _ d _ _ _ => (s.ingest.db.documents.get? d).any fun document => document.activeVersionId.any (· ∈ s.files)
  | _ => true

def filesAfter (a : Action) : Finset VersionId :=
  match a.created? with
  | some v => insert v s.files
  | none => s.files

def storedAfter (ingest : State) : Action → VersionId → List (ChunkId × Chunk)
  | .persist r _ chunks _ _ =>
      match s.ingest.runs r, ingest.runs r with
      | .started c, .staged _ _ =>
          match s.ingest.db.versions.get? c.versionId with
          | some version => Function.update s.stored c.versionId (chunks.map (chunkRow c.versionId version))
          | none => s.stored
      | _, _ => s.stored
  | _ => s.stored

def setPhase (k : Nat) (c : Collector) (phase : Phase) : Archive :=
  { s with collectors := s.collectors.set k { c with phase } }

end Archive

/-- One action; `none` when it cannot happen in the state. -/
def archiveStep (timeout : Nat) (s : Archive) : ArchiveAction → Option Archive
  | .ingest a =>
      if s.admits a then
        (step timeout s.ingest a).map fun ingest =>
          { s with ingest, files := s.filesAfter a, stored := s.storedAfter ingest a }
      else none
  | .parse r =>
      match s.ingest.runs r with
      | .started c => if c.versionId ∈ s.files then some { s with parsed := Function.update s.parsed r true } else none
      | _ => none
  | .select t n olderThan =>
      let ids := candidates s.ingest.db t n olderThan
      some { s with collectors := s.collectors ++ [⟨ids, if ids = [] then .finished else .selected⟩] }
  | .deletePayloads k =>
      match s.collectors[k]? with
      | some c =>
          if c.phase = .selected then
            some { s.setPhase k c .emptied with files := s.files \ c.ids.toFinset }
          else none
      | none => none
  | .deleteRows k now =>
      match s.collectors[k]? with
      | some c =>
          if c.phase = .emptied then
            some { s.setPhase k c .finished with ingest := { s.ingest with db := collected s.ingest.db c.ids now } }
          else none
      | none => none

/-- The checks of `_activate` let the version of the claim pass. -/
def passes (db : Db) (c : Claim) : Bool :=
  (db.jobs.get? c.jobId).any (·.status ≠ .succeeded) &&
    (db.versions.get? c.versionId).any fun version =>
      (db.documents.get? version.documentId).any fun document =>
        document.tenantId = version.tenantId && document.deletedAt.isNone &&
          !newerActive db document c.versionId version

def activates? (s : State) : Action → Option VersionId
  | .activate r _ =>
      match s.runs r with
      | .ready c _ => if passes s.db c then some c.versionId else none
      | _ => none
  | _ => none

def Archive.claims (s : Archive) (v : VersionId) : Bool := s.collectors.any (v ∈ ·.ids)

/-- Ingestion and garbage collection, in any order. -/
def ArchiveAction.isConcurrent : ArchiveAction → Bool
  | .ingest a => a.isIngestion
  | _ => true

abbrev concurrent : Archive → ArchiveAction → Prop := fun _ a => a.isConcurrent

/-- No run activates a version that a collector has selected. -/
def sparesSelected (s : Archive) (a : ArchiveAction) : Bool :=
  a.isConcurrent && match a with
    | .ingest a => (activates? s.ingest a).all fun v => !s.claims v
    | _ => true

end Etoeragcb.Ingest
