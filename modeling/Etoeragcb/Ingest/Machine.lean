import Etoeragcb.Ingest.Pipeline
import Etoeragcb.Lib.Machine
import Mathlib.Logic.Function.Basic

/-!
# Interleavings of ingestion

Runs of `IngestionPipeline.process`, their heartbeats, upload requests and deletions work on one database.
A run stands between two of its committed transactions; every action commits one transaction, or lets an
exception happen between two.
-/

namespace Etoeragcb.Ingest

open Lib Models

abbrev RunId := Nat
abbrev RequestId := Nat

/-- How far a run of `process` has come. -/
inductive Process
  | idle
  | started (c : Claim)
  | staged (c : Claim) (g : GenerationId)
  | ready (c : Claim) (g : GenerationId)
  | failing (jobId : JobId) (detail : String)
  | finished
deriving DecidableEq

/-- The claim of a run that has neither succeeded nor failed. -/
def Process.claim? : Process → Option Claim
  | .started c | .staged c _ | .ready c _ => some c
  | .idle | .failing _ _ | .finished => none

def Process.generation? : Process → Option GenerationId
  | .staged _ g | .ready _ g => some g
  | .idle | .started _ | .failing _ _ | .finished => none

structure State where
  db : Db
  runs : RunId → Process
  /-- Jobs that a heartbeat has read as processing and is about to touch. -/
  beats : RunId → Option JobId
  /-- Jobs that `_enqueue_durably` has read as staged and is about to mark as queued. -/
  requests : RequestId → Option JobId

def State.fresh (tenants : Table TenantId Tenant) : State where
  db := .fresh tenants
  runs := fun _ => .idle
  beats := fun _ => none
  requests := fun _ => none

inductive Action
  | upload (tenantId : TenantId) (documentId : DocumentId) (title sourceFilename : Text)
      (collectionIds : List CollectionId) (versionId : VersionId) (jobId : JobId) (now : Time)
  | uploadVersion (tenantId : TenantId) (documentId : DocumentId) (title : Text)
      (collectionIds : List CollectionId) (versionId : VersionId) (jobId : JobId) (now : Time)
  | reindex (tenantId : TenantId) (documentId : DocumentId) (versionId : VersionId) (jobId : JobId)
      (now : Time)
  | tombstone (tenantId : TenantId) (documentId : DocumentId) (now : Time)
  | start (r : RunId) (jobId : JobId) (now : Time)
  | persist (r : RunId) (sections : List BuiltSection) (chunks : List BuiltChunk) (pageCount : Nat)
      (now : Time)
  | markReady (r : RunId) (now : Time)
  | activate (r : RunId) (now : Time)
  | fault (r : RunId) (jobId : JobId) (detail : String)
  | markFailed (r : RunId) (now : Time)
  | beatRead (r : RunId)
  | beatWrite (r : RunId) (now : Time)
  | enqueueRead (q : RequestId) (jobId : JobId)
  | enqueueWrite (q : RequestId) (now : Time)

def Action.created? : Action → Option VersionId
  | .upload _ _ _ _ _ v _ _ | .uploadVersion _ _ _ _ v _ _ | .reindex _ _ v _ _ => some v
  | _ => none

def State.goOn (s : State) (db : Db) (r : RunId) (p : Process) : State :=
  { s with db, runs := Function.update s.runs r p }

def State.commit (s : State) : Except String Db → Option State
  | .ok db => some { s with db }
  | .error _ => none

/-- The heartbeat reads its job (`_heartbeat`). -/
def readBeat (s : State) (r : RunId) (c : Claim) : Option State :=
  match s.db.jobs.get? c.jobId with
  | some job =>
      if job.status = .processing then
        some { s with beats := Function.update s.beats r (some c.jobId) }
      else none
  | none => none

def touch (db : Db) (jobId : JobId) (now : Time) : Db :=
  { db with jobs := db.jobs.modify jobId fun j => { j with heartbeatAt := some now } }

/-- The unconditional update of `_enqueue_durably`. -/
def queue (db : Db) (jobId : JobId) (now : Time) : Db :=
  { db with jobs := db.jobs.modify jobId fun j =>
      { j with status := .queued, heartbeatAt := some now } }

/-- One action, under a heartbeat timeout; `none` when it cannot happen in the state. -/
def step (timeout : Nat) (s : State) : Action → Option State
  | .upload t d title filename cs v j now =>
      s.commit (uploadDocument s.db t d title filename cs v j now)
  | .uploadVersion t d title cs v j now => s.commit (uploadVersion s.db t d title cs v j now)
  | .reindex t d v j now => s.commit (reindexDocument s.db t d v j now)
  | .tombstone t d now => s.commit ((tombstoneDocument s.db t d now).map Prod.fst)
  | .start r jobId now =>
      match s.runs r with
      | .idle =>
          match start timeout s.db jobId now with
          | .ok (db, some c) => some (s.goOn db r (.started c))
          | .ok (db, none) => some (s.goOn db r .finished)
          | .error e => some (s.goOn s.db r (.failing jobId e))
      | _ => none
  | .persist r sections chunks pageCount now =>
      match s.runs r with
      | .started c =>
          match persistStagedContent s.db c sections chunks pageCount now with
          | .ok (db, g, _) => some (s.goOn db r (.staged c g))
          | .error e => some (s.goOn s.db r (.failing c.jobId e))
      | _ => none
  | .markReady r now =>
      match s.runs r with
      | .staged c g =>
          match markReady s.db c now with
          | .ok db => some (s.goOn db r (.ready c g))
          | .error e => some (s.goOn s.db r (.failing c.jobId e))
      | _ => none
  | .activate r now =>
      match s.runs r with
      | .ready c g =>
          match activate s.db c g now with
          | .ok db => some (s.goOn db r .finished)
          | .error e => some (s.goOn s.db r (.failing c.jobId e))
      | _ => none
  | .fault r jobId detail =>
      if s.runs r = .idle ∨ (s.runs r).claim?.any (·.jobId = jobId) then
        some (s.goOn s.db r (.failing jobId detail))
      else none
  | .markFailed r now =>
      match s.runs r with
      | .failing jobId detail => some (s.goOn (markFailed s.db jobId detail now) r .finished)
      | _ => none
  | .beatRead r => (s.runs r).claim?.bind (readBeat s r)
  | .beatWrite r now => (s.beats r).map fun jobId =>
      { s with db := touch s.db jobId now, beats := Function.update s.beats r none }
  | .enqueueRead q jobId =>
      -- A session keeps the job as it has seen it first, so this read stands right behind the upload of the request.
      if (s.db.jobs.get? jobId).any (·.status = .staged) then
        some { s with requests := Function.update s.requests q (some jobId) }
      else none
  | .enqueueWrite q now => (s.requests q).map fun jobId =>
      { s with db := queue s.db jobId now, requests := Function.update s.requests q none }

/-- The actions other than those of `_enqueue_durably`: uploads, deletions and runs of `process`. -/
def Action.isIngestion : Action → Bool
  | .enqueueRead _ _ | .enqueueWrite _ _ => false
  | _ => true

/-- Runs of ingestion take ingestion actions only. -/
abbrev ingestion : State → Action → Prop := fun _ a => a.isIngestion

def Action.isDeletion : Action → Bool
  | .tombstone _ _ _ => true
  | _ => false

/-- The action persists the content of a version that has the status `active`. -/
def persistsActive (s : State) : Action → Bool
  | .persist r _ _ _ _ =>
      (s.runs r).claim?.any fun c => (s.db.versions.get? c.versionId).any (·.status = .active)
  | _ => false

end Etoeragcb.Ingest
