import Etoeragcb.Ingest.Collector
import Mathlib.Algebra.BigOperators.Group.Finset.Basic
import Mathlib.Algebra.GroupWithZero.Nat

/-!
# The storage quota of a tenant

`_validate_quota` of `app/documents/routes.py` before uploads and reindexing, beside ingestion, deletions and garbage
collection. A raw file is as large as the row of its version says: both are written by one request.
-/

namespace Etoeragcb.Documents

open Lib Models Ingest

/-- `tenant_upload_quota_mb` and `upload_max_mb`, in bytes. -/
structure Limits where
  quotaBytes : Nat
  maxBytes : Nat

structure Depot where
  archive : Archive
  fileSizeBytes : VersionId → Nat

def Depot.fresh (tenants : Table TenantId Tenant) : Depot := ⟨.fresh tenants, fun _ => 0⟩

/-- A request with the size of the file that is uploaded, or another action. -/
inductive DepotAction
  | request (a : Action) (uploadedBytes : Nat)
  | other (a : ArchiveAction)

def requester? : Action → Option TenantId
  | .upload t _ _ _ _ _ _ _ | .uploadVersion t _ _ _ _ _ _ | .reindex t _ _ _ _ => some t
  | _ => none

def isRequest : ArchiveAction → Bool
  | .ingest a => (requester? a).isSome
  | _ => false

namespace Depot

variable (l : Limits) (s : Depot)

def db : Db := s.archive.ingest.db

/-- The sum of `file_size_bytes` over the versions of a tenant. -/
def used (t : TenantId) : Nat := ((s.db.versions.select fun _ v => v.tenantId = t).map fun x => s.fileSizeBytes x.1).sum

/-- `_validate_quota` raises 413. -/
def exceeds (t : TenantId) (newSize : Nat) : Bool := l.quotaBytes < s.used t + newSize

def sourceSize (d : DocumentId) : Nat :=
  (((s.db.documents.get? d).bind (·.activeVersionId)).map s.fileSizeBytes).getD 0

def newSize (a : Action) (uploadedBytes : Nat) : Nat :=
  match a with
  | .reindex _ d _ _ _ => s.sourceSize d
  | _ => uploadedBytes

def stored (t : TenantId) : Nat :=
  (s.archive.files.filter fun v => (s.db.versions.get? v).any (·.tenantId = t)).sum s.fileSizeBytes

end Depot

def depotStep (l : Limits) (timeout : Nat) (s : Depot) : DepotAction → Option Depot
  | .request a uploadedBytes =>
      match requester? a, a.created? with
      | some t, some v =>
          if uploadedBytes ≤ l.maxBytes ∧ ¬s.exceeds l t (s.newSize a uploadedBytes) then
            (archiveStep timeout s.archive (.ingest a)).map fun archive =>
              ⟨archive, Function.update s.fileSizeBytes v (s.newSize a uploadedBytes)⟩
          else none
      | _, _ => none
  | .other a => if isRequest a then none else (archiveStep timeout s.archive a).map fun archive => { s with archive }

/-- A request of the tenant that adds `newSize` bytes reaches the quota check and gets 413. -/
inductive Rejected (l : Limits) (s : Depot) (t : TenantId) : Nat → Prop
  | upload (size : Nat) (small : size ≤ l.maxBytes) (full : s.exceeds l t size = true) : Rejected l s t size
  | reindex (d : DocumentId) (full : s.exceeds l t (s.sourceSize d) = true) : Rejected l s t (s.sourceSize d)

/-- The files stay within the quota, and a rejected request would have left it. -/
structure QuotaKept (l : Limits) (s : Depot) : Prop where
  owned : ∀ v ∈ s.archive.files, (s.db.versions.get? v).isSome
  within : ∀ t, s.stored t ≤ l.quotaBytes
  rejected : ∀ t newSize, Rejected l s t newSize → l.quotaBytes < s.stored t + newSize

/-- The file of every version of the tenant that is not empty still exists. -/
def FilesThere (s : Depot) (t : TenantId) : Prop :=
  ∀ v row, s.db.versions.get? v = some row → row.tenantId = t → v ∈ s.archive.files ∨ s.fileSizeBytes v = 0

end Etoeragcb.Documents
