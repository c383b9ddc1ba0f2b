import Etoeragcb.Models.Content
import Mathlib.Logic.Function.Basic

/-!
# The catalog

What ingestion is for, without its stages: tenants point to an active generation, a generation lists one
version for each document, and generations are prepared aside and then switched to. A preparation is
made from the generation that is active at the time and may be switched to much later, after others.
-/

namespace Etoeragcb.Ingest

open Models

structure DocumentView where
  tenantId : TenantId
  live : Bool
  active : Option VersionId

structure VersionView where
  tenantId : TenantId
  documentId : DocumentId
  number : Nat

structure GenerationView where
  tenantId : TenantId
  changed : Option VersionId
  parent : Option GenerationId
  active : Bool

structure JobView where
  versionId : VersionId
  succeeded : Bool

structure Catalog where
  tenant : TenantId → Option Tenant
  document : DocumentId → Option DocumentView
  version : VersionId → Option VersionView
  generation : GenerationId → Option GenerationView
  row : GenerationId → DocumentId → Option IndexGenerationDocument
  job : JobId → Option JobView

namespace Catalog

def current (s : Catalog) (t : TenantId) : Option GenerationId :=
  (s.tenant t).bind Tenant.activeIndexGenerationId

def lists (s : Catalog) (g : GenerationId) (d : DocumentId) : Option VersionId :=
  (s.row g d).map IndexGenerationDocument.documentVersionId

def listed (s : Catalog) (t : TenantId) (d : DocumentId) : Option VersionId :=
  (s.current t).bind (s.lists · d)

def activeVersion (s : Catalog) (t : TenantId) (d : DocumentId) : Option VersionId :=
  (s.document d).bind fun r => if r.tenantId = t ∧ r.live = true then r.active else none

/-- The rows of the tenant in the generation `source`, for the documents other than `d`. -/
def copied (s : Catalog) (source : Option GenerationId) (t : TenantId) (d d' : DocumentId) :
    Option IndexGenerationDocument :=
  if d' = d then none
  else (source.bind (s.row · d')).bind fun r =>
    if r.tenantId = t then some ⟨t, r.documentVersionId⟩ else none

/-- The copied rows with the version `v` of `d` among them. -/
def built (s : Catalog) (source : Option GenerationId) (t : TenantId) (d : DocumentId) (v : VersionId)
    (d' : DocumentId) : Option IndexGenerationDocument :=
  if d' = d then some ⟨t, v⟩ else s.copied source t d d'

inductive Step (s : Catalog) : Catalog → Prop
  | stage {t d v j n document'} (hv : s.version v = none) (hj : s.job j = none)
      (hd : (s.document d = none ∧ document' = Function.update s.document d (some ⟨t, true, none⟩)) ∨
        ((∃ a, s.document d = some ⟨t, true, a⟩) ∧ document' = s.document)) :
      Step s { s with
        document := document'
        version := Function.update s.version v (some ⟨t, d, n⟩)
        job := Function.update s.job j (some ⟨v, false⟩) }
  | prepare {T t d v n g} (hv : s.version v = some ⟨t, d, n⟩) (ht : s.tenant t = some T)
      (hg : s.generation g = none ∨ ∃ t' p, s.generation g = some ⟨t', some v, p, false⟩) :
      Step s { s with
        generation := Function.update s.generation g
          (some ⟨t, some v, T.activeIndexGenerationId, false⟩)
        row := Function.update s.row g (s.built T.activeIndexGenerationId t d v) }
  | activate {T t d v n a j g p b row'} (hv : s.version v = some ⟨t, d, n⟩)
      (hd : s.document d = some ⟨t, true, a⟩) (hj : s.job j = some ⟨v, false⟩)
      (ht : s.tenant t = some T) (hg : s.generation g = some ⟨t, some v, p, b⟩)
      (hnewer : ∀ v' r, a = some v' → s.version v' = some r → v' ≠ v → r.number ≤ n)
      (hrow : (p = T.activeIndexGenerationId ∧ row' = s.row) ∨
        row' = Function.update s.row g (s.built T.activeIndexGenerationId t d v)) :
      Step s { s with
        tenant := Function.update s.tenant t (some ⟨some g, T.retrievalRevision + 1⟩)
        document := Function.update s.document d (some ⟨t, true, some v⟩)
        generation := Function.update s.generation g
          (some ⟨t, some v, T.activeIndexGenerationId, true⟩)
        row := row'
        job := Function.update s.job j (some ⟨v, true⟩) }
  | remove {T t d a g job'} (hd : s.document d = some ⟨t, true, a⟩) (ht : s.tenant t = some T)
      (hg : s.generation g = none)
      (hjob : ∀ j, job' j = s.job j ∨ ∃ v b r, s.job j = some ⟨v, b⟩ ∧ s.version v = some r ∧
        r.documentId = d ∧ job' j = some ⟨v, false⟩) :
      Step s { s with
        tenant := Function.update s.tenant t (some ⟨some g, T.retrievalRevision + 1⟩)
        document := Function.update s.document d (some ⟨t, false, none⟩)
        generation := Function.update s.generation g
          (some ⟨t, none, T.activeIndexGenerationId, true⟩)
        row := Function.update s.row g (s.copied T.activeIndexGenerationId t d)
        job := job' }
  | bump {T t} (ht : s.tenant t = some T) :
      Step s { s with
        tenant := Function.update s.tenant t (some ⟨T.activeIndexGenerationId, T.retrievalRevision + 1⟩) }

structure Sound (s : Catalog) : Prop where
  version_document : ∀ {v r}, s.version v = some r → ∃ l a, s.document r.documentId = some ⟨r.tenantId, l, a⟩
  job_version : ∀ {j r}, s.job j = some r → ∃ rv, s.version r.versionId = some rv
  job_unique : ∀ {j j' r r'}, s.job j = some r → s.job j' = some r' → r.versionId = r'.versionId → j = j'
  /-- The active version of a document is one of its own, and deletion clears it. -/
  active_version : ∀ {d r v}, s.document d = some r → r.active = some v →
    r.live = true ∧ ∃ rv, s.version v = some rv ∧ rv.documentId = d
  /-- The job of an active version has succeeded. -/
  settled : ∀ {d r v j rj}, s.document d = some r → r.active = some v → s.job j = some rj →
    rj.versionId = v → rj.succeeded = true
  current_active : ∀ {t g}, s.current t = some g →
    ∃ r, s.generation g = some r ∧ r.tenantId = t ∧ r.active = true
  changed_version : ∀ {g r v}, s.generation g = some r → r.changed = some v →
    ∃ rv, s.version v = some rv ∧ rv.tenantId = r.tenantId
  row_generation : ∀ {g d r}, s.row g d = some r → ∃ rg, s.generation g = some rg ∧ rg.tenantId = r.tenantId
  row_version : ∀ {g d r}, s.row g d = some r → ∃ rv, s.version r.documentVersionId = some rv ∧ rv.documentId = d
  /-- A generation that was never switched to was prepared from one that was. -/
  parent_active : ∀ {g r p}, s.generation g = some r → r.active = false → r.parent = some p →
    ∃ rp, s.generation p = some rp ∧ rp.tenantId = r.tenantId ∧ rp.active = true
  /-- A generation is switched to by the job of its version, once. -/
  consumed : ∀ {g r v rv}, s.generation g = some r → r.active = true → r.changed = some v →
    s.version v = some rv →
    (∀ j rj, s.job j = some rj → rj.versionId = v → rj.succeeded = true) ∨
      ∃ rd, s.document rv.documentId = some rd ∧ rd.live = false
  /-- A prepared generation lists what its parent lists, with its own version in place. -/
  prepared : ∀ {g r v rv}, s.generation g = some r → r.active = false → r.changed = some v →
    s.version v = some rv →
    ∀ d, s.lists g d = if d = rv.documentId then some v else r.parent.bind (s.lists · d)
  /-- The active generation lists the active versions of the live documents and nothing else. -/
  exact : ∀ t d, s.listed t d = s.activeVersion t d

end Catalog

end Etoeragcb.Ingest
