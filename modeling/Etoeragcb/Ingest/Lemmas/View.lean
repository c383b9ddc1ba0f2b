import Etoeragcb.Ingest.Machine
import Etoeragcb.Ingest.Lemmas.Catalog

/-!
# The database as a catalog

What each transaction does to the catalog that a database shows.
-/

namespace Etoeragcb.Ingest

open Lib Models

/-! ## The view -/

def documentView (r : Document) : DocumentView := ⟨r.tenantId, r.deletedAt.isNone, r.activeVersionId⟩

def versionView (r : DocumentVersion) : VersionView := ⟨r.tenantId, r.documentId, r.version⟩

def generationView (r : IndexGeneration) : GenerationView :=
  ⟨r.tenantId, r.changedDocumentVersionId, r.parentGenerationId, decide (r.status = .active)⟩

def jobView (r : IngestionJob) : JobView := ⟨r.documentVersionId, decide (r.status = .succeeded)⟩

/-- The catalog that a database shows. -/
def view (db : Db) : Catalog where
  tenant := db.tenants.get?
  document := db.documents.view documentView
  version := db.versions.view versionView
  generation := db.generations.view generationView
  row g d := db.generationDocuments.get? (g, d)
  job := db.jobs.view jobView

variable {db db' : Db} {t : TenantId} {d : DocumentId} {v : VersionId} {g : GenerationId} {j : JobId}
  {now : Time}

theorem view_listed (db : Db) (t : TenantId) (d : DocumentId) : (view db).listed t d = db.listed t d := rfl

theorem view_activeVersion (db : Db) (t : TenantId) (d : DocumentId) :
    (view db).activeVersion t d = db.activeVersion t d := by
  simp only [Catalog.activeVersion, Db.activeVersion, view, Table.view]
  cases db.documents.get? d with
  | none => rfl
  | some r => simp [documentView]

theorem view_congr (ht : db'.tenants = db.tenants)
    (hd : db'.documents.view documentView = db.documents.view documentView)
    (hv : db'.versions.view versionView = db.versions.view versionView)
    (hg : db'.generations.view generationView = db.generations.view generationView)
    (hr : db'.generationDocuments = db.generationDocuments)
    (hj : db'.jobs.view jobView = db.jobs.view jobView) : view db' = view db := by
  simp only [view, ht, hd, hv, hg, hr, hj]

theorem view_document {r : Document} (h : db.documents.get? d = some r) :
    (view db).document d = some (documentView r) := by
  simp [view, Table.view, h]

theorem view_version {r : DocumentVersion} (h : db.versions.get? v = some r) :
    (view db).version v = some (versionView r) := by
  simp [view, Table.view, h]

theorem view_generation {r : IndexGeneration} (h : db.generations.get? g = some r) :
    (view db).generation g = some (generationView r) := by
  simp [view, Table.view, h]

theorem view_job {r : IngestionJob} (h : db.jobs.get? j = some r) :
    (view db).job j = some (jobView r) := by
  simp [view, Table.view, h]

theorem Catalog.Sound.fresh {tenants : Table TenantId Tenant}
    (h : ∀ t r, tenants.get? t = some r → r.activeIndexGenerationId = none) :
    (view (Db.fresh tenants)).Sound := by
  have hcur : ∀ t, (view (Db.fresh tenants)).current t = none := by
    intro t
    simp only [Catalog.current, view, Db.fresh]
    cases ht : tenants.get? t with
    | none => rfl
    | some r => exact h t r ht
  constructor
  case current_active => intro t g hg; rw [hcur] at hg; cases hg
  case exact =>
    intro t d
    rw [Catalog.listed, hcur]
    simp [Catalog.activeVersion, view, Db.fresh, Table.view]
  all_goals intros; simp_all [view, Db.fresh, Table.view]

/-! ## Manifests -/

variable {rows rows' : Table (GenerationId × DocumentId) IndexGenerationDocument} {s : Catalog}
  {source : Option GenerationId}

theorem dropManifest_get? (k : GenerationId × DocumentId) :
    (dropManifest rows g).get? k = if k.1 = g then none else rows.get? k := by
  simp only [dropManifest, Table.get?_delete]
  by_cases h : k.1 = g <;> cases rows.get? k <;> simp [h]

theorem copyManifest_row (h : copyManifest rows source g t d = .ok rows')
    (hempty : ∀ d', rows.get? (g, d') = none)
    (hrows : ∀ g' d', g' ≠ g → rows.get? (g', d') = s.row g' d')
    (hsource : ∀ p, source = some p → p ≠ g) (g' : GenerationId) (d' : DocumentId) :
    rows'.get? (g', d') = Function.update s.row g (s.copied source t d) g' d' := by
  cases source with
  | none =>
      simp only [copyManifest, Except.ok.injEq] at h
      subst h
      by_cases he : g' = g
      · subst he; simp [hempty, Catalog.copied]
      · simp [he, hrows]
  | some p =>
      simp only [copyManifest, orRaise_eq_ok] at h
      apply Option.ext
      intro r
      rw [Table.get?_insertAll? h]
      simp only [copiedRows, List.mem_map, Prod.exists, Prod.mk.injEq, Table.mem_select,
        Bool.and_eq_true, decide_eq_true_eq]
      by_cases he : g' = g
      · subst he
        simp only [hempty, reduceCtorEq, or_false, Function.update_self, Catalog.copied, Option.bind_some]
        constructor
        · rintro ⟨q, d₀, r₀, ⟨hr, ⟨rfl, ht⟩, hd⟩, ⟨_, rfl⟩, rfl⟩
          rw [hrows _ _ (hsource q rfl)] at hr
          simp [hd, hr, ht]
        · intro hr
          by_cases hd : d' = d
          · simp [hd] at hr
          · simp only [hd, ↓reduceIte, Option.bind_eq_some_iff] at hr
            obtain ⟨r₀, hr₀, hr⟩ := hr
            split at hr
            · rename_i ht
              cases hr
              exact ⟨p, d', r₀, ⟨(hrows p d' (hsource p rfl)).trans hr₀, ⟨rfl, ht⟩, hd⟩, ⟨trivial, rfl⟩, rfl⟩
            · cases hr
      · rw [Function.update_of_ne he, hrows g' d' he]
        constructor
        · rintro (⟨_, _, _, _, ⟨rfl, _⟩, _⟩ | hr)
          · exact absurd rfl he
          · exact hr
        · exact Or.inr

theorem buildManifest_row (h : buildManifest rows source g t d ⟨t, v⟩ = .ok rows')
    (hempty : ∀ d', rows.get? (g, d') = none)
    (hrows : ∀ g' d', g' ≠ g → rows.get? (g', d') = s.row g' d')
    (hsource : ∀ p, source = some p → p ≠ g) (g' : GenerationId) (d' : DocumentId) :
    rows'.get? (g', d') = Function.update s.row g (s.built source t d v) g' d' := by
  simp only [buildManifest, bind_eq_ok, orRaise_eq_ok] at h
  obtain ⟨rows₁, h₁, h⟩ := h
  rw [Table.get?_insert? h, copyManifest_row h₁ hempty hrows hsource g' d']
  by_cases he : g' = g
  · subst he
    by_cases hd : d' = d <;> simp [Catalog.built, hd]
  · simp [he]

end Etoeragcb.Ingest
