import Etoeragcb.Ingest.Lemmas.View

/-!
# What each transaction writes

One inversion lemma for each transaction, and the step of the catalog that it takes.
-/

namespace Etoeragcb.Ingest

open Lib Models

variable {db db' : Db} {t : TenantId} {d : DocumentId} {v : VersionId} {g : GenerationId} {j : JobId}
  {c : Claim} {now : Time}

/-! ## `_start`, `_mark_ready`, `_mark_failed` and the heartbeat -/

theorem start_cases {timeout : Nat} {oc : Option Claim} (h : start timeout db j now = .ok (db', oc)) :
    (db' = db ∧ oc = none) ∨
    ∃ job version, db.jobs.get? j = some job ∧ db.versions.get? job.documentVersionId = some version ∧
      job.status ≠ .succeeded ∧ leaseHeld timeout job now = false ∧
      db' = claimed db j job.documentVersionId now ∧
      oc = some ⟨j, job.documentVersionId, version.tenantId, job.attempt + 1⟩ := by
  simp only [start, bind_eq_ok, orRaise_eq_ok, Option.filter_eq_some_iff] at h
  obtain ⟨job, hj, version, ⟨hv, _⟩, _, _, h⟩ := h
  by_cases hs : job.status = .succeeded
  · simp only [hs, ↓reduceIte, pure_eq_ok, Prod.mk.injEq] at h
    exact Or.inl ⟨h.1.symm, h.2.symm⟩
  · cases hl : leaseHeld timeout job now with
    | true =>
        simp only [hs, hl, ↓reduceIte, pure_eq_ok, Prod.mk.injEq] at h
        exact Or.inl ⟨h.1.symm, h.2.symm⟩
    | false =>
        simp only [hs, hl, ↓reduceIte, Bool.false_eq_true, pure_eq_ok, Prod.mk.injEq] at h
        exact Or.inr ⟨job, version, hj, hv, hs, hl, h.1.symm, h.2.symm⟩

theorem markReady_cases (h : markReady db c now = .ok db') :
    db' = db ∨ ∃ job, db.jobs.get? c.jobId = some job ∧ job.status ≠ .succeeded ∧ db' = readied db c now := by
  simp only [markReady, bind_eq_ok, orRaise_eq_ok] at h
  obtain ⟨_, _, job, hj, h⟩ := h
  by_cases hs : job.status = .succeeded
  · simp only [hs, ↓reduceIte, pure_eq_ok] at h
    exact Or.inl h.symm
  · simp only [hs, ↓reduceIte, pure_eq_ok] at h
    exact Or.inr ⟨job, hj, hs, h.symm⟩

theorem view_jobs_modify {f : IngestionJob → IngestionJob} {job : IngestionJob}
    (hj : db.jobs.get? j = some job) (h : jobView (f job) = jobView job) :
    (db.jobs.modify j f).view jobView = db.jobs.view jobView := by
  refine Table.view_modify fun r hr => ?_
  rw [hj] at hr; cases hr
  exact h

theorem start_view {timeout : Nat} {oc : Option Claim} (h : start timeout db j now = .ok (db', oc)) :
    view db' = view db := by
  rcases start_cases h with ⟨rfl, _⟩ | ⟨job, version, hj, _, hs, _, rfl, _⟩
  · rfl
  · refine view_congr rfl rfl (Table.view_modify fun _ _ => rfl) rfl rfl ?_
    exact view_jobs_modify hj (by simp [jobView, hs])

theorem markReady_view (h : markReady db c now = .ok db') : view db' = view db := by
  rcases markReady_cases h with rfl | ⟨_, _, _, rfl⟩
  · rfl
  · exact view_congr rfl rfl (Table.view_modify fun _ _ => rfl) rfl rfl (Table.view_modify fun _ _ => rfl)

theorem touch_view (db : Db) (j : JobId) (now : Time) : view (touch db j now) = view db :=
  view_congr rfl rfl rfl rfl rfl (Table.view_modify fun _ _ => rfl)

theorem markFailed_view (db : Db) (j : JobId) (detail : String) (now : Time) :
    view (markFailed db j detail now) = view db := by
  cases hj : db.jobs.get? j with
  | none => simp [markFailed, hj]
  | some job =>
      by_cases hs : job.status = .succeeded
      · simp [markFailed, hj, hs]
      · have hjobs : (db.jobs.modify j fun j => { j with
            status := .failed, error := some detail, heartbeatAt := some now }).view jobView =
            db.jobs.view jobView := view_jobs_modify hj (by simp [jobView, hs])
        simp only [markFailed, hj, hs, ↓reduceIte]
        cases hv : db.versions.get? job.documentVersionId with
        | none => exact view_congr rfl rfl rfl rfl rfl hjobs
        | some version =>
            by_cases ha : version.status = .active
            · simp only [ha, ↓reduceIte]
              exact view_congr rfl rfl rfl rfl rfl hjobs
            · simp only [ha, ↓reduceIte]
              refine view_congr rfl rfl (Table.view_modify fun _ _ => rfl) (Table.view_update ?_) rfl hjobs
              -- Only a preparing generation fails, and neither status is the active one.
              intro g r _
              split
              · rename_i hp
                simp [generationView, hp.2]
              · rfl

/-! ## `_persist_staged_content` -/

/-- A fold that keeps what it has or takes the next item ends with what it started with or with one of the items. -/
theorem mem_of_foldl {α : Type} {f : Option α → α → Option α} {rows : List α} {o : Option α} {x : α}
    (hf : ∀ o y, f o y = o ∨ f o y = some y) (h : rows.foldl f o = some x) : o = some x ∨ x ∈ rows := by
  induction rows generalizing o with
  | nil => exact Or.inl h
  | cons y rows ih =>
      rcases ih h with hy | hx
      · rcases hf o y with ho | ho
        · exact Or.inl (ho ▸ hy)
        · rw [ho, Option.some.injEq] at hy
          exact Or.inr (hy ▸ List.mem_cons_self)
      · exact Or.inr (List.mem_cons_of_mem _ hx)

theorem latest_mem {ρ : Type} {rows : List (Nat × ρ)} {x : Nat × ρ} (h : latest rows = some x) :
    x ∈ rows := by
  refine (mem_of_foldl ?_ h).resolve_left (by simp)
  intro o y
  cases o with
  | none => exact Or.inr rfl
  | some b =>
      simp only
      split
      · exact Or.inr rfl
      · exact Or.inl rfl

theorem priorGeneration_eq_some {r : IndexGeneration} (h : priorGeneration db v = some (g, r)) :
    db.generations.get? g = some r ∧ r.changedDocumentVersionId = some v ∧ r.status = .preparing := by
  have hm := latest_mem h
  rw [Table.mem_select] at hm
  simpa using hm

theorem prepareGeneration_frame {tenant : Tenant} {version : DocumentVersion}
    (h : prepareGeneration db tenant v version = .ok (db', g)) :
    ∃ generations rows, db' = { db with generations, generationDocuments := rows } := by
  unfold prepareGeneration at h
  split at h
  · simp only [bind_eq_ok, orRaise_eq_ok, pure_eq_ok, Prod.mk.injEq] at h
    obtain ⟨generations, -, rfl, -⟩ := h
    exact ⟨_, _, rfl⟩
  · simp only [pure_eq_ok, Prod.mk.injEq] at h
    obtain ⟨rfl, -⟩ := h
    exact ⟨_, _, rfl⟩

theorem prepareGeneration_cases {tenant : Tenant} {version : DocumentVersion}
    (h : prepareGeneration db tenant v version = .ok (db', g)) (hs : (view db).Sound)
    (hv : db.versions.get? v = some version) :
    (db.generations.get? g = none ∨ ∃ r, db.generations.get? g = some r ∧
      r.changedDocumentVersionId = some v ∧ r.status = .preparing) ∧
    ∃ generations rows, db' = { db with generations, generationDocuments := rows } ∧
      generations.view generationView = Function.update (db.generations.view generationView) g
        (some ⟨version.tenantId, some v, tenant.activeIndexGenerationId, false⟩) ∧
      (∀ d, rows.get? (g, d) = none) ∧
      ∀ g' d, g' ≠ g → rows.get? (g', d) = db.generationDocuments.get? (g', d) := by
  cases hp : priorGeneration db v with
  | none =>
      simp only [prepareGeneration, hp, bind_eq_ok, orRaise_eq_ok, pure_eq_ok, Prod.mk.injEq] at h
      obtain ⟨generations, hi, rfl, rfl⟩ := h
      have hfresh := Table.insert?_fresh hi
      refine ⟨Or.inl hfresh, _, _, rfl, Table.view_insert? hi, fun d => ?_, fun _ _ _ => rfl⟩
      rw [Option.eq_none_iff_forall_not_mem]
      intro r hr
      obtain ⟨rg, hrg, _⟩ := hs.row_generation (g := nextKey db.generations) (d := d) hr
      rw [show (view db).generation _ = none from Table.view_eq_none.mpr hfresh] at hrg
      cases hrg
  | some x =>
      obtain ⟨g', r⟩ := x
      simp only [prepareGeneration, hp, pure_eq_ok, Prod.mk.injEq] at h
      obtain ⟨rfl, rfl⟩ := h
      obtain ⟨hr, hc, hst⟩ := priorGeneration_eq_some hp
      have ht : r.tenantId = version.tenantId := by
        obtain ⟨rv, hrv, htt⟩ := hs.changed_version (view_generation hr) hc
        rw [view_version hv] at hrv; cases hrv
        exact htt.symm
      refine ⟨Or.inr ⟨r, hr, hc, hst⟩, _, _, rfl, ?_, fun d => ?_, fun g'' d hne => ?_⟩
      · exact Table.view_modify_update hr (by simp [generationView, hc, hst, ht])
      · simp [dropManifest_get?]
      · simp [dropManifest_get?, hne]

theorem persistStagedContent_cases {sections : List BuiltSection} {chunks : List BuiltChunk}
    {pageCount : Nat} {cs : List CollectionId}
    (h : persistStagedContent db c sections chunks pageCount now = .ok (db', g, cs)) :
    ∃ tenant version job db₁ rows newSections newChunks,
      db.tenants.get? c.tenantId = some tenant ∧ db.versions.get? c.versionId = some version ∧
      db.jobs.get? c.jobId = some job ∧
      prepareGeneration db tenant c.versionId version = .ok (db₁, g) ∧
      buildManifest db₁.generationDocuments tenant.activeIndexGenerationId g c.tenantId
        version.documentId ⟨version.tenantId, c.versionId⟩ = .ok rows ∧
      (db.sections.delete fun _ r => r.documentVersionId = c.versionId).insertAll?
        (sections.map (sectionRow c.versionId version)) = some newSections ∧
      (db.chunks.delete fun _ r => r.documentVersionId = c.versionId).insertAll?
        (chunks.map (chunkRow c.versionId version)) = some newChunks ∧
      db' = persisted { db₁ with
        sections := newSections, chunks := newChunks, generationDocuments := rows } c g pageCount
        sections.length chunks.length now := by
  simp only [persistStagedContent, bind_eq_ok, orRaise_eq_ok, Prod.exists] at h
  obtain ⟨tenant, ht, version, hv, job, hj, db₁, g₁, hp, rows, hr, newSections, hsec, newChunks, hch, h⟩ := h
  simp only [pure_eq_ok, Prod.mk.injEq] at h
  obtain ⟨rfl, rfl, _⟩ := h
  exact ⟨tenant, version, job, db₁, rows, newSections, newChunks, ht, hv, hj, hp, hr, hsec, hch, rfl⟩

theorem Catalog.Sound.current_ne (hs : (view db).Sound) {tenant : Tenant} (ht : db.tenants.get? t = some tenant)
    (hg : db.generations.get? g = none ∨ ∃ r, db.generations.get? g = some r ∧
      r.status = .preparing) {p : GenerationId} (hp : tenant.activeIndexGenerationId = some p) : p ≠ g := by
  rintro rfl
  obtain ⟨rp, hrp, _, ha⟩ := hs.current_active ((Catalog.current_eq (s := view db) ht).trans hp)
  rcases hg with hn | ⟨r, hr, hst⟩
  · rw [show (view db).generation p = none from Table.view_eq_none.mpr hn] at hrp; cases hrp
  · rw [view_generation hr] at hrp; cases hrp
    simp [generationView, hst] at ha

theorem persistStagedContent_step {sections : List BuiltSection} {chunks : List BuiltChunk}
    {pageCount : Nat} {cs : List CollectionId}
    (h : persistStagedContent db c sections chunks pageCount now = .ok (db', g, cs))
    (hs : (view db).Sound) {version : DocumentVersion} (hv : db.versions.get? c.versionId = some version)
    (ht : version.tenantId = c.tenantId) : (view db).Step (view db') := by
  obtain ⟨tenant, version', job, db₁, rows, newSections, newChunks, hT, hv', hj, hp, hb, _, _, rfl⟩ :=
    persistStagedContent_cases h
  rw [hv] at hv'; cases hv'
  obtain ⟨hg, generations, rows₁, rfl, hgen, hempty, hrows⟩ := prepareGeneration_cases hp hs hv
  have hgp : db.generations.get? g = none ∨ ∃ r, db.generations.get? g = some r ∧ r.status = .preparing :=
    hg.imp id fun ⟨r, hr, _, hst⟩ => ⟨r, hr, hst⟩
  rw [← ht] at hb hT
  have hrow := buildManifest_row (s := view db) hb hempty hrows fun p hp' => hs.current_ne hT hgp hp'
  have hst := Catalog.Step.prepare (s := view db) (g := g) (view_version hv)
    (show (view db).tenant version.tenantId = some tenant from hT) (by
      rcases hg with hn | ⟨r, hr, hc, hst⟩
      · exact Or.inl (Table.view_eq_none.mpr hn)
      · refine Or.inr ⟨r.tenantId, r.parentGenerationId, (view_generation hr).trans ?_⟩
        simp [generationView, hc, hst])
  convert hst using 1
  simp only [view, persisted]
  congr 1
  · exact Table.view_modify fun _ _ => rfl
  · funext g' d'
    exact hrow g' d'
  · exact Table.view_modify fun _ _ => rfl

/-! ## `_activate` -/

theorem activate_cases (h : activate db c g now = .ok db') :
    (db' = db ∧ ∃ job, db.jobs.get? c.jobId = some job ∧ job.status = .succeeded) ∨
    ∃ version generation job tenant document rows,
      db.versions.get? c.versionId = some version ∧ db.generations.get? g = some generation ∧
      db.jobs.get? c.jobId = some job ∧ job.status ≠ .succeeded ∧
      db.tenants.get? version.tenantId = some tenant ∧
      db.documents.get? version.documentId = some document ∧ document.tenantId = version.tenantId ∧
      document.deletedAt = none ∧ newerActive db document c.versionId version = false ∧
      rebase db version.tenantId tenant g generation version.documentId c.versionId = .ok rows ∧
      db' = activated db c g version document tenant rows now := by
  simp only [activate, bind_eq_ok, orRaise_eq_ok] at h
  obtain ⟨version, hv, generation, hg, job, hj, h⟩ := h
  by_cases hs : job.status = .succeeded
  · simp only [hs, ↓reduceIte, pure_eq_ok] at h
    exact Or.inl ⟨h.symm, job, hj, hs⟩
  · simp only [hs, ↓reduceIte, bind_eq_ok, orRaise_eq_ok, Option.filter_eq_some_iff] at h
    obtain ⟨tenant, ht, document, ⟨hd, hdoc⟩, h⟩ := h
    cases hn : newerActive db document c.versionId version with
    | true => simp [hn] at h
    | false =>
        simp only [hn, ↓reduceIte, Bool.false_eq_true, bind_eq_ok, pure_eq_ok] at h
        obtain ⟨rows, hr, rfl⟩ := h
        simp only [Bool.and_eq_true, decide_eq_true_eq, Option.isNone_iff_eq_none] at hdoc
        exact Or.inr ⟨version, generation, job, tenant, document, rows, hv, hg, hj, hs, ht, hd, hdoc.1,
          hdoc.2, hn, hr, rfl⟩

/-- A version that replaces the active one has no smaller number. -/
theorem newerActive_eq_false {document : Document} {version r : DocumentVersion} {v' : VersionId}
    (h : newerActive db document v version = false) (ha : document.activeVersionId = some v')
    (hr : db.versions.get? v' = some r) (hne : v' ≠ v) : r.version ≤ version.version := by
  simp only [newerActive, ha, Option.any_some, Db.versionNumber, hr, Option.map_some, Bool.and_eq_false_iff,
    decide_eq_false_iff_not, not_not, Nat.not_lt] at h
  exact h.resolve_left hne

theorem activate_step (h : activate db c g now = .ok db') (hs : (view db).Sound)
    (hlink : ∃ job, db.jobs.get? c.jobId = some job ∧ job.documentVersionId = c.versionId)
    (hgen : ∃ r, db.generations.get? g = some r ∧ r.changedDocumentVersionId = some c.versionId) :
    view db' = view db ∨ (view db).Step (view db') := by
  rcases activate_cases h with ⟨rfl, _⟩ | ⟨version, generation, job, tenant, document, rows, hv, hg, hj, hns,
    ht, hd, hdt, hlive, hnewer, hrows, rfl⟩
  · exact Or.inl rfl
  · right
    obtain ⟨job', hj', hjv⟩ := hlink
    rw [hj] at hj'; cases hj'
    obtain ⟨r, hr, hc⟩ := hgen
    rw [hg] at hr; cases hr
    have hvv := view_version hv
    have hdd : (view db).document version.documentId =
        some ⟨version.tenantId, true, document.activeVersionId⟩ := by
      rw [view_document hd]; simp [documentView, hdt, hlive]
    have hjj : (view db).job c.jobId = some ⟨c.versionId, false⟩ := by
      rw [view_job hj]; simp [jobView, hjv, hns]
    have hgt : generation.tenantId = version.tenantId := by
      obtain ⟨rv, hrv, htt⟩ := hs.changed_version (view_generation hg) hc
      rw [hvv] at hrv; cases hrv
      exact htt.symm
    have hgg : (view db).generation g = some ⟨version.tenantId, some c.versionId,
        generation.parentGenerationId, decide (generation.status = .active)⟩ := by
      rw [view_generation hg]; simp [generationView, hc, hgt]
    have hinactive := hs.inactive hvv hdd hjj hgg
    have hsource : ∀ p, tenant.activeIndexGenerationId = some p → p ≠ g := by
      rintro p hp rfl
      obtain ⟨rp, hrp, _, ha⟩ := hs.current_active ((Catalog.current_eq (s := view db) ht).trans hp)
      rw [hgg] at hrp; cases hrp
      rw [hinactive] at ha; cases ha
    -- The manifest is the prepared one or is built again.
    have hrow : (generation.parentGenerationId = tenant.activeIndexGenerationId ∧
          (fun g d => rows.get? (g, d)) = (view db).row) ∨
        (fun g d => rows.get? (g, d)) = Function.update (view db).row g
          ((view db).built tenant.activeIndexGenerationId version.tenantId version.documentId
            c.versionId) := by
      unfold rebase at hrows
      split at hrows
      · rename_i hp
        cases hrows
        exact Or.inl ⟨hp, rfl⟩
      · right
        funext g' d'
        refine buildManifest_row hrows (fun d' => by simp [dropManifest_get?]) (fun g'' d'' hne => ?_)
          hsource g' d'
        simp [dropManifest_get?, hne, view]
    have hst := Catalog.Step.activate (s := view db) (d := version.documentId) hvv hdd hjj ht hgg
      (fun v' r ha hr hne => by
        obtain ⟨r', hr', rfl⟩ := Table.view_eq_some.mp hr
        exact newerActive_eq_false hnewer ha hr' hne) hrow
    convert hst using 1
    simp only [view, activated]
    congr 1
    · exact Table.get?_modify_update ht
    · exact Table.view_modify_update hd (by simp [documentView, hdt, hlive])
    · refine Table.view_update fun v r _ => ?_
      split
      · rfl
      · split <;> rfl
    · exact Table.view_modify_update hg (by simp [generationView, hgt, hc])
    · exact Table.view_modify_update hj (by simp [jobView, hjv])

/-! ## `tombstone_document` -/

theorem tombstoneDocument_cases {n : Nat} (h : tombstoneDocument db t d now = .ok (db', n)) :
    ∃ tenant document g generations rows,
      db.tenants.get? t = some tenant ∧ db.documents.get? d = some document ∧ document.tenantId = t ∧
      document.deletedAt = none ∧
      (failPending db t d).generations.insert? g {
        tenantId := t, reason := "document_delete", changedDocumentVersionId := none
        parentGenerationId := tenant.activeIndexGenerationId, status := .active
        retrievalRevision := tenant.retrievalRevision + 1, activatedAt := some now } = some generations ∧
      copyManifest db.generationDocuments tenant.activeIndexGenerationId g t d = .ok rows ∧
      n = tenant.retrievalRevision + 1 ∧
      db' = tombstoned { failPending db t d with generations, generationDocuments := rows } t d document g
        now := by
  simp only [tombstoneDocument, bind_eq_ok, orRaise_eq_ok, Option.filter_eq_some_iff, pure_eq_ok,
    Prod.mk.injEq, Bool.and_eq_true, decide_eq_true_eq, Option.isNone_iff_eq_none] at h
  obtain ⟨tenant, ht, document, ⟨hd, hdt, hlive⟩, generations, hg, rows, hr, rfl, rfl⟩ := h
  exact ⟨tenant, document, _, generations, rows, ht, hd, hdt, hlive, hg, hr, rfl, rfl⟩

theorem failPending_views : (failPending db t d).versions.view versionView = db.versions.view versionView ∧
    (failPending db t d).generations.view generationView = db.generations.view generationView := by
  constructor
  · refine Table.view_update fun v r _ => ?_
    split <;> rfl
  · refine Table.view_update fun g r _ => ?_
    split
    · rename_i hp
      simp [generationView, hp.2]
    · rfl

theorem failPending_job (j : JobId) :
    (failPending db t d).jobs.view jobView j = db.jobs.view jobView j ∨
    ∃ v b r, db.jobs.view jobView j = some ⟨v, b⟩ ∧ db.versions.view versionView v = some r ∧
      r.documentId = d ∧ (failPending db t d).jobs.view jobView j = some ⟨v, false⟩ := by
  simp only [failPending, Table.view, Table.get?_update, Option.map_map]
  cases hj : db.jobs.get? j with
  | none => exact Or.inl rfl
  | some job =>
      by_cases hm : job.documentVersionId ∈ (db.versions.select fun _ v => pending t d v).map Prod.fst
      · right
        obtain ⟨⟨v, r⟩, hvr, he⟩ := List.mem_map.mp hm
        rw [Table.mem_select] at hvr
        simp only at he
        simp only [pending, Bool.and_eq_true, decide_eq_true_eq] at hvr
        refine ⟨v, decide (job.status = .succeeded), versionView r, by simp [jobView, he],
          by simp [hvr.1], hvr.2.1.1, ?_⟩
        simp only [Option.map_some, Function.comp_apply, hm, ↓reduceIte]
        simp [jobView, he]
      · left
        simp only [Option.map_some, Function.comp_apply, hm, ↓reduceIte]

theorem tombstoneDocument_step {n : Nat} (h : tombstoneDocument db t d now = .ok (db', n))
    (hs : (view db).Sound) : (view db).Step (view db') := by
  obtain ⟨tenant, document, g, generations, rows, ht, hd, hdt, hlive, hi, hr, _, rfl⟩ :=
    tombstoneDocument_cases h
  have hdd : (view db).document d = some ⟨t, true, document.activeVersionId⟩ := by
    rw [view_document hd]; simp [documentView, hdt, hlive]
  have hfresh : (view db).generation g = none := by
    have hnone : (failPending db t d).generations.view generationView g = none :=
      Table.view_eq_none.mpr (Table.insert?_fresh hi)
    rwa [failPending_views.2] at hnone
  have hempty : ∀ d', db.generationDocuments.get? (g, d') = none := by
    intro d'
    rw [Option.eq_none_iff_forall_not_mem]
    intro r hr
    obtain ⟨rg, hrg, _⟩ := hs.row_generation (g := g) (d := d') hr
    rw [hfresh] at hrg; cases hrg
  have hsource : ∀ p, tenant.activeIndexGenerationId = some p → p ≠ g := by
    rintro p hp rfl
    obtain ⟨rp, hrp, _⟩ := hs.current_active ((Catalog.current_eq (s := view db) ht).trans hp)
    rw [hfresh] at hrp; cases hrp
  have hst := Catalog.Step.remove (s := view db) hdd ht hfresh (failPending_job (t := t))
  convert hst using 1
  simp only [view, tombstoned]
  congr 1
  · exact Table.get?_modify_update ht
  · exact Table.view_modify_update hd (by simp [documentView, hdt])
  · refine Eq.trans (Table.view_update fun v r _ => ?_) failPending_views.1
    split <;> rfl
  · rw [Table.view_insert? hi, failPending_views.2]
    rfl
  · funext g' d'
    exact copyManifest_row (s := view db) hr hempty (fun _ _ _ => rfl) hsource g' d'

/-! ## Uploads -/

theorem stageVersion_cases (h : stageVersion db t d v j now = .ok db') :
    ∃ rv rj versions jobs, db.versions.insert? v rv = some versions ∧ db.jobs.insert? j rj = some jobs ∧
      rv.tenantId = t ∧ rv.documentId = d ∧ rv.status = .staged ∧ rj.documentVersionId = v ∧
      rj.status = .staged ∧ rj.attempt = 0 ∧ db' = { db with versions, jobs } := by
  simp only [stageVersion, bind_eq_ok, orRaise_eq_ok, pure_eq_ok] at h
  obtain ⟨versions, hv, jobs, hj, rfl⟩ := h
  exact ⟨_, _, versions, jobs, hv, hj, rfl, rfl, rfl, rfl, rfl, rfl, rfl⟩

theorem stageVersion_view (h : stageVersion db t d v j now = .ok db') :
    (view db).version v = none ∧ (view db).job j = none ∧ ∃ n,
      view db' = { view db with
        version := Function.update (view db).version v (some ⟨t, d, n⟩)
        job := Function.update (view db).job j (some ⟨v, false⟩) } := by
  obtain ⟨rv, rj, versions, jobs, hv, hj, rfl, rfl, _, rfl, hs, _, rfl⟩ := stageVersion_cases h
  refine ⟨Table.view_eq_none.mpr (Table.insert?_fresh hv), Table.view_eq_none.mpr (Table.insert?_fresh hj),
    rv.version, ?_⟩
  have hjv : jobView rj = ⟨rj.documentVersionId, false⟩ := by simp [jobView, hs]
  simp only [view, Table.view_insert? hv, Table.view_insert? hj, hjv]
  rfl

theorem uploadDocument_cases {title filename : Text} {cs : List CollectionId}
    (h : uploadDocument db t d title filename cs v j now = .ok db') :
    ∃ documents documentCollections, db.documents.insert? d ⟨t, title, filename, none, none⟩ = some documents ∧
      db.documentCollections.insertAll? (cs.map fun c => ((d, c), t)) = some documentCollections ∧
      validCollections db t cs = true ∧
      stageVersion { db with documents, documentCollections } t d v j now = .ok db' := by
  simp only [uploadDocument, bind_eq_ok, orRaise_eq_ok] at h
  obtain ⟨_, _, documents, hd, h⟩ := h
  cases hc : validCollections db t cs with
  | false => simp [hc] at h
  | true =>
      simp only [hc, ↓reduceIte, bind_eq_ok, orRaise_eq_ok] at h
      obtain ⟨documentCollections, hdc, h⟩ := h
      exact ⟨documents, documentCollections, hd, hdc, rfl, h⟩

theorem liveDocument_eq_ok {document : Document} :
    liveDocument db t d = .ok document ↔
      db.documents.get? d = some document ∧ document.tenantId = t ∧ document.deletedAt = none := by
  simp [liveDocument, Option.filter_eq_some_iff]

theorem uploadVersion_cases {title : Text} {cs : List CollectionId}
    (h : uploadVersion db t d title cs v j now = .ok db') :
    (∃ document, liveDocument db t d = .ok document) ∧ stageVersion db t d v j now = .ok db' := by
  simp only [uploadVersion, bind_eq_ok, orRaise_eq_ok] at h
  obtain ⟨_, _, document, hd, h⟩ := h
  refine ⟨⟨document, hd⟩, ?_⟩
  split at h
  · simp at h
  · split at h
    · simp at h
    · exact h

theorem reindexDocument_cases (h : reindexDocument db t d v j now = .ok db') :
    (∃ document, liveDocument db t d = .ok document) ∧ stageVersion db t d v j now = .ok db' := by
  simp only [reindexDocument, bind_eq_ok, orRaise_eq_ok] at h
  obtain ⟨_, _, document, hd, _, _, _, _, h⟩ := h
  exact ⟨⟨document, hd⟩, h⟩

theorem uploadDocument_step {title filename : Text} {cs : List CollectionId}
    (h : uploadDocument db t d title filename cs v j now = .ok db') : (view db).Step (view db') := by
  obtain ⟨documents, documentCollections, hd, _, _, hst⟩ := uploadDocument_cases h
  obtain ⟨hv, hj, n, he⟩ := stageVersion_view hst
  rw [he]
  exact Catalog.Step.stage (s := view db) hv hj
    (Or.inl ⟨Table.view_eq_none.mpr (Table.insert?_fresh hd), Table.view_insert? hd⟩)

theorem stageVersion_step {document : Document} (hd : liveDocument db t d = .ok document)
    (h : stageVersion db t d v j now = .ok db') : (view db).Step (view db') := by
  obtain ⟨hdoc, ht, hlive⟩ := liveDocument_eq_ok.mp hd
  obtain ⟨hv, hj, n, he⟩ := stageVersion_view h
  rw [he]
  refine Catalog.Step.stage (s := view db) hv hj (Or.inr ⟨⟨document.activeVersionId, ?_⟩, rfl⟩)
  rw [view_document hdoc]
  simp [documentView, ht, hlive]

end Etoeragcb.Ingest
