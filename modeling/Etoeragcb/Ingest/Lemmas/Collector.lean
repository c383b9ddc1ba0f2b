import Etoeragcb.Ingest.Collector
import Etoeragcb.Ingest.Lemmas.Statuses

/-!
# What collectors leave alone

A version that no collector has selected keeps its file, its chunks and its mark. An active version has no status that
a collector selects, so it can be selected only before it is activated.
-/

namespace Etoeragcb.Ingest

open Lib Models

variable {timeout : Nat} {s s' : Archive} {t t' : State} {a : Action} {db db' : Db} {v : VersionId}

/-! ## The selection -/

theorem status_of_mem_candidates {tenantId : TenantId} {n : Nat} {olderThan : Option Time}
    (h : v ∈ candidates db tenantId n olderThan) :
    ∃ row, db.versions.get? v = some row ∧ (row.status = .failed ∨ row.status = .superseded) := by
  obtain ⟨x, hx, rfl⟩ := List.mem_map.mp h
  obtain ⟨hrow, hp⟩ := Table.mem_select.mp hx
  simp only [Bool.and_eq_true, Bool.or_eq_true, decide_eq_true_eq] at hp
  exact ⟨x.2, hrow, hp.1.1.1.2⟩

theorem claims_setPhase {k : Nat} {c : Collector} {phase : Phase} (h : s.collectors[k]? = some c) :
    (s.setPhase k c phase).claims v = s.claims v := by
  have hids : (s.setPhase k c phase).collectors.map (·.ids) = s.collectors.map (·.ids) := by
    rw [Archive.setPhase, List.map_set]
    apply List.ext_getElem?
    intro i
    rw [List.getElem?_set]
    split
    · rename_i he
      subst he
      obtain ⟨hlt, rfl⟩ := List.getElem?_eq_some_iff.mp h
      simp [hlt]
    · rfl
  have hany : ∀ s : Archive, s.claims v = (s.collectors.map (·.ids)).any fun ids => decide (v ∈ ids) := by
    intro s
    rw [List.any_map]
    rfl
  rw [hany, hany, hids]

theorem not_mem_ids {k : Nat} {c : Collector} (h : s.collectors[k]? = some c) (hv : s.claims v = false) : v ∉ c.ids := by
  intro hmem
  rw [Archive.claims, List.any_eq_false] at hv
  exact hv c (List.mem_of_getElem? h) (decide_eq_true hmem)

/-! ## What ingestion does to files, marks and chunks -/

/-- What `π` shows of a version does not depend on the columns that every run rewrites. -/
def Steady {τ : Type} (π : DocumentVersion → τ) : Prop :=
  ∀ r status errorCode errorDetail activatedAt,
    π { r with status := status, errorCode := errorCode, errorDetail := errorDetail, activatedAt := activatedAt } = π r

variable {τ : Type} {π : DocumentVersion → τ}

theorem markFailed_frame (hπ : Steady π) (db : Db) (j : JobId) (detail : String) (now : Time) :
    (markFailed db j detail now).documents = db.documents ∧ (markFailed db j detail now).chunks = db.chunks ∧
      (markFailed db j detail now).versions.view π = db.versions.view π := by
  unfold markFailed
  split
  · exact ⟨rfl, rfl, rfl⟩
  · split
    · exact ⟨rfl, rfl, rfl⟩
    · dsimp only
      split
      · exact ⟨rfl, rfl, rfl⟩
      · split
        · exact ⟨rfl, rfl, rfl⟩
        · exact ⟨rfl, rfl, Table.view_modify fun r _ => hπ r .failed _ _ r.activatedAt⟩

theorem view_stageVersion {tenantId : TenantId} {d : DocumentId} {j : JobId} {now : Time}
    (h : stageVersion db tenantId d v j now = .ok db') :
    db'.chunks = db.chunks ∧ ∃ row, db.versions.get? v = none ∧ row.garbageCollectedAt = none ∧
      db'.versions.view π = Function.update (db.versions.view π) v (some (π row)) := by
  simp only [stageVersion, bind_eq_ok, orRaise_eq_ok, pure_eq_ok] at h
  obtain ⟨versions, hv, jobs, _, rfl⟩ := h
  exact ⟨rfl, _, Table.insert?_fresh hv, rfl, Table.view_insert? hv⟩

/-- Beside new versions, ingestion changes what `π` shows only of a version whose content is persisted. -/
theorem versions_step (hπ : Steady π) (hs : step timeout t a = some t') :
    (t'.db.chunks = t.db.chunks ∧ t'.db.versions.view π = t.db.versions.view π) ∨
      (∃ v row, a.created? = some v ∧ t'.db.chunks = t.db.chunks ∧ t.db.versions.get? v = none ∧
        row.garbageCollectedAt = none ∧
        t'.db.versions.view π = Function.update (t.db.versions.view π) v (some (π row))) ∨
      ∃ r sections chunks n now c g version, a = .persist r sections chunks n now ∧ t.runs r = .started c ∧
        t.db.versions.get? c.versionId = some version ∧
        (t.db.chunks.delete fun _ x => x.documentVersionId = c.versionId).insertAll?
          (chunks.map (chunkRow c.versionId version)) = some t'.db.chunks ∧
        t'.db.versions.view π = Function.update (t.db.versions.view π) c.versionId (some (π { version with
          status := .processing, pageCount := n, sectionCount := sections.length, chunkCount := chunks.length
          indexGenerationId := some g })) := by
  cases step_effect hs with
  | upload hup =>
      obtain ⟨documents, documentCollections, hd, _, _, hst⟩ := uploadDocument_cases hup
      obtain ⟨hc, row, hrow⟩ := view_stageVersion (π := π) hst
      exact Or.inr (Or.inl ⟨_, row, rfl, hc, hrow⟩)
  | stage ha _ hst =>
      obtain ⟨hc, row, hrow⟩ := view_stageVersion (π := π) hst
      exact Or.inr (Or.inl ⟨_, row, ha, hc, hrow⟩)
  | tombstone ht =>
      obtain ⟨_, document, _, _, _, _, hd, _, _, _, _, _, rfl⟩ := tombstoneDocument_cases ht
      refine Or.inl ⟨rfl, ?_⟩
      simp only [tombstoned, failPending]
      rw [Table.view_update, Table.view_update]
      · intro k r _
        split
        · exact hπ r .failed _ _ r.activatedAt
        · rfl
      · intro k r _
        split
        · exact hπ r .superseded r.errorCode r.errorDetail r.activatedAt
        · rfl
  | stop _ => exact Or.inl ⟨rfl, rfl⟩
  | start _ hst =>
      rcases start_cases hst with ⟨rfl, _⟩ | ⟨_, _, _, _, _, _, rfl, _⟩
      · exact Or.inl ⟨rfl, rfl⟩
      · exact Or.inl ⟨rfl, Table.view_modify fun r _ => hπ r .processing none none r.activatedAt⟩
  | @persist r sections chunks n now c db g _ hrun hst =>
      obtain ⟨_, version, _, _, _, _, _, _, hv, _, hp, _, _, hc, rfl⟩ := persistStagedContent_cases hst
      obtain ⟨_, _, rfl⟩ := prepareGeneration_frame hp
      exact Or.inr (Or.inr ⟨r, sections, chunks, n, now, c, g, version, rfl, hrun, hv, hc, Table.view_modify_update hv rfl⟩)
  | markReady _ hst =>
      rcases markReady_cases hst with rfl | ⟨_, _, _, rfl⟩
      · exact Or.inl ⟨rfl, rfl⟩
      · exact Or.inl ⟨rfl, Table.view_modify fun r _ => hπ r .ready r.errorCode r.errorDetail r.activatedAt⟩
  | activate _ hst =>
      rcases activate_cases hst with ⟨rfl, _⟩ | ⟨_, _, _, _, _, _, _, _, _, _, _, _, _, _, _, _, rfl⟩
      · exact Or.inl ⟨rfl, rfl⟩
      · refine Or.inl ⟨rfl, Table.view_update fun k r _ => ?_⟩
        split
        · exact hπ r .active r.errorCode r.errorDetail _
        · split
          · exact hπ r .superseded r.errorCode r.errorDetail r.activatedAt
          · rfl
  | markFailed _ => exact Or.inl (markFailed_frame hπ _ _ _ _).2
  | beatRead => exact Or.inl ⟨rfl, rfl⟩
  | beatWrite _ => exact Or.inl ⟨rfl, rfl⟩
  | enqueueRead => exact Or.inl ⟨rfl, rfl⟩
  | enqueueWrite _ => exact Or.inl ⟨rfl, rfl⟩

def marks (db : Db) : VersionId → Option (Option Time) := db.versions.view (·.garbageCollectedAt)

theorem steady_mark : Steady (·.garbageCollectedAt) := fun _ _ _ _ _ => rfl

theorem marks_step (hs : step timeout t a = some t') :
    marks t'.db = marks t.db ∨ ∃ v, a.created? = some v ∧ marks t'.db = Function.update (marks t.db) v (some none) := by
  rcases versions_step steady_mark hs with ⟨-, h⟩ | ⟨v, row, hc, -, -, hmark, h⟩ | ⟨_, _, _, _, _, c, _, version, -, -, hv, -, h⟩
  · exact Or.inl h
  · exact Or.inr ⟨v, hc, by rw [← hmark]; exact h⟩
  · left
    have hsame : marks t.db c.versionId = some version.garbageCollectedAt := Table.view_eq_some.mpr ⟨version, hv, rfl⟩
    rw [marks, h, ← hsame]
    exact Function.update_eq_self _ _

theorem isActive_step (hs : step timeout t a = some t') (hl : Linked t) (h : IsActive t'.db v) :
    IsActive t.db v ∨ activates? t a = some v := by
  obtain ⟨d, r, hr, ha⟩ := h
  cases step_effect hs with
  | upload hup =>
      obtain ⟨documents, documentCollections, hd, _, _, hst⟩ := uploadDocument_cases hup
      obtain ⟨_, _, _, _, _, _, _, _, _, _, _, _, rfl⟩ := stageVersion_cases hst
      rw [Table.get?_insert? hd] at hr
      split at hr
      · cases hr
        cases ha
      · exact Or.inl ⟨d, r, hr, ha⟩
  | stage _ _ hst =>
      obtain ⟨_, _, _, _, _, _, _, _, _, _, _, _, rfl⟩ := stageVersion_cases hst
      exact Or.inl ⟨d, r, hr, ha⟩
  | @tombstone _ d' _ _ _ ht =>
      obtain ⟨_, document, _, _, _, _, hd, _, _, _, _, _, rfl⟩ := tombstoneDocument_cases ht
      simp only [tombstoned, failPending, Table.get?_modify] at hr
      split at hr
      · obtain ⟨r', -, rfl⟩ := Option.map_eq_some_iff.mp hr
        cases ha
      · exact Or.inl ⟨d, r, hr, ha⟩
  | stop _ => exact Or.inl ⟨d, r, hr, ha⟩
  | start _ hst =>
      rcases start_cases hst with ⟨rfl, _⟩ | ⟨_, _, _, _, _, _, rfl, _⟩
      · exact Or.inl ⟨d, r, hr, ha⟩
      · exact Or.inl ⟨d, r, hr, ha⟩
  | persist _ hst =>
      obtain ⟨_, _, _, _, _, _, _, _, hv, _, hp, _, _, _, rfl⟩ := persistStagedContent_cases hst
      obtain ⟨_, _, _, rfl, _⟩ := prepareGeneration_cases hp hl.sound hv
      exact Or.inl ⟨d, r, hr, ha⟩
  | markReady _ hst =>
      rcases markReady_cases hst with rfl | ⟨_, _, _, rfl⟩
      · exact Or.inl ⟨d, r, hr, ha⟩
      · exact Or.inl ⟨d, r, hr, ha⟩
  | @activate r' _ c g db hrun hst =>
      rcases activate_cases hst with ⟨rfl, _⟩ | ⟨version, _, job, _, document, _, hv, _, hj, hns, _, hd, hdt, hlive,
        hnewer, _, rfl⟩
      · exact Or.inl ⟨d, r, hr, ha⟩
      · simp only [State.goOn, activated, Table.get?_modify] at hr
        split at hr
        · obtain ⟨r₀, -, rfl⟩ := Option.map_eq_some_iff.mp hr
          have hpasses : passes t.db c = true := by simp [passes, hj, hns, hv, hd, hdt, hlive, hnewer]
          right
          simp only [activates?, hrun, hpasses, if_true]
          exact ha
        · exact Or.inl ⟨d, r, hr, ha⟩
  | markFailed _ =>
      rw [State.goOn, (markFailed_frame steady_mark _ _ _ _).1] at hr
      exact Or.inl ⟨d, r, hr, ha⟩
  | beatRead => exact Or.inl ⟨d, r, hr, ha⟩
  | beatWrite _ => exact Or.inl ⟨d, r, hr, ha⟩
  | enqueueRead => exact Or.inl ⟨d, r, hr, ha⟩
  | enqueueWrite _ => exact Or.inl ⟨d, r, hr, ha⟩

theorem chunks_step (hs : step timeout t a = some t') :
    (t'.db.chunks = t.db.chunks ∧ ∀ r c c' g, t.runs r = .started c → t'.runs r ≠ .staged c' g) ∨
      ∃ r sections chunks n now c g version, a = .persist r sections chunks n now ∧ t.runs r = .started c ∧
        t'.runs r = .staged c g ∧ t.db.versions.get? c.versionId = some version ∧
        (t.db.chunks.delete fun _ x => x.documentVersionId = c.versionId).insertAll?
          (chunks.map (chunkRow c.versionId version)) = some t'.db.chunks := by
  -- Another step leaves every run that has started where it is, or does not stage it.
  have hkeep : ∀ {db r p}, (∀ c g, p ≠ .staged c g) → ∀ r' c c' g, t.runs r' = .started c →
      (t.goOn db r p).runs r' ≠ .staged c' g := by
    intro db r p hp r' c c' g hr he
    by_cases h : r' = r
    · subst h
      simp only [State.goOn, Function.update_self] at he
      exact hp c' g he
    · simp only [State.goOn, Function.update_of_ne h, hr] at he
      cases he
  have hsame : ∀ r c c' g, t.runs r = .started c → t.runs r ≠ .staged c' g := by
    intro r c c' g hr he
    rw [hr] at he
    cases he
  cases step_effect hs with
  | upload hup =>
      obtain ⟨_, _, _, _, _, hst⟩ := uploadDocument_cases hup
      obtain ⟨_, _, _, _, _, _, _, _, _, _, _, _, rfl⟩ := stageVersion_cases hst
      exact Or.inl ⟨rfl, hsame⟩
  | stage _ _ hst =>
      obtain ⟨_, _, _, _, _, _, _, _, _, _, _, _, rfl⟩ := stageVersion_cases hst
      exact Or.inl ⟨rfl, hsame⟩
  | tombstone ht =>
      obtain ⟨_, _, _, _, _, _, _, _, _, _, _, _, rfl⟩ := tombstoneDocument_cases ht
      exact Or.inl ⟨rfl, hsame⟩
  | stop hp =>
      refine Or.inl ⟨rfl, hkeep ?_⟩
      rintro c g rfl
      cases hp
  | start _ hst =>
      rcases start_cases hst with ⟨rfl, _⟩ | ⟨_, _, _, _, _, _, rfl, _⟩
      · exact Or.inl ⟨rfl, hkeep (by simp)⟩
      · exact Or.inl ⟨rfl, hkeep (by simp)⟩
  | @persist r sections chunks n now c db g _ hrun hst =>
      obtain ⟨_, version, _, _, _, _, newChunks, _, hv, _, hp, _, _, hc, rfl⟩ := persistStagedContent_cases hst
      refine Or.inr ⟨r, sections, chunks, n, now, c, g, version, rfl, hrun, ?_, hv, hc⟩
      simp only [State.goOn, Function.update_self]
  | markReady _ hst =>
      rcases markReady_cases hst with rfl | ⟨_, _, _, rfl⟩
      · exact Or.inl ⟨rfl, hkeep (by simp)⟩
      · exact Or.inl ⟨rfl, hkeep (by simp)⟩
  | activate _ hst =>
      rcases activate_cases hst with ⟨rfl, _⟩ | ⟨_, _, _, _, _, _, _, _, _, _, _, _, _, _, _, _, rfl⟩
      · exact Or.inl ⟨rfl, hkeep (by simp)⟩
      · exact Or.inl ⟨rfl, hkeep (by simp)⟩
  | markFailed _ => exact Or.inl ⟨(markFailed_frame steady_mark _ _ _ _).2.1, hkeep (by simp)⟩
  | beatRead => exact Or.inl ⟨rfl, hsame⟩
  | beatWrite _ => exact Or.inl ⟨rfl, hsame⟩
  | enqueueRead => exact Or.inl ⟨rfl, hsame⟩
  | enqueueWrite _ => exact Or.inl ⟨rfl, hsame⟩

/-! ## The invariant -/

/-- A status that no collector selects. -/
def Needed (status : VersionStatus) : Prop := status ≠ .failed ∧ status ≠ .superseded

/-- The version that no collector has selected is whole. -/
structure Intact (s : Archive) : Prop where
  linked : Linked s.ingest
  needed : SettledAs Needed s.ingest.db
  spared : ∀ v, IsActive s.ingest.db v → s.claims v = false
  filed : ∀ v, s.claims v = false → ∀ mark, marks s.ingest.db v = some mark → v ∈ s.files ∧ mark = none
  stored_of : ∀ v, ∀ x ∈ s.stored v, x.2.documentVersionId = v
  kept : ∀ v, s.claims v = false → ∀ x ∈ s.stored v, s.ingest.db.chunks.get? x.1 = some x.2

theorem stored_cases (hs : step timeout s.ingest a = some t') :
    (t'.db.chunks = s.ingest.db.chunks ∧ s.storedAfter t' a = s.stored) ∨
      ∃ (c : Claim) (version : DocumentVersion) (chunks : List BuiltChunk),
        s.ingest.db.versions.get? c.versionId = some version ∧
        s.storedAfter t' a = Function.update s.stored c.versionId (chunks.map (chunkRow c.versionId version)) ∧
        (s.ingest.db.chunks.delete fun _ x => x.documentVersionId = c.versionId).insertAll?
          (chunks.map (chunkRow c.versionId version)) = some t'.db.chunks := by
  rcases chunks_step hs with ⟨hc, hkeep⟩ | ⟨r, sections, chunks, n, now, c, g, version, rfl, hr, hr', hv, hc⟩
  · refine Or.inl ⟨hc, ?_⟩
    unfold Archive.storedAfter
    split
    · split
      · rename_i hr hr'
        exact absurd hr' (hkeep _ _ _ _ hr)
      · rfl
    · rfl
  · exact Or.inr ⟨c, version, chunks, hv, by simp only [Archive.storedAfter, hr, hr', hv], hc⟩

theorem Intact.ingest (h : Intact s) (ha : sparesSelected s (.ingest a)) (hs : step timeout s.ingest a = some t') :
    Intact { s with ingest := t', files := s.filesAfter a, stored := s.storedAfter t' a } := by
  simp only [sparesSelected, ArchiveAction.isConcurrent, Bool.and_eq_true] at ha
  obtain ⟨hi, hspare⟩ := ha
  have hstored := stored_cases hs
  refine ⟨(h.linked.step hi hs).2, ?_, ?_, ?_, ?_, ?_⟩
  · exact h.needed.step h.linked hi ⟨by decide, by decide⟩ (fun _ _ _ => ⟨by decide, by decide⟩) hs
  · intro v hv
    rcases isActive_step hs h.linked hv with hv | hv
    · exact h.spared v hv
    · rw [hv, Option.all_some, Bool.not_eq_true'] at hspare
      exact hspare
  · intro v hv mark hmark
    have hsub : v ∈ s.files → v ∈ s.filesAfter a := by
      intro hf
      unfold Archive.filesAfter
      split
      · exact Finset.mem_insert_of_mem hf
      · exact hf
    rcases marks_step hs with he | ⟨v', hcreated, he⟩
    · rw [he] at hmark
      obtain ⟨hf, hnone⟩ := h.filed v hv mark hmark
      exact ⟨hsub hf, hnone⟩
    · rw [he] at hmark
      by_cases hvv : v = v'
      · subst hvv
        rw [Function.update_self] at hmark
        cases hmark
        exact ⟨by simp [Archive.filesAfter, hcreated], rfl⟩
      · rw [Function.update_of_ne hvv] at hmark
        obtain ⟨hf, hnone⟩ := h.filed v hv mark hmark
        exact ⟨hsub hf, hnone⟩
  · intro v x hx
    replace hx : x ∈ s.storedAfter t' a v := hx
    rcases hstored with ⟨-, he⟩ | ⟨c, version, chunks, -, he, -⟩
    · exact h.stored_of v x (he ▸ hx)
    · rw [he] at hx
      by_cases hvc : v = c.versionId
      · subst hvc
        rw [Function.update_self] at hx
        obtain ⟨_, -, rfl⟩ := List.mem_map.mp hx
        rfl
      · rw [Function.update_of_ne hvc] at hx
        exact h.stored_of v x hx
  · intro v hv x hx
    replace hx : x ∈ s.storedAfter t' a v := hx
    rcases hstored with ⟨hc, he⟩ | ⟨c, version, chunks, -, he, hc⟩
    · rw [hc]
      exact h.kept v hv x (he ▸ hx)
    · rw [Table.get?_insertAll? hc]
      rw [he] at hx
      by_cases hvc : v = c.versionId
      · subst hvc
        rw [Function.update_self] at hx
        exact Or.inl hx
      · rw [Function.update_of_ne hvc] at hx
        have hof := h.stored_of v x hx
        right
        rw [Table.get?_delete, h.kept v hv x hx]
        simp [hof, hvc]

theorem Intact.archiveStep (h : Intact s) {a : ArchiveAction} (ha : sparesSelected s a)
    (hs : archiveStep timeout s a = some s') : Intact s' := by
  cases a with
  | ingest a =>
      simp only [Ingest.archiveStep] at hs
      split at hs
      · obtain ⟨t', ht, rfl⟩ := Option.map_eq_some_iff.mp hs
        exact h.ingest ha ht
      · cases hs
  | parse r =>
      simp only [Ingest.archiveStep] at hs
      split at hs
      · split at hs
        · cases hs
          exact ⟨h.linked, h.needed, h.spared, h.filed, h.stored_of, h.kept⟩
        · cases hs
      · cases hs
  | select tenantId n olderThan =>
      have hclaims : ∀ v, s'.claims v =
          (s.claims v || decide (v ∈ candidates s.ingest.db tenantId n olderThan)) := by
        cases hs
        intro v
        simp [Archive.claims]
      have hof : ∀ {v}, s'.claims v = false → s.claims v = false := by
        intro v hv
        rw [hclaims, Bool.or_eq_false_iff] at hv
        exact hv.1
      cases hs
      refine ⟨h.linked, h.needed, ?_, fun v hv => h.filed v (hof hv), h.stored_of, fun v hv => h.kept v (hof hv)⟩
      intro v hv
      rw [hclaims, h.spared v hv, Bool.false_or, decide_eq_false_iff_not]
      intro hmem
      obtain ⟨row, hrow, hstatus⟩ := status_of_mem_candidates hmem
      obtain ⟨row', hrow', hneeded⟩ := h.needed v hv
      rw [hrow] at hrow'
      cases hrow'
      exact hstatus.elim hneeded.1 hneeded.2
  | deletePayloads k =>
      simp only [Ingest.archiveStep] at hs
      split at hs
      · rename_i c hk
        split at hs
        · have hclaims : ∀ v, s'.claims v = s.claims v := by
            cases hs
            exact fun v => claims_setPhase hk
          cases hs
          refine ⟨h.linked, h.needed, fun v hv => (hclaims v).trans (h.spared v hv), fun v hv mark hmark => ?_,
            h.stored_of, fun v hv => h.kept v ((hclaims v).symm.trans hv)⟩
          rw [hclaims] at hv
          obtain ⟨hf, hnone⟩ := h.filed v hv mark hmark
          exact ⟨Finset.mem_sdiff.mpr ⟨hf, by simpa using not_mem_ids hk hv⟩, hnone⟩
        · cases hs
      · cases hs
  | deleteRows k now =>
      simp only [Ingest.archiveStep] at hs
      split at hs
      · rename_i c hk
        split at hs
        · have hclaims : ∀ v, s'.claims v = s.claims v := by
            cases hs
            exact fun v => claims_setPhase hk
          cases hs
          have hview : view (collected s.ingest.db c.ids now) = view s.ingest.db :=
            view_congr rfl rfl (Table.view_update fun v r _ => by split <;> rfl) rfl rfl rfl
          refine ⟨h.linked.commit (Or.inl hview) rfl, ?_, fun v hv => (hclaims v).trans (h.spared v hv), ?_,
            h.stored_of, ?_⟩
          · refine h.needed.frame rfl fun v r _ hr hneeded => ⟨_, by rw [collected, Table.get?_update, hr]; rfl, ?_⟩
            split
            · exact hneeded
            · exact hneeded
          · intro v hv mark hmark
            rw [hclaims] at hv
            refine h.filed v hv mark ?_
            obtain ⟨r, hr, rfl⟩ := Table.view_eq_some.mp hmark
            rw [collected, Table.get?_update] at hr
            obtain ⟨r', hr', rfl⟩ := Option.map_eq_some_iff.mp hr
            rw [if_neg (not_mem_ids hk hv)]
            exact Table.view_eq_some.mpr ⟨r', hr', rfl⟩
          · intro v hv x hx
            rw [hclaims] at hv
            rw [collected, Table.get?_delete, h.kept v hv x hx]
            simp [h.stored_of v x hx, not_mem_ids hk hv]
        · cases hs
      · cases hs

variable {tenants : Table TenantId Tenant}

/-- What is intact stays so along a run that activates no selected version. -/
theorem intact_of_run (ht : Untouched tenants)
    (h : Run (archiveStep timeout) (fun s a => sparesSelected s a) (.fresh tenants) s) : Intact s := by
  refine Run.invariant (fun _ _ _ hi ha hs => hi.archiveStep ha hs) h ⟨Linked.fresh ht, ?_, ?_, ?_, ?_, ?_⟩
  · rintro v ⟨d, r, hr, _⟩
    cases hr
  · intro v _
    rfl
  · intro v _ mark hmark
    cases hmark
  · intro v x hx
    cases hx
  · intro v _ x hx
    cases hx

end Etoeragcb.Ingest
