import Etoeragcb.Ingest.Lemmas.Runs

/-!
# The status of active versions
-/

namespace Etoeragcb.Ingest

open Lib Models

variable {timeout : Nat} {s s' : State} {a : Action} {db db' : Db} {t : TenantId} {d : DocumentId}
  {v : VersionId} {g : GenerationId} {j : JobId} {c : Claim} {now : Time} {p : VersionStatus → Prop}

def StatusActive (db : Db) (v : VersionId) : Prop :=
  ∃ r, db.versions.get? v = some r ∧ r.status = .active

def IsActive (db : Db) (v : VersionId) : Prop :=
  ∃ d r, db.documents.get? d = some r ∧ r.activeVersionId = some v

/-- The active versions of the documents have the status `active`. -/
def Settled (db : Db) : Prop := ∀ v, IsActive db v → StatusActive db v

/-- The active versions of the documents have statuses that meet `p`. -/
def SettledAs (p : VersionStatus → Prop) (db : Db) : Prop :=
  ∀ v, IsActive db v → ∃ r, db.versions.get? v = some r ∧ p r.status

theorem SettledAs.frame (h : SettledAs p db) (hd : db'.documents = db.documents)
    (hv : ∀ v r, IsActive db v → db.versions.get? v = some r → p r.status →
      ∃ r', db'.versions.get? v = some r' ∧ p r'.status) : SettledAs p db' := by
  rintro v ⟨d, r, hr, ha⟩
  rw [hd] at hr
  obtain ⟨rv, hrv, hs⟩ := h v ⟨d, r, hr, ha⟩
  exact hv v rv ⟨d, r, hr, ha⟩ hrv hs

theorem SettledAs.modify {f : DocumentVersion → DocumentVersion} (h : SettledAs p db)
    (hna : IsActive db v → ∀ r, p (f r).status) (hd : db'.documents = db.documents)
    (hv : db'.versions = db.versions.modify v f) : SettledAs p db' := by
  refine h.frame hd fun v' r ha hr hs => ?_
  by_cases he : v' = v
  · subst he
    exact ⟨f r, by rw [hv, Table.get?_modify, if_pos rfl, hr, Option.map_some], hna ha r⟩
  · exact ⟨r, by rw [hv, Table.get?_modify, if_neg he, hr], hs⟩

/-- A job that has not succeeded works on a version that is not active. -/
theorem Catalog.Sound.not_isActive (hs : (view db).Sound) {job : IngestionJob} (hj : db.jobs.get? j = some job)
    (hns : job.status ≠ .succeeded) : ¬IsActive db job.documentVersionId := by
  rintro ⟨d, r, hr, ha⟩
  have hset := hs.settled (view_document hr) ha (view_job hj) rfl
  simp only [jobView, decide_eq_true_eq] at hset
  exact hns hset

theorem SettledAs.start {oc : Option Claim} (h : SettledAs p db) (hs : (view db).Sound)
    (hst : start timeout db j now = .ok (db', oc)) : SettledAs p db' := by
  rcases start_cases hst with ⟨rfl, _⟩ | ⟨job, version, hj, _, hns, _, rfl, _⟩
  · exact h
  · exact h.modify (fun ha => absurd ha (hs.not_isActive hj hns)) rfl (by dsimp only [claimed])

theorem SettledAs.persist {sections : List BuiltSection} {chunks : List BuiltChunk} {pageCount : Nat}
    {cs : List CollectionId} (h : SettledAs p db) (hs : (view db).Sound)
    (hp : IsActive db c.versionId → p .processing)
    (hst : persistStagedContent db c sections chunks pageCount now = .ok (db', g, cs)) : SettledAs p db' := by
  obtain ⟨tenant, version, job, db₁, rows, _, _, _, hv, _, hprep, _, _, _, rfl⟩ :=
    persistStagedContent_cases hst
  obtain ⟨_, generations, rows₁, rfl, _⟩ := prepareGeneration_cases hprep hs hv
  exact h.modify (fun ha _ => hp ha) rfl (by dsimp only [persisted])

theorem SettledAs.markReady (h : SettledAs p db) (hs : (view db).Sound)
    (hlink : ∃ job, db.jobs.get? c.jobId = some job ∧ job.documentVersionId = c.versionId)
    (hst : markReady db c now = .ok db') : SettledAs p db' := by
  obtain ⟨job', hj', hjv⟩ := hlink
  rcases markReady_cases hst with rfl | ⟨job, hj, hns, rfl⟩
  · exact h
  · rw [hj] at hj'; cases hj'
    exact h.modify (fun ha => absurd ha (hjv ▸ hs.not_isActive hj hns)) rfl (by dsimp only [readied])

theorem SettledAs.markFailed {detail : String} (h : SettledAs p db) (hs : (view db).Sound) :
    SettledAs p (markFailed db j detail now) := by
  unfold Ingest.markFailed
  split
  · exact h
  · rename_i job hj
    split
    · exact h
    · rename_i hns
      have hnot : ¬IsActive db job.documentVersionId := hs.not_isActive hj hns
      dsimp only
      split
      · exact h.frame rfl fun _ r _ hr hp => ⟨r, hr, hp⟩
      · split
        · exact h.frame rfl fun _ r _ hr hp => ⟨r, hr, hp⟩
        · exact h.modify (fun ha => absurd ha hnot) rfl (by dsimp only)

theorem Catalog.Sound.active_document (hs : (view db).Sound) {d' : DocumentId} {r r' : Document}
    (hr : db.documents.get? d = some r) (ha : r.activeVersionId = some v)
    (hr' : db.documents.get? d' = some r') (ha' : r'.activeVersionId = some v) : d = d' := by
  obtain ⟨_, r₁, h₁, hd₁⟩ := hs.active_version (view_document hr) ha
  obtain ⟨_, r₂, h₂, hd₂⟩ := hs.active_version (view_document hr') ha'
  rw [h₁] at h₂; cases h₂
  exact hd₁.symm.trans hd₂

theorem SettledAs.activate (h : SettledAs p db) (hs : (view db).Sound) (hp : p .active)
    (hst : activate db c g now = .ok db') : SettledAs p db' := by
  rcases activate_cases hst with ⟨rfl, _⟩ | ⟨version, generation, job, tenant, document, rows, hv, _, _, _,
    _, hd, _, _, _, _, rfl⟩
  · exact h
  · rintro v' ⟨d', r, hr, ha⟩
    by_cases hvv : v' = c.versionId
    · subst hvv
      exact ⟨_, by simp only [activated, Table.get?_update, hv]; rfl, by simpa using hp⟩
    · -- The active version of another document was active before, and is not the one superseded.
      have hne : d' ≠ version.documentId := by
        rintro rfl
        simp only [activated, Table.get?_modify, hd, ↓reduceIte, Option.map_some, Option.some.injEq] at hr
        subst hr
        exact hvv (Option.some.inj ha).symm
      simp only [activated, Table.get?_modify, hne, ↓reduceIte] at hr
      obtain ⟨rv, hrv, hact⟩ := h v' ⟨d', r, hr, ha⟩
      have hold : document.activeVersionId ≠ some v' := fun hold => hne (hs.active_document hr ha hd hold)
      exact ⟨rv, by simp [activated, hrv, hvv, hold], hact⟩

theorem SettledAs.tombstone {n : Nat} (h : SettledAs p db) (hs : (view db).Sound)
    (hst : tombstoneDocument db t d now = .ok (db', n)) : SettledAs p db' := by
  obtain ⟨tenant, document, g, generations, rows, _, hd, _, _, _, _, _, rfl⟩ := tombstoneDocument_cases hst
  rintro v' ⟨d', r, hr, ha⟩
  have hne : d' ≠ d := by
    rintro rfl
    simp only [tombstoned, failPending, Table.get?_modify, hd, ↓reduceIte, Option.map_some,
      Option.some.injEq] at hr
    subst hr; cases ha
  simp only [tombstoned, failPending, Table.get?_modify, hne, ↓reduceIte] at hr
  obtain ⟨rv, hrv, hact⟩ := h v' ⟨d', r, hr, ha⟩
  have hold : document.activeVersionId ≠ some v' := fun hold => hne (hs.active_document hr ha hd hold)
  have hpend : v' ∉ (db.versions.select fun _ v => pending t d v).map Prod.fst := by
    intro hm
    obtain ⟨⟨w, r₁⟩, hw, rfl⟩ := List.mem_map.mp hm
    rw [Table.mem_select] at hw
    obtain ⟨hw, hp⟩ := hw
    obtain ⟨_, rv', hrv', hd'⟩ := hs.active_version (view_document hr) ha
    rw [view_version hw] at hrv'
    cases hrv'
    have hdoc : r₁.documentId = d := by
      simp only [pending, Bool.and_eq_true, decide_eq_true_eq] at hp
      exact hp.1.1
    exact hne (hd'.symm.trans hdoc)
  exact ⟨rv, by simp [tombstoned, failPending, hrv, hold, hpend], hact⟩

theorem SettledAs.stage (h : SettledAs p db) (hst : stageVersion db t d v j now = .ok db') : SettledAs p db' := by
  obtain ⟨rv, rj, versions, jobs, hv, _, _, _, _, _, _, _, rfl⟩ := stageVersion_cases hst
  refine h.frame rfl fun v' r _ hr hs => ⟨r, ?_, hs⟩
  have hne : v' ≠ v := by
    rintro rfl
    rw [Table.insert?_fresh hv] at hr; cases hr
  rw [Table.get?_insert? hv, if_neg hne, hr]

theorem SettledAs.upload {title filename : Text} {cs : List CollectionId} (h : SettledAs p db)
    (hst : uploadDocument db t d title filename cs v j now = .ok db') : SettledAs p db' := by
  obtain ⟨documents, documentCollections, hd, _, _, hst⟩ := uploadDocument_cases hst
  refine SettledAs.stage ?_ hst
  rintro v' ⟨d', r, hr, ha⟩
  rw [Table.get?_insert? hd] at hr
  split at hr
  · cases hr; cases ha
  · exact h v' ⟨d', r, hr, ha⟩

theorem SettledAs.step (h : SettledAs p s.db) (hl : Linked s) (hi : a.isIngestion) (hactive : p .active)
    (hpersist : ∀ {r c}, (s.runs r).claim? = some c → (∃ sections chunks n now, a = .persist r sections chunks n now) →
      IsActive s.db c.versionId → p .processing)
    (hs : step timeout s a = some s') : SettledAs p s'.db := by
  cases step_effect hs with
  | upload hup => exact h.upload hup
  | stage _ _ hst => exact h.stage hst
  | tombstone ht => exact h.tombstone hl.sound ht
  | stop _ => exact h
  | start _ hst => exact h.start hl.sound hst
  | persist hrun hst =>
      exact h.persist hl.sound (hpersist (by rw [hrun]; rfl) ⟨_, _, _, _, rfl⟩) hst
  | markReady hrun hst => exact h.markReady hl.sound (hl.job_of_claim (by rw [hrun]; rfl)) hst
  | activate _ hst => exact h.activate hl.sound hactive hst
  | markFailed _ => exact h.markFailed hl.sound
  | beatRead => exact h
  | beatWrite _ => exact h.frame rfl fun _ r _ hr hp => ⟨r, hr, hp⟩
  | enqueueRead => cases hi
  | enqueueWrite _ => cases hi

/-- Ingestion in which no run persists the content of a version that has the status `active`. -/
abbrev persistsInactive : State → Action → Prop := fun s a => a.isIngestion ∧ persistsActive s a = false

theorem Settled.step (h : Settled s.db) (hl : Linked s) (ha : persistsInactive s a)
    (hs : step timeout s a = some s') : Settled s'.db := by
  refine SettledAs.step (p := (· = .active)) h hl ha.1 rfl (fun {r c} hc hpersist hact => ?_) hs
  obtain ⟨sections, chunks, n, now, rfl⟩ := hpersist
  obtain ⟨version, hv, hstatus⟩ := h _ hact
  have hinactive := ha.2
  simp [persistsActive, hc, hv, hstatus] at hinactive

/-- The active versions stay settled along a run that persists inactive versions only. -/
theorem settled_of_run {tenants : Table TenantId Tenant} (ht : Untouched tenants)
    (h : Run (step timeout) persistsInactive (State.fresh tenants) s) : Linked s ∧ Settled s.db := by
  refine Run.invariant (p := fun s => Linked s ∧ Settled s.db) ?_ h ⟨Linked.fresh ht, ?_⟩
  · rintro s a s' ⟨hl, hset⟩ ha hs
    exact ⟨(hl.step ha.1 hs).2, hset.step hl ha hs⟩
  · rintro v ⟨d, r, hr, _⟩
    cases hr

end Etoeragcb.Ingest
