import Etoeragcb.Ingest.Lemmas.Transactions

/-!
# Interleaved runs refine the catalog

Every ingestion action leaves the catalog as it is or takes one of its steps, and what a run of `process`
carries from one transaction to the next stays true of the database.
-/

namespace Etoeragcb.Ingest

open Lib Models

/-! ## What an action does -/

/-- The transaction that an action commits, and the run that it belongs to. -/
inductive Effect (timeout : Nat) (s : State) : Action → State → Prop
  | upload {t d title filename cs v j now db} (h : uploadDocument s.db t d title filename cs v j now = .ok db) :
      Effect timeout s (.upload t d title filename cs v j now) { s with db }
  | stage {a t d v j now document db} (ha : a.created? = some v) (hd : liveDocument s.db t d = .ok document)
      (h : stageVersion s.db t d v j now = .ok db) : Effect timeout s a { s with db }
  | tombstone {t d now db n} (h : tombstoneDocument s.db t d now = .ok (db, n)) :
      Effect timeout s (.tombstone t d now) { s with db }
  /-- A run stops without a write. -/
  | stop {a r p} (hp : p.claim? = none) : Effect timeout s a (s.goOn s.db r p)
  | start {r j now db c} (hrun : s.runs r = .idle) (h : start timeout s.db j now = .ok (db, some c)) :
      Effect timeout s (.start r j now) (s.goOn db r (.started c))
  | persist {r sections chunks pageCount now c db g cs} (hrun : s.runs r = .started c)
      (h : persistStagedContent s.db c sections chunks pageCount now = .ok (db, g, cs)) :
      Effect timeout s (.persist r sections chunks pageCount now) (s.goOn db r (.staged c g))
  | markReady {r now c g db} (hrun : s.runs r = .staged c g) (h : markReady s.db c now = .ok db) :
      Effect timeout s (.markReady r now) (s.goOn db r (.ready c g))
  | activate {r now c g db} (hrun : s.runs r = .ready c g) (h : activate s.db c g now = .ok db) :
      Effect timeout s (.activate r now) (s.goOn db r .finished)
  | markFailed {r now j detail} (hrun : s.runs r = .failing j detail) :
      Effect timeout s (.markFailed r now) (s.goOn (markFailed s.db j detail now) r .finished)
  | beatRead {r beats} : Effect timeout s (.beatRead r) { s with beats }
  | beatWrite {r now j beats} (hb : s.beats r = some j) :
      Effect timeout s (.beatWrite r now) { s with db := touch s.db j now, beats }
  | enqueueRead {q j requests} : Effect timeout s (.enqueueRead q j) { s with requests }
  | enqueueWrite {q now j requests} (hq : s.requests q = some j) :
      Effect timeout s (.enqueueWrite q now) { s with db := queue s.db j now, requests }

variable {timeout : Nat} {s s' : State} {a : Action} {db db' : Db} {r : RunId} {c : Claim} {g : GenerationId}
  {p : Process}

theorem commit_eq_some {x : Except String Db} (h : s.commit x = some s') :
    ∃ db, x = .ok db ∧ s' = { s with db } := by
  cases x with
  | error e => cases h
  | ok db => cases h; exact ⟨db, rfl, rfl⟩

theorem step_effect (hs : step timeout s a = some s') : Effect timeout s a s' := by
  cases a with
  | upload t d title filename cs v j now =>
      obtain ⟨db, hdb, rfl⟩ := commit_eq_some hs
      exact .upload hdb
  | uploadVersion t d title cs v j now =>
      obtain ⟨db, hdb, rfl⟩ := commit_eq_some hs
      obtain ⟨⟨document, hd⟩, hst⟩ := uploadVersion_cases hdb
      exact .stage rfl hd hst
  | reindex t d v j now =>
      obtain ⟨db, hdb, rfl⟩ := commit_eq_some hs
      obtain ⟨⟨document, hd⟩, hst⟩ := reindexDocument_cases hdb
      exact .stage rfl hd hst
  | tombstone t d now =>
      obtain ⟨db, hdb, rfl⟩ := commit_eq_some hs
      cases ht : tombstoneDocument s.db t d now with
      | error e => rw [ht] at hdb; cases hdb
      | ok x => rw [ht] at hdb; cases hdb; exact .tombstone ht
  | start r jobId now =>
      simp only [Ingest.step] at hs
      cases hrun : s.runs r with
      | idle =>
          simp only [hrun] at hs
          cases hst : start timeout s.db jobId now with
          | error e => rw [hst] at hs; cases hs; exact .stop rfl
          | ok x =>
              obtain ⟨db, oc⟩ := x
              cases oc with
              | none =>
                  rw [hst] at hs; cases hs
                  rcases start_cases hst with ⟨rfl, _⟩ | ⟨_, _, _, _, _, _, _, he⟩
                  · exact .stop rfl
                  · cases he
              | some c => rw [hst] at hs; cases hs; exact .start hrun hst
      | _ => simp [hrun] at hs
  | persist r sections chunks pageCount now =>
      simp only [Ingest.step] at hs
      cases hrun : s.runs r with
      | started c =>
          simp only [hrun] at hs
          cases hst : persistStagedContent s.db c sections chunks pageCount now with
          | error e => rw [hst] at hs; cases hs; exact .stop rfl
          | ok x => rw [hst] at hs; cases hs; exact .persist hrun hst
      | _ => simp [hrun] at hs
  | markReady r now =>
      simp only [Ingest.step] at hs
      cases hrun : s.runs r with
      | staged c g =>
          simp only [hrun] at hs
          cases hst : markReady s.db c now with
          | error e => rw [hst] at hs; cases hs; exact .stop rfl
          | ok db => rw [hst] at hs; cases hs; exact .markReady hrun hst
      | _ => simp [hrun] at hs
  | activate r now =>
      simp only [Ingest.step] at hs
      cases hrun : s.runs r with
      | ready c g =>
          simp only [hrun] at hs
          cases hst : activate s.db c g now with
          | error e => rw [hst] at hs; cases hs; exact .stop rfl
          | ok db => rw [hst] at hs; cases hs; exact .activate hrun hst
      | _ => simp [hrun] at hs
  | fault r jobId detail =>
      simp only [Ingest.step] at hs
      split at hs
      · cases hs; exact .stop rfl
      · cases hs
  | markFailed r now =>
      simp only [Ingest.step] at hs
      cases hrun : s.runs r with
      | failing jobId detail => simp only [hrun] at hs; cases hs; exact .markFailed hrun
      | _ => simp [hrun] at hs
  | beatRead r =>
      simp only [Ingest.step, Option.bind_eq_some_iff] at hs
      obtain ⟨c, _, hs⟩ := hs
      unfold readBeat at hs
      split at hs
      · split at hs
        · cases hs; exact .beatRead
        · cases hs
      · cases hs
  | beatWrite r now =>
      simp only [Ingest.step, Option.map_eq_some_iff] at hs
      obtain ⟨jobId, hb, rfl⟩ := hs
      exact .beatWrite hb
  | enqueueRead q jobId =>
      simp only [Ingest.step] at hs
      split at hs
      · cases hs; exact .enqueueRead
      · cases hs
  | enqueueWrite q now =>
      simp only [Ingest.step, Option.map_eq_some_iff] at hs
      obtain ⟨jobId, hq, rfl⟩ := hs
      exact .enqueueWrite hq

/-! ## Refinement -/

/-- The database `db'` shows the catalog of `db`, or one that it steps to. -/
def Refines (db db' : Db) : Prop := view db' = view db ∨ (view db).Step (view db')

theorem Refines.sound (h : Refines db db') (hs : (view db).Sound) : (view db').Sound := by
  rcases h with he | hst
  · exact he ▸ hs
  · exact hs.step hst

theorem Refines.le (h : Refines db db') : (view db).Le (view db') := by
  rcases h with he | hst
  · exact he ▸ Catalog.Le.refl _
  · exact hst.le

def Claim.Known (db : Db) (c : Claim) : Prop :=
  (∃ r, (view db).job c.jobId = some r ∧ r.versionId = c.versionId) ∧
    ∃ r, (view db).version c.versionId = some r ∧ r.tenantId = c.tenantId

def Claim.Prepared (db : Db) (c : Claim) (g : GenerationId) : Prop :=
  ∃ r, (view db).generation g = some r ∧ r.changed = some c.versionId

theorem Claim.Known.mono (h : c.Known db) (hle : (view db).Le (view db')) : c.Known db' := by
  obtain ⟨⟨rj, hj, hjv⟩, rv, hv, hvt⟩ := h
  obtain ⟨rj', hj', he⟩ := hle.job hj
  exact ⟨⟨rj', hj', he.trans hjv⟩, rv, hle.version hv, hvt⟩

theorem Claim.Prepared.mono (h : c.Prepared db g) (hle : (view db).Le (view db')) : c.Prepared db' g := by
  obtain ⟨r, hr, hc⟩ := h
  exact hle.generation hr hc

/-- The catalog is sound, and every run knows the rows that it works on. -/
structure Linked (s : State) : Prop where
  sound : (view s.db).Sound
  known : ∀ {r c}, (s.runs r).claim? = some c → c.Known s.db
  prepared : ∀ {r c g}, (s.runs r).claim? = some c → (s.runs r).generation? = some g → c.Prepared s.db g

theorem Linked.job_of_claim (h : Linked s) (hc : (s.runs r).claim? = some c) :
    ∃ job, s.db.jobs.get? c.jobId = some job ∧ job.documentVersionId = c.versionId := by
  obtain ⟨⟨rj, hrj, hjv⟩, _⟩ := h.known hc
  obtain ⟨job, hj, rfl⟩ := Table.view_eq_some.mp hrj
  exact ⟨job, hj, hjv⟩

theorem Linked.generation_of_claim (h : Linked s) (hc : (s.runs r).claim? = some c)
    (hg : (s.runs r).generation? = some g) :
    ∃ row, s.db.generations.get? g = some row ∧ row.changedDocumentVersionId = some c.versionId := by
  obtain ⟨rg, hrg, he⟩ := h.prepared hc hg
  obtain ⟨row, hrow, rfl⟩ := Table.view_eq_some.mp hrg
  exact ⟨row, hrow, he⟩

theorem Linked.goOn (h : Linked s) (hr : Refines s.db db') (hk : ∀ c, p.claim? = some c → c.Known db')
    (hp : ∀ c g, p.claim? = some c → p.generation? = some g → c.Prepared db' g) :
    Linked (s.goOn db' r p) where
  sound := hr.sound h.sound
  known {r' c} hc := by
    by_cases he : r' = r
    · subst he
      simp only [State.goOn, Function.update_self] at hc
      exact hk c hc
    · simp only [State.goOn, Function.update_of_ne he] at hc
      exact (h.known hc).mono hr.le
  prepared {r' c g} hc hg := by
    by_cases he : r' = r
    · subst he
      simp only [State.goOn, Function.update_self] at hc hg
      exact hp c g hc hg
    · simp only [State.goOn, Function.update_of_ne he] at hc hg
      exact (h.prepared hc hg).mono hr.le

theorem Linked.stop (h : Linked s) (hr : Refines s.db db') (hp : p.claim? = none) :
    Linked (s.goOn db' r p) :=
  h.goOn hr (fun c hc => by rw [hp] at hc; cases hc) (fun c g hc => by rw [hp] at hc; cases hc)

theorem Linked.commit (h : Linked s) (hr : Refines s.db s'.db) (hruns : s'.runs = s.runs) : Linked s' where
  sound := hr.sound h.sound
  known hc := (h.known (hruns ▸ hc)).mono hr.le
  prepared hc hg := (h.prepared (hruns ▸ hc) (hruns ▸ hg)).mono hr.le

theorem start_known {oc : Option Claim} {j : JobId} {now : Time}
    (h : start timeout db j now = .ok (db', oc)) (hc : oc = some c) : c.Known db' := by
  have hview := start_view h
  rcases start_cases h with ⟨_, rfl⟩ | ⟨job, version, hj, hv, _, _, _, rfl⟩
  · cases hc
  · cases hc
    simp only [Claim.Known, hview]
    exact ⟨⟨_, view_job hj, rfl⟩, _, view_version hv, rfl⟩

theorem persistStagedContent_prepared {sections : List BuiltSection} {chunks : List BuiltChunk}
    {pageCount : Nat} {now : Time} {cs : List CollectionId} (hs : (view db).Sound)
    (h : persistStagedContent db c sections chunks pageCount now = .ok (db', g, cs)) : c.Prepared db' g := by
  obtain ⟨tenant, version, job, db₁, rows, _, _, _, hv, _, hp, _, _, _, rfl⟩ := persistStagedContent_cases h
  obtain ⟨_, generations, rows₁, rfl, hgen, _⟩ := prepareGeneration_cases hp hs hv
  refine ⟨⟨version.tenantId, some c.versionId, tenant.activeIndexGenerationId, false⟩, ?_, rfl⟩
  simp only [view, persisted]
  rw [hgen, Function.update_self]

/-- Every ingestion action refines the catalog and keeps the runs linked. -/
theorem Linked.step (h : Linked s) (ha : a.isIngestion) (hs : step timeout s a = some s') :
    Refines s.db s'.db ∧ Linked s' := by
  have hsame : ∀ {db'}, view db' = view s.db → Refines s.db db' := Or.inl
  cases step_effect hs with
  | upload hup =>
      have hr : Refines s.db _ := Or.inr (uploadDocument_step hup)
      exact ⟨hr, h.commit hr rfl⟩
  | stage _ hd hst =>
      have hr : Refines s.db _ := Or.inr (stageVersion_step hd hst)
      exact ⟨hr, h.commit hr rfl⟩
  | tombstone ht =>
      have hr : Refines s.db _ := Or.inr (tombstoneDocument_step ht h.sound)
      exact ⟨hr, h.commit hr rfl⟩
  | stop hp => exact ⟨hsame rfl, h.stop (hsame rfl) hp⟩
  | start hrun hst =>
      have hr := hsame (start_view hst)
      refine ⟨hr, h.goOn hr (fun c' hc' => ?_) (fun _ _ _ hg => by cases hg)⟩
      cases hc'
      exact start_known hst rfl
  | @persist r _ _ _ _ c db g _ hrun hst =>
      have hk := h.known (r := r) (c := c) (by rw [hrun]; rfl)
      obtain ⟨_, rv, hrv, ht⟩ := id hk
      obtain ⟨version, hv, rfl⟩ := Table.view_eq_some.mp hrv
      have hr : Refines s.db db := Or.inr (persistStagedContent_step hst h.sound hv ht)
      refine ⟨hr, h.goOn hr (fun c' hc' => ?_) (fun c' g' hc' hg' => ?_)⟩
      · cases hc'; exact hk.mono hr.le
      · cases hc'; cases hg'
        exact persistStagedContent_prepared h.sound hst
  | markReady hrun hst =>
      have hr := hsame (markReady_view hst)
      refine ⟨hr, h.goOn hr (fun c' hc' => ?_) (fun c' g' hc' hg' => ?_)⟩
      · cases hc'; exact (h.known (by rw [hrun]; rfl)).mono hr.le
      · cases hc'; cases hg'
        exact (h.prepared (by rw [hrun]; rfl) (by rw [hrun]; rfl)).mono hr.le
  | @activate r _ c g db hrun hst =>
      have hr : Refines s.db db := activate_step hst h.sound (h.job_of_claim (by rw [hrun]; rfl))
        (h.generation_of_claim (by rw [hrun]; rfl) (by rw [hrun]; rfl))
      exact ⟨hr, h.stop hr rfl⟩
  | @markFailed r now j detail hrun =>
      have hr := hsame (markFailed_view s.db j detail now)
      exact ⟨hr, h.stop hr rfl⟩
  | beatRead => exact ⟨hsame rfl, h.commit (hsame rfl) rfl⟩
  | @beatWrite r now j beats hb =>
      have hr := hsame (touch_view s.db j now)
      exact ⟨hr, h.commit hr rfl⟩
  | enqueueRead => cases ha
  | enqueueWrite hq => cases ha

/-- What ingestion starts from: tenants without a generation. -/
def Untouched (tenants : Table TenantId Tenant) : Prop :=
  ∀ t r, tenants.get? t = some r → r.activeIndexGenerationId = none

theorem Linked.fresh {tenants : Table TenantId Tenant} (h : Untouched tenants) :
    Linked (State.fresh tenants) where
  sound := Catalog.Sound.fresh h
  known hc := by cases hc
  prepared hc := by cases hc

variable {tenants : Table TenantId Tenant} {ok : State → Action → Prop}

theorem linked_step : ∀ s a s', Linked s → a.isIngestion → step timeout s a = some s' → Linked s' :=
  fun _ _ _ h ha hs => (h.step ha hs).2

theorem linked_of_run (ht : Untouched tenants)
    (h : Run (step timeout) ingestion (State.fresh tenants) s) : Linked s :=
  Run.invariant linked_step h (Linked.fresh ht)

theorem le_of_run (hl : Linked s) (h : Run (step timeout) ingestion s s') :
    (view s.db).Le (view s'.db) :=
  Run.relation (r := fun s s' => (view s.db).Le (view s'.db)) (fun _ => Catalog.Le.refl _)
    (fun _ _ _ => Catalog.Le.trans) linked_step (fun _ _ _ hl ha hs => (hl.step ha hs).1.le) h hl

/-! ## Earlier and later databases -/

theorem Catalog.Le.activeNumber (h : (view db).Le (view db')) {t : TenantId} {d : DocumentId} {n : Nat}
    (hn : db.activeNumber t d = some n) :
    (∃ r, db'.documents.get? d = some r ∧ r.deletedAt ≠ none) ∨
      ∃ n', db'.activeNumber t d = some n' ∧ n ≤ n' := by
  simp only [Db.activeNumber, Db.activeVersion, Db.versionNumber, Option.bind_eq_some_iff,
    Option.map_eq_some_iff] at hn
  obtain ⟨v, ⟨r, hr, hv⟩, rv, hrv, rfl⟩ := hn
  split at hv
  · rename_i hlive
    obtain ⟨r', hr', htt, hk⟩ := h.document (view_document hr)
    obtain ⟨row, hrow, rfl⟩ := Table.view_eq_some.mp hr'
    cases hdel : row.deletedAt with
    | some at_ => exact Or.inl ⟨row, hrow, by simp [hdel]⟩
    | none =>
        obtain ⟨_, hkeep⟩ := hk (by simp [documentView, hdel])
        obtain ⟨v', rv', hv', hrv', hle⟩ := hkeep hv (view_version hrv)
        obtain ⟨vrow, hvrow, rfl⟩ := Table.view_eq_some.mp hrv'
        have htenant : row.tenantId = t := htt.trans hlive.1
        have hactive : row.activeVersionId = some v' := hv'
        refine Or.inr ⟨vrow.version, ?_, hle⟩
        simp [Db.activeNumber, Db.activeVersion, Db.versionNumber, hrow, htenant, hdel, hactive, hvrow]
  · cases hv

theorem Catalog.Le.activeVersion (h : (view db).Le (view db')) {t : TenantId} {d : DocumentId} {r : Document}
    (hr : db.documents.get? d = some r) (hdel : r.deletedAt ≠ none) : db'.activeVersion t d = none := by
  obtain ⟨r', hr', _, hk⟩ := h.document (view_document hr)
  obtain ⟨row, hrow, rfl⟩ := Table.view_eq_some.mp hr'
  have hdead : row.deletedAt ≠ none := by
    intro hlive
    obtain ⟨hl, _⟩ := hk (by simp [documentView, hlive])
    simp [documentView, hdel] at hl
  simp [Db.activeVersion, hrow, hdead]

theorem Catalog.Le.revision (h : (view db).Le (view db')) {t : TenantId} {n : Nat}
    (hn : db.retrievalRevision t = some n) : ∃ n', db'.retrievalRevision t = some n' ∧ n ≤ n' ∧
      (db'.activeGeneration t ≠ db.activeGeneration t → n < n') := by
  simp only [Db.retrievalRevision, Option.map_eq_some_iff] at hn
  obtain ⟨T, hT, rfl⟩ := hn
  obtain ⟨T', hT', hcmp⟩ := h.tenant (t := t) hT
  have hT'' : db'.tenants.get? t = some T' := hT'
  refine ⟨T'.retrievalRevision, by simp [Db.retrievalRevision, hT''], ?_, fun hne => ?_⟩
  · rcases hcmp with rfl | hlt
    · exact Nat.le_refl _
    · exact Nat.le_of_lt hlt
  · rcases hcmp with rfl | hlt
    · simp [Db.activeGeneration, hT, hT''] at hne
    · exact hlt

end Etoeragcb.Ingest
