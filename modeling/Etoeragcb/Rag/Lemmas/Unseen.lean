import Etoeragcb.Collections.Lemmas.Routes
import Etoeragcb.Ingest.Lemmas.Collector
import Etoeragcb.Rag.Deployment
import Etoeragcb.Rag.Lemmas.Visible

/-!
# Steps that a tenant does not see

A step either raises the revision of a tenant or leaves what the tenant sees as it is, as long as nobody touches the
content of an active version.
-/

namespace Etoeragcb.Ingest.Catalog

open Models

variable {s s' : Catalog} {t : TenantId} {g : GenerationId}

theorem Step.row_eq (h : s.Step s') (hs : s.Sound) (ht : s'.tenant t = s.tenant t) (hg : s.current t = some g) :
    s'.row g = s.row g := by
  obtain ⟨rg, hrg, hrt, hactive⟩ := hs.current_active hg
  cases h with
  | stage _ _ _ => rfl
  | @prepare T t₀ d v n g₀ hv hT hg₀ =>
      have hne : g ≠ g₀ := by
        rintro rfl
        rcases hg₀ with hnone | ⟨t', p, hg₀⟩
        · rw [hrg] at hnone
          cases hnone
        · rw [hrg] at hg₀
          cases hg₀
          cases hactive
      exact Function.update_of_ne hne _ _
  | @activate T t₀ d v n a j g₀ p b row' hv hd hj hT hg₀ hnewer hrow =>
      have hne : g ≠ g₀ := by
        rintro rfl
        rw [hrg] at hg₀
        cases hg₀
        rw [← hrt, hT] at ht
        have hrevision := congrArg (Option.map Tenant.retrievalRevision) ht
        simp at hrevision
      rcases hrow with ⟨-, rfl⟩ | rfl
      · rfl
      · exact Function.update_of_ne hne _ _
  | @remove T t₀ d a g₀ job' hd hT hg₀ hjob =>
      have hne : g ≠ g₀ := by
        rintro rfl
        rw [hrg] at hg₀
        cases hg₀
      exact Function.update_of_ne hne _ _
  | bump _ => rfl

theorem Step.tenant_none (h : s.Step s') (ht : s.tenant t = none) : s'.tenant t = none := by
  cases h with
  | stage _ _ _ => exact ht
  | prepare _ _ _ => exact ht
  | activate _ _ _ hT _ _ _ =>
      rw [← ht]
      refine Function.update_of_ne ?_ _ _
      rintro rfl
      rw [hT] at ht
      cases ht
  | remove _ hT _ _ =>
      rw [← ht]
      refine Function.update_of_ne ?_ _ _
      rintro rfl
      rw [hT] at ht
      cases ht
  | bump hT =>
      rw [← ht]
      refine Function.update_of_ne ?_ _ _
      rintro rfl
      rw [hT] at ht
      cases ht

end Etoeragcb.Ingest.Catalog

namespace Etoeragcb.Rag

open Lib Models Ingest Collections

variable {ε : Type} {db db' : Db} {t : TenantId} {d : DocumentId} {v : VersionId} {timeout : Nat} {x x' : State}
  {a : Action}

/-! ## What is listed -/

theorem document_of_listed (hs : (view db).Sound) (h : db.listed t d = some v) :
    ∃ row, db.documents.get? d = some row ∧ row.tenantId = t ∧ row.activeVersionId = some v := by
  rw [← view_listed, hs.exact, view_activeVersion, Db.activeVersion, Option.bind_eq_some_iff] at h
  obtain ⟨row, hrow, h⟩ := h
  split at h
  · rename_i hlive
    exact ⟨row, hrow, hlive.1, h⟩
  · cases h

theorem isActive_of_listed (hs : (view db).Sound) (h : ListedVersion db t v) : IsActive db v := by
  obtain ⟨d, hd⟩ := h
  obtain ⟨row, hrow, -, ha⟩ := document_of_listed hs hd
  exact ⟨d, row, hrow, ha⟩

theorem not_listed_of_inactive (hs : (view db).Sound) (hset : Settled db)
    (h : (db.versions.get? v).any (·.status = .active) = false) : ¬ListedVersion db t v := by
  intro hv
  obtain ⟨row, hrow, hstatus⟩ := hset v (isActive_of_listed hs hv)
  simp [hrow, hstatus] at h

/-! ## What ingestion leaves alone -/

structure SameContent (t : TenantId) (db db' : Db) : Prop where
  documents : Table.Agree (fun d _ => ListedDocument db t d) db.documents db'.documents
  collections : Table.Agree (fun _ c => c.tenantId = t ∧ c.deletedAt = none) db.collections db'.collections
  memberships : Table.Agree (fun k t' => t' = t ∧ ListedDocument db t k.1) db.documentCollections
    db'.documentCollections
  sections : Table.Agree (fun _ x => ListedVersion db t x.documentVersionId) db.sections db'.sections
  chunks : Table.Agree (fun _ x => ListedVersion db t x.documentVersionId) db.chunks db'.chunks

theorem SameContent.of_eq (hd : db'.documents = db.documents) (hc : db'.collections = db.collections)
    (hm : db'.documentCollections = db.documentCollections) (hs : db'.sections = db.sections)
    (hch : db'.chunks = db.chunks) : SameContent t db db' where
  documents := hd ▸ .refl _
  collections := hc ▸ .refl _
  memberships := hm ▸ .refl _
  sections := hs ▸ .refl _
  chunks := hch ▸ .refl _

theorem sameContent_stageVersion {t₀ : TenantId} {j : JobId} {now : Time}
    (h : stageVersion db t₀ d v j now = .ok db') : SameContent t db db' := by
  obtain ⟨_, _, _, _, _, _, _, _, _, _, _, _, rfl⟩ := stageVersion_cases h
  exact .of_eq rfl rfl rfl rfl rfl

theorem markFailed_content (db : Db) (j : JobId) (detail : String) (now : Time) :
    SameContent t db (markFailed db j detail now) := by
  unfold markFailed
  split
  · exact .of_eq rfl rfl rfl rfl rfl
  · split
    · exact .of_eq rfl rfl rfl rfl rfl
    · dsimp only
      split
      · exact .of_eq rfl rfl rfl rfl rfl
      · split
        · exact .of_eq rfl rfl rfl rfl rfl
        · exact .of_eq rfl rfl rfl rfl rfl

theorem not_listedDocument {row : Document} (hs : (view db).Sound) (hd : db.documents.get? d = some row)
    (ht : row.tenantId ≠ t) : ¬ListedDocument db t d := by
  rintro ⟨v, hv⟩
  obtain ⟨row', hrow', ht', -⟩ := document_of_listed hs hv
  rw [hd] at hrow'
  cases hrow'
  exact ht ht'

/-- Content is written for versions that are not listed, and documents of a tenant that stays as it is are not
rewritten. -/
theorem sameContent_step (hl : Linked x) (hset : Settled x.db) (ha : persistsInactive x a)
    (hs : step timeout x a = some x') (ht : x'.db.tenants.get? t = x.db.tenants.get? t) : SameContent t x.db x'.db := by
  cases step_effect hs with
  | @upload t₀ d₀ title filename cs v j now db hup =>
      obtain ⟨documents, documentCollections, hd, hdc, -, hst⟩ := uploadDocument_cases hup
      have hfresh : ¬ListedDocument x.db t d₀ := by
        rintro ⟨v, hv⟩
        obtain ⟨row, hrow, -⟩ := document_of_listed hl.sound hv
        rw [Table.insert?_fresh hd] at hrow
        cases hrow
      obtain ⟨_, _, _, _, _, _, _, _, _, _, _, _, rfl⟩ := stageVersion_cases hst
      refine ⟨Table.agree_insert? hd hfresh, .refl _, Table.agree_insertAll? hdc ?_, .refl _, .refl _⟩
      intro k hk hq
      obtain ⟨c, -, rfl⟩ := List.mem_map.mp hk
      exact hfresh hq.2
  | stage _ _ hst => exact sameContent_stageVersion hst
  | @tombstone t₀ d₀ now db n htomb =>
      obtain ⟨tenant, document, g, generations, rows, hT, hd, hdt, -, -, -, -, rfl⟩ := tombstoneDocument_cases htomb
      have hne : document.tenantId ≠ t := by
        rintro rfl
        subst hdt
        have hrevision := congrArg (Option.map Tenant.retrievalRevision) ht
        simp [tombstoned, failPending, hT] at hrevision
      refine ⟨Table.agree_modify _ fun row hrow => ?_, .refl _, .refl _, .refl _, .refl _⟩
      have hno := not_listedDocument hl.sound hd hne
      exact ⟨hno, hno⟩
  | stop _ => exact .of_eq rfl rfl rfl rfl rfl
  | start _ hst =>
      rcases start_cases hst with ⟨rfl, _⟩ | ⟨_, _, _, _, _, _, rfl, _⟩
      · exact .of_eq rfl rfl rfl rfl rfl
      · exact .of_eq rfl rfl rfl rfl rfl
  | @persist r sections chunks pageCount now c db g cs hrun hst =>
      obtain ⟨tenant, version, _, db₁, rows, newSections, newChunks, _, hv, _, hp, _, hsec, hch, rfl⟩ :=
        persistStagedContent_cases hst
      obtain ⟨generations, rows₁, rfl⟩ := prepareGeneration_frame hp
      have hno : ¬ListedVersion x.db t c.versionId := by
        refine not_listed_of_inactive hl.sound hset ?_
        have hinactive := ha.2
        simpa [persistsActive, hrun, Process.claim?] using hinactive
      refine ⟨.refl _, .refl _, .refl _, ?_, ?_⟩
      · refine Table.Agree.trans (Table.agree_delete _ fun k row hq => ?_) (Table.agree_insertAll? hsec ?_)
        · exact decide_eq_false fun he => hno (he ▸ hq)
        · intro k hk hq
          obtain ⟨section_, -, rfl⟩ := List.mem_map.mp hk
          exact hno hq
      · refine Table.Agree.trans (Table.agree_delete _ fun k row hq => ?_) (Table.agree_insertAll? hch ?_)
        · exact decide_eq_false fun he => hno (he ▸ hq)
        · intro k hk hq
          obtain ⟨chunk, -, rfl⟩ := List.mem_map.mp hk
          exact hno hq
  | markReady _ hst =>
      rcases markReady_cases hst with rfl | ⟨_, _, _, rfl⟩
      · exact .of_eq rfl rfl rfl rfl rfl
      · exact .of_eq rfl rfl rfl rfl rfl
  | activate _ hst =>
      rcases activate_cases hst with ⟨rfl, _⟩ |
        ⟨version, _, _, tenant, document, _, _, _, _, _, hT, hd, hdt, _, _, _, rfl⟩
      · exact .of_eq rfl rfl rfl rfl rfl
      · have hne : document.tenantId ≠ t := by
          rintro rfl
          rw [hdt] at ht
          have hrevision := congrArg (Option.map Tenant.retrievalRevision) ht
          simp [activated, State.goOn, hT] at hrevision
        refine ⟨Table.agree_modify _ fun row hrow => ?_, .refl _, .refl _, .refl _, .refl _⟩
        have hno := not_listedDocument hl.sound hd hne
        exact ⟨hno, hno⟩
  | markFailed _ => exact markFailed_content _ _ _ _
  | beatRead => exact .of_eq rfl rfl rfl rfl rfl
  | beatWrite _ => exact .of_eq rfl rfl rfl rfl rfl
  | enqueueRead => exact .of_eq rfl rfl rfl rfl rfl
  | enqueueWrite _ => exact .of_eq rfl rfl rfl rfl rfl

/-! ## The invariant -/

variable {settings : DeploymentSettings ε} {s s' : Deployment ε}

/-- What is stored hangs together, and active versions are settled. -/
structure Sane (settings : DeploymentSettings ε) (s : Deployment ε) : Prop where
  intact : Intact s.archive
  settled : Settled s.db
  grounded : Grounded s.db
  /-- The id of a point is made from its version. -/
  owned : ∀ id p, s.points.get? id = some p → settings.versionOfChunk id = p.documentVersionId

theorem Sane.sound (h : Sane settings s) : (view s.db).Sound := h.intact.linked.sound

theorem archiveStep_cases {b b' : Archive} {a : ArchiveAction} (hs : archiveStep timeout b a = some b') :
    (∃ a₀, a = .ingest a₀ ∧ step timeout b.ingest a₀ = some b'.ingest) ∨
      ((∀ a₀, a ≠ .ingest a₀) ∧ b'.ingest = b.ingest) ∨
        ∃ k c now, a = .deleteRows k now ∧ b.collectors[k]? = some c ∧
          b'.ingest = { b.ingest with db := collected b.ingest.db c.ids now } := by
  cases a with
  | ingest a =>
      simp only [archiveStep] at hs
      split at hs
      · obtain ⟨t', ht, rfl⟩ := Option.map_eq_some_iff.mp hs
        exact .inl ⟨a, rfl, ht⟩
      · cases hs
  | parse r =>
      simp only [archiveStep] at hs
      split at hs
      · split at hs
        · cases hs
          exact .inr (.inl ⟨by simp, rfl⟩)
        · cases hs
      · cases hs
  | select tenantId n olderThan =>
      cases hs
      exact .inr (.inl ⟨by simp, rfl⟩)
  | deletePayloads k =>
      simp only [archiveStep] at hs
      split at hs
      · split at hs
        · cases hs
          exact .inr (.inl ⟨by simp, rfl⟩)
        · cases hs
      · cases hs
  | deleteRows k now =>
      simp only [archiveStep] at hs
      split at hs
      · rename_i c hk
        split at hs
        · cases hs
          exact .inr (.inr ⟨k, c, now, rfl, hk, rfl⟩)
        · cases hs
      · cases hs

theorem Settled.collected {ids : List VersionId} {now : Time} (h : Settled db) : Settled (collected db ids now) := by
  refine SettledAs.frame (p := (· = .active)) h rfl fun v r _ hr hp => ⟨_, by rw [Ingest.collected, Table.get?_update, hr]; rfl, ?_⟩
  split
  · exact hp
  · exact hp

theorem Grounded.frame (h : Grounded db)
    (hc : ∀ id chunk, db'.chunks.get? id = some chunk → db.chunks.get? id = some chunk)
    (hv : ∀ v r, (view db).version v = some r → (view db').version v = some r) : Grounded db' := by
  intro id chunk hchunk
  obtain ⟨row, hrow, he⟩ := h id chunk (hc id chunk hchunk)
  obtain ⟨row', hrow', he'⟩ := Table.view_eq_some.mp (hv _ _ (view_version hrow))
  exact ⟨row', hrow', (congrArg VersionView.documentId he').trans he⟩

theorem Grounded.ingest (h : Grounded x.db) (hle : (view x.db).Le (view x'.db)) (hs : step timeout x a = some x') :
    Grounded x'.db := by
  rcases chunks_step hs with ⟨hc, -⟩ | ⟨r, sections, chunks, n, now, c, g, version, -, -, -, hv, hc⟩
  · exact h.frame (fun id chunk hchunk => hc ▸ hchunk) fun _ _ hr => hle.version hr
  · intro id chunk hchunk
    rcases (Table.get?_insertAll? hc).mp hchunk with hnew | hold
    · obtain ⟨built, -, he⟩ := List.mem_map.mp hnew
      cases he
      obtain ⟨row, hrow, he⟩ := Table.view_eq_some.mp (hle.version (view_version hv))
      exact ⟨row, hrow, congrArg VersionView.documentId he⟩
    · rw [Table.get?_delete, Option.filter_eq_some_iff] at hold
      obtain ⟨row, hrow, he⟩ := h id chunk hold.1
      obtain ⟨row', hrow', he'⟩ := Table.view_eq_some.mp (hle.version (view_version hrow))
      exact ⟨row', hrow', (congrArg VersionView.documentId he').trans he⟩

theorem view_collected (db : Db) (ids : List VersionId) (now : Time) : view (collected db ids now) = view db :=
  view_congr rfl rfl (Table.view_update fun v r _ => by split <;> rfl) rfl rfl rfl

theorem view_bumped {T : Tenant} {collections : Table CollectionId KnowledgeCollection}
    {documentCollections : Table (DocumentId × CollectionId) TenantId} (ht : db.tenants.get? t = some T) :
    (view db).Step (view (bumped { db with collections, documentCollections } t)) := by
  have hst := Catalog.Step.bump (s := view db) (t := t) (T := T) ht
  convert hst using 1
  simp only [view, bumped]
  congr 1
  exact Table.get?_modify_update ht

theorem Intact.withDb {b : Archive} (h : Intact b) (hr : Refines b.ingest.db db')
    (hd : db'.documents = b.ingest.db.documents) (hv : db'.versions = b.ingest.db.versions)
    (hc : db'.chunks = b.ingest.db.chunks) : Intact { b with ingest := { b.ingest with db := db' } } where
  linked := h.linked.commit hr rfl
  needed := h.needed.frame hd fun v r _ hr hp => ⟨r, hv ▸ hr, hp⟩
  spared v ha := h.spared v (by simpa only [IsActive, hd] using ha)
  filed v hclaims mark hmark := h.filed v hclaims mark (by simpa only [marks, hv] using hmark)
  stored_of := h.stored_of
  kept v hclaims y hy := hc ▸ h.kept v hclaims y hy

theorem upsert_owned {versionOf : ChunkId → VersionId} {points : Table ChunkId (IndexPoint ε)}
    (h : ∀ id p, points.get? id = some p → versionOf id = p.documentVersionId) {batch : List (ChunkId × IndexPoint ε)}
    (hb : ∀ y ∈ batch, versionOf y.1 = y.2.documentVersionId) {id : ChunkId} {p : IndexPoint ε}
    (hp : (upsert points batch).get? id = some p) : versionOf id = p.documentVersionId := by
  induction batch generalizing points with
  | nil => exact h id p hp
  | cons y batch ih =>
      rw [List.forall_mem_cons] at hb
      have hput : ∀ id p, (points.put y.1 y.2).get? id = some p → versionOf id = p.documentVersionId := by
        intro id p hp
        rw [Table.get?_put] at hp
        by_cases he : id = y.1
        · subst he
          rw [Function.update_self, Option.some.injEq] at hp
          exact hp ▸ hb.1
        · rw [Function.update_of_ne he] at hp
          exact h id p hp
      exact ih hput hb.2 hp

theorem mem_of_get?_delete {κ ρ : Type} [DecidableEq κ] {table : Table κ ρ} {p : κ → ρ → Bool} {k : κ} {r : ρ}
    (h : (table.delete p).get? k = some r) : table.get? k = some r := by
  rw [Table.get?_delete, Option.filter_eq_some_iff] at h
  exact h.1

theorem careful_ingest {a : Action} (h : careful s (.archive (.ingest a)) = true) :
    persistsInactive s.archive.ingest a := by
  simp only [careful, sparesSelected, ArchiveAction.isConcurrent, Bool.and_eq_true, Bool.not_eq_true'] at h
  exact ⟨h.1.1, h.2⟩

theorem careful_archive {a : ArchiveAction} (h : careful s (.archive a) = true) : sparesSelected s.archive a = true := by
  simp only [careful, Bool.and_eq_true] at h
  exact h.1

theorem Sane.step {a : DeploymentAction ε} (h : Sane settings s) (ha : careful s a)
    (hs : deploymentStep settings s a = some s') : Sane settings s' := by
  cases a with
  | archive a =>
      obtain ⟨b, hb, rfl⟩ := Option.map_eq_some_iff.mp hs
      have hintact := h.intact.archiveStep (careful_archive ha) hb
      have howned : ∀ id p, (s.pointsAfter a).get? id = some p → settings.versionOfChunk id = p.documentVersionId := by
        intro id p hp
        unfold Deployment.pointsAfter at hp
        split at hp
        · exact h.owned id p (mem_of_get?_delete hp)
        · exact h.owned id p hp
      rcases archiveStep_cases hb with ⟨a, rfl, hstep⟩ | ⟨-, he⟩ | ⟨k, c, now, -, -, he⟩
      · have hinactive := careful_ingest ha
        exact ⟨hintact, Settled.step h.settled h.intact.linked hinactive hstep,
          h.grounded.ingest (h.intact.linked.step hinactive.1 hstep).1.le hstep, howned⟩
      · refine ⟨hintact, ?_, ?_, howned⟩
        · show Settled b.ingest.db
          rw [he]
          exact h.settled
        · show Grounded b.ingest.db
          rw [he]
          exact h.grounded
      · refine ⟨hintact, ?_, ?_, howned⟩
        · show Settled b.ingest.db
          rw [he]
          exact Settled.collected h.settled
        · show Grounded b.ingest.db
          rw [he]
          exact h.grounded.frame (fun id chunk hc => mem_of_get?_delete hc) 
            fun v r hr => (congrArg (·.version v) (view_collected _ _ _)).trans hr
  | clearPoints r =>
      obtain ⟨c, -, rfl⟩ := Option.map_eq_some_iff.mp hs
      exact ⟨h.intact, h.settled, h.grounded, fun id p hp => h.owned id p (mem_of_get?_delete hp)⟩
  | upsertPoints r batch =>
      obtain ⟨c, -, hs⟩ := Option.bind_eq_some_iff.mp hs
      split at hs
      · rename_i hb
        cases hs
        refine ⟨h.intact, h.settled, h.grounded, fun id p hp => upsert_owned h.owned (fun y hy => ?_) hp⟩
        have hy := List.all_eq_true.mp hb y hy
        simp only [Deployment.isPointOf, Bool.and_eq_true, decide_eq_true_eq] at hy
        exact hy.1.trans hy.2.1.2.symm
      · cases hs
  | collection request =>
      simp only [deploymentStep] at hs
      split at hs
      · rename_i db response hdb
        cases hs
        rcases handle_cases hdb with rfl | ⟨T, collections, documentCollections, hT, -, rfl⟩
        · exact h
        · refine ⟨Intact.withDb h.intact (.inr (view_bumped hT)) rfl rfl rfl, ?_, ?_, h.owned⟩
          · exact SettledAs.frame (p := (· = .active)) h.settled rfl fun v r _ hr hp => ⟨r, hr, hp⟩
          · exact h.grounded.frame (fun _ _ hc => hc) fun v r hr => hr
      · cases hs
  | retrieve q request =>
      simp only [deploymentStep] at hs
      split at hs
      · cases hs
        exact ⟨h.intact, h.settled, h.grounded, h.owned⟩
      · cases hs
  | query q =>
      obtain ⟨y, -, hs⟩ := Option.bind_eq_some_iff.mp hs
      obtain ⟨_, -, rfl⟩ := Option.map_eq_some_iff.mp hs
      exact ⟨h.intact, h.settled, h.grounded, h.owned⟩
  | lookup q answers =>
      obtain ⟨y, -, hs⟩ := Option.bind_eq_some_iff.mp hs
      obtain ⟨_, -, rfl⟩ := Option.map_eq_some_iff.mp hs
      exact ⟨h.intact, h.settled, h.grounded, h.owned⟩
  | cache q stores =>
      obtain ⟨y, -, hs⟩ := Option.bind_eq_some_iff.mp hs
      obtain ⟨_, -, rfl⟩ := Option.map_eq_some_iff.mp hs
      exact ⟨h.intact, h.settled, h.grounded, h.owned⟩
  | expire key =>
      cases hs
      exact ⟨h.intact, h.settled, h.grounded, h.owned⟩

/-! ## What the tenant sees -/

theorem visible_of_content {store store' : Store ε} (ht : store'.db.tenants.get? t = store.db.tenants.get? t)
    (hrows : activeRows store'.db t = activeRows store.db t) (hc : SameContent t store.db store'.db)
    (hp : Table.Agree (fun _ p => ListedVersion store.db t p.documentVersionId) store.points store'.points) :
    visible t store' = visible t store :=
  visible_eq_iff.mpr ⟨ht, hrows, hc.documents, hc.collections, hc.memberships, hc.sections, hc.chunks, hp⟩

theorem revision_mono {store store' : Store ε} (hr : Refines store.db store'.db) :
    revisionOf t store ≤ revisionOf t store' ∧
      (revisionOf t store' = revisionOf t store → store'.db.tenants.get? t = store.db.tenants.get? t) := by
  simp only [revisionOf, Db.retrievalRevision]
  cases ht : store.db.tenants.get? t with
  | none =>
      have hnone : store'.db.tenants.get? t = none := by
        rcases hr with he | hst
        · exact (congrFun (congrArg Catalog.tenant he) t).trans ht
        · exact hst.tenant_none ht
      simp [hnone]
  | some T =>
      obtain ⟨T', hT', hle⟩ := hr.le.tenant (t := t) (T := T) ht
      rw [show store'.db.tenants.get? t = some T' from hT']
      rcases hle with rfl | hlt
      · simp
      · simp only [Option.map_some, Option.getD_some]
        exact ⟨hlt.le, fun he => absurd he hlt.ne'⟩

theorem activeRows_of_refines (hs : (view db).Sound) (hr : Refines db db')
    (ht : db'.tenants.get? t = db.tenants.get? t) : activeRows db' t = activeRows db t := by
  funext d
  have hgen : db'.activeGeneration t = db.activeGeneration t := by rw [Db.activeGeneration, Db.activeGeneration, ht]
  rw [activeRows, activeRows, hgen]
  refine Option.bind_congr fun g hg => ?_
  rcases hr with he | hst
  · exact congrFun (congrFun (congrArg Catalog.row he) g) d
  · exact congrFun (hst.row_eq hs ht hg) d

theorem stamped_of_refines {store store' : Store ε} (hs : (view store.db).Sound) (hr : Refines store.db store'.db)
    (hc : store'.db.tenants.get? t = store.db.tenants.get? t → SameContent t store.db store'.db)
    (hp : Table.Agree (fun _ p => ListedVersion store.db t p.documentVersionId) store.points store'.points) :
    Stamped (revisionOf t) (visible t) store store' := by
  obtain ⟨hle, htenant⟩ := revision_mono (t := t) hr
  refine ⟨hle, fun he => ?_⟩
  have ht := htenant he
  exact visible_of_content ht (activeRows_of_refines hs hr ht) (hc ht) hp

theorem agree_upsert {points : Table ChunkId (IndexPoint ε)} {q : VersionId → Prop} {batch : List (ChunkId × IndexPoint ε)}
    (hq : ¬q v) (hold : ∀ y ∈ batch, ∀ p, points.get? y.1 = some p → p.documentVersionId = v)
    (hnew : ∀ y ∈ batch, y.2.documentVersionId = v) :
    Table.Agree (fun _ p => q p.documentVersionId) points (upsert points batch) := by
  induction batch generalizing points with
  | nil => exact .refl _
  | cons y batch ih =>
      rw [List.forall_mem_cons] at hold hnew
      refine Table.Agree.trans (Table.agree_put _ (fun p hp hqp => hq (hold.1 p hp ▸ hqp)) fun hqp => hq (hnew.1 ▸ hqp))
        (ih (fun z hz p hp => ?_) hnew.2)
      rw [Table.get?_put] at hp
      by_cases he : z.1 = y.1
      · rw [he, Function.update_self, Option.some.injEq] at hp
        exact hp ▸ hnew.1
      · rw [Function.update_of_ne he] at hp
        exact hold.2 z hz p hp

theorem sameContent_of_local {t₀ : TenantId} {collections : Table CollectionId KnowledgeCollection}
    {documentCollections : Table (DocumentId × CollectionId) TenantId} (hne : t ≠ t₀)
    (h : Local t₀ db { db with collections, documentCollections }) :
    SameContent t db (bumped { db with collections, documentCollections } t₀) where
  documents := .refl _
  collections c row hq := h.collections c row fun he => hne (hq.1.symm.trans he)
  memberships k t' hq := h.memberships k t' fun he => hne (hq.1.symm.trans he)
  sections := .refl _
  chunks := .refl _

theorem Sane.not_listed (h : Sane settings s) {r : RunId} {c : Claim} (hc : s.indexing r = some c)
    (ha : ((s.indexing r).all fun c => !(s.db.versions.get? c.versionId).any (·.status = .active)) = true) :
    ¬ListedVersion s.db t c.versionId := by
  refine not_listed_of_inactive h.sound h.settled ?_
  simpa [hc] using ha

theorem stamped_step {a : DeploymentAction ε} (h : Sane settings s) (ha : careful s a)
    (hs : deploymentStep settings s a = some s') : Stamped (revisionOf t) (visible t) s.store s'.store := by
  have hsame : ∀ {db'}, db' = s.db → SameContent t s.db db' := fun he => he ▸ .of_eq rfl rfl rfl rfl rfl
  cases a with
  | archive a =>
      obtain ⟨b, hb, rfl⟩ := Option.map_eq_some_iff.mp hs
      rcases archiveStep_cases hb with ⟨a, rfl, hstep⟩ | ⟨hnot, he⟩ | ⟨k, c, now, rfl, hk, he⟩
      · have hinactive := careful_ingest ha
        have hr := (h.intact.linked.step hinactive.1 hstep).1
        exact stamped_of_refines h.sound hr (sameContent_step h.intact.linked h.settled hinactive hstep) (.refl _)
      · have hdb : b.ingest.db = s.db := congrArg State.db he
        refine stamped_of_refines h.sound (.inl (congrArg view hdb)) (fun _ => hsame hdb) ?_
        show Table.Agree _ s.points (s.pointsAfter a)
        unfold Deployment.pointsAfter
        split
        · rename_i k
          refine Table.agree_delete _ fun id p hq => ?_
          cases hk : s.archive.collectors[k]? with
          | none => rfl
          | some c =>
              have hspared := h.intact.spared _ (isActive_of_listed h.sound hq)
              simp [not_mem_ids hk hspared]
        · exact .refl _
      · have hdb : b.ingest.db = collected s.db c.ids now := congrArg State.db he
        refine stamped_of_refines h.sound (.inl ((congrArg view hdb).trans (view_collected _ _ _))) (fun _ => ?_) (.refl _)
        show SameContent t s.db b.ingest.db
        rw [hdb]
        have hspared : ∀ v, ListedVersion s.db t v → decide (v ∈ c.ids) = false := fun v hv =>
          decide_eq_false (not_mem_ids hk (h.intact.spared _ (isActive_of_listed h.sound hv)))
        exact ⟨.refl _, .refl _, .refl _, Table.agree_delete _ fun _ row hq => hspared _ hq,
          Table.agree_delete _ fun _ row hq => hspared _ hq⟩
  | clearPoints r =>
      obtain ⟨c, hc, rfl⟩ := Option.map_eq_some_iff.mp hs
      have hno := h.not_listed (t := t) hc ha
      refine stamped_of_refines h.sound (.inl rfl) (fun _ => hsame rfl) (Table.agree_delete _ fun _ p hq => ?_)
      have hne : p.documentVersionId ≠ c.versionId := fun he => hno (he ▸ hq)
      simp [hne]
  | upsertPoints r batch =>
      obtain ⟨c, hc, hs⟩ := Option.bind_eq_some_iff.mp hs
      split at hs
      · rename_i hb
        cases hs
        have hno := h.not_listed (t := t) hc ha
        have hbatch : ∀ y ∈ batch, settings.versionOfChunk y.1 = c.versionId ∧ y.2.documentVersionId = c.versionId := by
          intro y hy
          have hy := List.all_eq_true.mp hb y hy
          simp only [Deployment.isPointOf, Bool.and_eq_true, decide_eq_true_eq] at hy
          exact ⟨hy.1, hy.2.1.2⟩
        refine stamped_of_refines h.sound (.inl rfl) (fun _ => hsame rfl) ?_
        exact agree_upsert hno (fun y hy p hp => (h.owned y.1 p hp).symm.trans (hbatch y hy).1)
          fun y hy => (hbatch y hy).2
      · cases hs
  | collection request =>
      simp only [deploymentStep] at hs
      split at hs
      · rename_i db response hdb
        cases hs
        rcases handle_cases hdb with rfl | ⟨T, collections, documentCollections, hT, hlocal, rfl⟩
        · exact .of_eq rfl rfl
        · refine stamped_of_refines h.sound (.inr (view_bumped hT)) (fun ht => ?_) (.refl _)
          refine sameContent_of_local (fun he => ?_) hlocal
          subst he
          have hrevision := congrArg (Option.map Tenant.retrievalRevision) ht
          have hT' : s.archive.ingest.db.tenants.get? _ = some T := hT
          simp [Deployment.store, Deployment.db, Deployment.withDb, bumped, hT'] at hrevision
      · cases hs
  | retrieve q request =>
      simp only [deploymentStep] at hs
      split at hs
      · cases hs
        exact .of_eq rfl rfl
      · cases hs
  | query q =>
      obtain ⟨y, -, hs⟩ := Option.bind_eq_some_iff.mp hs
      obtain ⟨_, -, rfl⟩ := Option.map_eq_some_iff.mp hs
      exact .of_eq rfl rfl
  | lookup q answers =>
      obtain ⟨y, -, hs⟩ := Option.bind_eq_some_iff.mp hs
      obtain ⟨_, -, rfl⟩ := Option.map_eq_some_iff.mp hs
      exact .of_eq rfl rfl
  | cache q stores =>
      obtain ⟨y, -, hs⟩ := Option.bind_eq_some_iff.mp hs
      obtain ⟨_, -, rfl⟩ := Option.map_eq_some_iff.mp hs
      exact .of_eq rfl rfl
  | expire key =>
      cases hs
      exact .of_eq rfl rfl

end Etoeragcb.Rag
