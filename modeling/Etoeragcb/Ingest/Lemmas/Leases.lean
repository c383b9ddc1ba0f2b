import Etoeragcb.Ingest.Lemmas.Runs

/-!
# Leases

A run holds a job when its claim is the latest one. The job is then processing, or has succeeded.
-/

namespace Etoeragcb.Ingest

open Lib Models

variable {timeout : Nat} {s s' : State} {a : Action} {db db' : Db} {j : JobId} {g : GenerationId} {c : Claim}
  {now : Time} {r r' : RunId} {p : Process}

/-- The status of a job and the number of times it was claimed. -/
def lease (r : IngestionJob) : JobStatus × Nat := (r.status, r.attempt)

/-! ## What each transaction does to the leases -/

theorem start_lease (h : start timeout db j now = .ok (db', some c)) :
    ∃ job, db.jobs.get? j = some job ∧ job.status ≠ .succeeded ∧ leaseHeld timeout job now = false ∧
      c.jobId = j ∧ c.attempt = job.attempt + 1 ∧
      db'.jobs.view lease = Function.update (db.jobs.view lease) j (some (.processing, job.attempt + 1)) := by
  rcases start_cases h with ⟨_, he⟩ | ⟨job, version, hj, _, hs, hl, rfl, he⟩
  · cases he
  · cases he
    exact ⟨job, hj, hs, hl, rfl, rfl, Table.view_modify_update hj rfl⟩

theorem persistStagedContent_lease {sections : List BuiltSection} {chunks : List BuiltChunk}
    {pageCount : Nat} {cs : List CollectionId}
    (h : persistStagedContent db c sections chunks pageCount now = .ok (db', g, cs)) :
    db'.jobs.view lease = db.jobs.view lease := by
  obtain ⟨tenant, version, job, db₁, rows, _, _, _, _, _, hp, _, _, _, rfl⟩ := persistStagedContent_cases h
  have hjobs : db₁.jobs = db.jobs := by
    cases hg : priorGeneration db c.versionId with
    | none =>
        simp only [prepareGeneration, hg, bind_eq_ok, orRaise_eq_ok, pure_eq_ok, Prod.mk.injEq] at hp
        obtain ⟨_, _, rfl, _⟩ := hp
        rfl
    | some x =>
        simp only [prepareGeneration, hg, pure_eq_ok, Prod.mk.injEq] at hp
        obtain ⟨rfl, _⟩ := hp
        rfl
  simp only [persisted, hjobs]
  exact Table.view_modify fun _ _ => rfl

theorem markReady_lease (h : markReady db c now = .ok db') : db'.jobs.view lease = db.jobs.view lease := by
  rcases markReady_cases h with rfl | ⟨_, _, _, rfl⟩
  · rfl
  · exact Table.view_modify fun _ _ => rfl

theorem touch_lease : (touch db j now).jobs.view lease = db.jobs.view lease :=
  Table.view_modify fun _ _ => rfl

theorem activate_lease (h : activate db c g now = .ok db') :
    db'.jobs.view lease = db.jobs.view lease ∨ ∃ job, db.jobs.get? c.jobId = some job ∧
      db'.jobs.view lease = Function.update (db.jobs.view lease) c.jobId (some (.succeeded, job.attempt)) := by
  rcases activate_cases h with ⟨rfl, _⟩ | ⟨_, _, job, _, _, _, _, _, hj, _, _, _, _, _, _, _, rfl⟩
  · exact Or.inl rfl
  · exact Or.inr ⟨job, hj, Table.view_modify_update hj rfl⟩

theorem markFailed_lease (db : Db) (j : JobId) (detail : String) (now : Time) :
    (markFailed db j detail now).jobs.view lease = db.jobs.view lease ∨
    ∃ job, db.jobs.get? j = some job ∧ job.status ≠ .succeeded ∧
      (markFailed db j detail now).jobs.view lease =
        Function.update (db.jobs.view lease) j (some (.failed, job.attempt)) := by
  cases hj : db.jobs.get? j with
  | none => exact Or.inl (by simp [markFailed, hj])
  | some job =>
      by_cases hs : job.status = .succeeded
      · exact Or.inl (by simp [markFailed, hj, hs])
      · refine Or.inr ⟨job, rfl, hs, ?_⟩
        have hjobs : (markFailed db j detail now).jobs = db.jobs.modify j fun j => { j with
            status := .failed, error := some detail, heartbeatAt := some now } := by
          simp only [markFailed, hj, hs, ↓reduceIte]
          split
          · rfl
          · split <;> rfl
        rw [hjobs]
        exact Table.view_modify_update hj rfl

theorem queue_lease {job : IngestionJob} (now : Time) (hj : db.jobs.get? j = some job) :
    (queue db j now).jobs.view lease =
      Function.update (db.jobs.view lease) j (some (.queued, job.attempt)) :=
  Table.view_modify_update hj rfl

theorem queue_lease_none (hj : db.jobs.get? j = none) :
    (queue db j now).jobs.view lease = db.jobs.view lease :=
  Table.view_modify fun r hr => by rw [hj] at hr; cases hr

theorem stageVersion_lease {t : TenantId} {d : DocumentId} {v : VersionId}
    (h : stageVersion db t d v j now = .ok db') :
    db.jobs.view lease j = none ∧ ∃ x, db'.jobs.view lease = Function.update (db.jobs.view lease) j (some x) := by
  obtain ⟨_, rj, versions, jobs, _, hj, _, _, _, _, _, _, rfl⟩ := stageVersion_cases h
  exact ⟨Table.view_eq_none.mpr (Table.insert?_fresh hj), lease rj, Table.view_insert? hj⟩

/-! ## The invariant -/

/-- The claims of running processes are of attempts that were made, each of one run, and the job of the
latest claim is processing or has succeeded. -/
structure Leased (s : State) : Prop where
  made : ∀ {r c}, (s.runs r).claim? = some c → ∃ x, s.db.jobs.view lease c.jobId = some x ∧ c.attempt ≤ x.2
  unique : ∀ {r r' c c'}, (s.runs r).claim? = some c → (s.runs r').claim? = some c' → c.jobId = c'.jobId →
    c.attempt = c'.attempt → r = r'
  held : ∀ {r c x}, (s.runs r).claim? = some c → s.db.jobs.view lease c.jobId = some x → c.attempt = x.2 →
    x.1 = .processing ∨ x.1 = .succeeded

def ClaimsKept (s s' : State) : Prop := ∀ r c, (s'.runs r).claim? = some c → (s.runs r).claim? = some c

theorem claimsKept_goOn (hp : ∀ c, p.claim? = some c → (s.runs r).claim? = some c) :
    ClaimsKept s (s.goOn db r p) := by
  intro r' c hc
  by_cases he : r' = r
  · subst he
    simp only [State.goOn, Function.update_self] at hc
    exact hp c hc
  · simpa only [State.goOn, Function.update_of_ne he] using hc

theorem Leased.keep (h : Leased s) (hc : ClaimsKept s s')
    (hj : ∀ j x, s.db.jobs.view lease j = some x → s'.db.jobs.view lease j = some x) : Leased s' where
  made hr := by
    obtain ⟨x, hx, hle⟩ := h.made (hc _ _ hr)
    exact ⟨x, hj _ _ hx, hle⟩
  unique hr hr' := h.unique (hc _ _ hr) (hc _ _ hr')
  held {r c x} hr hx he := by
    obtain ⟨y, hy, _⟩ := h.made (hc _ _ hr)
    rw [hj _ _ hy] at hx; cases hx
    exact h.held (hc _ _ hr) hy he

theorem Leased.rewrite (h : Leased s) (hc : ClaimsKept s s') {job : IngestionJob} {st : JobStatus}
    (hj : s.db.jobs.get? j = some job)
    (hj' : s'.db.jobs.view lease = Function.update (s.db.jobs.view lease) j (some (st, job.attempt)))
    (hst : ∀ r c, (s'.runs r).claim? = some c → c.jobId = j → c.attempt = job.attempt →
      st = .processing ∨ st = .succeeded) : Leased s' where
  made {r c} hr := by
    obtain ⟨x, hx, hle⟩ := h.made (hc _ _ hr)
    rw [hj']
    by_cases he : c.jobId = j
    · rw [he, Function.update_self]
      rw [he, Table.view, hj] at hx; cases hx
      exact ⟨_, rfl, hle⟩
    · rw [Function.update_of_ne he]
      exact ⟨x, hx, hle⟩
  unique hr hr' := h.unique (hc _ _ hr) (hc _ _ hr')
  held {r c x} hr hx he := by
    rw [hj'] at hx
    by_cases hcj : c.jobId = j
    · rw [hcj, Function.update_self] at hx; cases hx
      exact hst r c hr hcj he
    · rw [Function.update_of_ne hcj] at hx
      exact h.held (hc _ _ hr) hx he

theorem Leased.claim (h : Leased s) {job : IngestionJob} (hj : s.db.jobs.get? j = some job)
    (hcj : c.jobId = j) (hca : c.attempt = job.attempt + 1) (hp : p.claim? = some c)
    (hj' : db.jobs.view lease =
      Function.update (s.db.jobs.view lease) j (some (.processing, job.attempt + 1))) :
    Leased (s.goOn db r p) := by
  have hview : s.db.jobs.view lease j = some (lease job) := by simp [Table.view, hj]
  -- Every claim is the new one or was there before with a smaller attempt.
  have hclaim : ∀ {r' c'}, ((s.goOn db r p).runs r').claim? = some c' →
      (r' = r ∧ c' = c) ∨ (s.runs r').claim? = some c' := by
    intro r' c' hc'
    by_cases he : r' = r
    · subst he
      simp only [State.goOn, Function.update_self, hp, Option.some.injEq] at hc'
      exact Or.inl ⟨rfl, hc'.symm⟩
    · exact Or.inr (by simpa only [State.goOn, Function.update_of_ne he] using hc')
  have hsmaller : ∀ {r' c'}, (s.runs r').claim? = some c' → c'.jobId = j → c'.attempt ≤ job.attempt := by
    intro r' c' hc' he
    obtain ⟨x, hx, hle⟩ := h.made hc'
    rw [he, hview] at hx; cases hx
    exact hle
  constructor
  · intro r' c' hc'
    simp only [State.goOn, hj']
    rcases hclaim hc' with ⟨rfl, rfl⟩ | hc'
    · rw [hcj, Function.update_self]
      exact ⟨_, rfl, Nat.le_of_eq hca⟩
    · by_cases he : c'.jobId = j
      · rw [he, Function.update_self]
        exact ⟨_, rfl, Nat.le_succ_of_le (hsmaller hc' he)⟩
      · rw [Function.update_of_ne he]
        exact h.made hc'
  · intro r₁ r₂ c₁ c₂ h₁ h₂ he ha
    rcases hclaim h₁ with ⟨e₁, rfl⟩ | h₁' <;> rcases hclaim h₂ with ⟨e₂, rfl⟩ | h₂'
    · rw [e₁, e₂]
    · have hle := hsmaller h₂' (he.symm.trans hcj)
      omega
    · have hle := hsmaller h₁' (he.trans hcj)
      omega
    · exact h.unique h₁' h₂' he ha
  · intro r' c' x hc' hx he
    simp only [State.goOn, hj'] at hx
    by_cases hcj' : c'.jobId = j
    · rw [hcj', Function.update_self] at hx; cases hx
      exact Or.inl rfl
    · rw [Function.update_of_ne hcj'] at hx
      rcases hclaim hc' with ⟨_, rfl⟩ | hc'
      · exact absurd hcj hcj'
      · exact h.held hc' hx he

def Succeeded (db : Db) (j : JobId) : Prop := ∃ n, db.jobs.view lease j = some (.succeeded, n)

/-- The run `r` has the latest claim of the job `j` and has neither succeeded nor failed. -/
def Holds (s : State) (r : RunId) (j : JobId) : Prop :=
  ∃ c job, (s.runs r).claim? = some c ∧ c.jobId = j ∧ s.db.jobs.get? j = some job ∧ c.attempt = job.attempt

/-- No document is deleted, a request marks a job as queued only if it has not succeeded and no run holds
it, and a run marks a job as failed only if no other run holds it or it has succeeded. -/
structure Courteous (s : State) (a : Action) : Prop where
  keeps : a.isDeletion = false
  queues : ∀ q now j, a = .enqueueWrite q now → s.requests q = some j →
    ¬Succeeded s.db j ∧ ∀ r, ¬Holds s r j
  fails : ∀ r now j detail r', a = .markFailed r now → s.runs r = .failing j detail → Holds s r' j →
    Succeeded s.db j

def LeasesKept (db db' : Db) : Prop :=
  ∀ j x, db.jobs.view lease j = some x → db'.jobs.view lease j = some x

theorem leasesKept_of_eq (h : db'.jobs.view lease = db.jobs.view lease) : LeasesKept db db' :=
  fun _ _ hx => h ▸ hx

theorem Succeeded.keep (hk : LeasesKept db db') (h : Succeeded db j) : Succeeded db' j :=
  h.imp fun _ hn => hk _ _ hn

theorem Succeeded.rewrite {j' : JobId} {job : IngestionJob} {st : JobStatus} {n : Nat}
    (hj : db.jobs.get? j' = some job) (hst : job.status = .succeeded → st = .succeeded)
    (he : db'.jobs.view lease = Function.update (db.jobs.view lease) j' (some (st, n)))
    (h : Succeeded db j) : Succeeded db' j := by
  obtain ⟨m, hm⟩ := h
  rw [Succeeded, he]
  by_cases hjj : j = j'
  · subst hjj
    simp only [Table.view, hj, Option.map_some, Option.some.injEq, lease, Prod.mk.injEq] at hm
    exact ⟨n, by rw [Function.update_self, hst hm.1]⟩
  · exact ⟨m, by rw [Function.update_of_ne hjj, hm]⟩

theorem stageVersion_keeps {t : TenantId} {d : DocumentId} {v : VersionId} {db₀ : Db}
    (hdb : db₀.jobs = db.jobs) (h : stageVersion db₀ t d v j now = .ok db') : LeasesKept db db' := by
  obtain ⟨hnone, x, hx⟩ := stageVersion_lease h
  rw [hdb] at hnone hx
  intro j' y hy
  have hne : j' ≠ j := by rintro rfl; rw [hnone] at hy; cases hy
  rw [hx, Function.update_of_ne hne, hy]

theorem claimsKept_stop (hp : p.claim? = none) : ClaimsKept s (s.goOn db r p) :=
  claimsKept_goOn fun c hc => by rw [hp] at hc; cases hc

theorem Leased.keep_both (h : Leased s) (hc : ClaimsKept s s') (hk : LeasesKept s.db s'.db) :
    Leased s' ∧ ∀ j, Succeeded s.db j → Succeeded s'.db j :=
  ⟨h.keep hc hk, fun _ => Succeeded.keep hk⟩

theorem Leased.step (h : Leased s) (ha : Courteous s a) (hs : step timeout s a = some s') :
    Leased s' ∧ ∀ j, Succeeded s.db j → Succeeded s'.db j := by
  cases step_effect hs with
  | upload hup =>
      obtain ⟨documents, documentCollections, _, _, _, hst⟩ := uploadDocument_cases hup
      exact h.keep_both (fun _ _ hc => hc) (stageVersion_keeps (by rfl) hst)
  | stage _ _ hst => exact h.keep_both (fun _ _ hc => hc) (stageVersion_keeps rfl hst)
  | tombstone _ => cases ha.keeps
  | stop hp => exact h.keep_both (claimsKept_stop hp) (leasesKept_of_eq rfl)
  | start hrun hst =>
      obtain ⟨job, hj, hns, _, hcj, hca, he⟩ := start_lease hst
      exact ⟨h.claim hj hcj hca rfl he, fun _ => Succeeded.rewrite hj (fun hs => absurd hs hns) he⟩
  | persist hrun hst =>
      exact h.keep_both (claimsKept_goOn fun c hc => by rw [hrun]; exact hc)
        (leasesKept_of_eq (persistStagedContent_lease hst))
  | markReady hrun hst =>
      exact h.keep_both (claimsKept_goOn fun c hc => by rw [hrun]; exact hc)
        (leasesKept_of_eq (markReady_lease hst))
  | activate hrun hst =>
      rcases activate_lease hst with he | ⟨job, hj, he⟩
      · exact h.keep_both (claimsKept_stop rfl) (leasesKept_of_eq he)
      · exact ⟨h.rewrite (claimsKept_stop rfl) hj he fun _ _ _ _ _ => Or.inr rfl,
          fun _ => Succeeded.rewrite hj (fun _ => rfl) he⟩
  | @markFailed r now j detail hrun =>
      rcases markFailed_lease s.db j detail now with he | ⟨job, hj, hns, he⟩
      · exact h.keep_both (claimsKept_stop rfl) (leasesKept_of_eq he)
      · refine ⟨h.rewrite (claimsKept_stop rfl) hj he fun r' c hc hcj hca => ?_,
          fun _ => Succeeded.rewrite hj (fun hs => absurd hs hns) he⟩
        obtain ⟨n, hn⟩ := ha.fails r now j detail r' rfl hrun ⟨c, job, claimsKept_stop rfl _ _ hc, hcj, hj, hca⟩
        simp only [Table.view, hj, Option.map_some, Option.some.injEq, lease, Prod.mk.injEq] at hn
        exact absurd hn.1 hns
  | beatRead => exact h.keep_both (fun _ _ hc => hc) (leasesKept_of_eq rfl)
  | beatWrite hb => exact h.keep_both (fun _ _ hc => hc) (leasesKept_of_eq touch_lease)
  | enqueueRead => exact h.keep_both (fun _ _ hc => hc) (leasesKept_of_eq rfl)
  | @enqueueWrite q now j requests hq =>
      cases hj : s.db.jobs.get? j with
      | none => exact h.keep_both (fun _ _ hc => hc) (leasesKept_of_eq (queue_lease_none hj))
      | some job =>
          obtain ⟨hns, hfree⟩ := ha.queues q now j rfl hq
          have he := queue_lease now hj
          refine ⟨h.rewrite (fun _ _ hc => hc) hj he fun r c hc hcj hca =>
            absurd ⟨c, job, hc, hcj, hj, hca⟩ (hfree r), fun _ => Succeeded.rewrite hj (fun hs => ?_) he⟩
          exact absurd ⟨job.attempt, by simp [Table.view, hj, lease, hs]⟩ hns

theorem Leased.fresh {tenants : Table TenantId Tenant} : Leased (State.fresh tenants) where
  made hc := by cases hc
  unique hc := by cases hc
  held hc := by cases hc

end Etoeragcb.Ingest
