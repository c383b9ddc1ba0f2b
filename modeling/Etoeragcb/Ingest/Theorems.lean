import Etoeragcb.Ingest.Lemmas.Collector
import Etoeragcb.Ingest.Lemmas.Leases

/-!
# What ingestion guarantees

`active_manifest` holds of every interleaving. `listed_active`, `lease_exclusive` and `payloads_kept` hold of the
interleavings without a late step, and the runs before them show what a late step does.
-/

namespace Etoeragcb.Ingest

open Lib Models

variable {timeout : Nat} {tenants : Table TenantId Tenant} {s s' : State}

def oneTenant : Table TenantId Tenant := ⟨[(1, ⟨none, 0⟩)], by decide⟩

theorem oneTenant_untouched : Untouched oneTenant := by
  intro t r hr
  rw [Table.get?_eq_some] at hr
  simp only [oneTenant, List.mem_singleton, Prod.mk.injEq] at hr
  rw [hr.2]

/-! ## The active manifest -/

/-- At every time the active manifest lists the active versions of the documents that are not deleted, each
once. As time goes on the number of an active version does not decrease until its document is deleted, a
deleted document is never listed again, and the revision grows whenever the active generation changes. -/
theorem active_manifest (ht : Untouched tenants) (h : Run (step timeout) ingestion (.fresh tenants) s)
    (h' : Run (step timeout) ingestion s s') :
    (∀ t d, s.db.listed t d = s.db.activeVersion t d) ∧
    (∀ g d, (s.db.generationDocuments.select fun k _ => k = (g, d)).length ≤ 1) ∧
    (∀ t d n, s.db.activeNumber t d = some n →
      (∃ r, s'.db.documents.get? d = some r ∧ r.deletedAt ≠ none) ∨
        ∃ n', s'.db.activeNumber t d = some n' ∧ n ≤ n') ∧
    (∀ t d r, s.db.documents.get? d = some r → r.deletedAt ≠ none → s'.db.listed t d = none) ∧
    ∀ t n, s.db.retrievalRevision t = some n → ∃ n', s'.db.retrievalRevision t = some n' ∧ n ≤ n' ∧
      (s'.db.activeGeneration t ≠ s.db.activeGeneration t → n < n') := by
  have hl := linked_of_run ht h
  have hle := le_of_run hl h'
  have hexact : ∀ {s : State}, Linked s → ∀ t d, s.db.listed t d = s.db.activeVersion t d := by
    intro s hl t d
    rw [← view_listed, ← view_activeVersion]
    exact hl.sound.exact t d
  refine ⟨hexact hl, fun g d => Table.select_key_length_le _ _, fun t d n => hle.activeNumber, ?_,
    fun t n => hle.revision⟩
  intro t d r hr hdel
  rw [hexact (Run.invariant linked_step h' hl)]
  exact hle.activeVersion hr hdel

def uploadRun : List Action :=
  [.upload 1 7 [] [] [] 70 700 0, .start 0 700 0, .persist 0 [] [] 0 1, .markReady 0 2]

theorem active_manifest_upload : ∃ s s', exec (step 60) ingestion (.fresh oneTenant) uploadRun = some s ∧
    step 60 s (.activate 0 3) = some s' ∧ s.db.activeGeneration 1 = none ∧ s'.db.activeGeneration 1 = some 1 ∧
    (∀ t d, s.db.listed t d = s.db.activeVersion t d) ∧
    (∀ t n, s.db.retrievalRevision t = some n → ∃ n', s'.db.retrievalRevision t = some n' ∧ n ≤ n' ∧
      (s'.db.activeGeneration t ≠ s.db.activeGeneration t → n < n')) := by
  obtain ⟨s, hs⟩ := Option.isSome_iff_exists.mp
    (show (exec (step 60) ingestion (.fresh oneTenant) uploadRun).isSome = true by decide)
  obtain ⟨s', hs'⟩ := Option.isSome_iff_exists.mp
    (show ((exec (step 60) ingestion (.fresh oneTenant) uploadRun).bind (step 60 · (.activate 0 3))).isSome = true by
      decide)
  have hg : ((exec (step 60) ingestion (.fresh oneTenant) uploadRun).bind fun s => s.db.activeGeneration 1) = none := by
    decide
  have hg' : (((exec (step 60) ingestion (.fresh oneTenant) uploadRun).bind (step 60 · (.activate 0 3))).bind
      fun s => s.db.activeGeneration 1) = some 1 := by decide
  rw [hs, Option.bind_some] at hs' hg hg'
  rw [hs', Option.bind_some] at hg'
  have h := active_manifest oneTenant_untouched
    (Run.of_exec hs)
    (Run.snoc (Run.refl s) (show (Action.activate 0 3).isIngestion from rfl) hs')
  exact ⟨s, s', hs, hs', hg, hg', h.1, h.2.2.2.2⟩

/-! ## The status of listed versions -/

/-- Every version that the active manifest of a tenant lists has the status `active`. -/
def ListedActive (s : State) : Prop := ∀ t d v, s.db.listed t d = some v → StatusActive s.db v

/-- A run of `process` whose lease has expired persists its content after another run of the same job has
activated the version. -/
def lateRun : List Action :=
  [.upload 1 7 [] [] [] 70 700 0, .start 0 700 0, .start 1 700 100, .persist 1 [] [] 0 110, .markReady 1 111,
    .activate 1 112, .persist 0 [] [] 0 120]

theorem not_listedActive : ¬∀ timeout tenants, Untouched tenants → ∀ s,
    Run (step timeout) ingestion (.fresh tenants) s → ListedActive s := by
  intro hall
  have hlate : (exec (step 60) ingestion (.fresh oneTenant) lateRun).map (fun s =>
      (s.db.listed 1 7, (s.db.versions.get? 70).map (·.status))) = some (some 70, some .processing) := by
    decide
  obtain ⟨s, hs, he⟩ := Option.map_eq_some_iff.mp hlate
  simp only [Prod.mk.injEq] at he
  obtain ⟨r, hr, hact⟩ := hall 60 oneTenant oneTenant_untouched s
    (Run.of_exec hs) 1 7 70 he.1
  rw [hr, Option.map_some, hact] at he
  cases he.2

/-- If no run persists the content of a version that is active, every listed version is active. -/
theorem listed_active (ht : Untouched tenants) (h : Run (step timeout) persistsInactive (.fresh tenants) s) :
    ListedActive s := by
  obtain ⟨hl, hset⟩ := settled_of_run ht h
  intro t d v hv
  rw [← view_listed, hl.sound.exact, view_activeVersion] at hv
  simp only [Db.activeVersion, Option.bind_eq_some_iff] at hv
  obtain ⟨r, hr, hv⟩ := hv
  split at hv
  · exact hset v ⟨d, r, hr, hv⟩
  · cases hv

/-- The second run of the job finishes before the first one goes on, and the first one stops there. -/
theorem listed_active_upload : ∃ s,
    exec (step 60) persistsInactive (.fresh oneTenant) (lateRun.take 6) = some s ∧
      s.db.listed 1 7 = some 70 ∧ ListedActive s := by
  have hrun : ((exec (step 60) persistsInactive (.fresh oneTenant) (lateRun.take 6)).map fun s =>
      s.db.listed 1 7) = some (some 70) := by decide
  obtain ⟨s, hs, he⟩ := Option.map_eq_some_iff.mp hrun
  exact ⟨s, hs, he, listed_active oneTenant_untouched (Run.of_exec hs)⟩

/-! ## Leases -/

/-- Every version that the active manifest of a tenant lists for a document that is not deleted has its raw file and
the chunks that were stored for it, and is not marked as collected. -/
def PayloadsKept (s : Archive) : Prop :=
  ∀ t d v, s.ingest.db.listed t d = some v → (s.ingest.db.documents.get? d).any (·.deletedAt.isNone) →
    v ∈ s.files ∧ (∀ x ∈ s.stored v, s.ingest.db.chunks.get? x.1 = some x.2) ∧
      ∃ row, s.ingest.db.versions.get? v = some row ∧ row.garbageCollectedAt = none

def day : Time := 86400000000

def persistOne (r : RunId) (n : Nat) (now : Time) : ArchiveAction :=
  .ingest (.persist r [⟨n, none, [], [], []⟩] [⟨n, n, 0, 1, 1, 0, 4, [], [], 1, "text".toList, "text".toList⟩] 1 now)

/-- A failed version is selected, and its job is then run again. -/
def retriedRun : List ArchiveAction :=
  [.ingest (.upload 1 7 [] [] [] 70 700 0), .ingest (.start 0 700 (40 * day)),
    .ingest (.fault 0 700 "embedding count mismatch"), .ingest (.markFailed 0 (40 * day + 1)),
    .select 1 2 (some (5 * day + 2)), .ingest (.start 1 700 (40 * day + 3)), .parse 1, persistOne 1 90 (40 * day + 4),
    .ingest (.markReady 1 (40 * day + 5)), .ingest (.activate 1 (40 * day + 6)), .deletePayloads 0,
    .deleteRows 0 (40 * day + 7)]

theorem not_payloadsKept : ¬∀ timeout tenants, Untouched tenants → ∀ s,
    Run (archiveStep timeout) concurrent (.fresh tenants) s → PayloadsKept s := by
  intro hall
  have hrun : (exec (archiveStep 60) concurrent (.fresh oneTenant) retriedRun).map (fun s =>
      (s.ingest.db.listed 1 7, (s.ingest.db.documents.get? 7).any (·.deletedAt.isNone), decide (70 ∈ s.files))) =
      some (some 70, true, false) := by decide
  obtain ⟨s, hs, he⟩ := Option.map_eq_some_iff.mp hrun
  simp only [Prod.mk.injEq] at he
  obtain ⟨hlisted, hlive, hfile⟩ := he
  exact of_decide_eq_false hfile (hall 60 oneTenant oneTenant_untouched s (Run.of_exec hs) 1 7 70 hlisted hlive).1

/-- If no run activates a version that a collector has selected, no payload of a listed version is collected. -/
theorem payloads_kept (ht : Untouched tenants) {s : Archive}
    (h : Run (archiveStep timeout) (fun s a => sparesSelected s a) (.fresh tenants) s) : PayloadsKept s := by
  have hi := intact_of_run ht h
  intro t d v hv _
  have hactive : IsActive s.ingest.db v := by
    rw [← view_listed, hi.linked.sound.exact, view_activeVersion, Db.activeVersion, Option.bind_eq_some_iff] at hv
    obtain ⟨r, hr, hv⟩ := hv
    split at hv
    · exact ⟨d, r, hr, hv⟩
    · cases hv
  have hspared := hi.spared v hactive
  obtain ⟨row, hrow, -⟩ := hi.needed v hactive
  obtain ⟨hfile, hmark⟩ := hi.filed v hspared row.garbageCollectedAt (Table.view_eq_some.mpr ⟨row, hrow, rfl⟩)
  exact ⟨hfile, hi.kept v hspared, row, hrow, hmark⟩

def replacedRun : List ArchiveAction :=
  [.ingest (.upload 1 7 [] [] [] 70 700 0), .ingest (.start 0 700 1), .parse 0, persistOne 0 90 2,
    .ingest (.markReady 0 3), .ingest (.activate 0 4), .ingest (.uploadVersion 1 7 [] [] 71 701 5),
    .ingest (.start 1 701 6), .parse 1, persistOne 1 91 7, .ingest (.markReady 1 8), .ingest (.activate 1 9),
    .select 1 1 (some day), .deletePayloads 0, .deleteRows 0 (36 * day)]

theorem payloads_kept_replaced : ∃ s,
    exec (archiveStep 60) (fun s a => sparesSelected s a) (.fresh oneTenant) replacedRun = some s ∧
      s.ingest.db.listed 1 7 = some 71 ∧ s.files = {71} ∧ PayloadsKept s := by
  have hrun : (exec (archiveStep 60) (fun s a => sparesSelected s a) (.fresh oneTenant) replacedRun).map (fun s =>
      (s.ingest.db.listed 1 7, s.files)) = some (some 71, {71}) := by decide
  obtain ⟨s, hs, he⟩ := Option.map_eq_some_iff.mp hrun
  obtain ⟨hlisted, hfiles⟩ := Prod.mk.inj he
  exact ⟨s, hs, hlisted, hfiles, payloads_kept oneTenant_untouched (Run.of_exec hs)⟩

end Etoeragcb.Ingest
