import Etoeragcb.Documents.Quota
import Etoeragcb.Ingest.Lemmas.Collector
import Mathlib.Algebra.Order.BigOperators.Group.Finset

/-!
# What the rows of versions count

The rows of a tenant never lose a size, while collectors delete files.
-/

namespace Etoeragcb.Documents

open Lib Models Ingest

variable {l : Limits} {s s' : Depot} {timeout : Nat} {t : TenantId} {v : VersionId}

def owners (db : Db) : VersionId → Option TenantId := db.versions.view (·.tenantId)

def Depot.versionsOf (s : Depot) (t : TenantId) : Finset VersionId := s.db.versions.keysWhere fun _ r => r.tenantId = t

theorem mem_versionsOf : v ∈ s.versionsOf t ↔ owners s.db v = some t := by
  rw [Depot.versionsOf, Table.mem_keysWhere, owners, Table.view_eq_some]
  refine exists_congr fun r => ?_
  rw [Table.where?_eq_some, decide_eq_true_eq]

theorem used_eq (s : Depot) (t : TenantId) : s.used t = (s.versionsOf t).sum s.fileSizeBytes := by
  have hnodup : ((s.db.versions.select fun _ r => r.tenantId = t).map Prod.fst).Nodup :=
    (List.Sublist.map Prod.fst List.filter_sublist).nodup s.db.versions.keys_nodup
  rw [Depot.versionsOf, Table.keysWhere, List.sum_toFinset _ hnodup, List.map_map]
  rfl

theorem stored_eq (s : Depot) (t : TenantId) :
    s.stored t = ((s.versionsOf t).filter (· ∈ s.archive.files)).sum s.fileSizeBytes := by
  refine Finset.sum_congr (Finset.ext fun v => ?_) fun _ _ => rfl
  rw [Finset.mem_filter, Finset.mem_filter, mem_versionsOf, owners, Table.view, and_comm]
  refine and_congr_left fun _ => ?_
  cases s.db.versions.get? v <;> simp

theorem stored_le_used (s : Depot) (t : TenantId) : s.stored t ≤ s.used t := by
  rw [stored_eq, used_eq]
  exact Finset.sum_le_sum_of_subset (Finset.filter_subset _ _)

/-- The rows count what is stored if and only if no file is missing. -/
theorem stored_eq_used_iff : s.stored t = s.used t ↔ FilesThere s t := by
  have hsplit : s.stored t + ((s.versionsOf t).filter (· ∉ s.archive.files)).sum s.fileSizeBytes = s.used t := by
    rw [stored_eq, used_eq]
    exact Finset.sum_filter_add_sum_filter_not _ _ _
  have hzero : s.stored t = s.used t ↔ ((s.versionsOf t).filter (· ∉ s.archive.files)).sum s.fileSizeBytes = 0 := by
    constructor <;> intro h <;> omega
  rw [hzero, Finset.sum_eq_zero_iff]
  constructor
  · intro hall v row hv ht
    by_cases hf : v ∈ s.archive.files
    · exact Or.inl hf
    · have hmem : v ∈ s.versionsOf t := mem_versionsOf.mpr (Table.view_eq_some.mpr ⟨row, hv, ht⟩)
      exact Or.inr (hall v (Finset.mem_filter.mpr ⟨hmem, hf⟩))
  · intro hthere v hv
    obtain ⟨hmem, hf⟩ := Finset.mem_filter.mp hv
    obtain ⟨row, hrow, ht⟩ := Table.view_eq_some.mp (mem_versionsOf.mp hmem)
    exact (hthere v row hrow ht).resolve_left hf

/-! ## Steps -/

theorem steady_owner : Steady (·.tenantId) := fun _ _ _ _ _ => rfl

theorem request_step {u u' : State} {a : Action} (ht : requester? a = some t) (hv : a.created? = some v)
    (hs : step timeout u a = some u') : owners u.db v = none ∧ owners u'.db = Function.update (owners u.db) v (some t) := by
  have hstage : ∀ (db db' : Db) {d j now}, stageVersion db t d v j now = .ok db' →
      owners db v = none ∧ owners db' = Function.update (owners db) v (some t) := by
    intro db db' d j now h
    obtain ⟨rv, _, versions, _, hinsert, _, htenant, _, _, _, _, _, rfl⟩ := stageVersion_cases h
    exact ⟨Table.view_eq_none.mpr (Table.insert?_fresh hinsert), htenant ▸ Table.view_insert? hinsert⟩
  cases a with
  | upload =>
      cases ht
      cases hv
      obtain ⟨db, hdb, rfl⟩ := commit_eq_some hs
      obtain ⟨documents, documentCollections, _, _, _, h⟩ := uploadDocument_cases hdb
      exact hstage { u.db with documents, documentCollections } db h
  | uploadVersion =>
      cases ht
      cases hv
      obtain ⟨db, hdb, rfl⟩ := commit_eq_some hs
      exact hstage u.db db (uploadVersion_cases hdb).2
  | reindex =>
      cases ht
      cases hv
      obtain ⟨db, hdb, rfl⟩ := commit_eq_some hs
      exact hstage u.db db (reindexDocument_cases hdb).2
  | _ => cases ht

theorem requester_of_created {a : Action} (h : a.created? = some v) : (requester? a).isSome := by
  cases a <;> first | rfl | cases h

theorem other_step {x x' : Archive} {a : ArchiveAction} (ha : isRequest a = false) (hs : archiveStep timeout x a = some x') :
    owners x'.ingest.db = owners x.ingest.db ∧ x'.files ⊆ x.files := by
  cases a with
  | ingest a =>
      have hnone : a.created? = none := by
        cases hc : a.created? with
        | none => rfl
        | some v => exact absurd (requester_of_created hc) (Bool.eq_false_iff.mp ha)
      simp only [archiveStep] at hs
      split at hs
      · obtain ⟨u, hu, rfl⟩ := Option.map_eq_some_iff.mp hs
        refine ⟨?_, ?_⟩
        · rcases versions_step steady_owner hu with ⟨-, h⟩ | ⟨v, _, hc, -⟩ | ⟨_, _, _, _, _, c, _, version, -, -, hv, -, h⟩
          · exact h
          · rw [hnone] at hc
            cases hc
          · have hsame : owners x.ingest.db c.versionId = some version.tenantId := Table.view_eq_some.mpr ⟨version, hv, rfl⟩
            rw [owners, h, ← hsame]
            exact Function.update_eq_self _ _
        · simp [Archive.filesAfter, hnone]
      · cases hs
  | parse r =>
      simp only [archiveStep] at hs
      split at hs
      · split at hs
        · cases hs
          exact ⟨rfl, subset_rfl⟩
        · cases hs
      · cases hs
  | select =>
      cases hs
      exact ⟨rfl, subset_rfl⟩
  | deletePayloads k =>
      simp only [archiveStep] at hs
      split at hs
      · split at hs
        · cases hs
          exact ⟨rfl, Finset.sdiff_subset⟩
        · cases hs
      · cases hs
  | deleteRows k now =>
      simp only [archiveStep] at hs
      split at hs
      · split at hs
        · cases hs
          refine ⟨Table.view_update fun v r _ => ?_, subset_rfl⟩
          split <;> rfl
        · cases hs
      · cases hs

theorem used_congr (s s' : Depot) (howners : owners s'.db = owners s.db) (hsizes : s'.fileSizeBytes = s.fileSizeBytes)
    (t : TenantId) :
    s'.used t = s.used t := by
  rw [used_eq, used_eq, hsizes]
  refine Finset.sum_congr (Finset.ext fun v => ?_) fun _ _ => rfl
  rw [mem_versionsOf, mem_versionsOf, howners]

theorem used_insert (s s' : Depot) {n : Nat} (hfresh : owners s.db v = none)
    (howners : owners s'.db = Function.update (owners s.db) v (some t))
    (hsizes : s'.fileSizeBytes = Function.update s.fileSizeBytes v n) (t' : TenantId) :
    s'.used t' = s.used t' + if t' = t then n else 0 := by
  have hnot : ∀ t, v ∉ s.versionsOf t := fun t h => by
    rw [mem_versionsOf, hfresh] at h
    cases h
  have hold : (s.versionsOf t').sum s'.fileSizeBytes = s.used t' := by
    rw [used_eq, hsizes]
    exact Finset.sum_congr rfl fun w hw => Function.update_of_ne (fun he : w = v => hnot t' (he ▸ hw)) _ _
  by_cases ht : t' = t
  · subst ht
    have hins : s'.versionsOf t' = insert v (s.versionsOf t') := by
      ext w
      rw [Finset.mem_insert, mem_versionsOf, mem_versionsOf, howners]
      by_cases hw : w = v
      · simp [hw]
      · simp [hw]
    rw [used_eq, hins, Finset.sum_insert (hnot t'), hold, hsizes, Function.update_self, if_pos rfl, Nat.add_comm]
  · have hsame : s'.versionsOf t' = s.versionsOf t' := by
      ext w
      rw [mem_versionsOf, mem_versionsOf, howners]
      by_cases hw : w = v
      · subst hw
        simp [hfresh, Ne.symm ht]
      · rw [Function.update_of_ne hw]
    rw [used_eq, hsame, hold, if_neg ht, Nat.add_zero]

/-! ## Runs -/

structure Counted (l : Limits) (s : Depot) : Prop where
  owned : ∀ v ∈ s.archive.files, (owners s.db v).isSome
  within : ∀ t, s.used t ≤ l.quotaBytes
  small : ∀ v, s.fileSizeBytes v ≤ l.maxBytes

theorem sourceSize_le (h : Counted l s) (d : DocumentId) : s.sourceSize d ≤ l.maxBytes := by
  rw [Depot.sourceSize]
  cases (s.db.documents.get? d).bind (·.activeVersionId) with
  | none => exact Nat.zero_le _
  | some v => exact h.small v

theorem newSize_le (h : Counted l s) {a : Action} {n : Nat} (hn : n ≤ l.maxBytes) : s.newSize a n ≤ l.maxBytes := by
  cases a with
  | reindex _ d => exact sourceSize_le h d
  | _ => exact hn

theorem Counted.request (h : Counted l s) {a : Action} {n : Nat} {x : Archive} (ht : requester? a = some t)
    (hv : a.created? = some v) (hn : n ≤ l.maxBytes) (hfits : s.used t + n ≤ l.quotaBytes)
    (hx : archiveStep timeout s.archive (.ingest a) = some x) : Counted l ⟨x, Function.update s.fileSizeBytes v n⟩ := by
  simp only [archiveStep] at hx
  split at hx
  · obtain ⟨u, hu, rfl⟩ := Option.map_eq_some_iff.mp hx
    obtain ⟨hfresh, howners⟩ := request_step ht hv hu
    refine ⟨fun w hw => ?_, fun t' => ?_, fun w => ?_⟩
    · rw [Depot.db, howners]
      by_cases hwv : w = v
      · simp [hwv]
      · have hold : w ∈ s.archive.files := by simpa [Archive.filesAfter, hv, hwv] using hw
        rw [Function.update_of_ne hwv]
        exact h.owned w hold
    · have hused := used_insert s ⟨{ s.archive with
          ingest := u
          files := s.archive.filesAfter a
          stored := s.archive.storedAfter u a }, Function.update s.fileSizeBytes v n⟩ hfresh howners rfl t'
      rw [hused]
      split
      · rename_i he
        exact he ▸ hfits
      · exact h.within t'
    · by_cases hwv : w = v
      · simp only [hwv, Function.update_self]
        exact hn
      · simp only [Function.update_of_ne hwv]
        exact h.small w
  · cases hx

theorem Counted.step (h : Counted l s) {a : DepotAction} (hs : depotStep l timeout s a = some s') : Counted l s' := by
  cases a with
  | request a n =>
      simp only [depotStep] at hs
      split at hs
      · rename_i t v ht hv
        split at hs
        · rename_i hok
          obtain ⟨x, hx, rfl⟩ := Option.map_eq_some_iff.mp hs
          have hfits := hok.2
          simp only [Depot.exceeds, decide_eq_true_eq, not_lt] at hfits
          exact h.request ht hv (newSize_le h hok.1) hfits hx
        · cases hs
      · cases hs
  | other a =>
      simp only [depotStep] at hs
      split at hs
      · cases hs
      · rename_i ha
        obtain ⟨x, hx, rfl⟩ := Option.map_eq_some_iff.mp hs
        obtain ⟨howners, hfiles⟩ := other_step (Bool.eq_false_iff.mpr ha) hx
        refine ⟨fun v hv => ?_, fun t => ?_, h.small⟩
        · have hold := h.owned v (hfiles hv)
          rw [Depot.db, howners]
          exact hold
        · have hused : Depot.used { s with archive := x } t = s.used t := used_congr s { s with archive := x } howners rfl t
          exact hused ▸ h.within t

variable {tenants : Table TenantId Tenant}

theorem counted_of_run (h : Run (depotStep l timeout) (fun _ _ => True) (.fresh tenants) s) : Counted l s := by
  refine Run.invariant (fun _ _ _ hc _ hs => hc.step hs) h ⟨fun v hv => ?_, fun t => ?_, fun v => Nat.zero_le _⟩
  · exact absurd hv (Finset.notMem_empty v)
  · exact Nat.zero_le _

/-- The check is right for a tenant if no file is missing, or if the rows leave room for every upload. -/
theorem rejected_iff (h : Counted l s) (t : TenantId) :
    (∀ newSize, Rejected l s t newSize → l.quotaBytes < s.stored t + newSize) ↔
    FilesThere s t ∨ s.used t + l.maxBytes ≤ l.quotaBytes := by
  have hle := stored_le_used s t
  have hwithin := h.within t
  have hfull : ∀ n, s.exceeds l t n = true ↔ l.quotaBytes < s.used t + n := fun n => decide_eq_true_iff
  rw [← stored_eq_used_iff]
  constructor
  · intro hall
    by_cases hroom : s.used t + l.maxBytes ≤ l.quotaBytes
    · exact Or.inr hroom
    · -- the smallest upload that the check rejects
      have hreal := hall (l.quotaBytes - s.used t + 1) (.upload _ (by omega) ((hfull _).mpr (by omega)))
      left
      omega
  · rintro (hsame | hroom) n hrejected
    · cases hrejected with
      | upload _ _ hn => exact hsame ▸ (hfull n).mp hn
      | reindex d hn => exact hsame ▸ (hfull _).mp hn
    · cases hrejected with
      | upload _ hsmall hn =>
          have hbig := (hfull n).mp hn
          omega
      | reindex d hn =>
          have hbig := (hfull _).mp hn
          have hsmall := sourceSize_le h d
          omega

end Etoeragcb.Documents
