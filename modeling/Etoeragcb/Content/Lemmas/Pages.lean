import Etoeragcb.Content.Lemmas.Parsers
import Etoeragcb.Ingest.Lemmas.Collector

/-!
# Stored chunks stay on the pages of their content
-/

namespace Etoeragcb.Content

open Lib Models Ingest

variable {b : Builder} {files : VersionId → SourceFile} {timeout : Nat} {s s' : State} {a : Action} {db : Db} {v : VersionId}

def HasChunk (db : Db) (v : VersionId) (pages : Nat × Nat) : Prop :=
  ∃ k row, db.chunks.get? k = some row ∧ row.documentVersionId = v ∧ (row.pageStart, row.pageEnd) = pages

/-- The stored chunks of a version stand on the pages of the chunks of its content, which are counted. -/
structure Holds (b : Builder) (files : VersionId → SourceFile) (db : Db) (v : VersionId) (content : BuiltContent) : Prop where
  build : b.build v (files v) = .ok content
  counted : db.versions.view (·.pageCount) v = some content.pageCount
  pages : ∀ pages, HasChunk db v pages ↔ ∃ chunk ∈ content.chunks, (chunk.pageStart, chunk.pageEnd) = pages

/-- A version has no chunks or those of its content. -/
def Stored (b : Builder) (files : VersionId → SourceFile) (db : Db) : Prop :=
  ∀ v, (∀ pages, ¬HasChunk db v pages) ∨ ∃ content, Holds b files db v content

theorem hasChunk_of_eq {db' : Db} (h : db'.chunks = db.chunks) {pages : Nat × Nat} :
    HasChunk db' v pages ↔ HasChunk db v pages := by
  rw [HasChunk, HasChunk, h]

theorem steady_pageCount : Steady (·.pageCount) := fun _ _ _ _ _ => rfl

theorem hasChunk_insertAll {db' : Db} {version : DocumentVersion} {chunks : List Ingest.BuiltChunk} {w : VersionId}
    (h : (db.chunks.delete fun _ x => x.documentVersionId = v).insertAll? (chunks.map (chunkRow v version)) = some db'.chunks)
    {pages : Nat × Nat} :
    HasChunk db' w pages ↔
      if w = v then ∃ chunk ∈ chunks, (chunk.pageStart, chunk.pageEnd) = pages else HasChunk db w pages := by
  simp only [HasChunk, Table.get?_insertAll? h, Table.get?_delete, Option.filter_eq_some_iff, List.mem_map, chunkRow]
  split
  · rename_i hw
    subst hw
    constructor
    · rintro ⟨k, row, ⟨chunk, hc, he⟩ | ⟨-, hne⟩, hv, hp⟩
      · cases he
        exact ⟨chunk, hc, hp⟩
      · simp [hv] at hne
    · rintro ⟨chunk, hc, hp⟩
      exact ⟨_, _, Or.inl ⟨chunk, hc, rfl⟩, rfl, hp⟩
  · rename_i hw
    constructor
    · rintro ⟨k, row, ⟨chunk, hc, he⟩ | ⟨hrow, -⟩, hv, hp⟩
      · cases he
        exact absurd hv.symm hw
      · exact ⟨k, row, hrow, hv, hp⟩
    · rintro ⟨k, row, hrow, hv, hp⟩
      exact ⟨k, row, Or.inr ⟨hrow, by simp [hv, hw]⟩, hv, hp⟩

theorem Stored.step (h : Stored b files s.db) (ha : persistsContent b files s a) (hs : step timeout s a = some s') :
    Stored b files s'.db := by
  intro v
  rcases versions_step steady_pageCount hs with ⟨hc, hview⟩ | ⟨w, row, -, hc, hfresh, -, hview⟩ |
    ⟨r, sections, chunks, n, now, c, g, version, rfl, hrun, -, hc, hview⟩
  · rcases h v with hnone | ⟨content, hb, hcount, hpages⟩
    · exact Or.inl fun pages hp => hnone pages ((hasChunk_of_eq hc).mp hp)
    · exact Or.inr ⟨content, hb, by rw [hview]; exact hcount, fun pages => (hasChunk_of_eq hc).trans (hpages pages)⟩
  · rcases h v with hnone | ⟨content, hb, hcount, hpages⟩
    · exact Or.inl fun pages hp => hnone pages ((hasChunk_of_eq hc).mp hp)
    · -- The new version is another one, which had no row.
      have hne : v ≠ w := by
        rintro rfl
        rw [Table.view_eq_none.mpr hfresh] at hcount
        cases hcount
      exact Or.inr ⟨content, hb, by rw [hview, Function.update_of_ne hne]; exact hcount,
        fun pages => (hasChunk_of_eq hc).trans (hpages pages)⟩
  · obtain ⟨content, hb, -, rfl, rfl⟩ := ha c hrun
    by_cases hv : v = c.versionId
    · subst hv
      refine Or.inr ⟨content, hb, by rw [hview, Function.update_self], fun pages => ?_⟩
      rw [hasChunk_insertAll hc, if_pos rfl]
      simp
    · rcases h v with hnone | ⟨content', hb', hcount, hpages⟩
      · exact Or.inl fun pages hp => hnone pages (by rwa [hasChunk_insertAll hc, if_neg hv] at hp)
      · refine Or.inr ⟨content', hb', by rw [hview, Function.update_of_ne hv]; exact hcount, fun pages => ?_⟩
        rw [hasChunk_insertAll hc, if_neg hv]
        exact hpages pages

theorem stored_of_run {tenants : Table TenantId Tenant}
    (h : Run (step timeout) (persistsContent b files) (.fresh tenants) s) :
    Stored b files s.db := by
  refine Run.invariant (p := fun s => Stored b files s.db) (fun _ _ _ hs ha hst => hs.step ha hst) h fun v => Or.inl ?_
  rintro pages ⟨k, row, hk, -⟩
  cases hk

end Etoeragcb.Content
