import Etoeragcb.Collections.Routes

/-!
# What a request about collections writes
-/

namespace Etoeragcb.Collections

open Lib Models

variable {lower : SqlLower} {db db' : Db} {t : TenantId} {response : RevisionResponse}

def bumped (db : Db) (t : TenantId) : Db :=
  { db with tenants := db.tenants.modify t fun T => { T with retrievalRevision := T.retrievalRevision + 1 } }

theorem committed_eq_ok : committed db t = .ok (db', response) ↔
    ∃ tenant, db.tenants.get? t = some tenant ∧ db' = bumped db t ∧ response = ⟨tenant.retrievalRevision + 1, true⟩ := by
  simp only [committed, bumpRevision, bind_eq_ok, orRaise_eq_ok, pure_eq_ok, Prod.exists, Prod.mk.injEq]
  constructor
  · rintro ⟨_, _, ⟨tenant, ht, rfl, rfl⟩, rfl, rfl⟩
    exact ⟨tenant, ht, rfl, rfl⟩
  · rintro ⟨tenant, ht, rfl, rfl⟩
    exact ⟨_, _, ⟨tenant, ht, rfl, rfl⟩, rfl, rfl⟩

theorem committedIf_cases {changed : Bool} {changedDb : Db}
    (h : committedIf db t changed changedDb = .ok (db', response)) :
    db' = db ∨ committed changedDb t = .ok (db', response) := by
  simp only [committedIf] at h
  cases changed with
  | true => exact .inr h
  | false =>
      simp only [Bool.false_eq_true, ↓reduceIte, bind_eq_ok, pure_eq_ok, Prod.mk.injEq] at h
      obtain ⟨_, _, rfl, -⟩ := h
      exact .inl rfl

/-- The rows of other tenants are the same. -/
structure Local (t : TenantId) (db db' : Db) : Prop where
  collections : Table.Agree (fun _ c => c.tenantId ≠ t) db.collections db'.collections
  memberships : Table.Agree (fun _ t' => t' ≠ t) db.documentCollections db'.documentCollections

theorem activeCollection_eq_ok {c : CollectionId} {row : KnowledgeCollection} :
    activeCollection db t c = .ok row ↔ db.collections.get? c = some row ∧ row.tenantId = t ∧ row.deletedAt = none := by
  simp [activeCollection, Table.where?_eq_some]

theorem agree_modify_collection {c : CollectionId} {row : KnowledgeCollection} {f : KnowledgeCollection → KnowledgeCollection}
    (h : db.collections.get? c = some row) (ht : row.tenantId = t) (hf : (f row).tenantId = t) :
    Table.Agree (fun _ c => c.tenantId ≠ t) db.collections (db.collections.modify c f) := by
  refine Table.agree_modify _ fun row' hrow => ?_
  rw [h] at hrow
  cases hrow
  exact ⟨fun hne => hne ht, fun hne => hne hf⟩

/-- What a request commits: nothing, or collections and memberships of its tenant with a bumped revision. -/
theorem handle_cases {request : CollectionRequest} (h : request.handle lower db = .ok (db', response)) :
    db' = db ∨ ∃ tenant collections documentCollections, db.tenants.get? request.tenantId = some tenant ∧
      Local request.tenantId db { db with collections, documentCollections } ∧
      db' = bumped { db with collections, documentCollections } request.tenantId := by
  cases request with
  | create t c name =>
      simp only [CollectionRequest.handle, createCollection, bind_eq_ok, orRaise_eq_ok] at h
      obtain ⟨collections, hc, h⟩ := h
      split at h
      · cases h
      · obtain ⟨tenant, ht, rfl, -⟩ := committed_eq_ok.mp h
        exact .inr ⟨tenant, collections, db.documentCollections, ht,
          ⟨Table.agree_insert? hc fun hne => hne rfl, .refl _⟩, rfl⟩
  | update t c body =>
      simp only [CollectionRequest.handle, updateCollection, bind_eq_ok, activeCollection_eq_ok] at h
      obtain ⟨row, ⟨hrow, ht, -⟩, h⟩ := h
      split at h
      · cases h
      · obtain ⟨name, -, h⟩ := bind_eq_ok.mp h
        split at h
        · cases h
        · obtain ⟨tenant, hT, rfl, -⟩ := committed_eq_ok.mp h
          refine .inr ⟨tenant, _, db.documentCollections, hT, ?_, rfl⟩
          exact ⟨agree_modify_collection hrow ht ht, .refl _⟩
  | delete t c now =>
      simp only [CollectionRequest.handle, deleteCollection, bind_eq_ok, activeCollection_eq_ok] at h
      obtain ⟨row, ⟨hrow, ht, -⟩, h⟩ := h
      obtain ⟨tenant, hT, rfl, -⟩ := committed_eq_ok.mp h
      refine .inr ⟨tenant, _, _, hT, ?_, rfl⟩
      exact ⟨agree_modify_collection hrow ht ht, Table.agree_delete _ fun _ t' (hne : t' ≠ t) => by simp [hne]⟩
  | addDocument t c d =>
      simp only [CollectionRequest.handle, addDocument, bind_eq_ok] at h
      obtain ⟨_, -, _, -, h⟩ := h
      split at h
      · rename_i documentCollections hinsert
        rcases committedIf_cases h with rfl | h
        · exact .inl rfl
        · obtain ⟨tenant, hT, rfl, -⟩ := committed_eq_ok.mp h
          exact .inr ⟨tenant, db.collections, documentCollections, hT,
            ⟨.refl _, Table.agree_insert? hinsert fun hne => hne rfl⟩, rfl⟩
      · rcases committedIf_cases h with rfl | h
        · exact .inl rfl
        · obtain ⟨tenant, hT, rfl, -⟩ := committed_eq_ok.mp h
          exact .inr ⟨tenant, db.collections, db.documentCollections, hT, ⟨.refl _, .refl _⟩, rfl⟩
  | removeDocument t c d =>
      simp only [CollectionRequest.handle, removeDocument, bind_eq_ok] at h
      obtain ⟨_, -, _, -, h⟩ := h
      rcases committedIf_cases h with rfl | h
      · exact .inl rfl
      · obtain ⟨tenant, hT, rfl, -⟩ := committed_eq_ok.mp h
        refine .inr ⟨tenant, db.collections, _, hT, ?_, rfl⟩
        exact ⟨.refl _, Table.agree_delete _ fun _ t' (hne : t' ≠ t) => by simp [hne]⟩

end Etoeragcb.Collections
