import Etoeragcb.Rag.Lemmas.Inside

/-!
# Collections outside the explicit scope
-/

namespace Etoeragcb.Rag

open Lib Models Content

variable {r : Resolver} {db : Db} {tenantId : TenantId} {tenant : Tenant} {plan : RetrievalPlan} {scope : ResolvedScope}
  {explicitDocumentIds : List DocumentId} {explicitCollectionIds : List CollectionId} {hint : Text}
  {taken : Option CollectionId} {g : GenerationId} {m : Nat}

/-! ## A crowded database -/

/-- The database with a new document in two collections that are both named like the hint, and without the collection
that the hint is the id of. The index on the lower-case names is no part of the tables. -/
def crowded (db : Db) (tenantId : TenantId) (hint : Text) (taken : Option CollectionId) (g : GenerationId) (m : Nat) : Db :=
  { db with
    tenants := db.tenants.modify tenantId fun tenant => { tenant with activeIndexGenerationId := some g }
    documents := db.documents.put m ⟨tenantId, [], [], none, none⟩
    generationDocuments := db.generationDocuments.put (g, m) ⟨tenantId, 0⟩
    collections := ((db.collections.delete fun c _ => some c = taken).put m ⟨tenantId, hint, none⟩).put (m + 1)
      ⟨tenantId, hint, none⟩
    documentCollections := (db.documentCollections.put (m, m) tenantId).put (m, m + 1) tenantId }

/-- The ids `m` and `m + 1` are new, and so is the generation, if the tenant has none. -/
structure Fresh (db : Db) (tenantId : TenantId) (taken : Option CollectionId) (g : GenerationId) (m : Nat) : Prop where
  document : db.documents.get? m = none
  collections : db.collections.get? m = none ∧ db.collections.get? (m + 1) = none
  taken : taken ≠ some m ∧ taken ≠ some (m + 1)
  memberships : ∀ d c, d = m ∨ c = m ∨ c = m + 1 → db.documentCollections.get? (d, c) = none
  generation : db.activeGeneration tenantId = some g ∨
    db.activeGeneration tenantId = none ∧ ∀ d, db.generationDocuments.get? (g, d) = none

theorem exists_bound {κ ρ : Type} [DecidableEq κ] (t : Table κ ρ) (f : κ → Nat) : ∃ n, ∀ k, n ≤ f k → t.get? k = none := by
  obtain ⟨n, hn⟩ := Finset.exists_nat_subset_range (t.rows.map fun x => f x.1).toFinset
  refine ⟨n, fun k hk => Option.eq_none_iff_forall_not_mem.mpr fun row hrow => ?_⟩
  have hmem : f k ∈ (t.rows.map fun x => f x.1).toFinset :=
    List.mem_toFinset.mpr (List.mem_map.mpr ⟨(k, row), Table.get?_eq_some.mp hrow, rfl⟩)
  exact absurd (Finset.mem_range.mp (hn hmem)) (Nat.not_lt.mpr hk)

theorem exists_fresh (db : Db) (tenantId : TenantId) (taken : Option CollectionId) : ∃ g m, Fresh db tenantId taken g m := by
  obtain ⟨a, ha⟩ := exists_bound db.documents id
  obtain ⟨b, hb⟩ := exists_bound db.collections id
  obtain ⟨c, hc⟩ := exists_bound db.documentCollections Prod.fst
  obtain ⟨d, hd⟩ := exists_bound db.documentCollections Prod.snd
  obtain ⟨e, he⟩ := exists_bound db.generationDocuments Prod.fst
  obtain ⟨f, hf⟩ : ∃ f, ∀ c, taken = some c → c < f := by
    cases taken with
    | none => exact ⟨0, nofun⟩
    | some c => exact ⟨c + 1, fun c' h => by cases h; exact Nat.lt_succ_self c⟩
  refine ⟨(db.activeGeneration tenantId).getD e, a + b + c + d + f, ?_, ?_, ?_, ?_, ?_⟩
  · exact ha _ (by simp only [id]; omega)
  · exact ⟨hb _ (by simp only [id]; omega), hb _ (by simp only [id]; omega)⟩
  · have hle : f ≤ a + b + c + d + f := Nat.le_add_left _ _
    exact ⟨fun h => Nat.not_lt.mpr hle (hf _ h), fun h => Nat.not_lt.mpr (Nat.le_succ_of_le hle) (hf _ h)⟩
  · rintro d' c' (rfl | rfl | rfl)
    · exact hc _ (by simp only; omega)
    · exact hd _ (by simp only; omega)
    · exact hd _ (by simp only; omega)
  · cases hg : db.activeGeneration tenantId with
    | none => exact .inr ⟨rfl, fun d => he _ (by simp)⟩
    | some g => exact .inl rfl

/-! ## Its corpus -/

theorem manifestEntry_eq_some {go : Option GenerationId} {d : DocumentId} {e : DocumentEntry} :
    manifestEntry db tenantId go d = some e ↔ ∃ g v document, go = some g ∧
      db.generationDocuments.get? (g, d) = some ⟨tenantId, v⟩ ∧ db.documents.get? d = some document ∧
      document.tenantId = tenantId ∧ document.deletedAt = none ∧ e = ⟨v, document.title, document.sourceFilename⟩ := by
  simp only [manifestEntry, Option.bind_eq_bind, Option.pure_def, Option.bind_eq_some_iff, Option.some.injEq,
    Table.where?_eq_some,
    Bool.and_eq_true, decide_eq_true_eq, Option.isNone_iff_eq_none]
  constructor
  · rintro ⟨g, hg, ⟨t, v⟩, ⟨hrow, rfl⟩, document, ⟨hd, ht, hdel⟩, rfl⟩
    exact ⟨g, v, document, hg, hrow, hd, ht, hdel, rfl⟩
  · rintro ⟨g, v, document, hg, hrow, hd, ht, hdel, rfl⟩
    exact ⟨g, hg, ⟨tenantId, v⟩, ⟨hrow, rfl⟩, document, ⟨hd, ht, hdel⟩, rfl⟩

theorem activeGeneration_crowded (ht : db.tenants.get? tenantId = some tenant) :
    (crowded db tenantId hint taken g m).activeGeneration tenantId = some g := by
  simp [crowded, Db.activeGeneration, ht]

theorem entries_crowded_new (ht : db.tenants.get? tenantId = some tenant) :
    (tenantCorpus (crowded db tenantId hint taken g m) tenantId).entries m = some ⟨0, [], []⟩ := by
  simp only [tenantCorpus, corpus, activeGeneration_crowded ht]
  exact manifestEntry_eq_some.mpr ⟨g, 0, ⟨tenantId, [], [], none, none⟩, rfl,
    by simp [crowded], by simp [crowded], rfl, rfl, rfl⟩

theorem entries_crowded (hf : Fresh db tenantId taken g m) (ht : db.tenants.get? tenantId = some tenant) {d : DocumentId}
    (hd : d ≠ m) : (tenantCorpus (crowded db tenantId hint taken g m) tenantId).entries d =
      (tenantCorpus db tenantId).entries d := by
  have hrow : ∀ g', (crowded db tenantId hint taken g m).generationDocuments.get? (g', d) =
      db.generationDocuments.get? (g', d) :=
    fun g' => by simp [crowded, hd]
  have hdocument : (crowded db tenantId hint taken g m).documents.get? d = db.documents.get? d := by simp [crowded, hd]
  apply Option.ext
  intro e
  simp only [tenantCorpus, corpus, activeGeneration_crowded ht, manifestEntry_eq_some, hrow, hdocument]
  rcases hf.generation with hg | ⟨hg, hnone⟩
  · rw [hg]
  · simp [hg, hnone]

theorem documents_crowded (hf : Fresh db tenantId taken g m) (ht : db.tenants.get? tenantId = some tenant) {d : DocumentId} :
    d ∈ (tenantCorpus (crowded db tenantId hint taken g m) tenantId).documents ↔ d = m ∨
      d ∈ (tenantCorpus db tenantId).documents := by
  have hmem : ∀ db : Db, d ∈ (tenantCorpus db tenantId).documents ↔ ∃ e, (tenantCorpus db tenantId).entries d = some e :=
    fun _ => mem_manifestDocuments
  rw [hmem, hmem]
  by_cases hd : d = m
  · rw [hd, entries_crowded_new ht]
    simp
  · rw [entries_crowded hf ht hd]
    simp [hd]

theorem rows_crowded_new {c : CollectionId} (hc : c = m ∨ c = m + 1) :
    (tenantCorpus (crowded db tenantId hint taken g m) tenantId).rows c = some ⟨tenantId, hint, none⟩ := by
  refine Table.where?_eq_some.mpr ⟨?_, by simp [isLive]⟩
  rcases hc with rfl | rfl <;> simp [crowded, Function.update]

theorem rows_crowded {c : CollectionId} (hc : c ≠ m) (hc' : c ≠ m + 1) :
    (tenantCorpus (crowded db tenantId hint taken g m) tenantId).rows c =
      ((tenantCorpus db tenantId).rows c).filter fun _ => some c ≠ taken := by
  apply Option.ext
  intro row
  simp only [tenantCorpus, corpus, Table.where?, crowded, Table.get?_put, Function.update_of_ne hc',
    Function.update_of_ne hc,
    Table.get?_delete, Option.filter_eq_some_iff, Bool.not_eq_true', decide_eq_false_iff_not, decide_eq_true_eq, ne_eq]
  exact and_right_comm

theorem collections_crowded {c : CollectionId} :
    c ∈ (tenantCorpus (crowded db tenantId hint taken g m) tenantId).collections ↔
      c = m ∨ c = m + 1 ∨ c ∈ (tenantCorpus db tenantId).collections ∧ some c ≠ taken := by
  rw [tenantCorpus, tenantCorpus, mem_collections, mem_collections]
  by_cases hc : c = m
  · simp only [hc, true_or, iff_true]
    exact ⟨_, rows_crowded_new (.inl rfl)⟩
  · by_cases hc' : c = m + 1
    · simp only [hc', true_or, or_true, iff_true]
      exact ⟨_, rows_crowded_new (.inr rfl)⟩
    · have hrows : (tenantCorpus (crowded db tenantId hint taken g m) tenantId).rows c =
          ((tenantCorpus db tenantId).rows c).filter fun _ => some c ≠ taken := rows_crowded hc hc'
      simp only [tenantCorpus] at hrows
      simp [hc, hc', hrows, Option.filter_eq_some_iff]

theorem mem_members_iff {c : CollectionId} {d : DocumentId} : d ∈ (tenantCorpus db tenantId).members c ↔
    db.documentCollections.get? (d, c) = some tenantId ∧ d ∈ (tenantCorpus db tenantId).documents ∧
      c ∈ (tenantCorpus db tenantId).collections := by
  simp only [tenantCorpus, corpus, memberships, Finset.mem_image, Finset.mem_filter, Table.mem_keysWhere,
    Table.where?_eq_some,
    Bool.and_eq_true, decide_eq_true_eq, Prod.exists, exists_and_right, exists_eq_right]
  constructor
  · rintro ⟨_, hrow, ⟨rfl, hd⟩, hc⟩
    exact ⟨hrow, hd, hc⟩
  · rintro ⟨hrow, hd, hc⟩
    exact ⟨tenantId, hrow, ⟨rfl, hd⟩, hc⟩

theorem members_crowded (hf : Fresh db tenantId taken g m) (ht : db.tenants.get? tenantId = some tenant) {c : CollectionId}
    {d : DocumentId} : d ∈ (tenantCorpus (crowded db tenantId hint taken g m) tenantId).members c ↔
      (d = m ∧ (c = m ∨ c = m + 1)) ∨ (d ∈ (tenantCorpus db tenantId).members c ∧ some c ≠ taken) := by
  simp only [mem_members_iff, documents_crowded hf ht, collections_crowded]
  by_cases hnew : d = m ∧ (c = m ∨ c = m + 1)
  · obtain ⟨rfl, rfl | rfl⟩ := hnew <;> simp [crowded, Function.update]
  · have hrow : (crowded db tenantId hint taken g m).documentCollections.get? (d, c) =
        db.documentCollections.get? (d, c) := by
      have hne : (d, c) ≠ (m, m) ∧ (d, c) ≠ (m, m + 1) := by
        constructor <;> (intro h; cases h; exact hnew ⟨rfl, by simp⟩)
      simp [crowded, Function.update_of_ne hne.1, Function.update_of_ne hne.2]
    rw [hrow]
    by_cases hold : d = m ∨ c = m ∨ c = m + 1
    · simp [hf.memberships d c hold, hnew]
    · rw [not_or, not_or] at hold
      simp only [hold, false_or, false_and, and_assoc]

/-! ## What the new collections do -/

theorem mem_explicitlyAllowed {k : Corpus} {ds cs : Finset Nat} {d : DocumentId} : d ∈ explicitlyAllowed k ds cs ↔
    d ∈ k.documents ∧ (ds.Nonempty → d ∈ ds) ∧ (cs.Nonempty → ∃ c ∈ cs, d ∈ k.members c) := by
  simp only [explicitlyAllowed]
  split <;> split <;> simp_all

theorem Fresh.not_mem_documents (hf : Fresh db tenantId taken g m) : m ∉ (tenantCorpus db tenantId).documents := by
  intro hm
  obtain ⟨e, he⟩ := mem_manifestDocuments.mp hm
  obtain ⟨_, _, document, -, -, hd, -⟩ := manifestEntry_eq_some.mp he
  rw [hf.document] at hd
  cases hd

theorem Fresh.not_mem_collections (hf : Fresh db tenantId taken g m) {c : CollectionId} (hc : c = m ∨ c = m + 1) :
    c ∉ (tenantCorpus db tenantId).collections := by
  intro hmem
  obtain ⟨row, hrow⟩ := mem_collections.mp hmem
  have hget := (Table.where?_eq_some.mp hrow).1
  rcases hc with rfl | rfl
  · rw [hf.collections.1] at hget
    cases hget
  · rw [hf.collections.2] at hget
    cases hget

/-- Where the hint is not the id of a collection inside the explicit scope, only what lies outside has changed. -/
theorem sameInside_crowded (hf : Fresh db tenantId (r.uuidOrNone hint) g m)
    (hexplicit : explicitDocumentIds ≠ [] ∨ explicitCollectionIds ≠ [])
    (hscope : resolve r db tenantId plan explicitDocumentIds explicitCollectionIds = .ok scope)
    (hout : ∀ c, r.uuidOrNone hint = some c → ¬InsideCollection db tenantId explicitDocumentIds explicitCollectionIds c) :
    SameInside tenantId explicitDocumentIds explicitCollectionIds db
      (crowded db tenantId hint (r.uuidOrNone hint) g m) := by
  obtain ⟨tenant, ht, hds, hcs, -⟩ := resolve_eq_ok.mp hscope
  have hdocument : ∀ d ∈ explicitDocumentIds, d ∈ (tenantCorpus db tenantId).documents := fun d hd => by
    rw [← corpus_eq ht, mem_corpus_documents ht]
    exact hds d hd
  have hcollection : ∀ c ∈ explicitCollectionIds, c ∈ (tenantCorpus db tenantId).collections := fun c hc =>
    mem_corpus_collections.mpr (hcs c hc)
  have hkept : ∀ c, InsideCollection db tenantId explicitDocumentIds explicitCollectionIds c → some c ≠ r.uuidOrNone hint :=
    fun c hc he => hout c he.symm hc
  have hnew := hf.not_mem_documents
  have hinside : ∀ d ∈ explicitScope db tenantId explicitDocumentIds explicitCollectionIds, d ≠ m := by
    rintro d hd rfl
    exact hnew (mem_explicitlyAllowed.mp hd).1
  exact {
    tenant := by simp [crowded, ht]
    explicitDocuments := fun d hd => (documents_crowded hf ht).mpr (.inr (hdocument d hd))
    explicitCollections := fun c hc =>
      collections_crowded.mpr (.inr (.inr ⟨hcollection c hc, hkept c ⟨hcollection c hc, .inl hc⟩⟩))
    scope := by
      ext d
      simp only [explicitScope, mem_explicitlyAllowed, documents_crowded hf ht, members_crowded hf ht, List.mem_toFinset,
        List.toFinset_nonempty_iff]
      by_cases hd : d = m
      · subst hd
        refine iff_of_false ?_ fun h => hnew h.1
        rintro ⟨_, hds, hcs⟩
        rcases hexplicit with hne | hne
        · exact hnew (hdocument d (hds hne))
        · obtain ⟨c, hc, ⟨-, hc'⟩ | ⟨hm, -⟩⟩ := hcs hne
          · exact hf.not_mem_collections hc' (hcollection c hc)
          · exact hnew (mem_members_iff.mp hm).2.1
      · simp only [hd, false_or, false_and]
        refine and_congr_right fun _ => and_congr_right fun _ => imp_congr_right fun _ => exists_congr fun c =>
          and_congr_right fun hc => ?_
        exact and_iff_left (hkept c ⟨hcollection c hc, .inl hc⟩)
    entries := fun d hd => entries_crowded hf ht (hinside d hd)
    members := fun d hd c => by
      rw [members_crowded hf ht]
      simp only [hinside d hd, false_and, false_or]
      exact and_iff_left_of_imp fun hm => hkept c ⟨(mem_members_iff.mp hm).2.2, .inr ⟨d, hd, hm⟩⟩
    collections := fun c hc => by
      obtain ⟨row, hrow⟩ := mem_collections.mp hc.1
      have hc₀ : c ≠ m := fun he => hf.not_mem_collections (.inl he) hc.1
      have hc₁ : c ≠ m + 1 := fun he => hf.not_mem_collections (.inr he) hc.1
      have hrow' : (tenantCorpus db tenantId).rows c = some row := hrow
      rw [rows_crowded hc₀ hc₁, hrow', Option.filter_some, if_pos (decide_eq_true (hkept c hc))]
    sections := fun _ _ _ => Iff.rfl }

theorem resolveHint_subset {known : Finset Nat} {exact' : Text → Finset Nat} {values : Nat → List Text}
    (h : ∀ normalized, exact' normalized ⊆ known) : (resolveHint r known exact' values hint).1 ⊆ known := by
  simp only [resolveHint]
  split
  · rename_i identifier hid
    exact Finset.singleton_subset_iff.mpr (of_decide_eq_true (Option.filter_eq_some_iff.mp hid).2)
  · split
    · exact h _
    · split
      · exact h _
      · split
        · simp only [fuzzyMatches]
          split
          · exact Finset.empty_subset _
          · exact (Finset.filter_subset _ _).trans (Finset.filter_subset _ _)
        · exact Finset.empty_subset _

theorem mem_boostsOf {target : BoostTarget} {outcomes : List HintOutcome} {b : HintBoost} :
    b ∈ boostsOf target outcomes ↔ ∃ o ∈ outcomes,
      ((o.decision.resolution = .ambiguousBoost ∨ o.decision.resolution = .fuzzyBoost) ∧ o.targets.Nonempty) ∧
        ⟨o.decision.hint, target, sortedUuids o.targets.val⟩ = b := by
  simp only [boostsOf, List.mem_map, List.mem_filter, decide_eq_true_eq, and_assoc]

theorem boost_subset {ds cs : Finset Nat} {b : HintBoost} (ht : db.tenants.get? tenantId = some tenant)
    (hb : b ∈ (resolved r db tenantId tenant plan ds cs).boosts) (htarget : b.target = .inDocument) :
    ∀ d ∈ b.targetIds, d ∈ (tenantCorpus db tenantId).documents := by
  simp only [resolved, corpus_eq ht, List.mem_append, mem_boostsOf, List.mem_map] at hb
  rcases hb with (⟨_, ⟨hint, -, rfl⟩, -, rfl⟩ | ⟨_, ⟨hint, -, rfl⟩, -, rfl⟩) | ⟨_, -, -, rfl⟩
  · intro d hd
    have hmatched : d ∈ (resolveDocumentHint r (explicitlyAllowed (tenantCorpus db tenantId) ds cs)
        (tenantCorpus db tenantId).entries hint).1 := Finset.mem_val.mp (mem_sortedUuids.mp hd)
    exact (mem_explicitlyAllowed.mp (resolveHint_subset (fun _ => Finset.filter_subset _ _) hmatched)).1
  · intro d hd
    obtain ⟨c, -, hm⟩ := Finset.mem_biUnion.mp (Finset.mem_val.mp (mem_sortedUuids.mp hd))
    exact (mem_members_iff.mp hm).2.1
  · cases htarget

/-- The hint is ambiguous between the new collections and boosts the new document. -/
theorem boost_crowded {ds cs : Finset Nat} {tenant' : Tenant} (hf : Fresh db tenantId (r.uuidOrNone hint) g m)
    (ht : db.tenants.get? tenantId = some tenant) (hmem : hint ∈ plan.collectionHints)
    (ht' : (crowded db tenantId hint (r.uuidOrNone hint) g m).tenants.get? tenantId = some tenant') :
    ∃ b ∈ (resolved r (crowded db tenantId hint (r.uuidOrNone hint) g m) tenantId tenant' plan ds cs).boosts,
      b.target = .inDocument ∧ m ∈ b.targetIds := by
  generalize hk : tenantCorpus (crowded db tenantId hint (r.uuidOrNone hint) g m) tenantId = k
  have hnamed : ∀ c, c = m ∨ c = m + 1 → c ∈ k.collections ∧
      normalizeLexical r.unicode hint ∈ collectionNames r k.rows c := by
    intro c hc
    rw [← hk, collectionNames, rows_crowded_new hc]
    exact ⟨collections_crowded.mpr (or_assoc.mp (.inl hc)), List.mem_singleton_self _⟩
  have hno : (r.uuidOrNone hint).filter (· ∈ k.collections) = none := by
    rw [Option.filter_eq_none_iff]
    intro c hid hc
    rw [← hk, decide_eq_true_eq, collections_crowded] at hc
    rcases hc with rfl | rfl | ⟨-, hne⟩
    · exact hf.taken.1 hid
    · exact hf.taken.2 hid
    · exact hne hid.symm
  set named := k.collections.filter fun c => normalizeLexical r.unicode hint ∈ collectionNames r k.rows c with hset
  have hm : ∀ c, c = m ∨ c = m + 1 → c ∈ named := fun c hc => by
    rw [hset, Finset.mem_filter]
    exact hnamed c hc
  have hcard : named.card ≠ 1 := by
    intro hone
    obtain ⟨a, ha⟩ := Finset.card_eq_one.mp hone
    rw [ha] at hm
    have hm₀ := Finset.mem_singleton.mp (hm m (.inl rfl))
    have hm₁ := Finset.mem_singleton.mp (hm (m + 1) (.inr rfl))
    omega
  have hnonempty : named.Nonempty := ⟨m, hm m (.inl rfl)⟩
  have hmatch : resolveCollectionHint r k.collections k.rows hint = (named, .ambiguousBoost) := by
    simp only [resolveCollectionHint, resolveHint, hno, ← hset, if_neg hcard, if_pos hnonempty]
  have htargets : m ∈ (collectionOutcome r k.collections k.rows k.members hint).targets := by
    simp only [collectionOutcome, hmatch, Finset.mem_biUnion]
    refine ⟨m, hm m (.inl rfl), ?_⟩
    rw [← hk, members_crowded hf ht]
    exact .inl ⟨rfl, .inl rfl⟩
  refine ⟨⟨(collectionOutcome r k.collections k.rows k.members hint).decision.hint, .inDocument,
    sortedUuids (collectionOutcome r k.collections k.rows k.members hint).targets.val⟩, ?_, rfl,
      mem_sortedUuids.mpr (Finset.mem_val.mpr htargets)⟩
  simp only [resolved, corpus_eq ht', hk, List.mem_append, mem_boostsOf]
  refine .inl (.inr ⟨_, List.mem_map_of_mem hmem, ⟨.inl ?_, m, htargets⟩, rfl⟩)
  simp only [collectionOutcome, hmatch]

end Etoeragcb.Rag
