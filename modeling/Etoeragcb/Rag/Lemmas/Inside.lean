import Etoeragcb.Rag.Lemmas.Scope

/-!
# What lies inside the explicit scope
-/

namespace Etoeragcb.Rag

open Lib Models Content

variable {r : Resolver} {db db' : Db} {tenantId : TenantId} {plan : RetrievalPlan} {scope : ResolvedScope}
  {explicitDocumentIds : List DocumentId} {explicitCollectionIds : List CollectionId} {hint : Text}
  {ds cs allowed : Finset Nat} {k k' : Corpus}

def tenantCorpus (db : Db) (tenantId : TenantId) : Corpus := corpus db tenantId (db.activeGeneration tenantId)

def explicitScope (db : Db) (tenantId : TenantId) (explicitDocumentIds : List DocumentId)
    (explicitCollectionIds : List CollectionId) : Finset DocumentId :=
  explicitlyAllowed (tenantCorpus db tenantId) explicitDocumentIds.toFinset explicitCollectionIds.toFinset

/-- The collection is an explicit one, or it contains a document of the explicit scope. -/
def InsideCollection (db : Db) (tenantId : TenantId) (explicitDocumentIds : List DocumentId)
    (explicitCollectionIds : List CollectionId) (c : CollectionId) : Prop :=
  c ∈ (tenantCorpus db tenantId).collections ∧ (c ∈ explicitCollectionIds ∨
    ∃ d ∈ explicitScope db tenantId explicitDocumentIds explicitCollectionIds, d ∈ (tenantCorpus db tenantId).members c)

/-- The databases differ, as far as the tenant is concerned, in documents outside the explicit scope and in collections
that are neither explicit nor contain a document of the scope. -/
structure SameInside (tenantId : TenantId) (explicitDocumentIds : List DocumentId)
    (explicitCollectionIds : List CollectionId) (db db' : Db) : Prop where
  tenant : (db'.tenants.get? tenantId).isSome
  explicitDocuments : ∀ d ∈ explicitDocumentIds, d ∈ (tenantCorpus db' tenantId).documents
  explicitCollections : ∀ c ∈ explicitCollectionIds, c ∈ (tenantCorpus db' tenantId).collections
  scope : explicitScope db' tenantId explicitDocumentIds explicitCollectionIds =
    explicitScope db tenantId explicitDocumentIds explicitCollectionIds
  entries : ∀ d ∈ explicitScope db tenantId explicitDocumentIds explicitCollectionIds,
    (tenantCorpus db' tenantId).entries d = (tenantCorpus db tenantId).entries d
  members : ∀ d ∈ explicitScope db tenantId explicitDocumentIds explicitCollectionIds, ∀ c,
    d ∈ (tenantCorpus db' tenantId).members c ↔ d ∈ (tenantCorpus db tenantId).members c
  collections : ∀ c, InsideCollection db tenantId explicitDocumentIds explicitCollectionIds c →
    (tenantCorpus db' tenantId).rows c = (tenantCorpus db tenantId).rows c
  sections : Table.Agree (fun _ row => row.tenantId = tenantId ∧
      ∃ d ∈ explicitScope db tenantId explicitDocumentIds explicitCollectionIds,
        ((tenantCorpus db tenantId).entries d).map (·.versionId) = some row.documentVersionId) db.sections db'.sections

/-! ## Hints inside the scope -/

theorem fuzzyMatches_congr {known : Finset Nat} {values values' : Nat → List Text} (h : ∀ i ∈ known, values' i = values i) :
    fuzzyMatches r hint known values' = fuzzyMatches r hint known values := by
  have hscored : (known.filter fun i => ∃ s ∈ values' i, s ≠ []) = known.filter fun i => ∃ s ∈ values i, s ≠ [] :=
    Finset.filter_congr fun i hi => by rw [h i hi]
  simp only [fuzzyMatches, hscored]
  split
  · rfl
  · refine Finset.filter_congr fun i hi => ?_
    have hknown := (Finset.mem_filter.mp hi).1
    refine and_congr (by rw [fuzzyScore, fuzzyScore, h i hknown]) (forall₂_congr fun j hj => ?_)
    rw [fuzzyScore, fuzzyScore, fuzzyScore, fuzzyScore, h i hknown, h j (Finset.mem_filter.mp hj).1]

/-- A document hint reads the entries of the allowed documents only. -/
theorem documentOutcome_congr {entries entries' : DocumentId → Option DocumentEntry}
    (h : ∀ d ∈ allowed, entries' d = entries d) : documentOutcome r allowed entries' hint =
      documentOutcome r allowed entries hint := by
  have hnames : ∀ d ∈ allowed, documentNames r entries' d = documentNames r entries d :=
    fun d hd => by rw [documentNames, documentNames, h d hd]
  have hmatched : resolveDocumentHint r allowed entries' hint = resolveDocumentHint r allowed entries hint := by
    have hexact : ∀ normalized, (allowed.filter fun d => normalized ∈ documentNames r entries' d) =
        allowed.filter fun d => normalized ∈ documentNames r entries d :=
      fun normalized => Finset.filter_congr fun d hd => by rw [hnames d hd]
    simp only [resolveDocumentHint, resolveHint, hexact, fuzzyMatches_congr hnames]
  simp only [documentOutcome, hmatched]

theorem collectionOutcome_of_id {known : Finset CollectionId} {rows : CollectionId → Option KnowledgeCollection}
    {members : CollectionId → Finset DocumentId} {c : CollectionId} (hid : r.uuidOrNone hint = some c) (hc : c ∈ known) :
    collectionOutcome r known rows members hint =
      ⟨⟨.collection, hint, .exactScope, sortedUuids {c}, 0⟩, members c⟩ := by
  have hfilter : (r.uuidOrNone hint).filter (· ∈ known) = some c := by
    rw [hid, Option.filter_some, if_pos (decide_eq_true hc)]
  simp only [collectionOutcome, resolveCollectionHint, resolveHint, hfilter, Finset.singleton_biUnion]
  rfl

theorem mem_collections {g : Option GenerationId} {c : CollectionId} :
    c ∈ (corpus db tenantId g).collections ↔ ∃ row, (corpus db tenantId g).rows c = some row := Table.mem_keysWhere

theorem corpus_eq {tenant : Tenant} (ht : db.tenants.get? tenantId = some tenant) :
    corpus db tenantId tenant.activeIndexGenerationId = tenantCorpus db tenantId := by
  rw [tenantCorpus, Db.activeGeneration, ht, Option.bind_some]

theorem narrowed_congr {documentOutcomes outcomes outcomes' : List HintOutcome}
    (hany : outcomes'.any (·.decision.resolution = .exactScope) = outcomes.any (·.decision.resolution = .exactScope))
    (htargets : ∀ d ∈ allowed, d ∈ exactTargets outcomes' ↔ d ∈ exactTargets outcomes) :
    narrowed allowed documentOutcomes outcomes' = narrowed allowed documentOutcomes outcomes := by
  have hinter : ∀ s ⊆ allowed, s ∩ exactTargets outcomes' = s ∩ exactTargets outcomes := by
    intro s hs
    ext d
    rw [Finset.mem_inter, Finset.mem_inter]
    exact and_congr_right fun hd => htargets d (hs hd)
  simp only [narrowed, hany]
  split
  · split
    · exact hinter _ Finset.inter_subset_left
    · exact hinter _ (Finset.Subset.refl _)
  · rfl

/-- Every collection hint is the id of a collection inside the explicit scope. -/
def HintsInside (r : Resolver) (db : Db) (tenantId : TenantId) (plan : RetrievalPlan) (explicitDocumentIds : List DocumentId)
    (explicitCollectionIds : List CollectionId) : Prop :=
  ∀ hint ∈ plan.collectionHints, ∃ c, r.uuidOrNone hint = some c ∧
    InsideCollection db tenantId explicitDocumentIds explicitCollectionIds c

theorem SameInside.collectionOutcome (h : SameInside tenantId explicitDocumentIds explicitCollectionIds db db')
    (hin : HintsInside r db tenantId plan explicitDocumentIds explicitCollectionIds) (hmem : hint ∈ plan.collectionHints) :
    ∃ decision c, decision.resolution = .exactScope ∧
      collectionOutcome r (tenantCorpus db tenantId).collections (tenantCorpus db tenantId).rows
        (tenantCorpus db tenantId).members hint = ⟨decision, (tenantCorpus db tenantId).members c⟩ ∧
      collectionOutcome r (tenantCorpus db' tenantId).collections (tenantCorpus db' tenantId).rows
        (tenantCorpus db' tenantId).members hint = ⟨decision, (tenantCorpus db' tenantId).members c⟩ := by
  obtain ⟨c, hid, hinside⟩ := hin hint hmem
  obtain ⟨row, hrow⟩ := mem_collections.mp hinside.1
  have hc' : c ∈ (tenantCorpus db' tenantId).collections := mem_collections.mpr ⟨row, (h.collections c hinside).trans hrow⟩
  exact ⟨_, c, rfl, collectionOutcome_of_id hid hinside.1, collectionOutcome_of_id hid hc'⟩

theorem boostsOf_exact {target : BoostTarget} {outcomes : List HintOutcome}
    (h : ∀ o ∈ outcomes, o.decision.resolution = .exactScope) : boostsOf target outcomes = [] := by
  rw [boostsOf, List.map_eq_nil_iff, List.filter_eq_nil_iff]
  intro o ho
  simp [h o ho]

theorem SameInside.narrowed (h : SameInside tenantId explicitDocumentIds explicitCollectionIds db db')
    (hin : HintsInside r db tenantId plan explicitDocumentIds explicitCollectionIds) (documentOutcomes : List HintOutcome) :
    narrowed (explicitScope db tenantId explicitDocumentIds explicitCollectionIds) documentOutcomes
        (plan.collectionHints.map (Rag.collectionOutcome r (tenantCorpus db' tenantId).collections
          (tenantCorpus db' tenantId).rows (tenantCorpus db' tenantId).members)) =
      narrowed (explicitScope db tenantId explicitDocumentIds explicitCollectionIds) documentOutcomes
        (plan.collectionHints.map (Rag.collectionOutcome r (tenantCorpus db tenantId).collections
          (tenantCorpus db tenantId).rows (tenantCorpus db tenantId).members)) := by
  refine narrowed_congr ?_ fun d hd => ?_
  · rw [Bool.eq_iff_iff]
    simp only [List.any_map, List.any_eq_true, Function.comp_apply, decide_eq_true_eq]
    refine exists_congr fun hint => and_congr_right fun hmem => ?_
    obtain ⟨decision, c, -, ho, ho'⟩ := h.collectionOutcome hin hmem
    rw [ho, ho']
  · simp only [mem_exactTargets, List.mem_map, exists_exists_and_eq_and]
    refine exists_congr fun hint => and_congr_right fun hmem => ?_
    obtain ⟨decision, c, -, ho, ho'⟩ := h.collectionOutcome hin hmem
    rw [ho, ho']
    exact and_congr_right fun _ => h.members d hd c

theorem SameInside.boostsOf (h : SameInside tenantId explicitDocumentIds explicitCollectionIds db db')
    (hin : HintsInside r db tenantId plan explicitDocumentIds explicitCollectionIds) :
    boostsOf .inDocument (plan.collectionHints.map (Rag.collectionOutcome r (tenantCorpus db' tenantId).collections
        (tenantCorpus db' tenantId).rows (tenantCorpus db' tenantId).members)) =
      boostsOf .inDocument (plan.collectionHints.map (Rag.collectionOutcome r (tenantCorpus db tenantId).collections
        (tenantCorpus db tenantId).rows (tenantCorpus db tenantId).members)) := by
  rw [boostsOf_exact, boostsOf_exact]
  · intro o ho
    obtain ⟨hint, hmem, rfl⟩ := List.mem_map.mp ho
    obtain ⟨decision, c, hexact, ho, -⟩ := h.collectionOutcome hin hmem
    rw [ho]
    exact hexact
  · intro o ho
    obtain ⟨hint, hmem, rfl⟩ := List.mem_map.mp ho
    obtain ⟨decision, c, hexact, -, ho'⟩ := h.collectionOutcome hin hmem
    rw [ho']
    exact hexact

theorem SameInside.versionIdsOf (h : SameInside tenantId explicitDocumentIds explicitCollectionIds db db')
    (hsub : allowed ⊆ explicitScope db tenantId explicitDocumentIds explicitCollectionIds) :
    versionIdsOf (tenantCorpus db' tenantId) allowed = versionIdsOf (tenantCorpus db tenantId) allowed := by
  have hrows : ∀ d ∈ allowed.val, ((tenantCorpus db' tenantId).entries d).map (·.versionId) =
      ((tenantCorpus db tenantId).entries d).map (·.versionId) := fun d hd => by rw [h.entries d (hsub hd)]
  rw [Rag.versionIdsOf, Rag.versionIdsOf]
  generalize allowed.val = documents at hrows
  induction documents using Quot.inductionOn with
  | h l => exact congrArg (fun l : List Nat => sortedUuids l) (List.filterMap_congr hrows)

theorem SameInside.headingOutcomesIn (h : SameInside tenantId explicitDocumentIds explicitCollectionIds db db')
    (hsub : allowed ⊆ explicitScope db tenantId explicitDocumentIds explicitCollectionIds) (hints : List Text) :
    headingOutcomesIn r db' tenantId (Rag.versionIdsOf (tenantCorpus db tenantId) allowed) hints =
      headingOutcomesIn r db tenantId (Rag.versionIdsOf (tenantCorpus db tenantId) allowed) hints := by
  have hrow : ∀ s row, inVersions tenantId (Rag.versionIdsOf (tenantCorpus db tenantId) allowed) s row = true →
      row.tenantId = tenantId ∧ ∃ d ∈ explicitScope db tenantId explicitDocumentIds explicitCollectionIds,
        ((tenantCorpus db tenantId).entries d).map (·.versionId) = some row.documentVersionId := by
    intro s row hin
    rw [inVersions, Bool.and_eq_true, decide_eq_true_eq, decide_eq_true_eq, Rag.versionIdsOf, mem_sortedUuids,
      Multiset.mem_filterMap] at hin
    obtain ⟨ht, d, hd, hv⟩ := hin
    exact ⟨ht, d, hsub hd, hv⟩
  simp only [Rag.headingOutcomesIn, h.sections.where? hrow, h.sections.keysWhere hrow]

/-- What lies outside the scope does not matter where every collection hint is the id of a collection inside it. -/
theorem SameInside.resolve (h : SameInside tenantId explicitDocumentIds explicitCollectionIds db db')
    (hin : HintsInside r db tenantId plan explicitDocumentIds explicitCollectionIds)
    (hscope : resolve r db tenantId plan explicitDocumentIds explicitCollectionIds = .ok scope) :
    ∃ scope', Rag.resolve r db' tenantId plan explicitDocumentIds explicitCollectionIds = .ok scope' ∧
      scope'.documentIds = scope.documentIds ∧ scope'.versionIds = scope.versionIds ∧
      scope'.sectionIds = scope.sectionIds ∧ scope'.boosts = scope.boosts := by
  obtain ⟨tenant, ht, -, -, rfl⟩ := resolve_eq_ok.mp hscope
  obtain ⟨tenant', ht'⟩ := Option.isSome_iff_exists.mp h.tenant
  have hfound : ∀ d ∈ explicitDocumentIds, ∃ v, ActiveDocument db' tenantId d v := fun d hd => by
    rw [← mem_corpus_documents ht', corpus_eq ht']
    exact h.explicitDocuments d hd
  have hlive : ∀ c ∈ explicitCollectionIds, LiveCollection db' tenantId c := fun c hc =>
    mem_corpus_collections.mp (h.explicitCollections c hc)
  refine ⟨_, resolve_eq_ok.mpr ⟨tenant', ht', hfound, hlive, rfl⟩, ?_⟩
  have hS : explicitlyAllowed (tenantCorpus db tenantId) explicitDocumentIds.toFinset explicitCollectionIds.toFinset =
    explicitScope db tenantId explicitDocumentIds explicitCollectionIds := rfl
  have hS' : explicitlyAllowed (tenantCorpus db' tenantId) explicitDocumentIds.toFinset explicitCollectionIds.toFinset =
    explicitScope db tenantId explicitDocumentIds explicitCollectionIds := h.scope
  have hdocuments : plan.documentHints.map (documentOutcome r
        (explicitScope db tenantId explicitDocumentIds explicitCollectionIds) (tenantCorpus db' tenantId).entries) =
      plan.documentHints.map (documentOutcome r
        (explicitScope db tenantId explicitDocumentIds explicitCollectionIds) (tenantCorpus db tenantId).entries) :=
    List.map_congr_left fun hint _ => documentOutcome_congr h.entries
  simp only [resolved, corpus_eq ht, corpus_eq ht', hS, hS', hdocuments, h.narrowed hin, h.boostsOf hin,
    h.versionIdsOf fun _ => narrowed_subset, h.headingOutcomesIn fun _ => narrowed_subset, and_self]

end Etoeragcb.Rag
