import Etoeragcb.Rag.Scope

/-!
# What a resolution reads
-/

namespace Etoeragcb.Rag

open Lib Models Content

variable {r : Resolver} {db db' : Db} {tenantId : TenantId} {plan : RetrievalPlan}
  {explicitDocumentIds : List DocumentId} {explicitCollectionIds : List CollectionId} {scope : ResolvedScope}

/-! ## Rows of one tenant -/

/-- Two databases with the same rows of a tenant. -/
structure SameRows (tenantId : TenantId) (db db' : Db) : Prop where
  tenants : db.tenants.get? tenantId = db'.tenants.get? tenantId
  collections : Table.Agree (fun _ row => row.tenantId = tenantId) db.collections db'.collections
  documents : Table.Agree (fun _ row => row.tenantId = tenantId) db.documents db'.documents
  sections : Table.Agree (fun _ row => row.tenantId = tenantId) db.sections db'.sections
  chunks : Table.Agree (fun _ row => row.tenantId = tenantId) db.chunks db'.chunks
  generationDocuments :
    Table.Agree (fun _ row => row.tenantId = tenantId) db.generationDocuments db'.generationDocuments
  documentCollections : Table.Agree (fun _ tenant => tenant = tenantId) db.documentCollections db'.documentCollections

theorem SameRows.manifestEntry (h : SameRows tenantId db db') (g : Option GenerationId) :
    manifestEntry db tenantId g = manifestEntry db' tenantId g := by
  funext d
  simp only [Rag.manifestEntry]
  rw [h.generationDocuments.where? fun _ _ hr => of_decide_eq_true hr]
  cases g with
  | none => rfl
  | some g =>
      simp only [Option.bind_eq_bind, Option.bind_some]
      refine Option.bind_congr fun row hrow => ?_
      have ht : row.tenantId = tenantId := of_decide_eq_true (Table.where?_eq_some.mp hrow).2
      rw [h.documents.where?]
      intro _ document hd
      simp only [Bool.and_eq_true, decide_eq_true_eq] at hd
      rw [hd.1, ht]

theorem SameRows.manifestDocuments (h : SameRows tenantId db db') (g : Option GenerationId) :
    manifestDocuments db tenantId g = manifestDocuments db' tenantId g := by
  simp only [Rag.manifestDocuments]
  rw [h.generationDocuments.keysWhere fun _ _ hr => of_decide_eq_true hr, h.manifestEntry g]

theorem SameRows.memberships (h : SameRows tenantId db db') (documents : Finset DocumentId)
    (collections : Finset CollectionId) :
    memberships db tenantId documents collections = memberships db' tenantId documents collections := by
  funext c
  simp only [Rag.memberships]
  rw [h.documentCollections.keysWhere]
  intro _ tenant hr
  simp only [Bool.and_eq_true, decide_eq_true_eq] at hr
  exact hr.1.1

theorem isLive_tenant {c : CollectionId} {row : KnowledgeCollection} (h : isLive tenantId c row = true) :
    row.tenantId = tenantId := by
  simp only [isLive, Bool.and_eq_true, decide_eq_true_eq] at h
  exact h.1

theorem inVersions_tenant {versionIds : List VersionId} {s : SectionId} {row : Section}
    (h : inVersions tenantId versionIds s row = true) : row.tenantId = tenantId := by
  simp only [inVersions, Bool.and_eq_true, decide_eq_true_eq] at h
  exact h.1

theorem SameRows.corpus (h : SameRows tenantId db db') (g : Option GenerationId) :
    corpus db tenantId g = corpus db' tenantId g := by
  simp only [Rag.corpus]
  rw [h.collections.where? fun _ _ => isLive_tenant, h.collections.keysWhere fun _ _ => isLive_tenant,
    h.manifestEntry, h.manifestDocuments, h.memberships]

theorem SameRows.headingOutcomesIn (h : SameRows tenantId db db') (versionIds : List VersionId) (hints : List Text) :
    headingOutcomesIn r db tenantId versionIds hints = headingOutcomesIn r db' tenantId versionIds hints := by
  simp only [Rag.headingOutcomesIn]
  rw [h.sections.where? fun _ _ => inVersions_tenant, h.sections.keysWhere fun _ _ => inVersions_tenant]

theorem SameRows.resolve (h : SameRows tenantId db db') :
    resolve r db tenantId plan explicitDocumentIds explicitCollectionIds =
      resolve r db' tenantId plan explicitDocumentIds explicitCollectionIds := by
  simp only [Rag.resolve, resolved, h.tenants, h.corpus, h.headingOutcomesIn]

/-! ## The rows of the corpus -/

/-- The active manifest of the tenant lists the version for the document, which is not deleted. -/
def ActiveDocument (db : Db) (tenantId : TenantId) (d : DocumentId) (v : VersionId) : Prop :=
  ∃ g document, db.activeGeneration tenantId = some g ∧ db.generationDocuments.get? (g, d) = some ⟨tenantId, v⟩ ∧
    db.documents.get? d = some document ∧ document.tenantId = tenantId ∧ document.deletedAt = none

def LiveCollection (db : Db) (tenantId : TenantId) (c : CollectionId) : Prop :=
  ∃ row, db.collections.get? c = some row ∧ row.tenantId = tenantId ∧ row.deletedAt = none

theorem manifestEntry_version {tenant : Tenant} {d : DocumentId} {v : VersionId}
    (ht : db.tenants.get? tenantId = some tenant) :
    ((manifestEntry db tenantId tenant.activeIndexGenerationId d).map (·.versionId)) = some v ↔
      ActiveDocument db tenantId d v := by
  simp only [manifestEntry, ActiveDocument, Db.activeGeneration, ht, Option.bind_some, Option.bind_eq_bind,
    Option.pure_def, Option.map_eq_some_iff, Option.bind_eq_some_iff, Option.some.injEq, Table.where?_eq_some,
    Bool.and_eq_true, decide_eq_true_eq, Option.isNone_iff_eq_none]
  constructor
  · rintro ⟨_, ⟨g, hg, ⟨t, v'⟩, ⟨hrow, rfl⟩, document, ⟨hd, hdt, hdel⟩, rfl⟩, rfl⟩
    exact ⟨g, document, hg, hrow, hd, hdt, hdel⟩
  · rintro ⟨g, document, hg, hrow, hd, hdt, hdel⟩
    exact ⟨_, ⟨g, hg, _, ⟨hrow, rfl⟩, document, ⟨hd, hdt, hdel⟩, rfl⟩, rfl⟩

theorem mem_manifestDocuments {g : Option GenerationId} {d : DocumentId} :
    d ∈ manifestDocuments db tenantId g ↔ ∃ e, manifestEntry db tenantId g d = some e := by
  rw [manifestDocuments, Finset.mem_filter, Option.isSome_iff_exists, and_iff_right_iff_imp]
  rintro ⟨e, he⟩
  simp only [manifestEntry, Option.bind_eq_bind, Option.bind_eq_some_iff] at he
  obtain ⟨g, -, row, hrow, -⟩ := he
  exact Finset.mem_image.mpr ⟨(g, d), Table.mem_keysWhere.mpr ⟨row, hrow⟩, rfl⟩

theorem mem_corpus_documents {tenant : Tenant} {d : DocumentId} (ht : db.tenants.get? tenantId = some tenant) :
    d ∈ (corpus db tenantId tenant.activeIndexGenerationId).documents ↔ ∃ v, ActiveDocument db tenantId d v := by
  simp only [corpus, mem_manifestDocuments, ← manifestEntry_version ht, Option.map_eq_some_iff]
  constructor
  · rintro ⟨e, he⟩
    exact ⟨_, e, he, rfl⟩
  · rintro ⟨_, e, he, -⟩
    exact ⟨e, he⟩

theorem mem_corpus_collections {g : Option GenerationId} {c : CollectionId} :
    c ∈ (corpus db tenantId g).collections ↔ LiveCollection db tenantId c := by
  simp only [corpus, Table.mem_keysWhere, Table.where?_eq_some, isLive, Bool.and_eq_true, decide_eq_true_eq,
    Option.isNone_iff_eq_none, LiveCollection]

theorem mem_members {g : Option GenerationId} {c : CollectionId} {d : DocumentId}
    (h : d ∈ (corpus db tenantId g).members c) : db.documentCollections.get? (d, c) = some tenantId := by
  simp only [corpus, memberships, Finset.mem_image, Finset.mem_filter, Table.mem_keysWhere, Table.where?_eq_some,
    Bool.and_eq_true, decide_eq_true_eq] at h
  obtain ⟨⟨d, c⟩, ⟨⟨tenant, hrow, ⟨rfl, -⟩, -⟩, rfl⟩, rfl⟩ := h
  exact hrow

/-! ## The stages -/

@[simp] theorem mem_sortedUuids {values : Multiset Nat} {i : Nat} : i ∈ sortedUuids values ↔ i ∈ values := by
  induction values using Quot.inductionOn with
  | h l => exact (List.perm_insertionSort _ l).mem_iff

theorem mem_exactTargets {outcomes : List HintOutcome} {i : Nat} :
    i ∈ exactTargets outcomes ↔ ∃ o ∈ outcomes, o.decision.resolution = .exactScope ∧ i ∈ o.targets := by
  rw [exactTargets]
  induction outcomes with
  | nil => simp
  | cons o outcomes ih =>
      by_cases ho : o.decision.resolution = .exactScope
      · simp [ho, ih]
      · simp [ho, ih]

theorem explicitlyAllowed_subset (k : Corpus) (ds cs : Finset Nat) {d : DocumentId}
    (h : d ∈ explicitlyAllowed k ds cs) :
    d ∈ k.documents ∧ (ds.Nonempty → d ∈ ds) ∧ (cs.Nonempty → ∃ c ∈ cs, d ∈ k.members c) := by
  simp only [explicitlyAllowed] at h
  split at h <;> split at h <;> simp_all

theorem narrowed_subset {allowed : Finset DocumentId} {os os' : List HintOutcome} {d : DocumentId}
    (h : d ∈ narrowed allowed os os') : d ∈ allowed := by
  simp only [narrowed] at h
  split at h <;> split at h <;> simp_all

theorem resolve_eq_ok : resolve r db tenantId plan explicitDocumentIds explicitCollectionIds = .ok scope ↔
    ∃ tenant, db.tenants.get? tenantId = some tenant ∧
      (∀ d ∈ explicitDocumentIds, ∃ v, ActiveDocument db tenantId d v) ∧
      (∀ c ∈ explicitCollectionIds, LiveCollection db tenantId c) ∧
      resolved r db tenantId tenant plan explicitDocumentIds.toFinset explicitCollectionIds.toFinset = scope := by
  simp only [resolve, bind_eq_ok, orRaise_eq_ok]
  refine exists_congr fun tenant => and_congr_right fun ht => ?_
  have hdocuments : explicitDocumentIds.toFinset ⊆ (corpus db tenantId tenant.activeIndexGenerationId).documents ↔
      ∀ d ∈ explicitDocumentIds, ∃ v, ActiveDocument db tenantId d v := by
    simp only [Finset.subset_iff, List.mem_toFinset, mem_corpus_documents ht]
  have hcollections :
      explicitCollectionIds.toFinset ⊆ (corpus db tenantId tenant.activeIndexGenerationId).collections ↔
        ∀ c ∈ explicitCollectionIds, LiveCollection db tenantId c := by
    simp only [Finset.subset_iff, List.mem_toFinset, mem_corpus_collections]
  rw [← hdocuments, ← hcollections]
  split
  · rename_i h
    simp [h]
  · rename_i h
    rw [not_not] at h
    split
    · rename_i h'
      simp [h']
    · rename_i h'
      simp [h, not_not.mp h']

theorem resolve_error {e : String} (h : resolve r db tenantId plan explicitDocumentIds explicitCollectionIds = .error e) :
    e = "scope not found" := by
  simp only [resolve] at h
  cases ht : db.tenants.get? tenantId with
  | none => rw [ht] at h; exact (Except.error.inj h).symm
  | some tenant =>
      rw [ht] at h
      simp only [orRaise, bind, Except.bind] at h
      split at h
      · exact (Except.error.inj h).symm
      · split at h
        · exact (Except.error.inj h).symm
        · cases h

/-! ## Bounds -/

theorem resolved_documentIds {tenant : Tenant} {ds cs : Finset Nat} {d : DocumentId}
    (ht : db.tenants.get? tenantId = some tenant) (h : d ∈ (resolved r db tenantId tenant plan ds cs).documentIds) :
    (∃ v, ActiveDocument db tenantId d v) ∧ (ds.Nonempty → d ∈ ds) ∧
      (cs.Nonempty → ∃ c ∈ cs, db.documentCollections.get? (d, c) = some tenantId) := by
  simp only [resolved, mem_sortedUuids, Finset.mem_val] at h
  obtain ⟨hd, hds, hcs⟩ := explicitlyAllowed_subset _ _ _ (narrowed_subset h)
  refine ⟨(mem_corpus_documents ht).mp hd, hds, fun hne => ?_⟩
  obtain ⟨c, hc, hm⟩ := hcs hne
  exact ⟨c, hc, mem_members hm⟩

theorem resolved_versionIds {tenant : Tenant} {ds cs : Finset Nat} {v : VersionId}
    (ht : db.tenants.get? tenantId = some tenant) :
    v ∈ (resolved r db tenantId tenant plan ds cs).versionIds ↔
      ∃ d ∈ (resolved r db tenantId tenant plan ds cs).documentIds, ActiveDocument db tenantId d v := by
  simp only [resolved, versionIdsOf, mem_sortedUuids, Multiset.mem_filterMap, corpus, manifestEntry_version ht]

theorem resolved_sectionIds {tenant : Tenant} {ds cs : Finset Nat} {ids : List SectionId}
    (h : (resolved r db tenantId tenant plan ds cs).sectionIds = some ids) :
    ids ≠ [] ∧ ∀ s ∈ ids, ∃ row, db.sections.get? s = some row ∧ row.tenantId = tenantId ∧
      row.documentVersionId ∈ (resolved r db tenantId tenant plan ds cs).versionIds := by
  simp only [resolved] at h ⊢
  split at h
  · rename_i hne
    cases h
    constructor
    · obtain ⟨s, hs⟩ := hne
      exact List.ne_nil_of_mem (mem_sortedUuids.mpr (Finset.mem_val.mpr hs))
    · intro s hs
      obtain ⟨o, ho, -, hso⟩ := mem_exactTargets.mp (Finset.mem_val.mp (mem_sortedUuids.mp hs))
      obtain ⟨hint, -, rfl⟩ := List.mem_map.mp ho
      simp only [headingOutcome, expandSectionDescendants, Finset.mem_filter, Table.mem_keysWhere,
        Table.where?_eq_some, inVersions, Bool.and_eq_true, decide_eq_true_eq] at hso
      obtain ⟨⟨row, hrow, ht, hv⟩, -⟩ := hso
      exact ⟨row, hrow, ht, hv⟩
  · cases h

/-! ## Hints that narrow nothing -/

def isExact (decisions : List HintDecision) (kind : HintKind) (hint : Text) : Bool :=
  decisions.any fun x => x.kind = kind ∧ x.hint = hint ∧ x.resolution = .exactScope

/-- The plan without the hints that resolved as ambiguous, fuzzy or unmatched. -/
def exactPlan (plan : RetrievalPlan) (decisions : List HintDecision) : RetrievalPlan :=
  { plan with
    documentHints := plan.documentHints.filter (isExact decisions .document)
    collectionHints := plan.collectionHints.filter (isExact decisions .collection)
    headingHints := plan.headingHints.filter (isExact decisions .heading) }

theorem exactTargets_filter {f : Text → HintOutcome} {hints : List Text} {p : Text → Bool}
    (hp : ∀ h ∈ hints, p h = true ↔ (f h).decision.resolution = .exactScope) :
    exactTargets ((hints.filter p).map f) = exactTargets (hints.map f) ∧
      ((hints.filter p).map f).any (·.decision.resolution = .exactScope) =
        (hints.map f).any (·.decision.resolution = .exactScope) := by
  constructor
  · ext i
    simp only [mem_exactTargets, List.mem_map, List.mem_filter]
    constructor
    · rintro ⟨o, ⟨h, ⟨hh, -⟩, rfl⟩, ho⟩
      exact ⟨f h, ⟨h, hh, rfl⟩, ho⟩
    · rintro ⟨o, ⟨h, hh, rfl⟩, ho⟩
      exact ⟨f h, ⟨h, ⟨hh, (hp h hh).mpr ho.1⟩, rfl⟩, ho⟩
  · rw [Bool.eq_iff_iff]
    simp only [List.any_map, List.any_eq_true, List.mem_filter, Function.comp_apply, decide_eq_true_eq]
    constructor
    · rintro ⟨h, ⟨hh, -⟩, ho⟩
      exact ⟨h, hh, ho⟩
    · rintro ⟨h, hh, ho⟩
      exact ⟨h, ⟨hh, (hp h hh).mpr ho⟩, ho⟩

theorem explicitDecision_resolution {kind : HintKind} {ids : Finset Nat} {x : HintDecision}
    (h : x ∈ explicitDecision kind ids) : x.resolution = .explicitScope := by
  simp only [explicitDecision] at h
  split at h
  · rw [List.mem_singleton.mp h]
  · cases h

theorem isExact_iff {decisions : List HintDecision} {kind : HintKind} {f : Text → HintOutcome} {hints : List Text}
    (hf : ∀ h, (f h).decision.hint = h) (hkind : ∀ h, (f h).decision.kind = kind)
    (hmem : ∀ x : HintDecision, x.kind = kind → x.resolution = .exactScope →
      (x ∈ decisions ↔ ∃ h ∈ hints, (f h).decision = x)) :
    ∀ h ∈ hints, isExact decisions kind h = true ↔ (f h).decision.resolution = .exactScope := by
  intro h hh
  simp only [isExact, List.any_eq_true, decide_eq_true_eq]
  constructor
  · rintro ⟨x, hx, hk, rfl, hr⟩
    obtain ⟨h', -, rfl⟩ := (hmem x hk hr).mp hx
    rwa [hf h'] at *
  · intro hr
    exact ⟨(f h).decision, (hmem _ (hkind h) hr).mpr ⟨h, hh, rfl⟩, hkind h, hf h, hr⟩

/-- The hints that are not exact narrow nothing. -/
theorem resolved_exactPlan {tenant : Tenant} {ds cs : Finset Nat} :
    let scope := resolved r db tenantId tenant plan ds cs
    let scope' := resolved r db tenantId tenant (exactPlan plan scope.decisions) ds cs
    scope'.documentIds = scope.documentIds ∧ scope'.versionIds = scope.versionIds ∧
      scope'.sectionIds = scope.sectionIds := by
  intro scope scope'
  set k := corpus db tenantId tenant.activeIndexGenerationId
  set documentOf := documentOutcome r (explicitlyAllowed k ds cs) k.entries with hdocumentOf
  set collectionOf := collectionOutcome r k.collections k.rows k.members with hcollectionOf
  set headingOf := headingOutcome r (db.sections.keysWhere (inVersions tenantId scope.versionIds))
    (db.sections.where? (inVersions tenantId scope.versionIds)) with hheadingOf
  have hdecisions : scope.decisions = explicitDecision .document ds ++ explicitDecision .collection cs ++
      (plan.documentHints.map documentOf ++ plan.collectionHints.map collectionOf ++
        plan.headingHints.map headingOf).map (·.decision) := rfl
  have hmem : ∀ x : HintDecision, x.resolution = .exactScope →
      (x ∈ scope.decisions ↔ (∃ h ∈ plan.documentHints, (documentOf h).decision = x) ∨
        (∃ h ∈ plan.collectionHints, (collectionOf h).decision = x) ∨
        ∃ h ∈ plan.headingHints, (headingOf h).decision = x) := by
    intro x hr
    have hne : ∀ {kind ids}, x ∉ explicitDecision kind ids := fun h => by
      rw [explicitDecision_resolution h] at hr
      cases hr
    simp [hdecisions, hne]
  have hdocuments := exactTargets_filter (f := documentOf) (isExact_iff (fun _ => rfl) (fun _ => rfl) fun x hk hr => by
      rw [hmem x hr]
      refine ⟨?_, Or.inl⟩
      rintro (h | ⟨_, -, rfl⟩ | ⟨_, -, rfl⟩)
      · exact h
      · cases hk
      · cases hk)
  have hcollections := exactTargets_filter (f := collectionOf) (isExact_iff (fun _ => rfl) (fun _ => rfl) fun x hk hr => by
      rw [hmem x hr]
      refine ⟨?_, Or.inr ∘ Or.inl⟩
      rintro (⟨_, -, rfl⟩ | h | ⟨_, -, rfl⟩)
      · cases hk
      · exact h
      · cases hk)
  have hheadings := exactTargets_filter (f := headingOf) (isExact_iff (fun _ => rfl) (fun _ => rfl) fun x hk hr => by
      rw [hmem x hr]
      refine ⟨?_, Or.inr ∘ Or.inr⟩
      rintro (⟨_, -, rfl⟩ | ⟨_, -, rfl⟩ | h)
      · cases hk
      · cases hk
      · exact h)
  have hnarrowed : narrowed (explicitlyAllowed k ds cs)
        ((plan.documentHints.filter (isExact scope.decisions .document)).map documentOf)
        ((plan.collectionHints.filter (isExact scope.decisions .collection)).map collectionOf) =
      narrowed (explicitlyAllowed k ds cs) (plan.documentHints.map documentOf)
        (plan.collectionHints.map collectionOf) := by
    rw [narrowed, hdocuments.1, hcollections.1, hcollections.2, narrowed]
  have hversions : scope'.versionIds = scope.versionIds := congrArg (versionIdsOf k) hnarrowed
  have hsections : exactTargets (headingOutcomesIn r db tenantId scope'.versionIds
      (plan.headingHints.filter (isExact scope.decisions .heading))) =
        exactTargets (headingOutcomesIn r db tenantId scope.versionIds plan.headingHints) := by
    rw [hversions]
    exact hheadings.1
  refine ⟨congrArg (fun s : Finset Nat => sortedUuids s.val) hnarrowed, hversions, ?_⟩
  exact congrArg (fun s : Finset Nat => if s.Nonempty then some (sortedUuids s.val) else none) hsections

end Etoeragcb.Rag
