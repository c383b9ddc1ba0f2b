import Etoeragcb.Content.Normalization
import Etoeragcb.Lib.Result
import Etoeragcb.Models.Retrieval
import Mathlib.Algebra.Order.Ring.Unbundled.Rat
import Mathlib.Data.Finset.Card
import Mathlib.Data.Finset.Union
import Mathlib.Data.List.Sort

/-!
# The scope of a retrieval

`MetadataResolver.resolve` of `app/rag/scope.py`. A set of ids is a `Finset`, and a dictionary that a query fills is
the function that looks its rows up.
-/

namespace Etoeragcb.Rag

open Lib Models Content

inductive HintKind
  | document | collection | heading
deriving DecidableEq

inductive ResolutionKind
  | explicitScope | exactScope | ambiguousBoost | fuzzyBoost | noMatch
deriving DecidableEq

structure HintDecision where
  kind : HintKind
  hint : Text
  resolution : ResolutionKind
  matchedIds : List Nat
  expandedSectionCount : Nat
deriving DecidableEq

inductive BoostTarget
  | inDocument | inSection
deriving DecidableEq

structure HintBoost where
  hint : Text
  target : BoostTarget
  targetIds : List Nat
deriving DecidableEq

structure ResolvedScope where
  tenantId : TenantId
  generationId : Option GenerationId
  retrievalRevision : Nat
  documentIds : List DocumentId
  versionIds : List VersionId
  sectionIds : Option (List SectionId)
  decisions : List HintDecision
  boosts : List HintBoost
deriving DecidableEq

/-- What hints are compared with: the forms of texts, `SequenceMatcher(None, a, b).ratio()`, and `uuid.UUID` where it
does not raise. -/
structure Resolver where
  unicode : Unicode
  ratio : Text → Text → ℚ
  uuidOrNone : Text → Option Nat

def sortedUuids (values : Multiset Nat) : List Nat :=
  Quot.liftOn values (List.insertionSort (· ≤ ·)) fun _ _ h =>
    ((List.perm_insertionSort _ _).trans (h.trans (List.perm_insertionSort _ _).symm)).eq_of_pairwise
      (fun _ _ _ _ => Nat.le_antisymm) (List.pairwise_insertionSort _ _) (List.pairwise_insertionSort _ _)

/-! ## Hints -/

variable (r : Resolver)

def fuzzyHintMinimum : ℚ := 82 / 100

def fuzzyScore (hint : Text) (candidates : List Text) : ℚ := ((candidates.map (r.ratio hint)).max?).getD 0

/-- `_fuzzy_matches`: the items with the best score of all, if it reaches the minimum. -/
def fuzzyMatches (hint : Text) (known : Finset Nat) (values : Nat → List Text) : Finset Nat :=
  if hint = [] then ∅
  else
    let scored := known.filter fun i => ∃ s ∈ values i, s ≠ []
    scored.filter fun i => fuzzyHintMinimum ≤ fuzzyScore r hint (values i) ∧
      ∀ j ∈ scored, fuzzyScore r hint (values j) ≤ fuzzyScore r hint (values i)

/-- What `_resolve_document_hint`, `_resolve_collection_hint` and `_resolve_heading_hint` have in common: the id of a
known item, the items of which a name is the hint, and the items with a name that is close to it. -/
def resolveHint (known : Finset Nat) (exact : Text → Finset Nat) (values : Nat → List Text) (hint : Text) :
    Finset Nat × ResolutionKind :=
  match (r.uuidOrNone hint).filter (· ∈ known) with
  | some identifier => ({identifier}, .exactScope)
  | none =>
      let normalized := normalizeLexical r.unicode hint
      if (exact normalized).card = 1 then (exact normalized, .exactScope)
      else if (exact normalized).Nonempty then (exact normalized, .ambiguousBoost)
      else
        let fuzzy := fuzzyMatches r normalized known values
        if fuzzy.Nonempty then (fuzzy, .fuzzyBoost) else (∅, .noMatch)

structure DocumentEntry where
  versionId : VersionId
  title : Text
  sourceFilename : Text
deriving DecidableEq

def documentNames (documents : DocumentId → Option DocumentEntry) (d : DocumentId) : List Text :=
  match documents d with
  | some e => [normalizeLexical r.unicode e.title, normalizeLexical r.unicode e.sourceFilename]
  | none => []

def resolveDocumentHint (allowed : Finset DocumentId) (documents : DocumentId → Option DocumentEntry) :
    Text → Finset DocumentId × ResolutionKind :=
  resolveHint r allowed (fun normalized => allowed.filter fun d => normalized ∈ documentNames r documents d)
    (documentNames r documents)

def collectionNames (collections : CollectionId → Option KnowledgeCollection) (c : CollectionId) : List Text :=
  match collections c with
  | some row => [normalizeLexical r.unicode row.name]
  | none => []

def resolveCollectionHint (known : Finset CollectionId) (collections : CollectionId → Option KnowledgeCollection) :
    Text → Finset CollectionId × ResolutionKind :=
  resolveHint r known (fun normalized => known.filter fun c => normalized ∈ collectionNames r collections c)
    (collectionNames r collections)

def headingNames (sections : SectionId → Option Section) (s : SectionId) : List Text :=
  match sections s with
  | some row => [row.headingLexical, row.pathLexical]
  | none => []

/-- The sections at a path come before the ones with a heading. -/
def headingExact (known : Finset SectionId) (sections : SectionId → Option Section) (normalized : Text) :
    Finset SectionId :=
  let pathExact := known.filter fun s => (sections s).any (·.pathLexical = normalized)
  if pathExact.Nonempty then pathExact else known.filter fun s => (sections s).any (·.headingLexical = normalized)

def resolveHeadingHint (known : Finset SectionId) (sections : SectionId → Option Section) :
    Text → Finset SectionId × ResolutionKind :=
  resolveHint r known (headingExact known sections) (headingNames sections)

/-- The section lies at the path of the root or below it, in the same version. -/
def descends (root row : Section) : Bool :=
  row.documentVersionId = root.documentVersionId &&
    (row.pathLexical = root.pathLexical || (root.pathLexical ++ " / ".toList).isPrefixOf row.pathLexical)

def expandSectionDescendants (roots known : Finset SectionId) (sections : SectionId → Option Section) :
    Finset SectionId :=
  known.filter fun s => ∃ root ∈ known, root ∈ roots ∧ (sections root).any fun a => (sections s).any (descends a)

/-! ## The queries -/

variable (db : Db) (tenantId : TenantId)

/-- The row that the query of the manifest returns for a document. -/
def manifestEntry (generationId : Option GenerationId) (d : DocumentId) : Option DocumentEntry := do
  let g ← generationId
  let row ← db.generationDocuments.where? (fun _ row => row.tenantId = tenantId) (g, d)
  let document ← db.documents.where? (fun _ document => document.tenantId = row.tenantId && document.deletedAt.isNone) d
  return ⟨row.documentVersionId, document.title, document.sourceFilename⟩

def manifestDocuments (generationId : Option GenerationId) : Finset DocumentId :=
  ((db.generationDocuments.keysWhere fun _ row => row.tenantId = tenantId).image Prod.snd).filter fun d =>
    (manifestEntry db tenantId generationId d).isSome

def isLive (tenantId : TenantId) (_ : CollectionId) (row : KnowledgeCollection) : Bool :=
  row.tenantId = tenantId && row.deletedAt.isNone

/-- `memberships.get(collection_id, set())` -/
def memberships (documents : Finset DocumentId) (collections : Finset CollectionId) (c : CollectionId) :
    Finset DocumentId :=
  ((db.documentCollections.keysWhere fun k tenant =>
    tenant = tenantId && k.1 ∈ documents && k.2 ∈ collections).filter fun k => k.2 = c).image Prod.fst

def inVersions (tenantId : TenantId) (versionIds : List VersionId) (_ : SectionId) (row : Section) : Bool :=
  row.tenantId = tenantId && row.documentVersionId ∈ versionIds

/-! ## Resolution -/

/-- The decision about a hint with the ids that it would narrow the scope to, or boost. -/
structure HintOutcome where
  decision : HintDecision
  targets : Finset Nat

/-- The ids that the exact hints allow. -/
def exactTargets (outcomes : List HintOutcome) : Finset Nat :=
  (outcomes.filter (·.decision.resolution = .exactScope)).foldr (·.targets ∪ ·) ∅

def boostsOf (target : BoostTarget) (outcomes : List HintOutcome) : List HintBoost :=
  (outcomes.filter fun o => (o.decision.resolution = .ambiguousBoost ∨ o.decision.resolution = .fuzzyBoost) ∧
    o.targets.Nonempty).map fun o => ⟨o.decision.hint, target, sortedUuids o.targets.val⟩

/-- The decision about the explicit ids of one kind, if there are any. -/
def explicitDecision (kind : HintKind) (ids : Finset Nat) : List HintDecision :=
  if ids.Nonempty then [⟨kind, "explicit".toList, .explicitScope, sortedUuids ids.val, 0⟩] else []

def documentOutcome (allowed : Finset DocumentId) (documents : DocumentId → Option DocumentEntry) (hint : Text) :
    HintOutcome :=
  let (matched, resolution) := resolveDocumentHint r allowed documents hint
  ⟨⟨.document, hint, resolution, sortedUuids matched.val, 0⟩, matched⟩

def collectionOutcome (known : Finset CollectionId) (collections : CollectionId → Option KnowledgeCollection)
    (members : CollectionId → Finset DocumentId) (hint : Text) : HintOutcome :=
  let (matched, resolution) := resolveCollectionHint r known collections hint
  ⟨⟨.collection, hint, resolution, sortedUuids matched.val, 0⟩, matched.biUnion members⟩

def headingOutcome (known : Finset SectionId) (sections : SectionId → Option Section) (hint : Text) : HintOutcome :=
  let (roots, resolution) := resolveHeadingHint r known sections hint
  let expanded := expandSectionDescendants roots known sections
  ⟨⟨.heading, hint, resolution, sortedUuids roots.val, expanded.card⟩, expanded⟩

/-- What the queries of a resolution return: the documents of the manifest, the collections and their members. -/
structure Corpus where
  entries : DocumentId → Option DocumentEntry
  documents : Finset DocumentId
  rows : CollectionId → Option KnowledgeCollection
  collections : Finset CollectionId
  members : CollectionId → Finset DocumentId

def corpus (generationId : Option GenerationId) : Corpus :=
  let documents := manifestDocuments db tenantId generationId
  let collections := db.collections.keysWhere (isLive tenantId)
  { documents, collections
    entries := manifestEntry db tenantId generationId
    rows := db.collections.where? (isLive tenantId)
    members := memberships db tenantId documents collections }

/-- The documents that the explicit ids allow. -/
def explicitlyAllowed (k : Corpus) (explicitDocuments : Finset DocumentId)
    (explicitCollections : Finset CollectionId) : Finset DocumentId :=
  let allowed := if explicitDocuments.Nonempty then k.documents ∩ explicitDocuments else k.documents
  if explicitCollections.Nonempty then allowed ∩ explicitCollections.biUnion k.members else allowed

/-- The documents that the exact hints leave. -/
def narrowed (allowed : Finset DocumentId) (documentOutcomes collectionOutcomes : List HintOutcome) :
    Finset DocumentId :=
  let documentScope := exactTargets documentOutcomes
  let allowed := if documentScope.Nonempty then allowed ∩ documentScope else allowed
  if collectionOutcomes.any (·.decision.resolution = .exactScope) then allowed ∩ exactTargets collectionOutcomes
  else allowed

def versionIdsOf (k : Corpus) (allowed : Finset DocumentId) : List VersionId :=
  sortedUuids (allowed.val.filterMap fun d => (k.entries d).map (·.versionId))

def headingOutcomesIn (versionIds : List VersionId) (hints : List Text) : List HintOutcome :=
  hints.map (headingOutcome r (db.sections.keysWhere (inVersions tenantId versionIds))
    (db.sections.where? (inVersions tenantId versionIds)))

/-- The scope of a plan, once the explicit ids have been found. -/
def resolved (tenant : Tenant) (plan : RetrievalPlan) (explicitDocuments : Finset DocumentId)
    (explicitCollections : Finset CollectionId) : ResolvedScope :=
  let k := corpus db tenantId tenant.activeIndexGenerationId
  let allowed := explicitlyAllowed k explicitDocuments explicitCollections
  let documentOutcomes := plan.documentHints.map (documentOutcome r allowed k.entries)
  let collectionOutcomes := plan.collectionHints.map (collectionOutcome r k.collections k.rows k.members)
  let allowed := narrowed allowed documentOutcomes collectionOutcomes
  let versionIds := versionIdsOf k allowed
  let headingOutcomes := headingOutcomesIn r db tenantId versionIds plan.headingHints
  let hardSections := exactTargets headingOutcomes
  { tenantId, versionIds
    generationId := tenant.activeIndexGenerationId
    retrievalRevision := tenant.retrievalRevision
    documentIds := sortedUuids allowed.val
    sectionIds := if hardSections.Nonempty then some (sortedUuids hardSections.val) else none
    decisions := explicitDecision .document explicitDocuments ++ explicitDecision .collection explicitCollections ++
      (documentOutcomes ++ collectionOutcomes ++ headingOutcomes).map (·.decision)
    boosts := boostsOf .inDocument documentOutcomes ++ boostsOf .inDocument collectionOutcomes ++
      boostsOf .inSection headingOutcomes }

/-- `MetadataResolver.resolve` -/
def resolve (plan : RetrievalPlan) (explicitDocumentIds : List DocumentId)
    (explicitCollectionIds : List CollectionId) : Except String ResolvedScope := do
  let tenant ← orRaise (db.tenants.get? tenantId) "scope not found"
  let k := corpus db tenantId tenant.activeIndexGenerationId
  if ¬explicitDocumentIds.toFinset ⊆ k.documents then throw "scope not found"
  else if ¬explicitCollectionIds.toFinset ⊆ k.collections then throw "scope not found"
  else return resolved r db tenantId tenant plan explicitDocumentIds.toFinset explicitCollectionIds.toFinset

end Etoeragcb.Rag
