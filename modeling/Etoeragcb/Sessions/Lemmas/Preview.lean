import Etoeragcb.Chat.Metadata
import Etoeragcb.Rag.Lemmas.Combined
import Etoeragcb.Sessions.Preview

/-!
# From a packed source to its citation and back
-/

namespace Etoeragcb.Sessions

open Lib Models Chat

variable {s : Rag.PackedSource} {sources : List Rag.PackedSource} {answer : SanitizedAnswer} {sourceId : Text}
  {c : RetrievalCandidate} {e : Rag.EvidenceCandidate} {scoreJson : ℚ → FloatLiteral}

/-! ## Source ids -/

theorem natStr_injective {m n : Nat} (h : Rag.natStr m = Rag.natStr n) : m = n := by
  rw [← ofDecimal_decimal m, ← ofDecimal_decimal n]
  exact congrArg ofDecimal h

/-- The sources are numbered, so no two of them share an id. -/
structure Numbered (sources : List Rag.PackedSource) : Prop where
  wellFormed : ∀ s ∈ sources, Rag.isSourceId s.sourceId = true
  nodup : (sources.map (·.sourceId)).Nodup

theorem numbered_zipIdx (selected : List Rag.RerankedEvidence) :
    Numbered ((selected.zipIdx 1).map fun x => ⟨'S' :: Rag.natStr x.2, x.1⟩) where
  wellFormed := by
    rw [List.forall_mem_map]
    exact fun x hx => Rag.isSourceId_natStr (List.mem_zipIdx hx).1
  nodup := by
    have hids : ((selected.zipIdx 1).map fun x => (⟨'S' :: Rag.natStr x.2, x.1⟩ : Rag.PackedSource)).map (·.sourceId) =
        ((selected.zipIdx 1).map Prod.snd).map fun n => 'S' :: Rag.natStr n := by
      rw [List.map_map, List.map_map]
      rfl
    rw [hids, List.zipIdx_map_snd]
    exact List.Nodup.map (fun m n h => natStr_injective (List.cons.inj h).2) List.nodup_range'

theorem Numbered.eq_of_sourceId (h : Numbered sources) {s' : Rag.PackedSource} (hs : s ∈ sources) (hs' : s' ∈ sources)
    (he : s.sourceId = s'.sourceId) : s = s' :=
  List.inj_on_of_nodup_map h.nodup hs hs' he

theorem isSourceId_cases (h : Rag.isSourceId sourceId = true) : ∃ ds, sourceId = 'S' :: ds ∧ isCanonical ds = true := by
  unfold Rag.isSourceId at h
  split at h
  · exact ⟨_, rfl, h⟩
  · cases h

theorem citedSource?_eq (h : Rag.isSourceId s.sourceId = true) :
    ∃ p, citedSource? s = some p ∧ p.sourceId.text = s.sourceId ∧ p.candidate = citedCandidate s.evidence.candidate := by
  obtain ⟨sourceId, evidence⟩ := s
  obtain ⟨ds, rfl, hcanonical⟩ := isSourceId_cases h
  exact ⟨⟨⟨ds, hcanonical⟩, citedCandidate evidence.candidate⟩, dif_pos hcanonical, rfl, rfl⟩

/-! ## Looking a source up -/

theorem find?_eq_some_of_unique {α : Type} {p : α → Bool} {l : List α} {a : α} (ha : a ∈ l) (hp : p a = true)
    (hunique : ∀ b ∈ l, p b = true → b = a) : l.find? p = some a := by
  cases hfind : l.find? p with
  | none => exact absurd hp (by simpa using List.find?_eq_none.mp hfind a ha)
  | some b => rw [hunique b (List.mem_of_find?_eq_some hfind) (List.find?_some hfind)]

/-- `by_id.get(source_id)` -/
def byId (sources : List Rag.PackedSource) (sourceId : Text) : Option Chat.PackedSource :=
  (sources.filterMap citedSource?).reverse.find? fun p => p.sourceId.text = sourceId

theorem byId_eq_some (h : Numbered sources) (hs : s ∈ sources) :
    ∃ p, byId sources s.sourceId = some p ∧ p.candidate = citedCandidate s.evidence.candidate := by
  obtain ⟨p, hp, hid, hcandidate⟩ := citedSource?_eq (h.wellFormed s hs)
  refine ⟨p, find?_eq_some_of_unique ?_ (decide_eq_true hid) fun q hq hqid => ?_, hcandidate⟩
  · exact List.mem_reverse.mpr (List.mem_filterMap.mpr ⟨s, hs, hp⟩)
  · obtain ⟨s', hs', hq'⟩ := List.mem_filterMap.mp (List.mem_reverse.mp hq)
    obtain ⟨q', hq'', hid', -⟩ := citedSource?_eq (h.wellFormed s' hs')
    rw [hq'] at hq''
    cases hq''
    rw [h.eq_of_sourceId hs' hs (hid'.symm.trans (of_decide_eq_true hqid)), hp] at hq'
    exact (Option.some.inj hq').symm

theorem byId_eq_none (h : Numbered sources) (hs : ∀ s ∈ sources, s.sourceId ≠ sourceId) : byId sources sourceId = none := by
  refine List.find?_eq_none.mpr fun q hq => ?_
  obtain ⟨s', hs', hq'⟩ := List.mem_filterMap.mp (List.mem_reverse.mp hq)
  obtain ⟨q', hq'', hid', -⟩ := citedSource?_eq (h.wellFormed s' hs')
  rw [hq'] at hq''
  cases hq''
  rw [hid']
  simpa using hs s' hs'

theorem mem_byId (h : Numbered sources) {p : Chat.PackedSource} (hp : byId sources sourceId = some p) :
    ∃ s ∈ sources, s.sourceId = sourceId ∧ p.candidate = citedCandidate s.evidence.candidate := by
  by_cases hs : ∃ s ∈ sources, s.sourceId = sourceId
  · obtain ⟨s, hs, rfl⟩ := hs
    obtain ⟨q, hq, hcandidate⟩ := byId_eq_some h hs
    rw [hq] at hp
    cases hp
    exact ⟨s, hs, rfl, hcandidate⟩
  · rw [byId_eq_none h fun s hs' he => hs ⟨s, hs', he⟩] at hp
    cases hp

/-! ## The citations -/

def marker (sourceId : Text) : Text := '[' :: (sourceId ++ [']'])

theorem marker_injective {i j : Text} (h : marker i = marker j) : i = j :=
  List.append_cancel_right (List.cons.inj h).2

def citationOf (sourceId : Text) (c : Chat.EvidenceCandidate) : Citation :=
  ⟨marker sourceId, sourceId, c.sourceType, c.title, c.documentId, c.documentVersionId, c.sourceFilename, c.pageStart,
    c.pageEnd, c.uri⟩

def cited (answer : SanitizedAnswer) (sources : List Rag.PackedSource) : List (Text × Citation) :=
  answer.citedSourceIds.filterMap fun i => (byId sources i).map fun p => (marker i, citationOf i p.candidate)

theorem citationsForAnswer_eq (hvalid : ∀ i p, byId sources i = some p → (citationOf i p.candidate).valid = true) :
    citationsForAnswer answer (sources.filterMap citedSource?) = .ok (cited answer sources) := by
  rw [citationsForAnswer, mapM_eq_ok (g := fun x : Text × Chat.EvidenceCandidate => (marker x.1, citationOf x.1 x.2))]
  · rw [cited, List.map_filterMap]
    simp only [Option.map_map, Function.comp_def]
    rfl
  · intro x hx
    obtain ⟨i, -, hi⟩ := List.mem_filterMap.mp hx
    obtain ⟨p, hp, rfl⟩ := Option.map_eq_some_iff.mp hi
    exact if_pos (hvalid i p hp)

theorem json_get?_eq_some {members : List (Text × Json)} {k : Text} {v : Json} (hex : ∃ x ∈ members, x.1 = k)
    (hall : ∀ x ∈ members, x.1 = k → x.2 = v) : Json.get? members k = some v := by
  unfold Json.get?
  cases hfind : members.reverse.find? fun x => decide (x.1 = k) with
  | none =>
      obtain ⟨x, hx, hk⟩ := hex
      exact absurd hk (by simpa using List.find?_eq_none.mp hfind x (List.mem_reverse.mpr hx))
  | some x =>
      rw [Option.map_some, hall x (List.mem_reverse.mp (List.mem_of_find?_eq_some hfind))
        (by simpa using List.find?_some hfind)]

theorem json_get?_eq_none {members : List (Text × Json)} {k : Text} (hall : ∀ x ∈ members, x.1 ≠ k) :
    Json.get? members k = none := by
  rw [Json.get?, Option.map_eq_none_iff, List.find?_eq_none]
  exact fun x hx => by simpa using hall x (List.mem_reverse.mp hx)

theorem get?_cited (h : Numbered sources) (hs : s ∈ sources) (hcited : s.sourceId ∈ answer.citedSourceIds) :
    Json.get? ((cited answer sources).map fun x => (x.1, x.2.json)) (marker s.sourceId) =
      some (citationOf s.sourceId (citedCandidate s.evidence.candidate)).json := by
  obtain ⟨p, hp, hcandidate⟩ := byId_eq_some h hs
  refine json_get?_eq_some ?_ ?_
  · have hmem : (marker s.sourceId, citationOf s.sourceId p.candidate) ∈ cited answer sources :=
      List.mem_filterMap.mpr ⟨s.sourceId, hcited, by rw [hp]; rfl⟩
    exact ⟨_, List.mem_map_of_mem hmem, rfl⟩
  · intro x hx hk
    obtain ⟨y, hy, rfl⟩ := List.mem_map.mp hx
    obtain ⟨i, -, hi⟩ := List.mem_filterMap.mp hy
    obtain ⟨q, hq, rfl⟩ := Option.map_eq_some_iff.mp hi
    have hid : i = s.sourceId := marker_injective hk
    subst hid
    rw [hp] at hq
    cases hq
    rw [hcandidate]

theorem get?_cited_none (h : Numbered sources)
    (hnot : ∀ s ∈ sources, s.sourceId = sourceId → s.sourceId ∉ answer.citedSourceIds) :
    Json.get? ((cited answer sources).map fun x => (x.1, x.2.json)) (marker sourceId) = none := by
  refine json_get?_eq_none fun x hx hk => ?_
  obtain ⟨y, hy, rfl⟩ := List.mem_map.mp hx
  obtain ⟨i, hcited, hi⟩ := List.mem_filterMap.mp hy
  obtain ⟨q, hq, rfl⟩ := Option.map_eq_some_iff.mp hi
  have hid : i = sourceId := marker_injective hk
  subst hid
  obtain ⟨s, hs, he, -⟩ := mem_byId h hq
  exact hnot s hs he (he ▸ hcited)

/-! ## Candidates of documents -/

structure HasUuids (c : RetrievalCandidate) : Prop where
  chunk : c.chunkId < 2 ^ 128
  document : c.documentId < 2 ^ 128
  version : c.documentVersionId < 2 ^ 128
  sectionId : c.sectionId < 2 ^ 128

theorem nodup_documentProvenance (c : RetrievalCandidate) : ((Rag.documentProvenance c).map Prod.fst).Nodup := by
  have hkeys : (Rag.documentProvenance c).map Prod.fst =
      ["tenant_id", "document_id", "document_version_id", "section_id", "section_path_original", "chunk_index", "dense_rank",
        "dense_score", "sparse_rank", "sparse_score", "exact_rank", "hint_rank", "is_neighbor", "neighbor_of"].map
        String.toList := rfl
  rw [hkeys]
  decide +kernel

theorem get?_keptProvenance (hu : Rag.unranked e = Rag.unranked (Rag.evidenceOf c)) {k : Text} {v : Rag.ProvenanceValue}
    (hk : k ∈ Rag.placeKeys) (hv : (k, v) ∈ Rag.documentProvenance c) :
    Json.get? ((Dict.restrict e.provenance keptProvenance).map fun x => (x.1, provenanceJson scoreJson x.2)) k =
      some (provenanceJson scoreJson v) := by
  have hplace : Dict.restrict e.provenance Rag.placeKeys = Dict.restrict (Rag.documentProvenance c) Rag.placeKeys :=
    congrArg (·.provenance) hu
  have hmem : ∀ w, (k, w) ∈ e.provenance ↔ (k, w) ∈ Rag.documentProvenance c := fun w => by
    have hboth : (k, w) ∈ Dict.restrict e.provenance Rag.placeKeys ↔
        (k, w) ∈ Dict.restrict (Rag.documentProvenance c) Rag.placeKeys := by rw [hplace]
    simpa [Dict.restrict, hk] using hboth
  have hkept : k ∈ keptProvenance := by
    have hsub : ∀ k ∈ Rag.placeKeys, k ∈ keptProvenance := by decide +kernel
    exact hsub k hk
  refine json_get?_eq_some ⟨(k, provenanceJson scoreJson v), ?_, rfl⟩ fun x hx hxk => ?_
  · refine List.mem_map.mpr ⟨(k, v), List.mem_filter.mpr ⟨(hmem v).mpr hv, by simpa using hkept⟩, rfl⟩
  · obtain ⟨⟨k', w⟩, hw, rfl⟩ := List.mem_map.mp hx
    cases (show k' = k from hxk)
    have hw' := (hmem w).mp (List.mem_filter.mp hw).1
    have hsame := List.inj_on_of_nodup_map (nodup_documentProvenance c) hw' hv rfl
    rw [(Prod.mk.inj hsame).2]

theorem uuidOrNone_place (hu : Rag.unranked e = Rag.unranked (Rag.evidenceOf c)) {k : Text} {n : Nat}
    (hk : k ∈ Rag.placeKeys) (hv : Dict.get? (Rag.documentProvenance c) k = some (.text (Rag.uuidStr n))) (hn : n < 2 ^ 128) :
    uuidOrNone (Dict.get? e.provenance k) = some n := by
  rw [Rag.unranked_provenance hu hk]
  exact (congrArg uuidOrNone hv).trans (Rag.ofText_uuidStr hn)

theorem citedCandidate_ids (hu : Rag.unranked e = Rag.unranked (Rag.evidenceOf c)) (hids : HasUuids c) :
    (citedCandidate e).documentId = some c.documentId ∧ (citedCandidate e).documentVersionId = some c.documentVersionId :=
  ⟨uuidOrNone_place hu (by decide +kernel) rfl hids.document, uuidOrNone_place hu (by decide +kernel) rfl hids.version⟩

theorem citationOf_valid {e' : Rag.EvidenceCandidate} (hvalid : e'.validate = .ok e') (hu : Rag.unranked e = Rag.unranked e')
    (hdocument : e.sourceType = .document →
      (citedCandidate e).documentId.isSome = true ∧ (citedCandidate e).documentVersionId.isSome = true) (i : Text) :
    (citationOf i (citedCandidate e)).valid = true := by
  obtain ⟨-, hfields, hsource⟩ := Rag.validate_eq_ok.mp hvalid
  obtain ⟨-, -, -, -, ht, hf, huri, hps, hpe, -⟩ := Rag.fieldChecks_iff.mp hfields
  have htype : e.sourceType = e'.sourceType := congrArg (·.sourceType) hu
  have htitle : e.title = e'.title := congrArg (·.title) hu
  have hfile : e.sourceFilename = e'.sourceFilename := congrArg (·.sourceFilename) hu
  have heuri : e.uri = e'.uri := congrArg (·.uri) hu
  have hstart : e.pageStart = e'.pageStart := congrArg (·.pageStart) hu
  have hend : e.pageEnd = e'.pageEnd := congrArg (·.pageEnd) hu
  have hshown : 1 ≤ e.title.length ∧ e.title.length ≤ 1024 ∧ (∀ s, e.sourceFilename = some s → s.length ≤ 1024) ∧
      (∀ n, e.pageStart = some n → 1 ≤ n) ∧ (∀ n, e.pageEnd = some n → 1 ≤ n) ∧
      ∀ s, e.uri = some s → s.length ≤ 4096 := by
    rw [htitle, hfile, hstart, hend, heuri]
    exact ⟨ht.1, ht.2, hf, hps, hpe, huri⟩
  obtain ⟨h₁, h₂, h₃, h₄, h₅, h₆⟩ := hshown
  simp only [Citation.valid, citationOf, citedCandidate, Bool.and_eq_true, Option.all_eq_true]
  refine ⟨⟨⟨⟨⟨⟨decide_eq_true h₁, decide_eq_true h₂⟩, ?_⟩, ?_⟩, ?_⟩, ?_⟩, ?_⟩
  · exact fun s hs => decide_eq_true (h₃ s hs)
  · exact fun n hn => decide_eq_true (h₄ n hn)
  · exact fun n hn => decide_eq_true (h₅ n hn)
  · exact fun s hs => decide_eq_true (h₆ s hs)
  · cases hs : e.sourceType with
    | document =>
        obtain ⟨hd, hv⟩ := hdocument hs
        simp only [sourceTypeOf]
        exact Bool.and_eq_true_iff.mpr ⟨hd, hv⟩
    | web =>
        have hweb : ¬(e'.domain = none ∨ e'.uri = none) := fun hno => by
          rw [Rag.EvidenceCandidate.sourceErrors, if_pos ⟨htype ▸ hs, hno⟩] at hsource
          cases hsource
        simp only [sourceTypeOf, heuri]
        exact Option.isSome_iff_ne_none.mpr fun hno => hweb (Or.inr hno)

/-! ## Reading -/

def resolvedOf (c : RetrievalCandidate) : ResolvedSource :=
  ⟨c.chunkId, c.documentId, c.documentVersionId, c.contentSha256, some c.sectionId, some c.chunkIndex⟩

def sourceMembers (scoreJson : ℚ → FloatLiteral) (s : Rag.PackedSource) : List (Text × Json) :=
  match sourceJson scoreJson s with
  | .obj members => members
  | _ => []

theorem matchingSource?_sourceJson (s : Rag.PackedSource) (sourceId : Text) :
    matchingSource? sourceId (sourceJson scoreJson s) =
      if s.sourceId = sourceId ∧ s.evidence.candidate.sourceType =
        .document then some (sourceMembers scoreJson s) else none := by
  have hid : isText (Json.get? (sourceMembers scoreJson s) "source_id".toList) sourceId =
      decide (s.sourceId = sourceId) := rfl
  have htype : isText (Json.get? (sourceMembers scoreJson s) "source_type".toList) "document".toList =
      decide (s.evidence.candidate.sourceType = .document) := by
    have hget : Json.get? (sourceMembers scoreJson s) "source_type".toList =
        some (.str (sourceTypeOf s.evidence.candidate.sourceType).text) := rfl
    rw [hget]
    cases s.evidence.candidate.sourceType <;> decide +kernel
  have hobj : matchingSource? sourceId (sourceJson scoreJson s) =
      if isText (Json.get? (sourceMembers scoreJson s) "source_id".toList) sourceId &&
        isText (Json.get? (sourceMembers scoreJson s) "source_type".toList) "document".toList then
        some (sourceMembers scoreJson s) else none := rfl
  rw [hobj, hid, htype]
  simp only [Bool.and_eq_true, decide_eq_true_eq]

/-- Of the sources exactly one has the id of a source of a document. -/
theorem filterMap_matchingSource? (h : Numbered sources) (hs : s ∈ sources)
    (hdocument : s.evidence.candidate.sourceType = .document) :
    (sources.map (sourceJson scoreJson)).filterMap (matchingSource? s.sourceId) = [sourceMembers scoreJson s] := by
  obtain ⟨before, after, rfl⟩ := List.append_of_mem hs
  have hother : ∀ l : List Rag.PackedSource, (∀ t ∈ l, t.sourceId ≠ s.sourceId) →
      (l.map (sourceJson scoreJson)).filterMap (matchingSource? s.sourceId) = [] := fun l hl => by
    rw [List.filterMap_map, List.filterMap_eq_nil_iff]
    intro t ht
    exact (matchingSource?_sourceJson t s.sourceId).trans (if_neg fun hno => hl t ht hno.1)
  have hnodup := h.nodup
  simp only [List.map_append, List.map_cons, List.nodup_append, List.nodup_cons, List.mem_map, List.mem_cons] at hnodup
  obtain ⟨-, ⟨hafter, -⟩, hbefore⟩ := hnodup
  rw [List.map_append, List.map_cons, List.filterMap_append, List.filterMap_cons,
    hother before fun t ht => hbefore _ ⟨t, ht, rfl⟩ _ (Or.inl rfl), hother after fun t ht he => hafter ⟨t, ht, he⟩,
    matchingSource?_sourceJson, if_pos ⟨rfl, hdocument⟩]
  rfl

theorem get?_document {x : Citation} {members : List (Text × Json)} (h : x.json = .obj members) :
    Json.get? members "document_id".toList = some (optionJson (fun n => .str (Rag.uuidStr n)) x.documentId) ∧
      Json.get? members "document_version_id".toList =
        some (optionJson (fun n => .str (Rag.uuidStr n)) x.documentVersionId) := by
  cases h
  exact ⟨rfl, rfl⟩

theorem get?_sourceMembers (scoreJson : ℚ → FloatLiteral) (s : Rag.PackedSource) :
    Json.get? (sourceMembers scoreJson s) "provenance".toList = some (.obj
        ((Dict.restrict s.evidence.candidate.provenance keptProvenance).map fun x => (x.1, provenanceJson scoreJson x.2))) ∧
      Json.get? (sourceMembers scoreJson s) "content_sha256".toList = some (.str s.evidence.candidate.contentSha256) ∧
        Json.get? (sourceMembers scoreJson s) "candidate_id".toList = some (.str s.evidence.candidate.candidateId) :=
  ⟨rfl, rfl, rfl⟩

theorem resolveSource_of {citation source provenance : List (Text × Json)} {contentSha256 : Text}
    {chunk document version : Nat}
    {sectionId : Option Nat} {index : Option Nat}
    (hprovenance : Json.get? source "provenance".toList = some (.obj provenance))
    (hcontent : Json.get? source "content_sha256".toList = some (.str contentSha256))
    (hchunk : readUuid (Json.get? source "candidate_id".toList) = some chunk)
    (hdocument : readUuid (Json.get? provenance "document_id".toList) = some document)
    (hversion : readUuid (Json.get? provenance "document_version_id".toList) = some version)
    (hcited : readUuid (Json.get? citation "document_id".toList) = some document)
    (hcited' : readUuid (Json.get? citation "document_version_id".toList) = some version)
    (hsection : readSection (Json.get? provenance "section_id".toList) = some sectionId)
    (hindex : readIndex (Json.get? provenance "chunk_index".toList) = some index)
    (hsha : Rag.isSha256 contentSha256 = true) :
    resolveSource citation source = some ⟨chunk, document, version, contentSha256, sectionId, index⟩ := by
  simp only [resolveSource, hprovenance, hcontent, hchunk, hdocument, hversion, hcited, hcited', hsection, hindex, hsha,
    Option.bind_eq_bind, Option.bind_some, ne_eq, not_true_eq_false, or_self, ↓reduceIte, Option.pure_def]

theorem resolveSource_eq (hu : Rag.unranked s.evidence.candidate = Rag.unranked (Rag.evidenceOf c)) (hids : HasUuids c)
    (hvalid : Rag.Valid c) {members : List (Text × Json)} {sourceId : Text}
    (hmembers : (citationOf sourceId (citedCandidate s.evidence.candidate)).json = .obj members) :
    resolveSource members (sourceMembers scoreJson s) = some (resolvedOf c) := by
  obtain ⟨hdocument, hversion⟩ := citedCandidate_ids hu hids
  obtain ⟨hprovenance, hcontent, hcandidate⟩ := get?_sourceMembers scoreJson s
  obtain ⟨hcited, hcitedVersion⟩ := get?_document hmembers
  have hchunk : s.evidence.candidate.candidateId = Rag.uuidStr c.chunkId := congrArg (·.candidateId) hu
  have hsha : s.evidence.candidate.contentSha256 = c.contentSha256 := congrArg (·.contentSha256) hu
  have hread : ∀ {n : Nat}, n < 2 ^ 128 → readUuid (some (.str (Rag.uuidStr n))) = some n := fun hn => Rag.ofText_uuidStr hn
  rw [hsha] at hcontent
  rw [hchunk] at hcandidate
  rw [citationOf, hdocument] at hcited
  rw [citationOf, hversion] at hcitedVersion
  have hplace : ∀ {k : Text} {v : Rag.ProvenanceValue}, k ∈ Rag.placeKeys → (k, v) ∈ Rag.documentProvenance c →
      Json.get? ((Dict.restrict s.evidence.candidate.provenance keptProvenance).map fun x =>
        (x.1, provenanceJson scoreJson x.2)) k = some (provenanceJson scoreJson v) := get?_keptProvenance hu
  refine resolveSource_of hprovenance hcontent (hcandidate ▸ hread hids.chunk) ?_ ?_ (hcited ▸ hread hids.document)
    (hcitedVersion ▸ hread hids.version) ?_ ?_ hvalid.hashes.1
  · rw [hplace (v := .text (Rag.uuidStr c.documentId)) (by decide +kernel) (by simp [Rag.documentProvenance])]
    exact hread hids.document
  · rw [hplace (v := .text (Rag.uuidStr c.documentVersionId)) (by decide +kernel) (by simp [Rag.documentProvenance])]
    exact hread hids.version
  · rw [hplace (v := .text (Rag.uuidStr c.sectionId)) (by decide +kernel) (by simp [Rag.documentProvenance])]
    exact congrArg (Option.map some) (hread hids.sectionId)
  · rw [hplace (v := .int c.chunkIndex) (by decide +kernel) (by simp [Rag.documentProvenance])]
    rfl

/-- What the reader makes of metadata whose citation under the id is `citation`. -/
theorem resolve_citation {citations citation : List (Text × Json)} {entries : List Json}
    (h : Json.get? citations (marker sourceId) = some (.obj citation)) :
    resolveDocumentSource (.obj [("citations".toList, .obj citations),
      ("retrieval".toList, .obj [("sources".toList, .arr entries)])]) sourceId =
        if isText (Json.get? citation "source_id".toList) sourceId &&
          isText (Json.get? citation "source_type".toList) "document".toList then
          match entries.filterMap (matchingSource? sourceId) with
          | [source] => resolveSource citation source
          | _ => none
        else none := by
  have hcitations : Json.get? [("citations".toList, Json.obj citations),
      ("retrieval".toList, Json.obj [("sources".toList, Json.arr entries)])] "citations".toList = some (.obj citations) := rfl
  have hretrieval : Json.get? [("citations".toList, Json.obj citations),
      ("retrieval".toList, Json.obj [("sources".toList, Json.arr entries)])] "retrieval".toList =
        some (.obj [("sources".toList, Json.arr entries)]) := rfl
  have hsources : Json.get? [("sources".toList, Json.arr entries)] "sources".toList = some (.arr entries) := rfl
  have hmarker : '[' :: (sourceId ++ [']']) = marker sourceId := rfl
  cases hb : isText (Json.get? citation "source_id".toList) sourceId &&
      isText (Json.get? citation "source_type".toList) "document".toList with
  | false =>
      simp only [resolveDocumentSource, hcitations, hretrieval, hsources, hmarker, h, hb, Bool.false_eq_true, if_false]
  | true =>
      rcases hf : entries.filterMap (matchingSource? sourceId) with _ | ⟨source, _ | ⟨other, rest⟩⟩ <;>
        simp only [resolveDocumentSource, hcitations, hretrieval, hsources, hmarker, h, hb, hf, if_true]

theorem resolve_no_citation {citations : List (Text × Json)} {retrieval : Json}
    (h : Json.get? citations (marker sourceId) = none) :
    resolveDocumentSource (.obj [("citations".toList, .obj citations), ("retrieval".toList, retrieval)]) sourceId = none := by
  have hcitations : Json.get? [("citations".toList, Json.obj citations),
      ("retrieval".toList, retrieval)] "citations".toList =
    some (.obj citations) := rfl
  simp only [resolveDocumentSource, hcitations, show '[' :: (sourceId ++ [']']) = marker sourceId from rfl, h]
  split <;> rfl

theorem isText_citation (sourceId : Text) (e : Rag.EvidenceCandidate) {members : List (Text × Json)}
    (h : (citationOf sourceId (citedCandidate e)).json = .obj members) :
    isText (Json.get? members "source_id".toList) sourceId = true ∧
      isText (Json.get? members "source_type".toList) "document".toList = decide (e.sourceType = .document) := by
  have hget : Json.get? members "source_id".toList = some (.str sourceId) ∧
      Json.get? members "source_type".toList = some (.str (sourceTypeOf e.sourceType).text) := by
    cases h
    exact ⟨rfl, rfl⟩
  rw [hget.1, hget.2]
  refine ⟨decide_eq_true rfl, ?_⟩
  cases e.sourceType <;> decide +kernel

theorem resolve_cited (h : Numbered sources) (hs : s ∈ sources) (hcited : s.sourceId ∈ answer.citedSourceIds)
    (hdocument : s.evidence.candidate.sourceType = .document) {members : List (Text × Json)}
    (hmembers : (citationOf s.sourceId (citedCandidate s.evidence.candidate)).json = .obj members) :
    resolveDocumentSource (assistantMetadata scoreJson (cited answer sources) sources) s.sourceId =
      resolveSource members (sourceMembers scoreJson s) := by
  obtain ⟨hid, htype⟩ := isText_citation s.sourceId s.evidence.candidate hmembers
  rw [assistantMetadata, resolve_citation ((get?_cited h hs hcited).trans (congrArg some hmembers)), hid, htype,
    filterMap_matchingSource? h hs hdocument, if_pos (by simp [hdocument])]

theorem resolve_web (h : Numbered sources) (hs : s ∈ sources) (hcited : s.sourceId ∈ answer.citedSourceIds)
    (hweb : s.evidence.candidate.sourceType = .web) {members : List (Text × Json)}
    (hmembers : (citationOf s.sourceId (citedCandidate s.evidence.candidate)).json = .obj members) :
    resolveDocumentSource (assistantMetadata scoreJson (cited answer sources) sources) s.sourceId = none := by
  obtain ⟨hid, htype⟩ := isText_citation s.sourceId s.evidence.candidate hmembers
  rw [assistantMetadata, resolve_citation ((get?_cited h hs hcited).trans (congrArg some hmembers)), hid, htype,
    if_neg (by simp [hweb])]

theorem resolve_uncited (h : Numbered sources)
    (hnot : ∀ s ∈ sources, s.sourceId = sourceId → s.sourceId ∉ answer.citedSourceIds) :
    resolveDocumentSource (assistantMetadata scoreJson (cited answer sources) sources) sourceId = none :=
  resolve_no_citation (get?_cited_none h hnot)

end Etoeragcb.Sessions
