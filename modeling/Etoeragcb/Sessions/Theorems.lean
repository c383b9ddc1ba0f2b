import Etoeragcb.Sessions.Lemmas.Preview

/-!
# What the preview of a citation shows
-/

namespace Etoeragcb.Sessions

open Lib Models Chat

variable {service : Rag.CombinedRetrievalService} {documents : List RetrievalCandidate} {web : List Rag.WebCandidate}
  {retrieval : Rag.CombinedRetrievalResult}

/-- What is read of the metadata of a message about the sources of its answer: for a cited source of a document the
candidate that was packed, and nothing for any other id. -/
structure Resolves (documents : List RetrievalCandidate) (sources : List Rag.PackedSource) (answer : SanitizedAnswer)
    (metadata : Json) : Prop where
  document : ∀ s ∈ sources, s.sourceId ∈ answer.citedSourceIds → s.evidence.candidate.sourceType = .document →
    ∃ c ∈ documents, Rag.unranked s.evidence.candidate = Rag.unranked (Rag.evidenceOf c) ∧
      resolveDocumentSource metadata s.sourceId = some (resolvedOf c)
  other : ∀ sourceId, (∀ s ∈ sources, s.sourceId = sourceId →
    s.sourceId ∉ answer.citedSourceIds ∨ s.evidence.candidate.sourceType = .web) →
      resolveDocumentSource metadata sourceId = none

/-- Every message has its metadata, and the reader finds in it what the writer has packed. -/
theorem citations_resolve (scoreJson : ℚ → FloatLiteral) (hids : ∀ c ∈ documents, HasUuids c)
    (h : service.retrieve documents web = some retrieval) (answer : SanitizedAnswer) :
    ∃ metadata, persistedMetadata scoreJson answer retrieval.postRetrieval.context.sources = .ok metadata ∧
      Resolves documents retrieval.postRetrieval.context.sources answer metadata := by
  obtain ⟨selected, hsources, horigin⟩ := Rag.retrieve_sources h
  set sources := retrieval.postRetrieval.context.sources with hdef
  have hnumbered : Numbered sources := hsources ▸ numbered_zipIdx selected
  have horigin' : ∀ s ∈ sources,
      (∃ c ∈ documents, Rag.Valid c ∧ Rag.unranked s.evidence.candidate = Rag.unranked (Rag.evidenceOf c)) ∨
        ∃ w ∈ web, Rag.unranked s.evidence.candidate = Rag.unranked w.candidate := by
    rw [hsources, List.forall_mem_map]
    exact fun x hx => horigin x.1 (List.fst_mem_of_mem_zipIdx hx)
  have hvalid : ∀ i p, byId sources i = some p → (citationOf i p.candidate).valid = true := fun i p hp => by
    obtain ⟨s, hs, -, hcandidate⟩ := mem_byId hnumbered hp
    rw [hcandidate]
    rcases horigin' s hs with ⟨c, hc, hv, hu⟩ | ⟨w, hw, hu⟩
    · refine citationOf_valid (Rag.fromRetrieval_eq_ok.mpr ⟨rfl, hv⟩) hu (fun _ => ?_) i
      obtain ⟨hdocument, hversion⟩ := citedCandidate_ids hu (hids c hc)
      rw [hdocument, hversion]
      exact ⟨rfl, rfl⟩
    · refine citationOf_valid w.valid hu (fun hs => ?_) i
      have htype : s.evidence.candidate.sourceType = w.candidate.sourceType := congrArg (·.sourceType) hu
      rw [htype, w.isWeb] at hs
      cases hs
  refine ⟨assistantMetadata scoreJson (cited answer sources) sources, ?_, ?_, ?_⟩
  · rw [persistedMetadata, citationsForAnswer_eq hvalid]
    rfl
  · intro s hs hcited hdocument
    rcases horigin' s hs with ⟨c, hc, hv, hu⟩ | ⟨w, hw, hu⟩
    · refine ⟨c, hc, hu, ?_⟩
      rw [resolve_cited hnumbered hs hcited hdocument rfl]
      exact resolveSource_eq hu (hids c hc) hv rfl
    · have htype : s.evidence.candidate.sourceType = w.candidate.sourceType := congrArg (·.sourceType) hu
      rw [htype, w.isWeb] at hdocument
      cases hdocument
  · intro sourceId hother
    by_cases hcited : ∃ s ∈ sources, s.sourceId = sourceId ∧ s.sourceId ∈ answer.citedSourceIds
    · obtain ⟨s, hs, rfl, hcited⟩ := hcited
      exact resolve_web hnumbered hs hcited ((hother s hs rfl).resolve_left fun hno => hno hcited) rfl
    · exact resolve_uncited hnumbered fun s hs he hc => hcited ⟨s, hs, he, hc⟩

def sampleDocument : RetrievalCandidate where
  chunkId := 11
  tenantId := 1
  documentId := 12
  documentVersionId := 13
  sectionId := 14
  documentTitle := ['A']
  sourceFilename := ['a']
  sectionPathOriginal := ['A']
  pageStart := 1
  pageEnd := 1
  charStart := 0
  charEnd := 1
  chunkIndex := 3
  contentSha256 := List.replicate 64 '1'
  lexicalSha256 := List.replicate 64 '2'
  tokenCount := 1
  textOriginal := ['a']
  textLexical := ['a']
  rank := 1
  fusionScore := 1 / 61
  denseRank := some 1
  denseScore := some (1 / 2)
  sparseRank := none
  sparseScore := none
  exactRank := none
  hintRank := none
  matchedExactTerms := []
  matchedHints := []
  isNeighbor := false
  neighborOf := none

def sampleWeb : Rag.WebCandidate where
  candidate := ⟨"web-1".toList, .web, "https://a.example/".toList, "https://a.example/#main".toList,
    some "a.example".toList, ['B'], none, some "https://a.example/".toList, none, none, none, none, ['b'], ['b'],
    List.replicate 64 '3', List.replicate 64 '4', 1, 1, [], [], [], []⟩
  isWeb := rfl
  valid := by rfl

def sampleScores (candidates : List Rag.EvidenceCandidate) : Rag.Scores (Rag.bounded 5 candidates).length where
  values := List.replicate (Rag.bounded 5 candidates).length (1 / 2)
  length_eq := List.length_replicate
  inUnit_of_mem s hs := by
    rw [List.eq_of_mem_replicate hs]
    decide +kernel

theorem isSha256_zeros : Rag.isSha256 (List.replicate 64 '0') = true := by decide

def sampleService : Rag.CombinedRetrievalService where
  poolLimit := 5
  maxCandidates := 5
  reranker := sampleScores
  packer := {
    count := List.length
    tokenBudget := 1000
    maxCandidates := 5
    sectionLimit := 5
    sourceLimit := 5
    domainLimit := 5
    webLimit := none
    limits_pos := by decide
    webLimit_mem := nofun }
  gate := {
    artifact := {
      configuration := {
        artifactId := ['g']
        calibrated := false
        dataset := ⟨none, none, none, 0⟩
        models := ⟨[], [], [], []⟩
        thresholds := none
        calibration := rfl }
      sha256 := List.replicate 64 '0'
      isSha256_sha256 := isSha256_zeros }
    models := ⟨[], [], [], []⟩ }
  filter := {
    scoreMin := 0
    topDelta := 1
    inUnit_scoreMin := by decide
    inUnit_topDelta := by decide }

theorem citations_resolve_sample :
    ∃ retrieval metadata, sampleService.retrieve [sampleDocument] [sampleWeb] = some retrieval ∧
      retrieval.postRetrieval.context.sources.length = 2 ∧
      Resolves [sampleDocument] retrieval.postRetrieval.context.sources ⟨"a [S1] b [S2]".toList,
        ["S1".toList, "S2".toList], false⟩
        metadata := by
  have hrun : (sampleService.retrieve [sampleDocument] [sampleWeb]).map (fun r =>
      r.postRetrieval.context.sources.length) = some 2 := by decide +kernel
  obtain ⟨retrieval, h, hlength⟩ := Option.map_eq_some_iff.mp hrun
  have hids : ∀ c ∈ [sampleDocument], HasUuids c := by
    intro c hc
    rw [List.mem_singleton.mp hc]
    exact ⟨by decide, by decide, by decide, by decide⟩
  obtain ⟨metadata, -, hresolves⟩ := citations_resolve (fun _ => ⟨"0.5".toList, by decide⟩) hids h
    ⟨"a [S1] b [S2]".toList, ["S1".toList, "S2".toList], false⟩
  exact ⟨retrieval, metadata, h, hlength, hresolves⟩

end Etoeragcb.Sessions
