import Etoeragcb.Rag.Lemmas.Candidates
import Etoeragcb.Rag.Lemmas.Dedup

/-!
# Overlaps of the chunks of one document
-/

namespace Etoeragcb.Rag

open Lib Models Content

variable {k : Chunker} {version : VersionId} {row : DocumentVersion} {blocks : List SectionedBlock} {result : Cut}
  {chunk : BuiltChunk} {p q : Nat × BuiltChunk} {x y : RerankedEvidence}
  {overlapThreshold nearDuplicateThreshold : ℚ} {source : RerankedEvidence → Nat × BuiltChunk}
  {reranked : List RerankedEvidence} {deduplicated : DeduplicationResult} {d : DuplicateDecision}

/-- The characters of a chunk, counted from the start of its block. -/
def charRange (chunk : BuiltChunk) : Nat × Nat := (chunk.charStart, chunk.charEnd)

/-- A reranked candidate that was retrieved for a chunk. -/
def StandsFor (version : VersionId) (row : DocumentVersion) (chunk : BuiltChunk) (x : RerankedEvidence) : Prop :=
  ∃ c, RetrievedFor version row chunk c ∧ fromRetrieval c = .ok x.candidate

/-- The fields that deduplication compares. -/
structure Shows (row : DocumentVersion) (chunk : BuiltChunk) (e : EvidenceCandidate) : Prop where
  id : e.candidateId = uuidStr chunk.id
  sourceKey : e.sourceKey = uuidStr row.documentId
  sectionKey : e.sectionKey = uuidStr chunk.sectionId
  range : e.range? = some (charRange chunk)
  content : e.contentSha256 = chunk.contentSha256
  lexical : e.lexicalSha256 = chunk.lexicalSha256

theorem StandsFor.shows (h : StandsFor version row chunk x) : Shows row chunk x.candidate := by
  obtain ⟨c, ⟨record, evidence, rank, isNeighbor, neighborOf, hrow, hs, -, -, -, rfl⟩, hok⟩ := h
  obtain ⟨he, -⟩ := fromRetrieval_eq_ok.mp hok
  obtain ⟨hid, hchunk⟩ := Prod.mk.inj hrow
  have hsection : chunk.sectionId = record.sectionId := by
    rw [hchunk] at hs
    exact Option.some.inj hs
  rw [← he]
  constructor <;> simp [evidenceOf, candidateFromRecord, hid, hchunk, hsection, EvidenceCandidate.range?, charRange]

theorem spanOverlap_of_shows {e e' : EvidenceCandidate} (hp : Shows row p.2 e) (hq : Shows row q.2 e') :
    spanOverlap e e' =
      if uuidStr p.2.sectionId = uuidStr q.2.sectionId then rangeOverlap (charRange p.2) (charRange q.2) else 0 := by
  rw [spanOverlap, hp.sourceKey, hq.sourceKey, hp.sectionKey, hq.sectionKey, hp.range, hq.range]
  by_cases hs : uuidStr p.2.sectionId = uuidStr q.2.sectionId
  · rw [if_neg (by simp [hs]), if_pos hs]
  · rw [if_pos (Or.inr hs), if_neg hs]

theorem charRange_lt (hin : InOrder k) (h : cut k version blocks = .ok result) (hp : p ∈ result) :
    (charRange p.2).1 < (charRange p.2).2 := by
  obtain ⟨hlimits, hmem, -⟩ := cut_spec h
  obtain ⟨sectioned, -, -, window, hw, before, he⟩ := hmem p hp
  rw [he]
  exact (window_bounds (Nat.zero_lt_of_lt hlimits) hin hw).1

theorem sectionId_eq (h : cut k version blocks = .ok result) (hp : p ∈ result) (hq : q ∈ result) (hpq : p.1 = q.1) :
    p.2.sectionId = q.2.sectionId := by
  obtain ⟨-, hmem, -⟩ := cut_spec h
  obtain ⟨sectioned, hs, -, window, -, before, he⟩ := hmem p hp
  obtain ⟨sectioned', hs', -, window', -, before', he'⟩ := hmem q hq
  rw [hpq, List.mem_zipIdx_iff_getElem?] at hs
  rw [List.mem_zipIdx_iff_getElem?] at hs'
  have hblock : sectioned = sectioned' := Option.some.inj (hs.symm.trans hs')
  rw [he, he', hblock]
  rfl

theorem shortest_pos {a b : Nat × Nat} (ha : a.1 < a.2) (hb : b.1 < b.2) : 0 < shortest a b := by
  simp only [shortest]
  omega

theorem spanOverlap_core (x : RerankedEvidence) (e : EvidenceCandidate) :
    spanOverlap (core x).candidate e = spanOverlap x.candidate e := rfl

/-- A decision about an overlap compares two candidates of the list as they came in. -/
theorem overlapping_decision (hnodup : (reranked.map (·.candidate.candidateId)).Nodup)
    (ht : 0 ≤ overlapThreshold ∧ overlapThreshold ≤ 1) (hn : 0 ≤ nearDuplicateThreshold ∧ nearDuplicateThreshold ≤ 1)
    (hr : deduplicate overlapThreshold nearDuplicateThreshold reranked = .ok deduplicated)
    (hd : d ∈ deduplicated.decisions) (hreason : d.reason = .overlappingSpan) (hx : x ∈ reranked) (hy : y ∈ reranked)
    (hxd : x.candidate.candidateId = d.droppedCandidateId) (hyd : y.candidate.candidateId = d.keptCandidateId) :
    y.candidate.contentSha256 ≠ x.candidate.contentSha256 ∧ y.candidate.lexicalSha256 ≠ x.candidate.lexicalSha256 ∧
      overlapThreshold ≤ spanOverlap y.candidate x.candidate := by
  obtain ⟨r, hr', -, -, hall⟩ := deduplicate_spec ht hn reranked
  cases hr.symm.trans hr'
  obtain ⟨existing, he, current, hc, hdecides⟩ := hall d hd
  obtain ⟨y', hy', hcore⟩ := List.mem_map.mp he
  have hcurrent : x = current :=
    List.inj_on_of_nodup_map hnodup hx hc (hxd.trans hdecides.dropped)
  have hid : (core y').candidate.candidateId = (core existing).candidate.candidateId := by rw [hcore]
  have hexisting : y = y' :=
    List.inj_on_of_nodup_map hnodup hy hy' (hyd.trans (hdecides.kept.trans hid.symm))
  have hdup := hdecides.reason
  rw [hreason] at hdup
  obtain ⟨hcontent, hlexical, hoverlap⟩ := duplicateReason_overlapping hdup
  have hcontent' : (core y').candidate.contentSha256 = existing.candidate.contentSha256 := by rw [hcore]; rfl
  have hlexical' : (core y').candidate.lexicalSha256 = existing.candidate.lexicalSha256 := by rw [hcore]; rfl
  rw [← spanOverlap_core, ← hcore, spanOverlap_core] at hoverlap
  subst hcurrent hexisting
  exact ⟨fun h => hcontent (hcontent'.symm.trans h), fun h => hlexical (hlexical'.symm.trans h), hoverlap⟩

/-- Two candidates of different content that overlap far enough, and nothing else. -/
theorem deduplicate_pair (ht : 0 ≤ overlapThreshold ∧ overlapThreshold ≤ 1)
    (hn : 0 ≤ nearDuplicateThreshold ∧ nearDuplicateThreshold ≤ 1) (hrank : x.rerankRank < y.rerankRank)
    (hcontent : x.candidate.contentSha256 ≠ y.candidate.contentSha256)
    (hlexical : x.candidate.lexicalSha256 ≠ y.candidate.lexicalSha256) (hterms : y.candidate.matchedExactTerms = [])
    (hoverlap : overlapThreshold ≤ spanOverlap x.candidate y.candidate) :
    deduplicate overlapThreshold nearDuplicateThreshold [x, y] = .ok ⟨[mergeExactProvenance x y],
      [⟨y.candidate.candidateId, x.candidate.candidateId, .overlappingSpan, spanOverlap x.candidate y.candidate⟩]⟩ := by
  have hsort : sortBy stableRerankedKey [x, y] = [x, y] := by
    refine sortBy_eq_self ?_
    simp only [List.pairwise_cons, List.mem_singleton, forall_eq, List.not_mem_nil, IsEmpty.forall_iff, implies_true,
      List.Pairwise.nil, and_true]
    exact le_of_lt (Prod.Lex.toLex_lt_toLex.mpr (Or.inl hrank))
  have hdup : duplicateReason overlapThreshold nearDuplicateThreshold x.candidate y.candidate =
      some (.overlappingSpan, spanOverlap x.candidate y.candidate) := by
    rw [duplicateReason, if_neg hcontent, if_neg hlexical, if_neg (by simp [hterms]), if_pos hoverlap]
  rw [deduplicate, if_neg (not_not.mpr ht), if_neg (not_not.mpr hn), hsort]
  simp only [dedupLoop, absorb, List.nil_append, hdup]
  rw [validate_of_decides (x := x) (y := y) ⟨hdup, rfl, rfl⟩]
  rfl

end Etoeragcb.Rag
