import Etoeragcb.Content.Lemmas.Chunker
import Etoeragcb.Content.Lemmas.Normalization
import Etoeragcb.Rag.Candidates
import Etoeragcb.Rag.Retriever

/-!
# Candidates that are valid evidence, and the chunks they come from
-/

namespace Etoeragcb.Rag

open Lib Models Content

variable {c : RetrievalCandidate} {e : EvidenceCandidate} {candidates : List RetrievalCandidate}

theorem uuidStr_length (n : Nat) : (uuidStr n).length = 36 := by
  simp [uuidStr]

structure Valid (c : RetrievalCandidate) : Prop where
  title : 1 ≤ c.documentTitle.length ∧ c.documentTitle.length ≤ 1024
  filename : c.sourceFilename.length ≤ 1024
  pages : 1 ≤ c.pageStart ∧ c.pageStart ≤ c.pageEnd
  characters : c.charStart < c.charEnd
  original : c.textOriginal ≠ []
  lexical : c.textLexical ≠ []
  hashes : isSha256 c.contentSha256 = true ∧ isSha256 c.lexicalSha256 = true
  rank : 1 ≤ c.rank

theorem validate_eq_ok {e' : EvidenceCandidate} :
    e.validate = .ok e' ↔ e = e' ∧ (∀ x ∈ e.fieldChecks, x.2 = true) ∧ e.sourceErrors = [] := by
  have hfields : (e.fieldChecks.filter fun x => !x.2).map Prod.fst = [] ↔ ∀ x ∈ e.fieldChecks, x.2 = true := by
    simp [List.filter_eq_nil_iff]
  rw [EvidenceCandidate.validate, ← hfields]
  split
  · rename_i h
    split
    · rename_i herrors
      simp [h, herrors]
    · rename_i herrors
      simp [herrors]
  · rename_i h
    refine ⟨fun he => (by cases he), fun he => absurd he.2.1 h⟩

theorem fieldChecks_iff : (∀ x ∈ e.fieldChecks, x.2 = true) ↔
    (1 ≤ e.candidateId.length ∧ e.candidateId.length ≤ 512) ∧ (1 ≤ e.sourceKey.length ∧ e.sourceKey.length ≤ 2048) ∧
      (1 ≤ e.sectionKey.length ∧ e.sectionKey.length ≤ 2048) ∧ (∀ s, e.domain = some s → s.length ≤ 253) ∧
      (1 ≤ e.title.length ∧ e.title.length ≤ 1024) ∧ (∀ s, e.sourceFilename = some s → s.length ≤ 1024) ∧
      (∀ s, e.uri = some s → s.length ≤ 4096) ∧ (∀ n, e.pageStart = some n → 1 ≤ n) ∧
      (∀ n, e.pageEnd = some n → 1 ≤ n) ∧ 1 ≤ e.textOriginal.length ∧ 1 ≤ e.textLexical.length ∧
      isSha256 e.contentSha256 = true ∧ isSha256 e.lexicalSha256 = true ∧ 1 ≤ e.retrievalRank := by
  simp only [EvidenceCandidate.fieldChecks, List.forall_mem_cons, Bool.and_eq_true, decide_eq_true_eq,
    Option.all_eq_true, List.not_mem_nil, IsEmpty.forall_iff, implies_true, and_true]

theorem evidenceOf_sourceErrors :
    (evidenceOf c).sourceErrors = [] ↔ c.pageStart ≤ c.pageEnd ∧ c.charStart < c.charEnd := by
  by_cases hp : c.pageEnd < c.pageStart
  · simp [EvidenceCandidate.sourceErrors, evidenceOf, hp, Nat.not_le_of_lt hp]
  · by_cases hc : c.charEnd ≤ c.charStart
    · simp [EvidenceCandidate.sourceErrors, evidenceOf, hp, hc, Nat.not_lt_of_le hc]
    · simp [EvidenceCandidate.sourceErrors, evidenceOf, hp, hc, Nat.lt_of_not_le hc, Nat.le_of_not_lt hp]

theorem fromRetrieval_eq_ok : fromRetrieval c = .ok e ↔ evidenceOf c = e ∧ Valid c := by
  rw [fromRetrieval, validate_eq_ok, evidenceOf_sourceErrors, fieldChecks_iff]
  simp only [evidenceOf, uuidStr_length]
  refine and_congr_right fun _ => ?_
  constructor
  · rintro ⟨⟨-, -, -, -, ht, hf, -, hp, -, ho, hl, hh, hh', hr⟩, hpages, hc⟩
    exact ⟨ht, hf _ rfl, ⟨hp _ rfl, hpages⟩, hc, List.ne_nil_of_length_pos ho, List.ne_nil_of_length_pos hl,
      ⟨hh, hh'⟩, hr⟩
  · rintro ⟨ht, hf, ⟨hp, hpages⟩, hc, ho, hl, ⟨hh, hh'⟩, hr⟩
    refine ⟨⟨by decide, by decide, by decide, nofun, ht, ?_, nofun, ?_, ?_, List.length_pos_iff.mpr ho,
      List.length_pos_iff.mpr hl, hh, hh', hr⟩, hpages, hc⟩
    · rintro _ ⟨⟩
      exact hf
    · rintro _ ⟨⟩
      exact hp
    · rintro _ ⟨⟩
      exact hp.trans hpages

theorem documentEvidence_isOk : (∃ es, documentEvidence candidates = .ok es) ↔ ∀ c ∈ candidates, Valid c := by
  induction candidates with
  | nil => simp [documentEvidence]
  | cons c candidates ih =>
      rw [List.forall_mem_cons, ← ih]
      simp only [documentEvidence, List.mapM_cons, bind_eq_ok, fromRetrieval_eq_ok, pure_eq_ok]
      constructor
      · rintro ⟨_, _, ⟨-, hc⟩, es, hes, -⟩
        exact ⟨hc, es, hes⟩
      · rintro ⟨hc, es, hes⟩
        exact ⟨_, _, ⟨rfl, hc⟩, es, hes, rfl⟩

/-! ## Chunks -/

variable {k : Chunker} {version : VersionId} {blocks : List SectionedBlock} {chunks : List BuiltChunk}
  {chunk : BuiltChunk} {row : DocumentVersion}

/-- A candidate that was retrieved for a chunk of a version, of a document with a title. -/
def RetrievedFor (version : VersionId) (row : DocumentVersion) (chunk : BuiltChunk) (c : RetrievalCandidate) : Prop :=
  ∃ record evidence rank isNeighbor neighborOf,
    (record.chunkId, record.chunk) = Ingest.chunkRow version row chunk.toBuiltChunk ∧
      record.chunk.sectionId = some record.sectionId ∧
      (1 ≤ record.document.title.length ∧ record.document.title.length ≤ 300) ∧
      record.document.sourceFilename.length ≤ 512 ∧ 1 ≤ rank ∧
      c = candidateFromRecord record evidence rank isNeighbor neighborOf

def recordOf (version : VersionId) (row : DocumentVersion) (chunk : BuiltChunk) : HydratedChunk where
  chunkId := (Ingest.chunkRow version row chunk.toBuiltChunk).1
  chunk := (Ingest.chunkRow version row chunk.toBuiltChunk).2
  sectionId := chunk.sectionId
  sectionRow := ⟨row.tenantId, row.documentId, version, none, [], [], []⟩
  document := ⟨row.tenantId, ['T'], [], none, none⟩

/-- The candidate of that record without exact terms. -/
def candidateOf (version : VersionId) (row : DocumentVersion) (chunk : BuiltChunk) : RetrievalCandidate :=
  candidateFromRecord (recordOf version row chunk) .new 1 false none

theorem retrievedFor_candidateOf (version : VersionId) (row : DocumentVersion) (chunk : BuiltChunk) :
    RetrievedFor version row chunk (candidateOf version row chunk) :=
  ⟨recordOf version row chunk, .new, 1, false, none, rfl, rfl, by simp [recordOf], by simp [recordOf],
    Nat.le_refl 1, rfl⟩

theorem mem_chunkBlocks (h : chunkBlocks k version blocks = .ok chunks) : k.overlap < k.maxTokens ∧
    (∀ chunk ∈ chunks, ∃ sectioned ∈ blocks, strip sectioned.block.textOriginal ≠ [] ∧
      ∃ window ∈ k.blockWindows sectioned.block.textOriginal, ∃ before,
        chunk = newChunk k version sectioned before window) ∧
    ∀ sectioned ∈ blocks, strip sectioned.block.textOriginal ≠ [] →
      ∀ window ∈ k.blockWindows sectioned.block.textOriginal, ∃ before,
        newChunk k version sectioned before window ∈ chunks := by
  rw [chunkBlocks] at h
  cases hcut : cut k version blocks with
  | error e => rw [hcut] at h; cases h
  | ok result =>
      rw [hcut] at h
      cases h
      obtain ⟨hlimits, hmem, hall⟩ := cut_spec hcut
      refine ⟨hlimits, fun chunk hchunk => ?_, fun sectioned hs hne window hw => ?_⟩
      · obtain ⟨x, hx, rfl⟩ := List.mem_map.mp hchunk
        obtain ⟨sectioned, hs, hne, window, hw, before, he⟩ := hmem x hx
        exact ⟨sectioned, (List.mem_zipIdx hs).2.2 ▸ List.getElem_mem _, hne, window, hw, before, he⟩
      · obtain ⟨i, hi, rfl⟩ := List.mem_iff_getElem.mp hs
        obtain ⟨before, hb⟩ := hall blocks[i] i (List.mem_zipIdx_iff_getElem?.mpr (List.getElem?_eq_getElem hi)) hne
          window hw
        exact ⟨before, List.mem_map_of_mem hb⟩

/-- A retrieved chunk is valid evidence unless its lexical text is empty. -/
theorem valid_iff (hin : InOrder k) (hhash : ∀ text, isSha256 (k.sha256Text text) = true)
    (h : chunkBlocks k version blocks = .ok chunks) (hchunk : chunk ∈ chunks) (hc : RetrievedFor version row chunk c) :
    Valid c ↔ chunk.textLexical ≠ [] := by
  obtain ⟨hlimits, hmem, -⟩ := mem_chunkBlocks h
  obtain ⟨sectioned, -, -, window, hw, before, rfl⟩ := hmem chunk hchunk
  obtain ⟨record, evidence, rank, isNeighbor, neighborOf, hrow, -, ht, hf, hr, rfl⟩ := hc
  obtain ⟨hlt, hle⟩ := window_bounds (Nat.zero_lt_of_lt hlimits) hin hw
  have horiginal : windowText sectioned.block.textOriginal window ≠ [] := by
    rw [windowText, slice, ne_eq, List.take_eq_nil_iff, List.drop_eq_nil_iff]
    omega
  obtain ⟨-, hrecord⟩ := Prod.mk.inj hrow
  constructor
  · intro hv
    have := hv.lexical
    rwa [candidateFromRecord, hrecord] at this
  · intro hlexical
    simp only [candidateFromRecord, hrecord]
    exact {
      title := ⟨ht.1, by simp only; omega⟩
      filename := by simp only; omega
      pages := ⟨sectioned.block.pageNumber_pos, Nat.le_refl _⟩
      characters := hlt
      original := horiginal
      lexical := hlexical
      hashes := ⟨hhash _, hhash _⟩
      rank := hr }

end Etoeragcb.Rag
