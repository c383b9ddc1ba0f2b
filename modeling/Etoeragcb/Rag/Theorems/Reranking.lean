import Etoeragcb.Rag.Lemmas.Reranker

/-!
# Reranking

The evidence of a pool does not depend on the way to its scores.
-/

namespace Etoeragcb.Rag

open Lib Models

/-- The best score comes first; evidence of the same score keeps the order of the pool, the retrieval rank before the id. -/
structure RankedPool (score : EvidenceCandidate → ℚ) (pool : List EvidenceCandidate) (ranked : List RerankedEvidence) : Prop where
  perm : (ranked.map (·.candidate)).Perm pool
  sorted : ranked.Pairwise fun x y => y.rerankScore < x.rerankScore ∨
    (x.rerankScore = y.rerankScore ∧ (x.candidate.retrievalRank < y.candidate.retrievalRank ∨
      (x.candidate.retrievalRank = y.candidate.retrievalRank ∧ x.candidate.candidateId ≤ y.candidate.candidateId)))
  ranks : ranked.map (·.rerankRank) = List.range' 1 pool.length
  own : ∀ x ∈ ranked, x.rerankScore = score x.candidate

/-- What `_cache_set` has written under a key, in any run whose cache holds such entries only. -/
inductive Written (sha256 : Text → Text) (scoreOf : Text → Text → Text → ℚ) : Text → CachedScores → Prop
  | set {r : TeiReranker} {service : RerankService} {cache : Option (Text → CacheRead)} {query key : Text}
      {candidates : List EvidenceCandidate} {ranked : List RerankedEvidence} {c : CachedScores} :
      Answers (scoreOf r.modelRevision) r.maxRetries service → Digested sha256 candidates →
      (∀ read, cache = some read → ∀ key c, read key = .cached c → Written sha256 scoreOf key c) →
      r.rerank sha256 service cache query candidates = .ok (ranked, some (key, c)) → Written sha256 scoreOf key c

/-- There is no cache, or it raises, has nothing or nothing valid under a key, or has an entry that was written there. -/
def Trusted (sha256 : Text → Text) (scoreOf : Text → Text → Text → ℚ) (cache : Option (Text → CacheRead)) : Prop :=
  ∀ read, cache = some read → ∀ key c, read key = .cached c → Written sha256 scoreOf key c

variable {sha256 : Text → Text} {scoreOf : Text → Text → Text → ℚ}

theorem Written.stores (hinj : Function.Injective sha256)
    (hunit : ∀ revision query text, inUnit (scoreOf revision query text) = true) {key : Text} {c : CachedScores}
    (h : Written sha256 scoreOf key c) : Stores sha256 scoreOf key c := by
  induction h with
  | @set r service cache query key candidates ranked c hservice hdigest _ hrun ih =>
      obtain ⟨written, hresult, hwritten⟩ := teiRerank_eq query hinj hunit hservice hdigest ih
      exact hwritten key c (Prod.mk.inj (Except.ok.inj (hresult.symm.trans hrun))).2

theorem rankedPool_rankedBy (score : EvidenceCandidate → ℚ) (pool : List EvidenceCandidate) :
    RankedPool score pool (rankedBy score pool) := by
  set order := sortBy (fun c => toLex (-score c, stableCandidateKey c)) pool with horder
  have hcandidates : (rankedBy score pool).map (·.candidate) = order := by
    rw [rankedBy, List.map_map, ← horder]
    exact List.zipIdx_map_fst 1 order
  have hmem : ∀ x ∈ rankedBy score pool, x.rerankScore = score x.candidate := by
    rw [rankedBy, List.forall_mem_map]
    exact fun _ _ => rfl
  constructor
  · rw [hcandidates]
    exact sortBy_perm _ _
  · have hsorted : ((rankedBy score pool).map (·.candidate)).Pairwise fun a b =>
        toLex (-score a, stableCandidateKey a) ≤ toLex (-score b, stableCandidateKey b) := by
      rw [hcandidates]
      exact sortBy_pairwise _ _
    refine (List.pairwise_map.mp hsorted).imp_of_mem fun {x y} hx hy hle => ?_
    rw [hmem x hx, hmem y hy]
    rcases Prod.Lex.toLex_le_toLex.mp hle with hlt | ⟨heq, hkey⟩
    · exact Or.inl (neg_lt_neg_iff.mp hlt)
    · exact Or.inr ⟨neg_injective heq, Prod.Lex.toLex_le_toLex.mp hkey⟩
  · rw [rankedBy, List.map_map]
    refine (List.zipIdx_map_snd 1 order).trans ?_
    rw [horder, length_sortBy]
  · exact hmem

/-- The first candidates by rank and id are ranked by their own scores, whatever the batches are, the service lists first or
has no time for, the cache holds and the order of the candidates is. -/
theorem rerank_same (hinj : Function.Injective sha256)
    (hunit : ∀ revision query text, inUnit (scoreOf revision query text) = true) (revision query : Text) (maxCandidates : ℕ)
    {candidates : List EvidenceCandidate} (hnodup : (candidates.map (·.candidateId)).Nodup)
    (hdigest : Digested sha256 candidates) :
    ∃ ranked, RankedPool (fun c => scoreOf revision query c.textOriginal) (bounded maxCandidates candidates) ranked ∧
      ∀ (r : TeiReranker) service cache candidates', r.modelRevision = revision → r.maxCandidates = maxCandidates →
        Answers (scoreOf revision) r.maxRetries service → Trusted sha256 scoreOf cache → candidates'.Perm candidates →
        ∃ written, r.rerank sha256 service cache query candidates' = .ok (ranked, written) := by
  refine ⟨_, rankedPool_rankedBy _ _, ?_⟩
  rintro r service cache candidates' rfl rfl hservice hcache hperm
  have hdigest' : Digested sha256 candidates' := fun c hc => hdigest c (hperm.mem_iff.mp hc)
  have hbounded : bounded r.maxCandidates candidates' = bounded r.maxCandidates candidates := by
    rw [bounded, bounded, sortBy_congr_perm hperm]
    intro a ha b hb hkey
    have hid := (Prod.mk.inj (toLex.injective hkey)).2
    exact List.inj_on_of_nodup_map ((hperm.map _).nodup_iff.mpr hnodup) ha hb hid
  obtain ⟨written, hrun, -⟩ := teiRerank_eq query hinj hunit hservice hdigest' fun read hread key c hc =>
    (hcache read hread key c hc).stores hinj hunit
  exact ⟨written, hbounded ▸ hrun⟩

/-! ## A sample -/

def heatDigest : Text := "5a2a0ed9aa3ab7d82b53e8209b13bf598377870fd38f8e1063bfbe0c4d7d7f96".toList

def pumpDigest : Text := "0b203c464bb32a27e8621a5cfcfae0f86753a7d8881006de7d64090ad5785214".toList

def sampleEvidence (id text digest : Text) (rank : ℕ) : EvidenceCandidate where
  candidateId := id
  sourceType := .document
  sourceKey := id
  sectionKey := id
  domain := none
  title := text
  sourceFilename := none
  uri := none
  pageStart := none
  pageEnd := none
  charStart := none
  charEnd := none
  textOriginal := text
  textLexical := text
  contentSha256 := digest
  lexicalSha256 := digest
  retrievalRank := rank
  retrievalScore := 1
  matchedExactTerms := []
  matchedHints := []
  collapsedCandidateIds := []
  provenance := []

def samplePool : List EvidenceCandidate :=
  [sampleEvidence ['a'] "heat".toList heatDigest 1, sampleEvidence ['b'] "pump".toList pumpDigest 2]

def samplePayload : Text :=
  (Json.obj [
    ("candidates".toList, .arr (samplePool.map fun item =>
      .arr [.str item.candidateId, .str item.contentSha256, .str item.lexicalSha256])),
    ("query".toList, .str "heat".toList),
    ("revision".toList, .str "r1".toList)]).encode

/-- The SHA-256 digests of the texts that the sample needs. -/
def digestTable : List (Text × Text) :=
  [("heat".toList, heatDigest), ("pump".toList, pumpDigest),
   (samplePayload, "0f33bdc79e1843a61b6eeffb2bf835daeb50d76033a95a1d87f322a9a76e4688".toList)]

/-- The digests of the table, and for every other text one that starts with a character that no digest has. -/
def tableSha256 (s : Text) : Text := (Dict.get? digestTable s).getD ('x' :: s)

theorem tableSha256_injective : Function.Injective tableSha256 := by
  have hmem : ∀ s d, Dict.get? digestTable s = some d → (s, d) ∈ digestTable := fun s d h => by
    obtain ⟨x, hx, rfl⟩ := Option.map_eq_some_iff.mp h
    obtain rfl : x.1 = s := by simpa using List.find?_some hx
    exact List.mem_of_find?_eq_some hx
  have hhead : ∀ x ∈ digestTable, x.2.head? ≠ some 'x' := by
    refine List.forall_mem_cons.mpr ⟨by decide, List.forall_mem_cons.mpr ⟨by decide, List.forall_mem_singleton.mpr (by decide)⟩⟩
  have hvalues : (digestTable.map Prod.snd).Nodup := by decide
  intro s t h
  rw [tableSha256, tableSha256] at h
  cases hs : Dict.get? digestTable s with
  | some d =>
      cases ht : Dict.get? digestTable t with
      | some d' =>
          rw [hs, ht, Option.getD_some, Option.getD_some] at h
          exact congrArg Prod.fst (List.inj_on_of_nodup_map hvalues (hmem s d hs) (hmem t d' ht) h)
      | none =>
          rw [hs, ht, Option.getD_some, Option.getD_none] at h
          exact absurd (congrArg List.head? h) (hhead _ (hmem s d hs))
  | none =>
      cases ht : Dict.get? digestTable t with
      | some d' =>
          rw [hs, ht, Option.getD_some, Option.getD_none] at h
          exact absurd (congrArg List.head? h.symm) (hhead _ (hmem t d' ht))
      | none =>
          rw [hs, ht, Option.getD_none, Option.getD_none] at h
          exact (List.cons.inj h).2

def matchScore (_ query text : Text) : ℚ := if text = query then 1 else 0

theorem inUnit_matchScore (revision query text : Text) : inUnit (matchScore revision query text) = true := by
  rw [matchScore]
  split <;> decide

theorem digested_samplePool : Digested tableSha256 samplePool := by
  refine List.forall_mem_cons.mpr ⟨?_, List.forall_mem_singleton.mpr ?_⟩ <;> decide

theorem rerank_same_sample :
    ∃ ranked, RankedPool (fun c => matchScore "r1".toList "heat".toList c.textOriginal) (bounded 5 samplePool) ranked ∧
      ∀ (r : TeiReranker) service cache candidates', r.modelRevision = "r1".toList → r.maxCandidates = 5 →
        Answers (matchScore "r1".toList) r.maxRetries service → Trusted tableSha256 matchScore cache →
        candidates'.Perm samplePool →
        ∃ written, r.rerank tableSha256 service cache "heat".toList candidates' = .ok (ranked, written) :=
  rerank_same tableSha256_injective inUnit_matchScore "r1".toList "heat".toList 5 (by decide) digested_samplePool

end Etoeragcb.Rag
