import Etoeragcb.Lib.Interleave
import Etoeragcb.Lib.Uuid
import Etoeragcb.Rag.Combined
import Etoeragcb.Rag.Lemmas.Candidates
import Etoeragcb.Rag.Lemmas.Postprocess

/-!
# Where the sources of a context come from
-/

namespace Etoeragcb.Rag

open Lib Models

variable {e e' : EvidenceCandidate} {x y : RerankedEvidence} {documents : List RetrievalCandidate} {web : List WebCandidate}

/-- The members of a provenance that tell where a chunk stands. -/
def placeKeys : List Text := ["document_id", "document_version_id", "section_id", "chunk_index"].map String.toList

/-- Evidence without its rank, without what merges add, and with its place as the whole provenance. -/
def unranked (e : EvidenceCandidate) : EvidenceCandidate :=
  { e with
    retrievalRank := 0
    matchedExactTerms := []
    matchedHints := []
    collapsedCandidateIds := []
    provenance := Dict.restrict e.provenance placeKeys }

@[simp] theorem unranked_poolCandidate (e : EvidenceCandidate) (rank : Nat) :
    unranked (poolCandidate e rank) = unranked e := by
  simp only [unranked, poolCandidate]
  rw [Dict.restrict_set (by decide +kernel), Dict.restrict_set (by decide +kernel)]

theorem unranked_core (x : RerankedEvidence) : unranked (core x).candidate = unranked x.candidate := rfl

theorem unranked_provenance (h : unranked e = unranked e') {k : Text} (hk : k ∈ placeKeys) :
    Dict.get? e.provenance k = Dict.get? e'.provenance k := by
  have hplace : Dict.restrict e.provenance placeKeys = Dict.restrict e'.provenance placeKeys :=
    congrArg (·.provenance) h
  rw [← Dict.get?_restrict hk, hplace, Dict.get?_restrict hk]

/-! ## The pool -/

/-- The loop takes the two branches in turn. -/
theorem mergeLoop_eq {α : Type} {xs ys : List α} {limit rounds index : Nat} {merged : List α}
    (hx : xs.length ≤ rounds + index) (hy : ys.length ≤ rounds + index) :
    (mergeLoop xs ys limit rounds merged index).take limit =
      (merged ++ interleave (xs.drop index) (ys.drop index)).take limit := by
  induction rounds generalizing index merged with
  | zero =>
      rw [Nat.zero_add] at hx hy
      rw [mergeLoop, List.drop_eq_nil_of_le hx, List.drop_eq_nil_of_le hy, interleave_nil, List.append_nil]
  | succ rounds ih =>
      rw [mergeLoop]
      split
      · dsimp only
        split
        · rename_i hfull
          rw [interleave_drop, ← List.append_assoc, List.take_append_of_le_length hfull.2]
        · rw [ih (by omega) (by omega), interleave_drop xs ys index]
          simp only [List.append_assoc]
      · rename_i hstop
        by_cases hfull : limit ≤ merged.length
        · rw [List.take_append_of_le_length hfull]
        · have hx' : xs.length ≤ index := by omega
          have hy' : ys.length ≤ index := by omega
          rw [List.drop_eq_nil_of_le hx', List.drop_eq_nil_of_le hy', interleave_nil, List.append_nil]

theorem mergeCandidatePool_eq (documents web : List EvidenceCandidate) (limit : Nat) :
    mergeCandidatePool documents web limit = (((interleave (sortBy stableCandidateKey documents)
      (sortBy stableCandidateKey web)).take limit).zipIdx 1).map fun x => poolCandidate x.1 x.2 := by
  have hmerged : (mergeLoop (sortBy stableCandidateKey documents) (sortBy stableCandidateKey web) limit
      (max documents.length web.length) [] 0).take limit =
        (interleave (sortBy stableCandidateKey documents) (sortBy stableCandidateKey web)).take limit := by
    refine mergeLoop_eq ?_ ?_
    · rw [length_sortBy]
      exact Nat.le_max_left _ _
    · rw [length_sortBy]
      exact Nat.le_max_right _ _
  rw [mergeCandidatePool, hmerged]

theorem mem_mergeCandidatePool {documents web : List EvidenceCandidate} {limit : Nat}
    (h : e ∈ mergeCandidatePool documents web limit) : ∃ e' ∈ documents ++ web, unranked e = unranked e' := by
  rw [mergeCandidatePool_eq] at h
  obtain ⟨p, hp, rfl⟩ := List.mem_map.mp h
  have hmem := List.mem_of_mem_take (List.fst_mem_of_mem_zipIdx hp)
  refine ⟨p.1, List.mem_append.mpr ?_, unranked_poolCandidate _ _⟩
  exact (List.mem_append.mp ((interleave_perm _ _).mem_iff.mp hmem)).imp mem_sortBy.mp mem_sortBy.mp

/-! ## Its way through the stages -/

theorem mem_rerank {maxCandidates : Nat} {candidates : List EvidenceCandidate}
    {scores : Scores (bounded maxCandidates candidates).length} {reranked : List RerankedEvidence}
    (h : rerank maxCandidates candidates scores = .ok reranked) (hx : x ∈ reranked) : x.candidate ∈ candidates := by
  obtain ⟨p, hp, he⟩ := mem_of_mapM_eq_ok h hx
  have hvalid : (⟨p.1.1, p.1.2, p.2⟩ : RerankedEvidence) = x := by
    unfold RerankedEvidence.validate at he
    split at he
    · split at he
      · exact Except.ok.inj he
      · cases he
    · cases he
  rw [← hvalid]
  have hmem := List.of_mem_zip (mem_sortBy.mp (List.fst_mem_of_mem_zipIdx hp))
  exact mem_sortBy.mp (List.mem_of_mem_take hmem.1)

theorem process_sources (f : CandidateConfidenceFilter) (g : ConfidenceGate) (maxCandidates : Nat) (packer : ContextPacker)
    (candidates : List EvidenceCandidate) (scores : Scores (bounded maxCandidates candidates).length) :
    ∃ (result : PostRetrievalResult) (selected : List RerankedEvidence),
      process f g maxCandidates packer candidates scores = .ok result ∧
        result.context.sources = (selected.zipIdx 1).map (fun x => ⟨'S' :: natStr x.2, x.1⟩) ∧
          ∀ x ∈ selected, ∃ e ∈ candidates, unranked x.candidate = unranked e := by
  obtain ⟨reranked, hrerank, hranked⟩ := rerank_spec scores
  obtain ⟨deduplication, hdedup, hkept, -⟩ := deduplicate_ranked hranked
  obtain ⟨confidence, hfilter, hfiltered, -⟩ := filter_spec (f := f) hkept
  obtain ⟨context, selected, hpack, hsources, hselected⟩ := pack_eq packer confidence.candidates
  have hpacked : Ranked (context.sources.map (·.evidence)) := by
    refine hkept.subset ?_
    rw [hsources, List.forall_mem_map, List.forall_mem_map]
    exact fun x hx => hfiltered _ (hselected _ (List.fst_mem_of_mem_zipIdx hx))
  obtain ⟨gate, hgate, -⟩ := evaluate_spec (g := g) hpacked
  refine ⟨⟨reranked, deduplication, confidence, context, gate⟩, selected, ?_, hsources, fun x hx => ?_⟩
  · simp only [process, hrerank, hdedup, hfilter, hpack, hgate, bind, Except.bind, pure, Except.pure]
  · have hx' := hfiltered x (hselected x hx)
    have ht : (0 : ℚ) ≤ 4 / 5 ∧ (4 / 5 : ℚ) ≤ 1 := by norm_num
    have hn : (0 : ℚ) ≤ 17 / 20 ∧ (17 / 20 : ℚ) ≤ 1 := by norm_num
    obtain ⟨r, hr, hsub, -⟩ := deduplicate_spec ht hn reranked
    rw [hdedup] at hr
    cases hr
    obtain ⟨y, hy, hcore⟩ := List.mem_map.mp (hsub.subset (List.mem_map_of_mem hx'))
    refine ⟨y.candidate, mem_rerank hrerank (mem_sortBy.mp hy), ?_⟩
    rw [← unranked_core x, ← unranked_core y, hcore]

theorem retrieve_sources {service : CombinedRetrievalService} {result : CombinedRetrievalResult}
    (h : service.retrieve documents web = some result) :
    ∃ selected : List RerankedEvidence,
      result.postRetrieval.context.sources = (selected.zipIdx 1).map (fun x => ⟨'S' :: natStr x.2, x.1⟩) ∧
        ∀ x ∈ selected, (∃ c ∈ documents, Valid c ∧ unranked x.candidate = unranked (evidenceOf c)) ∨
        ∃ w ∈ web, unranked x.candidate = unranked w.candidate := by
  simp only [CombinedRetrievalService.retrieve, Option.bind_eq_bind, Option.bind_eq_some_iff, Option.pure_def,
    Option.some.injEq] at h
  obtain ⟨candidates, hdocuments, post, hpost, rfl⟩ := h
  obtain ⟨post', selected, hprocess, hsources, hselected⟩ := process_sources service.filter service.gate
    service.maxCandidates service.packer (mergeCandidatePool candidates (web.map (·.candidate)) service.poolLimit)
    (service.reranker _)
  rw [hprocess] at hpost
  cases hpost
  refine ⟨selected, hsources, fun x hx => ?_⟩
  obtain ⟨e, he, hxe⟩ := hselected x hx
  obtain ⟨e', he', hee⟩ := mem_mergeCandidatePool he
  rcases List.mem_append.mp he' with he' | he'
  · cases hd : documentEvidence documents with
    | error errors => rw [hd] at hdocuments; cases hdocuments
    | ok es =>
        rw [hd] at hdocuments
        cases hdocuments
        obtain ⟨c, hc, hfrom⟩ := mem_of_mapM_eq_ok hd he'
        obtain ⟨hof, hvalid⟩ := fromRetrieval_eq_ok.mp hfrom
        exact Or.inl ⟨c, hc, hvalid, by rw [hof, hxe, hee]⟩
  · obtain ⟨w, hw, rfl⟩ := List.mem_map.mp he'
    exact Or.inr ⟨w, hw, hxe.trans hee⟩

/-! ## UUIDs -/

theorem hexDigits_eq_map (n value : Nat) :
    hexDigits n value = (List.range n).map fun i => hexDigit (value / 16 ^ (n - 1 - i) % 16) := by
  induction n generalizing value with
  | zero => rfl
  | succ n ih =>
      rw [hexDigits, ih, List.range_succ, List.map_append, List.map_singleton]
      congr 1
      · refine List.map_congr_left fun i hi => ?_
        have hlt := List.mem_range.mp hi
        rw [Nat.div_div_eq_div_mul, ← pow_succ', show n - 1 - i + 1 = n + 1 - 1 - i by omega]
      · simp [hexDigit, Json.hexDigit]

theorem uuidStr_eq_text (u : UUID) : uuidStr u.value = u.text := by
  simp only [uuidStr, UUID.text, hexDigits_eq_map, List.append_assoc, List.cons_append]

theorem ofText_uuidStr {n : Nat} (h : n < 2 ^ 128) : (UUID.ofText (uuidStr n)).map UUID.value = some n := by
  rw [uuidStr_eq_text ⟨n, h⟩, UUID.ofText_text]
  rfl

theorem uuidStr_le_iff {m n : Nat} (hm : m < 2 ^ 128) (hn : n < 2 ^ 128) : uuidStr m ≤ uuidStr n ↔ m ≤ n := by
  have hlt : ∀ {i j : Nat}, (hi : i < 2 ^ 128) → (hj : j < 2 ^ 128) → i < j → uuidStr i < uuidStr j := fun hi hj h => by
    rw [uuidStr_eq_text ⟨_, hi⟩, uuidStr_eq_text ⟨_, hj⟩]
    exact UUID.text_lt h
  constructor
  · intro h
    by_contra hnot
    exact absurd (hlt hn hm (Nat.lt_of_not_le hnot)) (not_lt_of_ge h)
  · intro h
    rcases Nat.lt_or_eq_of_le h with h | rfl
    · exact (hlt hm hn h).le
    · exact le_refl _

end Etoeragcb.Rag
