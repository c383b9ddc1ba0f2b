import Etoeragcb.Lib.Lemmas.Json
import Etoeragcb.Rag.Lemmas.Postprocess
import Etoeragcb.Rag.Reranker

/-!
# Scores by the texts

When the service scores each text by itself, every way to the scores of a pool ends at the same ones.
-/

namespace Etoeragcb.Rag

open Lib Models

variable {n maxRetries : ℕ} {slots : Slots n} {entry payload : PyValue} {entries : List PyValue} {reply : ℕ → Reply}
  {score : Text → ℚ}

/-! ## A batch -/

def readEntry : PyValue → Option (ℤ × ℚ)
  | .dict members => do
      let index ← indexValue (member members "index")
      let score ← scoreValue (member members "score")
      return (index, ← score)
  | _ => none

/-- The response lists the scores of the texts, in any order. -/
def Lists (values : List ℚ) (payload : PyValue) : Prop :=
  ∃ (entries : List PyValue) (pairs : List (ℚ × ℕ)), entriesOf payload = .list entries ∧ pairs.Perm values.zipIdx ∧
    entries.map readEntry = pairs.map fun x => some ((x.2 : ℤ), x.1)

/-- The scores of the texts are sent, perhaps after attempts that the service has no time for. -/
def Replies (values : List ℚ) (maxRetries : ℕ) (reply : ℕ → Reply) : Prop :=
  ∃ k ≤ maxRetries, (∀ a < k, (reply a).any (·.status = 429) = true) ∧
    ∃ response payload, reply k = some response ∧ 200 ≤ response.status ∧ response.status < 300 ∧
      response.json = some payload ∧ Lists values payload

theorem request_eq {k attempt retries : ℕ} {response : Response} (hk : k ≤ retries)
    (hbusy : ∀ a < k, (reply (attempt + a)).any (·.status = 429) = true) (hreply : reply (attempt + k) = some response)
    (hmin : 200 ≤ response.status) (hmax : response.status < 300) (hjson : response.json = some payload) :
    request reply attempt retries = .ok payload := by
  have htake : takeReply (some response) = .ok payload := by
    rw [takeReply, if_pos ⟨hmin, hmax⟩, hjson]
    rfl
  induction retries generalizing attempt k with
  | zero =>
      obtain rfl := Nat.le_zero.mp hk
      rw [request, ← htake, ← hreply, Nat.add_zero]
  | succ retries ih =>
      rw [request]
      cases k with
      | zero =>
          rw [Nat.add_zero] at hreply
          rw [hreply, htake, if_neg]
          simp only [Option.any_some, decide_eq_true_eq]
          omega
      | succ k =>
          have hfirst := hbusy 0 (Nat.succ_pos k)
          rw [Nat.add_zero] at hfirst
          rw [if_pos hfirst]
          refine ih (k := k) (Nat.le_of_succ_le_succ hk) (fun a ha => ?_) ?_
          · rw [Nat.add_assoc, Nat.add_comm 1]
            exact hbusy (a + 1) (Nat.succ_lt_succ ha)
          · rw [Nat.add_assoc, Nat.add_comm 1]
            exact hreply

theorem place_eq {i : ℕ} {q : ℚ} (hentry : readEntry entry = some ((i : ℤ), q)) (hfree : slots.values[i]? = some none)
    (hq : inUnit q = true) : place slots entry = .ok (slots.set i q hq) := by
  cases entry with
  | dict members =>
      simp only [readEntry, bind, Option.bind_eq_some_iff, pure, Option.some.injEq, Prod.mk.injEq] at hentry
      obtain ⟨_, hindex, _, hscore, _, rfl, rfl, rfl⟩ := hentry
      simp only [place, hindex, hscore]
      rw [if_pos ⟨Int.natCast_nonneg i, by rwa [Int.toNat_natCast]⟩, dif_pos hq]
      rfl
  | _ => cases hentry

theorem foldlM_place {pairs : List (ℚ × ℕ)} (hentries : entries.map readEntry = pairs.map fun x => some ((x.2 : ℤ), x.1))
    (hnodup : (pairs.map Prod.snd).Nodup) (hfree : ∀ x ∈ pairs, slots.values[x.2]? = some none)
    (hq : ∀ x ∈ pairs, inUnit x.1 = true) :
    ∃ filled, entries.foldlM place slots = .ok filled ∧ (∀ x ∈ pairs, filled.values[x.2]? = some (some x.1)) ∧
      ∀ i, i ∉ pairs.map Prod.snd → filled.values[i]? = slots.values[i]? := by
  induction pairs generalizing entries slots with
  | nil =>
      obtain rfl := List.map_eq_nil_iff.mp hentries
      exact ⟨slots, rfl, nofun, fun _ _ => rfl⟩
  | cons x pairs ih =>
      obtain ⟨entry, rest, rfl, hentry, hrest⟩ := List.map_eq_cons_iff.mp hentries
      rw [List.map_cons, List.nodup_cons] at hnodup
      obtain ⟨hx, hfree'⟩ := List.forall_mem_cons.mp hfree
      obtain ⟨hqx, hq'⟩ := List.forall_mem_cons.mp hq
      have hlt : x.2 < slots.values.length := (List.getElem?_eq_some_iff.mp hx).1
      have hset : ∀ i, (slots.set x.2 x.1 hqx).values[i]? = if i = x.2 then some (some x.1) else slots.values[i]? := by
        intro i
        rw [Slots.set, List.getElem?_set]
        by_cases hi : x.2 = i
        · rw [if_pos hi, if_pos hi.symm, if_pos hlt]
        · rw [if_neg hi, if_neg (Ne.symm hi)]
      have hstill : ∀ y ∈ pairs, (slots.set x.2 x.1 hqx).values[y.2]? = some none := fun y hy => by
        have hne : y.2 ≠ x.2 := fun he => hnodup.1 (he ▸ List.mem_map_of_mem hy)
        rw [hset, if_neg hne]
        exact hfree' y hy
      obtain ⟨filled, hfold, hfilled, hother⟩ := ih hrest hnodup.2 hstill hq'
      refine ⟨filled, ?_, List.forall_mem_cons.mpr ⟨?_, hfilled⟩, fun i hi => ?_⟩
      · rw [List.foldlM_cons, place_eq hentry hx hqx]
        exact hfold
      · rw [hother x.2 hnodup.1, hset, if_pos rfl]
      · rw [List.map_cons, List.mem_cons, not_or] at hi
        rw [hother i hi.2, hset, if_neg hi.1]

theorem scores_eq {values : List ℚ} (hunit : ∀ q ∈ values, inUnit q = true) (hlen : values.length = n)
    (h : slots.values = values.map some) : slots.scores = .ok ⟨values, hlen, hunit⟩ := by
  have hsome : ∀ s ∈ slots.values, s.isSome = true := by
    rw [h]
    simp
  rw [Slots.scores, dif_pos hsome]
  congr 2
  rw [h, List.reduceOption, List.filterMap_map]
  exact List.filterMap_some

theorem scoreBatch_eq {values : List ℚ} (hunit : ∀ q ∈ values, inUnit q = true) (hlen : values.length = n)
    (h : Replies values maxRetries reply) : scoreBatch maxRetries reply n = .ok ⟨values, hlen, hunit⟩ := by
  obtain ⟨k, hk, hbusy, response, payload, hreply, hmin, hmax, hjson, entries, pairs, hentries, hperm, hmap⟩ := h
  have hrequest : request reply 0 maxRetries = .ok payload :=
    request_eq hk (fun a ha => by rw [Nat.zero_add]; exact hbusy a ha) (by rwa [Nat.zero_add]) hmin hmax hjson
  have hcount : entries.length = n := by
    have hpairs := congrArg List.length hmap
    rw [List.length_map, List.length_map, hperm.length_eq, List.length_zipIdx, hlen] at hpairs
    exact hpairs
  have hpair : ∀ x, x ∈ pairs ↔ values[x.2]? = some x.1 := fun x => by
    rw [hperm.mem_iff, List.mem_zipIdx_iff_getElem?]
  have hnodup : (pairs.map Prod.snd).Nodup := by
    rw [(hperm.map Prod.snd).nodup_iff, List.zipIdx_map_snd]
    exact List.nodup_range'
  have hfree : ∀ x ∈ pairs, (Slots.empty n).values[x.2]? = some none := fun x hx => by
    have hlt := (List.getElem?_eq_some_iff.mp ((hpair x).mp hx)).1
    rw [Slots.empty, List.getElem?_replicate, if_pos (hlen ▸ hlt)]
  have hunit' : ∀ x ∈ pairs, inUnit x.1 = true := fun x hx => hunit _ (List.mem_of_getElem? ((hpair x).mp hx))
  obtain ⟨filled, hfold, hfilled, -⟩ := foldlM_place hmap hnodup hfree hunit'
  have hvalues : filled.values = values.map some := by
    refine List.ext_getElem (by rw [filled.length_eq, List.length_map, hlen]) fun i hi hi' => ?_
    rw [List.length_map] at hi'
    have hslot := hfilled (values[i], i) ((hpair _).mpr (List.getElem?_eq_getElem hi'))
    rw [List.getElem?_eq_getElem hi, Option.some.injEq] at hslot
    rw [List.getElem_map, hslot]
  have hdone : (do let slots ← entries.foldlM place (Slots.empty n); slots.scores) = .ok ⟨values, hlen, hunit⟩ := by
    rw [hfold]
    exact scores_eq hunit hlen hvalues
  rw [scoreBatch, hrequest]
  cases payload with
  | none => cases hentries
  | _ =>
      simp only [hentries, if_pos hcount]
      exact hdone

/-! ## The batches -/

variable {query : Text} {scoreOf : Text → Text → ℚ} {service : RerankService} {candidates : List EvidenceCandidate}

def scoresOf (scoreOf : Text → Text → ℚ) (query : Text) (candidates : List EvidenceCandidate) : List ℚ :=
  candidates.map fun c => scoreOf query c.textOriginal

/-- The service answers every request, perhaps at a later attempt, and scores each text by itself. -/
def Answers (scoreOf : Text → Text → ℚ) (maxRetries : ℕ) (service : RerankService) : Prop :=
  ∀ k query texts, Replies (texts.map (scoreOf query)) maxRetries fun attempt => service k attempt query texts

theorem scoreBatches_eq (query : Text) (hunit : ∀ query text, inUnit (scoreOf query text) = true)
    (h : Answers scoreOf maxRetries service)
    (k : ℕ) (bs : List (List EvidenceCandidate)) : ∃ scores, scoreBatches maxRetries service query k bs = .ok scores ∧
      scores.values = scoresOf scoreOf query bs.flatten := by
  induction bs generalizing k with
  | nil => exact ⟨Scores.nil, rfl, rfl⟩
  | cons batch bs ih =>
      obtain ⟨others, hothers, hvalues⟩ := ih (k + 1)
      have hmem : ∀ q ∈ scoresOf scoreOf query batch, inUnit q = true := by
        rw [scoresOf, List.forall_mem_map]
        exact fun c _ => hunit _ _
      have hreplies : Replies (scoresOf scoreOf query batch) maxRetries
          fun attempt => service k attempt query (batch.map (·.textOriginal)) := by
        have := h k query (batch.map (·.textOriginal))
        rwa [List.map_map] at this
      have hbatch := scoreBatch_eq hmem (List.length_map _) hreplies
      refine ⟨(Scores.append ⟨_, List.length_map _, hmem⟩ others).cast (by rw [List.flatten_cons, List.length_append]), ?_, ?_⟩
      · rw [scoreBatches, hbatch, hothers]
        rfl
      · change scoresOf scoreOf query batch ++ others.values = _
        rw [hvalues, scoresOf, scoresOf, scoresOf, List.flatten_cons, List.map_append]

theorem score_eq {r : TeiReranker} (query : Text) (candidates : List EvidenceCandidate)
    (hunit : ∀ query text, inUnit (scoreOf query text) = true)
    (h : Answers scoreOf r.maxRetries service) : ∃ scores, r.score service query candidates = .ok scores ∧
      scores.values = scoresOf scoreOf query candidates := by
  obtain ⟨scores, hscores, hvalues⟩ := scoreBatches_eq query hunit h 0 (batches r.batchSize candidates)
  refine ⟨scores.cast (by rw [flatten_batches r.batchSize_pos]), by rw [TeiReranker.score, hscores]; rfl, ?_⟩
  change scores.values = _
  rw [hvalues, flatten_batches r.batchSize_pos]

/-! ## The cache -/

variable {sha256 : Text → Text} {maxCandidates : ℕ} {revision : Text}

/-- The digests of candidates are those of their texts. -/
def Digested (sha256 : Text → Text) (candidates : List EvidenceCandidate) : Prop :=
  ∀ c ∈ candidates, c.contentSha256 = sha256 c.textOriginal

theorem rerankKey_inj {query' revision' : Text} {candidates' : List EvidenceCandidate} (hinj : Function.Injective sha256)
    (h : rerankKey sha256 query revision candidates = rerankKey sha256 query' revision' candidates') :
    query = query' ∧ revision = revision' ∧
      candidates.map (fun c => (c.candidateId, c.contentSha256)) = candidates'.map fun c =>
        (c.candidateId, c.contentSha256) := by
  have hencode := hinj (List.append_cancel_left h)
  have hjson := Option.some.inj ((Json.parse_encode _).symm.trans ((congrArg Json.parse hencode).trans (Json.parse_encode _)))
  simp only [Json.obj.injEq, List.cons.injEq, Prod.mk.injEq, true_and, Json.str.injEq, Json.arr.injEq, and_true] at hjson
  obtain ⟨hitems, hquery, hrevision⟩ := hjson
  refine ⟨hquery, hrevision, ?_⟩
  have hlen := congrArg List.length hitems
  rw [List.length_map, List.length_map] at hlen
  refine List.ext_getElem (by rw [List.length_map, List.length_map, hlen]) fun i hi hi' => ?_
  rw [List.length_map] at hi hi'
  have hitem := congrArg (fun l => l[i]?) hitems
  simp only [List.getElem?_map, List.getElem?_eq_getElem hi, List.getElem?_eq_getElem hi', Option.map_some,
    Option.some.injEq,
    Json.arr.injEq, List.cons.injEq, Json.str.injEq] at hitem
  rw [List.getElem_map, List.getElem_map, hitem.1, hitem.2.1]

theorem scoresOf_of_key {candidates' : List EvidenceCandidate} (hinj : Function.Injective sha256)
    (h : Digested sha256 candidates) (h' : Digested sha256 candidates')
    (hkey : candidates.map (fun c => (c.candidateId, c.contentSha256)) =
      candidates'.map fun c => (c.candidateId, c.contentSha256)) :
    scoresOf scoreOf query candidates = scoresOf scoreOf query candidates' := by
  have hlen := congrArg List.length hkey
  rw [List.length_map, List.length_map] at hlen
  refine List.ext_getElem (by rw [scoresOf, scoresOf, List.length_map, List.length_map, hlen]) fun i hi hi' => ?_
  simp only [scoresOf, List.length_map] at hi hi'
  have hitem := congrArg (fun l => l[i]?) hkey
  simp only [List.getElem?_map, List.getElem?_eq_getElem hi, List.getElem?_eq_getElem hi', Option.map_some,
    Option.some.injEq,
    Prod.mk.injEq, h _ (List.getElem_mem hi), h' _ (List.getElem_mem hi')] at hitem
  simp only [scoresOf, List.getElem_map, hinj hitem.2]

/-- The scores of a pool for a query, by a revision of the model, are stored under their key. -/
def Stores (sha256 : Text → Text) (scoreOf : Text → Text → Text → ℚ) (key : Text) (c : CachedScores) : Prop :=
  ∃ query revision pool, key = rerankKey sha256 query revision pool ∧ Digested sha256 pool ∧
    c = ⟨pool.map (·.candidateId), (scoresOf (scoreOf revision) query pool).map some⟩

theorem cacheGet_eq {scoreOf : Text → Text → Text → ℚ} {read : Option CacheRead} {scores : Scores candidates.length}
    (hinj : Function.Injective sha256) (hdigest : Digested sha256 candidates)
    (hread : ∀ c, read = some (.cached c) → Stores sha256 scoreOf (rerankKey sha256 query revision candidates) c)
    (h : cacheGet read candidates = some scores) : scores.values = scoresOf (scoreOf revision) query candidates := by
  cases read with
  | none => cases h
  | some read =>
      cases read with
      | cached c =>
          obtain ⟨query', revision', pool, hkey, hpool, rfl⟩ := hread c rfl
          obtain ⟨rfl, rfl, hsame⟩ := rerankKey_inj hinj hkey
          simp only [cacheGet] at h
          split at h
          · obtain rfl := Option.some.inj h
            rw [scoresOf_of_key hinj hdigest hpool hsame]
            change ((scoresOf (scoreOf revision) query pool).map some).reduceOption = _
            rw [List.reduceOption, List.filterMap_map]
            exact List.filterMap_some
          · cases h
      | _ => cases h

/-! ## The whole -/

/-- The evidence by its scores, the ties in the order of the pool. -/
def rankedBy (score : EvidenceCandidate → ℚ) (pool : List EvidenceCandidate) : List RerankedEvidence :=
  ((sortBy (fun c => toLex (-score c, stableCandidateKey c)) pool).zipIdx 1).map fun x => ⟨x.1, score x.1, x.2⟩

theorem mapM_rank {pool : List EvidenceCandidate} {values : List ℚ}
    (hunit : ∀ query text, inUnit (scoreOf query text) = true)
    (h : values = scoresOf scoreOf query pool) :
    ((sortBy (fun x : EvidenceCandidate × ℚ => toLex (-x.2, stableCandidateKey x.1)) (pool.zip values)).zipIdx 1).mapM
      (fun x => RerankedEvidence.validate ⟨x.1.1, x.1.2, x.2⟩) =
        .ok (rankedBy (fun c => scoreOf query c.textOriginal) pool) := by
  let score : EvidenceCandidate → ℚ := fun c => scoreOf query c.textOriginal
  let pair : EvidenceCandidate → EvidenceCandidate × ℚ := fun c => (c, score c)
  let key : EvidenceCandidate × ℚ → ℚ ×ₗ (ℕ ×ₗ Text) := fun x => toLex (-x.2, stableCandidateKey x.1)
  have hzip : pool.zip values = pool.map pair := by
    rw [h, scoresOf, ← List.zip_map', List.map_id']
  have hsort : sortBy key (pool.map pair) = (sortBy (fun c => key (pair c)) pool).map pair :=
    (@map_sortBy _ _ _ _ (fun c => key (pair c)) pool _ _ key pair fun _ _ _ _ => Iff.rfl).symm
  rw [hzip, hsort, List.zipIdx_map, mapM_eq_ok (g := fun x => ⟨x.1.1, x.1.2, x.2⟩), List.map_map]
  · rfl
  · intro x hx
    obtain ⟨y, hy, rfl⟩ := List.mem_map.mp hx
    have hrank : 1 ≤ y.2 := (List.mem_zipIdx hy).1
    exact (if_pos (hunit _ _)).trans (if_pos hrank)

theorem rerank_eq (hunit : ∀ query text, inUnit (scoreOf query text) = true)
    {scores : Scores (bounded maxCandidates candidates).length}
    (h : scores.values = scoresOf scoreOf query (bounded maxCandidates candidates)) :
    rerank maxCandidates candidates scores =
      .ok (rankedBy (fun c => scoreOf query c.textOriginal) (bounded maxCandidates candidates)) := mapM_rank hunit h

/-- Every run on a pool returns its evidence by the scores of the service, and what it writes are these scores. -/
theorem teiRerank_eq {scoreOf : Text → Text → Text → ℚ} {r : TeiReranker} {cache : Option (Text → CacheRead)}
    (query : Text) (hinj : Function.Injective sha256) (hunit : ∀ revision query text,
      inUnit (scoreOf revision query text) = true)
    (hservice : Answers (scoreOf r.modelRevision) r.maxRetries service) (hdigest : Digested sha256 candidates)
    (hcache : ∀ read, cache = some read → ∀ key c, read key = .cached c → Stores sha256 scoreOf key c) :
    ∃ written, r.rerank sha256 service cache query candidates =
        .ok (rankedBy (fun c => scoreOf r.modelRevision query c.textOriginal) (bounded r.maxCandidates candidates), written) ∧
      ∀ key c, written = some (key, c) → Stores sha256 scoreOf key c := by
  have hpool : Digested sha256 (bounded r.maxCandidates candidates) := fun c hc =>
    hdigest c (mem_sortBy.mp (List.mem_of_mem_take hc))
  rw [TeiReranker.rerank]
  by_cases hnil : bounded r.maxCandidates candidates = []
  · refine ⟨none, ?_, nofun⟩
    rw [if_pos hnil, hnil]
    rfl
  · rw [if_neg hnil]
    simp only
    cases hget : cacheGet (cache.map fun read =>
        read (rerankKey sha256 query r.modelRevision (bounded r.maxCandidates candidates))) (bounded r.maxCandidates candidates) with
    | some scores =>
        have hvalues := cacheGet_eq hinj hpool (fun c hc => by
          obtain ⟨read, hread, hc⟩ := Option.map_eq_some_iff.mp hc
          exact hcache read hread _ c hc) hget
        refine ⟨none, ?_, nofun⟩
        simp only [rerank_eq (hunit r.modelRevision) hvalues]
        rfl
    | none =>
        obtain ⟨scores, hscores, hvalues⟩ := score_eq query (bounded r.maxCandidates candidates)
          (hunit r.modelRevision) hservice
        refine ⟨cacheSet cache.isSome r.cacheTtl (rerankKey sha256 query r.modelRevision (bounded r.maxCandidates candidates))
          (bounded r.maxCandidates candidates) scores.values, ?_, fun key c hwritten => ?_⟩
        · simp only [hscores, bind, Except.bind, rerank_eq (hunit r.modelRevision) hvalues]
          rfl
        · rw [cacheSet] at hwritten
          split at hwritten
          · obtain ⟨rfl, rfl⟩ := Prod.mk.inj (Option.some.inj hwritten)
            exact ⟨query, r.modelRevision, _, rfl, hpool, by rw [hvalues]⟩
          · cases hwritten

end Etoeragcb.Rag
