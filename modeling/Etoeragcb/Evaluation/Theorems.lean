import Etoeragcb.Evaluation.Lemmas.Calibration
import Etoeragcb.Evaluation.Lemmas.Engine
import Etoeragcb.Evaluation.Lemmas.Metrics
import Etoeragcb.Evaluation.Lemmas.Sweep

/-!
# Main theorems on evaluation
-/

namespace Etoeragcb.Evaluation

open Lib Models Rag

/-- The gate answers exactly where the predicate of the calibration says so of the observation, and the sweep counts
what the metrics count. -/
theorem gate_agrees :
    (∀ (g : ConfidenceGate) (t : CalibratedThresholds) query packed,
      g.artifact.configuration.thresholds = some t.gate → g.artifact.configuration.models = g.models →
        (g.evaluate packed).toOption.map (fun d => decide (d.route = .answer)) =
          (gateObservation query packed).toOption.map (gateAnswer · t)) ∧
    ∀ observations (t : CalibratedThresholds), classificationMetrics observations t =
      .ok (rawClassification observations t.topScoreMin t.scoreMarginMin t.exactScoreMin t.minEvidence).metrics :=
  ⟨fun _ _ _ _ ht hmodels => evaluate_eq ht hmodels, classificationMetrics_eq⟩

def sampleModels : ModelProvenance := ⟨"bge".toList, "a1".toList, "tei".toList, "b2".toList⟩

def sampleThresholds : CalibratedThresholds := ⟨1 / 2, 1 / 8, 7 / 8, 1⟩

def sampleGate : ConfidenceGate where
  artifact :=
    { configuration :=
        { artifactId := "golden-v1".toList
          calibrated := true
          dataset := ⟨some "golden".toList, some "1".toList, some "c3".toList, 40⟩
          models := sampleModels
          thresholds := some sampleThresholds.gate
          calibration := by decide }
      sha256 := List.replicate 64 '0'
      isSha256_sha256 := by decide }
  models := sampleModels

def sampleEvidence (candidateId : Text) (score : ℚ) (rank : Nat) : RerankedEvidence :=
  ⟨⟨candidateId, .document, "d".toList, "s".toList, none, "Manual".toList, none, none, none, none, none, none,
    "heat".toList, "heat".toList, List.replicate 64 '1', List.replicate 64 '2', 1, 1, [], [], [], []⟩, score, rank⟩

def samplePacked : List RerankedEvidence := [sampleEvidence "c1".toList (3 / 4) 1, sampleEvidence "c2".toList (1 / 2) 2]

def sampleQuery : GoldenQuery := ⟨"q001".toList, true, [("c1".toList, 3)]⟩

def sampleObservation (queryId : Text) (expectedAnswer : Bool) (score : ℚ) (exactScore : Option ℚ) : GateObservation :=
  ⟨queryId, expectedAnswer, expectedAnswer, expectedAnswer, some score, none, some score, exactScore, 1⟩

def sampleObservations : List GateObservation :=
  [sampleObservation "q1".toList true (5 / 8) none, sampleObservation "q2".toList false (1 / 4) none]

theorem gate_agrees_sample :
    ((sampleGate.evaluate samplePacked).toOption.map (fun d => decide (d.route = .answer)) =
      (gateObservation sampleQuery samplePacked).toOption.map (gateAnswer · sampleThresholds)) ∧
    (gateObservation sampleQuery samplePacked).toOption.map (gateAnswer · sampleThresholds) = some true ∧
    classificationMetrics sampleObservations sampleThresholds =
      .ok (rawClassification sampleObservations (1 / 2) (1 / 8) (7 / 8) 1).metrics :=
  ⟨gate_agrees.1 sampleGate sampleThresholds sampleQuery samplePacked rfl rfl, by decide +kernel,
    gate_agrees.2 sampleObservations sampleThresholds⟩

/-! ## The sweep -/

/-- No thresholds that the grid stands for classify the observations better than those that the sweep chooses, and the grid
stands for all thresholds where it can tell the observations apart. -/
theorem sweepThresholds_best (precisionTarget recallTarget : ℚ) {observations : List GateObservation}
    (h : Valid observations) (hexpected : observations.any (·.expectedAnswer) = true) :
    ∃ e, sweepThresholds precisionTarget recallTarget observations = .ok e ∧ e.thresholds.validate = .ok e.thresholds ∧
      classificationMetrics observations e.thresholds = .ok e.metrics ∧
      (∀ t m, t.validate = .ok t → Gridlike observations t → classificationMetrics observations t = .ok m →
        quality precisionTarget recallTarget m ≤ quality precisionTarget recallTarget e.metrics ∧
          (targetsMet precisionTarget recallTarget m = true → e.targetsMet = true)) ∧
      (Separable observations → ∀ t, Gridlike observations t) := by
  obtain ⟨e, he, hmem, htargets, hmetrics, hmax⟩ :=
    sweepThresholds_leads precisionTarget recallTarget h hexpected
  refine ⟨e, he, validate_of_mem_thresholdGrid h hmem, hmetrics, fun t m ht hgrid hm => ?_, fun hsep => hsep.gridlike h⟩
  obtain ⟨g, hg, hsame⟩ := exists_thresholdGrid h ht hgrid
  have hle := hmax g hg
  rw [← classificationMetrics_congr hsame, classificationMetrics_eq] at hm
  obtain rfl := Except.ok.inj hm
  refine ⟨hle, fun hmet => ?_⟩
  change targetsMet precisionTarget recallTarget (rawMetrics observations g).metrics = true at hmet
  rw [htargets]
  by_contra hno
  rw [quality, quality, if_pos hmet, if_neg hno, Prod.Lex.toLex_le_toLex] at hle
  norm_num at hle

theorem sweepThresholds_best_sample :
    ∃ e, sweepThresholds (7 / 8) (3 / 4) sampleObservations = .ok e ∧ e.thresholds.validate = .ok e.thresholds ∧
      classificationMetrics sampleObservations e.thresholds = .ok e.metrics ∧
      (∀ t m, t.validate = .ok t → Gridlike sampleObservations t → classificationMetrics sampleObservations t = .ok m →
        quality (7 / 8) (3 / 4) m ≤ quality (7 / 8) (3 / 4) e.metrics ∧
          (targetsMet (7 / 8) (3 / 4) m = true → e.targetsMet = true)) ∧
      (Separable sampleObservations → ∀ t, Gridlike sampleObservations t) :=
  sweepThresholds_best (7 / 8) (3 / 4) (by unfold Valid; decide +kernel) (by decide)

/-- No thresholds at all classify the observations better than those that the sweep chooses. -/
def Unbeaten (observations : List GateObservation) : Prop :=
  ∀ precisionTarget recallTarget t e m, Valid observations → observations.any (·.expectedAnswer) = true →
    t.validate = .ok t → sweepThresholds precisionTarget recallTarget observations = .ok e →
    classificationMetrics observations t = .ok m →
    quality precisionTarget recallTarget m ≤ quality precisionTarget recallTarget e.metrics

/-- Two scores that are rounded to the same value. -/
def closeObservations : List GateObservation :=
  [sampleObservation "q1".toList true (1 / 2 + 3 / 2 ^ 24) none,
   sampleObservation "q2".toList false (1 / 2 + 1 / 2 ^ 24) none]

def ampleObservations : List GateObservation :=
  [⟨"q1".toList, true, true, true, some (1 / 2), some (1 / 4), some (1 / 4), none, 13⟩,
   ⟨"q2".toList, false, false, false, some (1 / 2), some (1 / 4), some (1 / 4), none, 12⟩]

def perfectObservations : List GateObservation :=
  [sampleObservation "q1".toList true (1 / 2) (some (1 / 2)), sampleObservation "q2".toList false 1 none]

theorem not_unbeaten_of_better {observations : List GateObservation} {t : CalibratedThresholds} (hvalid : Valid observations)
    (hexpected : observations.any (·.expectedAnswer) = true) (ht : t.validate = .ok t)
    (h : ((sweepThresholds (7 / 8) (3 / 4) observations).toOption.any fun e =>
      quality (7 / 8) (3 / 4) e.metrics < quality (7 / 8) (3 / 4) (rawMetrics observations t).metrics) = true) :
    ¬Unbeaten observations := by
  intro hall
  cases he : sweepThresholds (7 / 8) (3 / 4) observations with
  | error e =>
      rw [he] at h
      cases h
  | ok e =>
      rw [he] at h
      exact absurd (hall _ _ t e _ hvalid hexpected ht he (classificationMetrics_eq _ _)) (not_le.mpr (of_decide_eq_true h))

theorem not_unbeaten : ¬Unbeaten closeObservations ∧ ¬Unbeaten ampleObservations ∧ ¬Unbeaten perfectObservations :=
  ⟨not_unbeaten_of_better (t := ⟨1 / 2 + 2 / 2 ^ 24, 0, 1, 1⟩) (by unfold Valid; decide +kernel) (by decide) (by decide +kernel)
    (by decide +kernel),
   not_unbeaten_of_better (t := ⟨0, 0, 1, 13⟩) (by unfold Valid; decide +kernel) (by decide) (by decide +kernel) (by decide +kernel),
   not_unbeaten_of_better (t := ⟨1, 1, 1 / 2, 2⟩) (by unfold Valid; decide +kernel) (by decide) (by decide +kernel) (by decide +kernel)⟩

/-! ## The ranking -/

/-- The evaluation ranks a corpus as the retrieval does, with the same scores. -/
theorem hybridRanking_ranks {u : Unicode} {query : HybridQuery} {targets : List DocumentId}
    {corpus : List (CorpusRecord × HydratedChunk)} {hydrated : List HydratedChunk} (hint : Text) (branches : BranchResults)
    (hstored : ∀ x ∈ corpus, StoredAs u query targets x.1 x.2)
    (hids : (corpus.map (·.2.chunkId)).Nodup) (hdense : branches.denseIds.Nodup) (hsparse : branches.sparseIds.Nodup)
    (hbranches : branches.denseIds ++ branches.sparseIds ⊆ corpus.map (·.2.chunkId))
    (hhydrated : hydrated.Perm ((corpus.map Prod.snd).filter fun h => h.chunkId ∈ branches.denseIds ++ branches.sparseIds))
    (denseScores sparseScores : List ℚ) (limit : Nat) :
    hybridRanking u (corpus.map Prod.fst) query ⟨branches.denseIds.map uuidStr, denseScores⟩
        ⟨branches.sparseIds.map uuidStr, sparseScores⟩ limit =
      some ⟨((rankHydrated u rrfK (fuseBranches rrfK branches) hydrated query.exactTerms (documentBoosts hint targets)).map
          fun c => uuidStr c.chunkId).take limit,
        ((rankHydrated u rrfK (fuseBranches rrfK branches) hydrated query.exactTerms (documentBoosts hint targets)).map
          (·.fusionScore)).take limit⟩ := by
  have hmem : ∀ h ∈ hydrated, ∃ record, (record, h) ∈ corpus := fun h hh => by
    obtain ⟨x, hx, rfl⟩ := List.mem_map.mp (List.mem_of_mem_filter (hhydrated.subset hh))
    exact ⟨x.1, hx⟩
  have hexists : ∀ h, ∃ record, h ∈ hydrated → (record, h) ∈ corpus := fun h => by
    by_cases hh : h ∈ hydrated
    · obtain ⟨record, hrecord⟩ := hmem h hh
      exact ⟨record, fun _ => hrecord⟩
    · exact ⟨⟨[], [], []⟩, fun hh' => absurd hh' hh⟩
  choose recordOf hrecordOf using hexists
  have hreads : Reads u (corpus.map Prod.fst) query (documentBoosts hint targets) uuidStr recordOf hydrated := by
    refine ⟨fun g hg h hh => ?_, ?_, fun h hh => ?_, fun h hh => ?_, hint, fun h hh => ?_⟩
    · exact (uuidStr_le_iff (hstored _ (hrecordOf g hg)).isUuid (hstored _ (hrecordOf h hh)).isUuid).symm
    · refine (hhydrated.map _).nodup_iff.mpr (List.Nodup.sublist (List.filter_sublist.map _) ?_)
      rwa [List.map_map]
    · exact recordById_stored hstored hids (hrecordOf h hh)
    · exact (hstored _ (hrecordOf h hh)).text.symm
    · rw [matchedBoosts_documentBoosts]
      exact if_congr (hstored _ (hrecordOf h hh)).document.symm rfl rfl
  refine hybridRanking_eq hdense hsparse (fun id => ?_) hreads denseScores sparseScores limit
  rw [(hhydrated.map _).mem_iff]
  constructor
  · intro hid
    obtain ⟨h, hh, rfl⟩ := List.mem_map.mp hid
    exact of_decide_eq_true (List.mem_filter.mp hh).2
  · intro hid
    obtain ⟨x, hx, rfl⟩ := List.mem_map.mp (hbranches hid)
    exact List.mem_map_of_mem (f := fun h : HydratedChunk => h.chunkId)
      (List.mem_filter.mpr ⟨List.mem_map_of_mem hx, decide_eq_true hid⟩)

def lettered (letter : Char) (chunkId : ChunkId) : CorpusRecord × HydratedChunk :=
  (⟨uuidStr chunkId, uuidStr 7, [letter]⟩,
    ⟨chunkId, ⟨1, 7, 70, some 3, 0, 1, 1, 0, 1, [], [], 1, [letter], [letter]⟩, 3, ⟨1, 7, 70, none, ['a'], ['A'], ['a']⟩,
      ⟨1, ['T'], ['f'], some 70, none⟩⟩)

def letteredQuery : HybridQuery := ⟨[['b']], [uuidStr 7]⟩

theorem hybridRanking_ranks_lettered : ∃ ranking, hybridRanking .latin [(lettered 'a' 11).1, (lettered 'b' 12).1] letteredQuery
    ⟨[uuidStr 11, uuidStr 12], [1, 1]⟩ ⟨[], []⟩ 5 = some ranking ∧ ranking.ids =
      ((rankHydrated .latin 60 (fuseBranches 60 ⟨[⟨11, 1⟩, ⟨12, 1⟩], []⟩) [(lettered 'a' 11).2, (lettered 'b' 12).2] [['b']]
        [⟨['t'], .inDocument, [7]⟩]).map fun c => uuidStr c.chunkId).take 5 := by
  have hstored : ∀ x ∈ [lettered 'a' 11, lettered 'b' 12], StoredAs .latin letteredQuery [7] x.1 x.2 := by
    intro x hx
    rcases List.mem_cons.mp hx with rfl | hx
    · exact ⟨by decide, rfl, by decide +kernel, by decide +kernel⟩
    · rw [List.mem_singleton.mp hx]
      exact ⟨by decide, rfl, by decide +kernel, by decide +kernel⟩
  exact ⟨_, hybridRanking_ranks ['t'] ⟨[⟨11, 1⟩, ⟨12, 1⟩], []⟩ hstored (by decide) (by decide) (by decide)
    (by decide) (List.Perm.refl _) [1, 1] [] 5, rfl⟩

/-! ## Discounted gain -/

/-- The value of a ranking lies between 0 and 1, is 1 for the ideal grades only, and is the same in both copies. -/
structure NdcgSound (relevance : List (Text × ℕ)) (ranked : List Text) (limit : ℕ) : Prop where
  nonneg : 0 ≤ Metrics.ndcg relevance ranked limit
  le_one : Metrics.ndcg relevance ranked limit ≤ 1
  eq_one_iff : Metrics.ndcg relevance ranked limit = 1 ↔
    ((ranked.take limit).map fun candidateId => (Dict.get? relevance candidateId).getD 0).rightpad limit 0 =
      ((sortedDown (relevance.map Prod.snd)).take limit).rightpad limit 0
  copies : HistoryScoring.ndcg relevance ranked limit = Metrics.ndcg relevance ranked limit

theorem ndcg_sound : (∀ (relevance : List (Text × ℕ)) (ranked : List Text) (limit : ℕ), (relevance.map Prod.fst).Nodup →
      (∃ x ∈ relevance, 0 < x.2) → ranked.Nodup → 1 ≤ limit → NdcgSound relevance ranked limit) ∧
    ∀ (queries : List GoldenQuery) (rankings : List QueryRanking) (value : ℝ),
      (∀ query ∈ queries, (query.relevance.map Prod.fst).Nodup ∧ query.labelsValid = true) →
      (∀ ranking ∈ rankings, ranking.rankedIds.Nodup) → ndcgAt10 queries rankings = .ok value → 0 ≤ value ∧ value ≤ 1 := by
  have hsound : ∀ (relevance : List (Text × ℕ)) (ranked : List Text) (limit : ℕ), (relevance.map Prod.fst).Nodup →
      (∃ x ∈ relevance, 0 < x.2) → ranked.Nodup → 1 ≤ limit → NdcgSound relevance ranked limit := by
    intro relevance ranked limit hkeys hpositive hranked hlimit
    have hideal := dcg_ideal_pos hpositive hlimit
    obtain ⟨hle, hiff⟩ := dcg_observed limit hkeys hranked
    have hndcg := ndcg_eq ranked hpositive hlimit
    refine ⟨?_, ?_, ?_, rfl⟩
    · rw [hndcg]
      exact div_nonneg (dcg_nonneg _) hideal.le
    · rw [hndcg]
      exact (div_le_one hideal).mpr hle
    · rw [hndcg, div_eq_one_iff_eq hideal.ne']
      exact hiff
  refine ⟨hsound, fun queries rankings value hqueries hrankings h => ?_⟩
  rw [ndcgAt10] at h
  split at h
  · cases h
  · obtain ⟨values, hvalues, rfl⟩ := map_eq_ok.mp h
    refine mean_mem_unit fun x hx => ?_
    obtain ⟨query, hquery, hx⟩ := mem_of_mapM_eq_ok hvalues hx
    rw [queryNdcg] at hx
    obtain ⟨hquery, hanswerable⟩ := List.mem_filter.mp hquery
    obtain ⟨hkeys, hvalid⟩ := hqueries query hquery
    simp only [GoldenQuery.labelsValid, hanswerable, Bool.and_eq_true, decide_eq_true_eq, List.all_eq_true] at hvalid
    have hpositive : ∃ x ∈ query.relevance, 0 < x.2 := by
      obtain ⟨y, hy⟩ := List.exists_mem_of_ne_nil query.relevance (by simpa using hvalid.1)
      exact ⟨y, hy, (hvalid.2 y hy).1⟩
    cases hranking : Dict.get? (rankingByQuery rankings) query.id with
    | none =>
        rw [hranking] at hx
        cases hx
    | some ranking =>
        rw [hranking] at hx
        cases hx
        have hunit := hsound query.relevance ranking.rankedIds 10 hkeys hpositive
          (hrankings ranking (mem_of_rankingByQuery hranking)) (by decide)
        exact ⟨hunit.nonneg, hunit.le_one⟩

theorem ndcg_sound_unlabelled : NdcgSound [(['a'], 3), (['b'], 1)] [['a'], ['c'], ['b']] 10 :=
  ndcg_sound.1 _ _ _ (by decide) (by decide) (by decide) (by decide)

end Etoeragcb.Evaluation
