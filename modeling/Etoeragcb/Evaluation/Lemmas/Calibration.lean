import Etoeragcb.Evaluation.Calibration
import Etoeragcb.Rag.Lemmas.Postprocess
import Mathlib.Tactic.Linarith
import Mathlib.Tactic.Positivity

/-!
# The gate and its calibration

The loops of the sweep and of the metrics count the same, and an observation holds the scores that the gate decides by.
-/

namespace Etoeragcb.Evaluation

open Lib Models Rag

variable {observations : List GateObservation} {t : CalibratedThresholds}

/-! ## Metrics -/

theorem share_inUnit (a b : Nat) : inUnit (if a + b ≠ 0 then Binary64.round ((a : ℚ) / (a + b)) else 0) = true := by
  rw [inUnit_iff]
  split
  · rename_i h
    have hpos : (0 : ℚ) < a + b := by exact_mod_cast Nat.pos_of_ne_zero h
    have hb : (0 : ℚ) ≤ b := by positivity
    have hnonneg : (0 : ℚ) ≤ a / (a + b) := by positivity
    have hle : (a : ℚ) / (a + b) ≤ 1 := by
      rw [div_le_one hpos]
      linarith
    exact ⟨Binary64.round_nonneg hnonneg, Binary64.round_le_one hnonneg hle⟩
  · exact ⟨le_refl _, zero_le_one⟩

theorem precision_inUnit (n : Counters) : inUnit (precision n) = true := share_inUnit _ _

theorem recall_inUnit (n : Counters) : inUnit («recall» n) = true := share_inUnit _ _

theorem isDouble_precision (n : Counters) : Binary64.IsDouble (precision n) := by
  unfold precision
  split
  · exact Binary64.isDouble_round _
  · exact Binary64.isDouble_zero

/-- Twice a double is exact, so that the rounded product stays below the rounded sum. -/
theorem f1_inUnit {p r : ℚ} (hd : Binary64.IsDouble p) (hp : inUnit p = true) (hr : inUnit r = true) :
    inUnit (f1 p r) = true := by
  rw [inUnit_iff] at hp hr ⊢
  unfold f1
  dsimp only
  rw [Binary64.round_of_isDouble (Binary64.isDouble_two_mul hd)]
  have hproduct : 0 ≤ 2 * p * r := mul_nonneg (mul_nonneg zero_le_two hp.1) hr.1
  have hle : 2 * p * r ≤ p + r := by
    have h₁ : p * r ≤ p := mul_le_of_le_one_right hp.1 hr.2
    have h₂ : p * r ≤ r := mul_le_of_le_one_left hr.1 hp.2
    linarith
  split
  · rename_i h
    have hpos : 0 < Binary64.round (p + r) :=
      lt_of_le_of_ne (Binary64.round_nonneg (add_nonneg hp.1 hr.1)) (Ne.symm h)
    have hnonneg := div_nonneg (Binary64.round_nonneg hproduct) hpos.le
    exact ⟨Binary64.round_nonneg hnonneg,
      Binary64.round_le_one hnonneg ((div_le_one hpos).mpr (Binary64.round_mono hproduct hle))⟩
  · exact ⟨le_refl _, zero_le_one⟩

-- Both are two thirds before they are rounded.
example : f1 (Binary64.round (3 / 5)) (3 / 4) < f1 (1 / 2) 1 := by decide +kernel

theorem validate_counted (n : Counters) : ClassificationMetrics.validate ⟨n.truePositive, n.falsePositive,
    n.trueNegative, n.falseNegative, precision n, «recall» n, f1 (precision n) («recall» n)⟩ =
      .ok ⟨n.truePositive, n.falsePositive, n.trueNegative, n.falseNegative, precision n, «recall» n,
        f1 (precision n) («recall» n)⟩ :=
  if_pos ⟨precision_inUnit n, recall_inUnit n, f1_inUnit (isDouble_precision n) (precision_inUnit n) (recall_inUnit n)⟩

/-- The predicate of the sweep is the predicate of the metrics. -/
theorem gateAnswer_eq (o : GateObservation) (t : CalibratedThresholds) : gateAnswer o t =
    (o.bestExactScore.any (t.exactScoreMin ≤ ·) || (t.minEvidence ≤ o.evidenceCount &&
      o.topScore.any (t.topScoreMin ≤ ·) && o.scoreMargin.any (t.scoreMarginMin ≤ ·))) := by
  unfold gateAnswer
  split
  · rename_i h
    rw [h, Bool.true_or]
  · rename_i h
    rw [Bool.eq_false_iff.mpr h, Bool.false_or]

theorem countRaw_eq (n : Counters) (o : GateObservation) :
    countRaw t.topScoreMin t.scoreMarginMin t.exactScoreMin t.minEvidence n o = countObservation t n o := by
  unfold countRaw countObservation
  rw [gateAnswer_eq]

theorem classificationMetrics_eq (observations : List GateObservation) (t : CalibratedThresholds) :
    classificationMetrics observations t = .ok (rawClassification observations t.topScoreMin t.scoreMarginMin
      t.exactScoreMin t.minEvidence).metrics := by
  have hloop : countRaw t.topScoreMin t.scoreMarginMin t.exactScoreMin t.minEvidence = countObservation t :=
    funext fun n => funext fun o => countRaw_eq n o
  unfold classificationMetrics rawClassification
  rw [hloop]
  exact validate_counted _

/-! ## The gate -/

variable {g : ConfidenceGate} {query : GoldenQuery} {packed : List RerankedEvidence} {o : GateObservation}

def GateObservation.scores (o : GateObservation) : GateScores :=
  ⟨o.topScore, o.secondScore, o.scoreMargin, o.bestExactScore, o.evidenceCount⟩

theorem observationOf_scores (query : GoldenQuery) (packed : List RerankedEvidence) :
    (observationOf query packed).scores = gateScores (sortBy stableRerankedKey packed) := by
  unfold GateObservation.scores observationOf gateScores
  cases sortBy stableRerankedKey packed with
  | nil => rfl
  | cons x l => cases l <;> rfl

theorem validate_scores (o : GateObservation) :
    (o.validate = .ok o ∧ o.scores.validate = .ok o.scores) ∨ ∃ e e', o.validate = .error e ∧
      o.scores.validate = .error e' := by
  unfold GateObservation.validate GateScores.validate GateObservation.scores
  split
  · exact Or.inl ⟨rfl, rfl⟩
  · exact Or.inr ⟨_, _, rfl, rfl⟩

theorem all_lt (o : Option ℚ) (a : ℚ) : o.all (· < a) = !o.any (a ≤ ·) := by
  cases o with
  | none => rfl
  | some b =>
      show decide (b < a) = !decide (a ≤ b)
      rw [← decide_not]
      exact decide_eq_decide.mpr not_le.symm

theorem gateFailures_eq_nil (t : GateThresholds) (s : GateScores) : gateFailures t s = [] ↔
    (t.minEvidence ≤ s.evidenceCount && s.topScore.any (t.topScoreMin ≤ ·) &&
      s.scoreMargin.any (t.scoreMarginMin ≤ ·)) = true := by
  simp only [gateFailures, List.append_eq_nil_iff, Bool.and_eq_true, decide_eq_true_eq]
  refine and_congr (and_congr ?_ ?_) ?_
  · split
    · simp only [List.cons_ne_nil, false_iff]
      omega
    · simp only [true_iff]
      omega
  · split <;> simp_all [all_lt]
  · split <;> simp_all [all_lt]

/-- With calibrated thresholds and matching models the gate decides as the predicate of the calibration does. -/
theorem evaluate_route (ht : g.artifact.configuration.thresholds = some t.gate)
    (hmodels : g.artifact.configuration.models = g.models) (ho : o.scores = gateScores (sortBy stableRerankedKey packed))
    (hvalid : o.scores.validate = .ok o.scores) :
    ∃ d, g.evaluate packed = .ok d ∧ (d.route = .answer ↔ gateAnswer o t = true) := by
  have hcalibrated : g.artifact.configuration.calibrated = true := by
    have h := g.artifact.configuration.calibration
    by_contra hc
    rw [if_neg hc, ht] at h
    cases h
  have hdecide : ∀ route reasons, (route = .answer ↔ gateAnswer o t = true) →
      ∃ d, g.decision route reasons o.scores = .ok d ∧ (d.route = .answer ↔ gateAnswer o t = true) := by
    intro route reasons hroute
    obtain ⟨d, hd, hr, -⟩ := decision_spec g route reasons o.scores
    exact ⟨d, hd, hr ▸ hroute⟩
  simp only [ConfidenceGate.evaluate, ← ho, hvalid, hcalibrated, not_true_eq_false, if_false, bind, Except.bind]
  split
  · rename_i hnil
    rw [hnil] at ho
    refine hdecide _ _ (iff_of_false (by simp) ?_)
    obtain ⟨hbest, htop⟩ : o.bestExactScore = none ∧ o.topScore = none :=
      ⟨congrArg GateScores.bestExactScore ho, congrArg GateScores.topScore ho⟩
    simp [gateAnswer, hbest, htop]
  · rw [if_neg (not_not.mpr hmodels), ht]
    dsimp only
    split
    · rename_i hexact
      refine hdecide _ _ (iff_of_true rfl ?_)
      exact if_pos hexact
    · rename_i hexact
      have hanswer : gateAnswer o t = true ↔ gateFailures t.gate o.scores = [] := by
        rw [gateFailures_eq_nil]
        exact iff_of_eq (congrArg (· = true) (if_neg hexact))
      split
      · rename_i hnil
        exact hdecide _ _ (iff_of_true rfl (hanswer.mpr hnil))
      · rename_i hne
        exact hdecide _ _ (iff_of_false (by simp) fun h => hne (hanswer.mp h))

/-- Where the observation is built, the gate answers exactly when the predicate says so; where it is not, the gate
raises. -/
theorem evaluate_eq (ht : g.artifact.configuration.thresholds = some t.gate)
    (hmodels : g.artifact.configuration.models = g.models) :
    (g.evaluate packed).toOption.map (fun d => decide (d.route = .answer)) =
      (gateObservation query packed).toOption.map (gateAnswer · t) := by
  unfold gateObservation
  have ho := observationOf_scores query packed
  rcases validate_scores (observationOf query packed) with ⟨hvalid, hscores⟩ | ⟨e, e', hvalid, hscores⟩
  · obtain ⟨d, hd, hroute⟩ := evaluate_route ht hmodels ho hscores
    rw [hd, hvalid]
    simp only [Except.toOption, Option.map_some, Option.some.injEq]
    rw [Bool.eq_iff_iff, decide_eq_true_iff]
    exact hroute
  · rw [hvalid]
    rw [ho] at hscores
    simp [ConfidenceGate.evaluate, hscores, bind, Except.bind, Except.toOption]

end Etoeragcb.Evaluation
