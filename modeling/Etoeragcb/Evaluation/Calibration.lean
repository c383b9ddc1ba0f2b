import Etoeragcb.Lib.Binary64
import Etoeragcb.Rag.Postprocess

/-!
# Calibration of the gate

`app/evaluation/calibration.py` with the models of `app/evaluation/schemas.py` that it reads and returns, and
`_gate_observation` of `app/evaluation/engine.py`. Scores are rational numbers, and the operations of the metrics and
of the sweep round their results to doubles.
-/

namespace Etoeragcb.Evaluation

open Lib Models Rag

/-- Of a golden query, what an observation takes from it. -/
structure GoldenQuery where
  id : Text
  answerable : Bool
  relevance : List (Text × Nat)
deriving DecidableEq

structure GateObservation where
  queryId : Text
  expectedAnswer : Bool
  answerable : Bool
  relevantInContext : Bool
  topScore : Option ℚ
  secondScore : Option ℚ
  scoreMargin : Option ℚ
  bestExactScore : Option ℚ
  evidenceCount : Nat
deriving DecidableEq

def GateObservation.validate (o : GateObservation) : Except String GateObservation :=
  if o.topScore.all inUnit ∧ o.secondScore.all inUnit ∧ o.scoreMargin.all inUnit ∧ o.bestExactScore.all inUnit then
    .ok o
  else .error "gate observation"

structure CalibratedThresholds where
  topScoreMin : ℚ
  scoreMarginMin : ℚ
  exactScoreMin : ℚ
  minEvidence : Nat
deriving DecidableEq

def CalibratedThresholds.validate (t : CalibratedThresholds) : Except String CalibratedThresholds :=
  if inUnit t.topScoreMin ∧ inUnit t.scoreMarginMin ∧ inUnit t.exactScoreMin ∧ 1 ≤ t.minEvidence ∧
      t.minEvidence ≤ 100 then
    .ok t
  else .error "calibrated thresholds"

/-- The thresholds as an artifact of the gate holds them. -/
def CalibratedThresholds.gate (t : CalibratedThresholds) : GateThresholds :=
  ⟨t.topScoreMin, t.scoreMarginMin, t.exactScoreMin, t.minEvidence⟩

structure ClassificationMetrics where
  truePositive : Nat
  falsePositive : Nat
  trueNegative : Nat
  falseNegative : Nat
  precision : ℚ
  «recall» : ℚ
  f1 : ℚ
deriving DecidableEq

def ClassificationMetrics.validate (m : ClassificationMetrics) : Except String ClassificationMetrics :=
  if inUnit m.precision ∧ inUnit m.«recall» ∧ inUnit m.f1 then .ok m else .error "classification metrics"

structure CalibrationEvaluation where
  thresholds : CalibratedThresholds
  metrics : ClassificationMetrics
  precisionTarget : ℚ
  recallTarget : ℚ
  targetsMet : Bool
  combinationsEvaluated : Nat
  observations : List GateObservation
deriving DecidableEq

/-! ## Observations -/

/-- `_gate_observation` before the validation. -/
def observationOf (query : GoldenQuery) (packed : List RerankedEvidence) : GateObservation :=
  let ranked := sortBy stableRerankedKey packed
  let topScore := ranked[0]?.map (·.rerankScore)
  let secondScore := ranked[1]?.map (·.rerankScore)
  let exactScores := (ranked.filter fun x => x.candidate.matchedExactTerms ≠ []).map (·.rerankScore)
  let relevantInContext := ranked.any fun x => x.candidate.candidateId ∈ query.relevance.map Prod.fst
  { queryId := query.id
    expectedAnswer := query.answerable && relevantInContext
    answerable := query.answerable
    relevantInContext := relevantInContext
    topScore := topScore
    secondScore := secondScore
    scoreMargin := match topScore, secondScore with
      | some top, some second => some (top - second)
      | _, _ => topScore
    bestExactScore := exactScores.max?
    evidenceCount := ranked.length }

def gateObservation (query : GoldenQuery) (packed : List RerankedEvidence) : Except String GateObservation :=
  (observationOf query packed).validate

/-! ## Classification -/

def gateAnswer (observation : GateObservation) (thresholds : CalibratedThresholds) : Bool :=
  if observation.bestExactScore.any (thresholds.exactScoreMin ≤ ·) then true
  else thresholds.minEvidence ≤ observation.evidenceCount &&
    observation.topScore.any (thresholds.topScoreMin ≤ ·) && observation.scoreMargin.any (thresholds.scoreMarginMin ≤ ·)

structure Counters where
  truePositive : Nat
  falsePositive : Nat
  trueNegative : Nat
  falseNegative : Nat
deriving DecidableEq

def precision (n : Counters) : ℚ :=
  if n.truePositive + n.falsePositive ≠ 0 then
    Binary64.round (n.truePositive / (n.truePositive + n.falsePositive))
  else 0

def «recall» (n : Counters) : ℚ :=
  if n.truePositive + n.falseNegative ≠ 0 then
    Binary64.round (n.truePositive / (n.truePositive + n.falseNegative))
  else 0

def f1 (precision «recall» : ℚ) : ℚ :=
  let total := Binary64.round (precision + «recall»)
  if total ≠ 0 then Binary64.round (Binary64.round (Binary64.round (2 * precision) * «recall») / total) else 0

/-- The body of the loop of `classification_metrics`. -/
def countObservation (thresholds : CalibratedThresholds) (n : Counters) (observation : GateObservation) : Counters :=
  let predicted := gateAnswer observation thresholds
  if predicted && observation.expectedAnswer then { n with truePositive := n.truePositive + 1 }
  else if predicted then { n with falsePositive := n.falsePositive + 1 }
  else if observation.expectedAnswer then { n with falseNegative := n.falseNegative + 1 }
  else { n with trueNegative := n.trueNegative + 1 }

def classificationMetrics (observations : List GateObservation) (thresholds : CalibratedThresholds) :
    Except String ClassificationMetrics :=
  let n := observations.foldl (countObservation thresholds) ⟨0, 0, 0, 0⟩
  ClassificationMetrics.validate ⟨n.truePositive, n.falsePositive, n.trueNegative, n.falseNegative, precision n,
    «recall» n, f1 (precision n) («recall» n)⟩

/-- The tuple that `_raw_classification` returns. -/
abbrev RawMetrics := Nat × Nat × Nat × Nat × ℚ × ℚ × ℚ

/-- The body of the loop of `_raw_classification`. -/
def countRaw (topScore margin exactScore : ℚ) (minEvidence : Nat) (n : Counters) (observation : GateObservation) :
    Counters :=
  let exactPass := observation.bestExactScore.any (exactScore ≤ ·)
  let thresholdPass := minEvidence ≤ observation.evidenceCount && observation.topScore.any (topScore ≤ ·) &&
    observation.scoreMargin.any (margin ≤ ·)
  let predicted := exactPass || thresholdPass
  if predicted && observation.expectedAnswer then { n with truePositive := n.truePositive + 1 }
  else if predicted then { n with falsePositive := n.falsePositive + 1 }
  else if observation.expectedAnswer then { n with falseNegative := n.falseNegative + 1 }
  else { n with trueNegative := n.trueNegative + 1 }

def rawClassification (observations : List GateObservation) (topScore margin exactScore : ℚ) (minEvidence : Nat) :
    RawMetrics :=
  let n := observations.foldl (countRaw topScore margin exactScore minEvidence) ⟨0, 0, 0, 0⟩
  (n.truePositive, n.falsePositive, n.trueNegative, n.falseNegative, precision n, «recall» n, f1 (precision n) («recall» n))

/-- The fields of the metrics in the order of the tuple. -/
def RawMetrics.metrics (m : RawMetrics) : ClassificationMetrics :=
  ⟨m.1, m.2.1, m.2.2.1, m.2.2.2.1, m.2.2.2.2.1, m.2.2.2.2.2.1, m.2.2.2.2.2.2⟩

/-! ## The sweep -/

/-- `round(value, 6)`: the double of the decimal number that is nearest to the exact value. -/
def round6 (value : ℚ) : ℚ := Binary64.round (roundEven (value * 1000000) / 1000000)

def scoreCandidates (values : List ℚ) : List ℚ :=
  sortBy id (0 :: 1 :: values.flatMap fun value =>
    let rounded := round6 value
    [rounded, min 1 (round6 (Binary64.round (rounded + Binary64.round (1 / 1000000))))]).dedup

/-- The grid of `sweep_thresholds`, in the order of its loops. -/
def thresholdGrid (observations : List GateObservation) : List CalibratedThresholds :=
  let topValues := scoreCandidates (observations.filterMap (·.topScore))
  let marginValues := scoreCandidates (observations.filterMap (·.scoreMargin))
  let exactValues := scoreCandidates (observations.filterMap (·.bestExactScore))
  let maxEvidence := (observations.map (·.evidenceCount)).foldl max 0
  let evidenceValues := (List.range (max 1 (min 12 maxEvidence))).map (· + 1)
  topValues.flatMap fun topScore => marginValues.flatMap fun margin => exactValues.flatMap fun exactScore =>
    evidenceValues.map fun minEvidence => ⟨topScore, margin, exactScore, minEvidence⟩

/-- What the sweep prefers, in this order. -/
abbrev SweepScore := ℚ ×ₗ ℚ ×ₗ ℚ ×ₗ ℚ ×ₗ ℚ ×ₗ ℚ

variable (precisionTarget recallTarget : ℚ)

def targetsMet (m : ClassificationMetrics) : Bool := precisionTarget ≤ m.precision && recallTarget ≤ m.«recall»

def sweepScore (t : CalibratedThresholds) (m : ClassificationMetrics) : SweepScore :=
  toLex (if targetsMet precisionTarget recallTarget m then 1 else 0, toLex (m.f1, toLex (m.precision, toLex (m.«recall»,
    toLex (Binary64.round (Binary64.round (t.topScoreMin + t.scoreMarginMin) + t.exactScoreMin),
      (t.minEvidence : ℚ))))))

abbrev Best := Option (SweepScore × CalibratedThresholds × RawMetrics)

def sweepOne (observations : List GateObservation) (best : Best) (t : CalibratedThresholds) : Best :=
  let raw := rawClassification observations t.topScoreMin t.scoreMarginMin t.exactScoreMin t.minEvidence
  let score := sweepScore precisionTarget recallTarget t raw.metrics
  if best.all (·.1 < score) then some (score, t, raw) else best

def sweepThresholds (observations : List GateObservation) : Except String CalibrationEvaluation := do
  if observations = [] ∨ ¬observations.any (·.expectedAnswer) then
    throw "calibration requires positive and negative observations"
  else
    let grid := thresholdGrid observations
    match grid.foldl (sweepOne precisionTarget recallTarget observations) none with
    | none => throw "threshold sweep did not evaluate a candidate"
    | some (_, best, raw) => do
        let thresholds ← best.validate
        let metrics ← raw.metrics.validate
        return ⟨thresholds, metrics, precisionTarget, recallTarget, targetsMet precisionTarget recallTarget metrics,
          grid.length, observations⟩

end Etoeragcb.Evaluation
