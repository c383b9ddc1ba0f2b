import Etoeragcb.Evaluation.Calibration
import Etoeragcb.Lib.Dict
import Mathlib.Analysis.SpecialFunctions.Log.Base

/-!
# Discounted gain

`_ndcg` and `_dcg` of `app/evaluation/metrics.py` and of `app/evaluation/history_scoring.py`, and what
`ranking_metrics` makes of
them, over the real numbers.
-/

namespace Etoeragcb.Evaluation

open Lib

/-- `(2**grade - 1) / math.log2(rank + 1)` -/
noncomputable def discountedGain (grade rank : ℕ) : ℝ := ((2 : ℝ) ^ grade - 1) / Real.logb 2 (rank + 1)

noncomputable def gain (grade : ℕ) : ℝ := (2 : ℝ) ^ grade - 1

noncomputable def discount (i : ℕ) : ℝ := 1 / Real.logb 2 (i + 2)

/-- `sorted(values, reverse=True)` -/
def sortedDown (values : List ℕ) : List ℕ := values.insertionSort fun a b => b ≤ a

namespace Metrics

noncomputable def dcg (grades : List ℕ) : ℝ := ((grades.zipIdx 1).map fun (grade, rank) => discountedGain grade rank).sum

open Classical in
noncomputable def ndcg (relevance : List (Text × ℕ)) (ranked : List Text) (limit : ℕ) : ℝ :=
  let observed := (ranked.take limit).map fun candidateId => (Dict.get? relevance candidateId).getD 0
  let ideal := (sortedDown (relevance.map Prod.snd)).take limit
  let idealScore := dcg ideal
  if idealScore ≠ 0 then dcg observed / idealScore else 0

end Metrics

namespace HistoryScoring

noncomputable def dcg (grades : List ℕ) : ℝ := ((grades.zipIdx 1).map fun (grade, rank) => discountedGain grade rank).sum

open Classical in
noncomputable def ndcg (grades : List (Text × ℕ)) (ranking : List Text) (limit : ℕ) : ℝ :=
  let observed := (ranking.take limit).map fun key => (Dict.get? grades key).getD 0
  let ideal := (sortedDown (grades.map Prod.snd)).take limit
  let denominator := dcg ideal
  if denominator ≠ 0 then dcg observed / denominator else 0

end HistoryScoring

structure QueryRanking where
  queryId : Text
  rankedIds : List Text
deriving DecidableEq

def GoldenQuery.labelsValid (query : GoldenQuery) : Bool :=
  decide (query.answerable = !query.relevance.isEmpty) && query.relevance.all fun x => 1 ≤ x.2 && x.2 ≤ 3

/-- `{item.query_id: item for item in rankings}` -/
def rankingByQuery (rankings : List QueryRanking) : List (Text × QueryRanking) :=
  rankings.foldl (fun d item => Dict.set d item.queryId item) []

noncomputable def mean (values : List ℝ) : ℝ := if values = [] then 0 else values.sum / values.length

inductive MetricsError
  | valueError (message : String)
  | keyError (queryId : Text)
deriving DecidableEq

noncomputable def queryNdcg (rankings : List QueryRanking) (query : GoldenQuery) : Except MetricsError ℝ :=
  match Dict.get? (rankingByQuery rankings) query.id with
  | none => .error (.keyError query.id)
  | some ranking => .ok (Metrics.ndcg query.relevance ranking.rankedIds 10)

noncomputable def ndcgAt10 (queries : List GoldenQuery) (rankings : List QueryRanking) : Except MetricsError ℝ :=
  let positives := queries.filter (·.answerable)
  if positives = [] then .error (.valueError "ranking metrics require an answerable query")
  else (positives.mapM (queryNdcg rankings)).map mean

end Etoeragcb.Evaluation
