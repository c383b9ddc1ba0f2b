import Etoeragcb.Lib.Dict
import Etoeragcb.Rag.Retriever
import Mathlib.Data.Char
import Mathlib.Data.List.Lex

/-!
# The ranking of the evaluation

`_hybrid_ranking` of `app/evaluation/engine.py`, from the rankings of the two branches on. A record has the fields that
the ranking reads.
-/

namespace Etoeragcb.Evaluation

open Lib Models Content

structure CorpusRecord where
  id : Text
  documentId : Text
  text : Text
deriving DecidableEq

structure HybridQuery where
  exactTerms : List Text
  boostDocumentIds : List Text
deriving DecidableEq

structure BranchRanking where
  ids : List Text
  scores : List ℚ
deriving DecidableEq

def rrfK : Nat := 60

def rankScores (scores : List (Text × ℚ)) (limit : Nat) : BranchRanking :=
  let ordered := (sortBy (fun x => toLex (-x.2, x.1)) scores).take limit
  ⟨ordered.map Prod.fst, ordered.map Prod.snd⟩

/-- `fusion[id] = fusion.get(id, 0.0) + 1 / (RRF_K + rank)` -/
def addRank (fusion : List (Text × ℚ)) (x : Text × Nat) : List (Text × ℚ) :=
  Dict.set fusion x.1 ((Dict.get? fusion x.1).getD 0 + Rag.rrf rrfK x.2)

def addRanks (fusion : List (Text × ℚ)) (ids : List Text) : List (Text × ℚ) := (ids.zipIdx 1).foldl addRank fusion

/-- `record_by_id[id]`, where the last of several records with one id is kept. -/
def recordById (records : List CorpusRecord) (id : Text) : Option CorpusRecord :=
  records.reverse.find? fun record => record.id = id

/-- A candidate of the base order, with its record and its rank. -/
structure BaseEntry where
  candidateId : Text
  record : CorpusRecord
  baseRank : Nat

variable (u : Unicode)

/-- The candidates of the base order with their records. A candidate without a record raises. -/
def baseEntries (records : List CorpusRecord) (baseOrder : List Text) : Option (List BaseEntry) :=
  (baseOrder.zipIdx 1).mapM fun x => (recordById records x.1).map fun record => ⟨x.1, record, x.2⟩

/-- An entry of `exact_matches`: how many terms match, the first position, the base rank and the id. -/
def exactEntry (terms : List (Text × Text)) (x : BaseEntry) : Option (Nat × Nat × Nat × Text) :=
  let lexical := normalizeLexical u x.record.text
  match terms.filter fun t => t.2 <:+: lexical with
  | [] => none
  | m :: ms =>
      some ((m :: ms).length, (((m :: ms).map fun t => Rag.findText t.2 lexical).min?).getD 0, x.baseRank, x.candidateId)

def hintEntry (boostDocumentIds : List Text) (x : BaseEntry) : Option (Nat × Text) :=
  if x.record.documentId ∈ boostDocumentIds then some (x.baseRank, x.candidateId) else none

def hybridRanking (records : List CorpusRecord) (query : HybridQuery) (dense sparse : BranchRanking) (rerankPool : Nat) :
    Option BranchRanking := do
  let fusion := addRanks (addRanks [] dense.ids) sparse.ids
  let baseOrder := (sortBy (fun x => toLex (-x.2, x.1)) fusion).map Prod.fst
  let terms := (query.exactTerms.map fun term => (term, normalizeLexical u term)).filter fun x => x.2 ≠ []
  let entries ← baseEntries records baseOrder
  let exactMatches := sortBy (fun x => toLex (-(x.1 : ℤ), toLex (x.2.1, toLex (x.2.2.1, x.2.2.2))))
    (entries.filterMap (exactEntry u terms))
  let hintMatches := sortBy (fun x => toLex (x.1, x.2)) (entries.filterMap (hintEntry query.boostDocumentIds))
  return rankScores (addRanks (addRanks fusion (exactMatches.map fun x => x.2.2.2)) (hintMatches.map Prod.snd)) rerankPool

end Etoeragcb.Evaluation
