import Etoeragcb.Lib.Json
import Etoeragcb.Lib.Result
import Etoeragcb.Rag.Postprocess
import Mathlib.Data.List.ReduceOption

/-!
# The reranker

`TeiReranker` of `app/rag/reranker.py`, with its requests and its cache. The service replies to an attempt of a
batch, and the
cache to a key.
-/

namespace Etoeragcb.Rag

open Lib Models

/-- What `response.json()` returns. A float is a rational number, or it is not finite. -/
inductive PyValue
  | none
  | bool (b : Bool)
  | int (n : ℤ)
  | float (q : Option ℚ)
  | str (s : Text)
  | list (items : List PyValue)
  | dict (members : List (Text × PyValue))

/-- `members.get(name)` -/
def member (members : List (Text × PyValue)) (name : String) : PyValue := (Dict.get? members name.toList).getD .none

structure Response where
  status : ℕ
  json : Option PyValue

/-- The response to a request, or nothing where the client raises `HTTPError`. -/
abbrev Reply := Option Response

/-- The replies by the number of the batch, the number of the attempt, the query and the texts. -/
abbrev RerankService := ℕ → ℕ → Text → List Text → Reply

structure TeiReranker where
  modelRevision : Text
  maxCandidates : ℕ
  batchSize : ℕ
  maxRetries : ℕ
  cacheTtl : ℤ
  maxCandidates_pos : 1 ≤ maxCandidates
  batchSize_pos : 1 ≤ batchSize

/-! ## A batch -/

def requestFailed : String := "TEI reranker request failed"

/-- The payload of a reply that is not followed by another attempt. -/
def takeReply : Reply → Except String PyValue
  | none => .error requestFailed
  | some response =>
      if 200 ≤ response.status ∧ response.status < 300 then orRaise response.json requestFailed else .error requestFailed

/-- The loop over the attempts, with the number of those that may follow. -/
def request (reply : ℕ → Reply) : ℕ → ℕ → Except String PyValue
  | attempt, 0 => takeReply (reply attempt)
  | attempt, retries + 1 =>
      if (reply attempt).any (·.status = 429) then request reply (attempt + 1) retries else takeReply (reply attempt)

def entriesOf : PyValue → PyValue
  | .dict members => member members "results"
  | payload => payload

/-- An instance of `int` -/
def indexValue : PyValue → Option ℤ
  | .int n => some n
  | .bool b => some (if b then 1 else 0)
  | _ => none

/-- An instance of `int` or `float`, and not of `bool` -/
def scoreValue : PyValue → Option (Option ℚ)
  | .int n => some (some n)
  | .float q => some q
  | _ => none

variable {n : ℕ}

/-- The list `scores` while it is filled. -/
structure Slots (n : ℕ) where
  values : List (Option ℚ)
  length_eq : values.length = n
  inUnit_of_mem : ∀ q, some q ∈ values → inUnit q = true

def Slots.empty (n : ℕ) : Slots n where
  values := List.replicate n none
  length_eq := List.length_replicate
  inUnit_of_mem _ h := nomatch (List.mem_replicate.mp h).2

def Slots.set (slots : Slots n) (i : ℕ) (q : ℚ) (h : inUnit q = true) : Slots n where
  values := slots.values.set i (some q)
  length_eq := by rw [List.length_set, slots.length_eq]
  inUnit_of_mem p hp := by
    rcases List.mem_or_eq_of_mem_set hp with hp | hp
    · exact slots.inUnit_of_mem p hp
    · exact Option.some.inj hp ▸ h

def place (slots : Slots n) : PyValue → Except String (Slots n)
  | .dict members =>
      match indexValue (member members "index"), scoreValue (member members "score") with
      | some index, some score =>
          if 0 ≤ index ∧ slots.values[index.toNat]? = some none then
            match score with
            | some q =>
                if h : inUnit q = true then .ok (slots.set index.toNat q h)
                else .error "TEI normalized rerank score is outside [0, 1]"
            | none => .error "TEI normalized rerank score is outside [0, 1]"
          else .error "TEI reranker returned an invalid index or score"
      | _, _ => .error "TEI reranker returned an invalid index or score"
  | _ => .error "TEI reranker returned a malformed result"

def Slots.scores (slots : Slots n) : Except String (Scores n) :=
  if h : ∀ s ∈ slots.values, s.isSome = true then
    .ok {
      values := slots.values.reduceOption
      length_eq := by rw [List.reduceOption_length_eq_iff.mpr h, slots.length_eq]
      inUnit_of_mem := fun q hq => slots.inUnit_of_mem q (List.reduceOption_mem_iff.mp hq) }
  else .error "TEI reranker omitted a result"

/-- `_score_batch` of `n` texts -/
def scoreBatch (maxRetries : ℕ) (reply : ℕ → Reply) (n : ℕ) : Except String (Scores n) :=
  match request reply 0 maxRetries with
  | .error e => .error e
  | .ok .none => .error "TEI reranker returned no payload"
  | .ok payload => match entriesOf payload with
    | .list entries =>
        if entries.length = n then do
          let slots ← entries.foldlM place (Slots.empty n)
          slots.scores
        else .error "TEI reranker returned an invalid result count"
    | _ => .error "TEI reranker returned an invalid result count"

/-! ## The batches -/

def Scores.nil : Scores 0 := ⟨[], rfl, nofun⟩

def Scores.append {m : ℕ} (s : Scores n) (t : Scores m) : Scores (n + m) where
  values := s.values ++ t.values
  length_eq := by rw [List.length_append, s.length_eq, t.length_eq]
  inUnit_of_mem q hq := (List.mem_append.mp hq).elim (s.inUnit_of_mem q) (t.inUnit_of_mem q)

def Scores.cast {m : ℕ} (h : n = m) (s : Scores n) : Scores m := ⟨s.values, s.length_eq.trans h, s.inUnit_of_mem⟩

/-- The items from each of the offsets `range(0, len(items), size)`. -/
def batches {α : Type} (size : ℕ) (items : List α) : List (List α) :=
  (List.range' 0 ((items.length + size - 1) / size) size).map fun offset => (items.drop offset).take size

theorem flatten_batchesFrom {α : Type} (size : ℕ) (items : List α) (start count : ℕ) :
    ((List.range' start count size).map fun offset => (items.drop offset).take size).flatten =
      (items.drop start).take (count * size) := by
  induction count generalizing start with
  | zero => simp
  | succ count ih =>
      rw [List.range'_succ, List.map_cons, List.flatten_cons, ih, Nat.succ_mul, Nat.add_comm (count * size), List.take_add,
        List.drop_drop]

theorem flatten_batches {α : Type} {size : ℕ} (h : 1 ≤ size) (items : List α) : (batches size items).flatten = items := by
  have hcover : items.length ≤ (items.length + size - 1) / size * size := by
    have hmod := Nat.mod_lt (items.length + size - 1) h
    have hdiv := Nat.div_add_mod (items.length + size - 1) size
    rw [Nat.mul_comm] at hdiv
    omega
  rw [batches, flatten_batchesFrom, List.drop_zero, List.take_of_length_le hcover]

def scoreBatches (maxRetries : ℕ) (service : RerankService) (query : Text) :
    ℕ → (bs : List (List EvidenceCandidate)) → Except String (Scores bs.flatten.length)
  | _, [] => .ok Scores.nil
  | k, batch :: bs => do
      let scores ← scoreBatch maxRetries (fun attempt => service k attempt query (batch.map (·.textOriginal))) batch.length
      let others ← scoreBatches maxRetries service query (k + 1) bs
      return (scores.append others).cast (by rw [List.flatten_cons, List.length_append])

def TeiReranker.score (r : TeiReranker) (service : RerankService) (query : Text) (candidates : List EvidenceCandidate) :
    Except String (Scores candidates.length) :=
  (scoreBatches r.maxRetries service query 0 (batches r.batchSize candidates)).map
    (Scores.cast (by rw [flatten_batches r.batchSize_pos]))

/-! ## The cache -/

/-- `_CachedScores`, where a score may be a float that is not finite. -/
structure CachedScores where
  candidateIds : List Text
  scores : List (Option ℚ)
deriving DecidableEq

/-- What the cache has under a key: the payload that is read is valid or not. -/
inductive CacheRead
  | raises
  | missing
  | invalid
  | cached (c : CachedScores)
deriving DecidableEq

/-- `_cache_get`; there may be no cache. -/
def cacheGet (read : Option CacheRead) (candidates : List EvidenceCandidate) : Option (Scores candidates.length) :=
  match read with
  | some (.cached c) =>
      if h : c.candidateIds = candidates.map (·.candidateId) ∧ c.scores.length = candidates.length ∧
          ∀ s ∈ c.scores, s.any inUnit = true then
        some {
          values := c.scores.reduceOption
          length_eq := by
            rw [← h.2.1, List.reduceOption_length_eq_iff]
            exact fun s hs => Option.isSome_of_any (h.2.2 s hs)
          inUnit_of_mem := fun q hq => h.2.2 _ (List.reduceOption_mem_iff.mp hq) }
      else none
  | _ => none

/-- `cache_key("rerank", …)` -/
def rerankKey (sha256 : Text → Text) (query revision : Text) (candidates : List EvidenceCandidate) : Text :=
  let payload := Json.obj [
    ("candidates".toList, .arr (candidates.map fun item =>
      .arr [.str item.candidateId, .str item.contentSha256, .str item.lexicalSha256])),
    ("query".toList, .str query),
    ("revision".toList, .str revision)]
  "rag:rerank:v1:".toList ++ sha256 payload.encode

/-- `_cache_set`: the payload that is written under a key. -/
def cacheSet (hasCache : Bool) (cacheTtl : ℤ) (key : Text) (candidates : List EvidenceCandidate) (scores : List ℚ) :
    Option (Text × CachedScores) :=
  if hasCache ∧ 0 < cacheTtl then some (key, ⟨candidates.map (·.candidateId), scores.map some⟩) else none

/-- `rerank`, with what it writes to the cache -/
def TeiReranker.rerank (sha256 : Text → Text) (r : TeiReranker) (service : RerankService) (cache : Option (Text → CacheRead))
    (query : Text) (candidates : List EvidenceCandidate) :
    Except String (List RerankedEvidence × Option (Text × CachedScores)) :=
  let pool := bounded r.maxCandidates candidates
  if pool = [] then .ok ([], none)
  else
    let key := rerankKey sha256 query r.modelRevision pool
    match cacheGet (cache.map fun read => read key) pool with
    | some scores => (Rag.rerank r.maxCandidates candidates scores).map fun ranked => (ranked, none)
    | none => do
        let scores ← r.score service query pool
        let written := cacheSet cache.isSome r.cacheTtl key pool scores.values
        (Rag.rerank r.maxCandidates candidates scores).map fun ranked => (ranked, written)

end Etoeragcb.Rag
