import Etoeragcb.Content.Normalization
import Etoeragcb.Lib.Result
import Etoeragcb.Lib.Sort
import Etoeragcb.Rag.Candidates

/-!
# Web retrieval

`WebRetriever.retrieve` of `app/rag/web.py`. The pages are fetched side by side, and what the fetch of a hit comes to, by the
place of the hit, is all that counts.
-/

namespace Etoeragcb.Web

open Lib Rag

structure SearchHit where
  rank : Nat
  title : Text
  url : Text
  snippet : Text
  score : ℚ
  engines : List Text
  rank_pos : 1 ≤ rank
  title_length : 1 ≤ title.length ∧ title.length ≤ 1024
  url_length : 1 ≤ url.length ∧ url.length ≤ 4096
  snippet_length : snippet.length ≤ 4000

structure FetchedPage where
  finalUrl : Text
  domain : Text
  text : Text
  contentType : Text
  bytesReceived : Nat
  redirectCount : Nat
  resolvedIp : Text
  finalUrl_length : finalUrl.length ≤ 4096
  domain_length : domain.length ≤ 253

structure WebFailure where
  searchRank : Option Nat
  code : Text
  searchRank_pos : searchRank.all (1 ≤ ·) = true
  code_length : 1 ≤ code.length ∧ code.length ≤ 80
deriving DecidableEq

/-- `WebFailure(search_rank=…, code=…)`, or the fields that fail -/
def WebFailure.validate (searchRank : Option Nat) (code : Text) : Except (List String) WebFailure :=
  if hrank : searchRank.all (1 ≤ ·) = true then
    if hcode : 1 ≤ code.length ∧ code.length ≤ 80 then .ok ⟨searchRank, code, hrank, hcode⟩ else .error ["code"]
  else if 1 ≤ code.length ∧ code.length ≤ 80 then .error ["search_rank"]
  else .error ["search_rank", "code"]

/-- What the search or a fetch raises. -/
inductive ServiceError
  | webRetrievalError (code : Text)
  | unexpected
deriving DecidableEq

inductive Status
  | disabled | empty | ok | incomplete | failed
deriving DecidableEq

structure WebRetrievalResult where
  status : Status
  candidates : List EvidenceCandidate
  failures : List WebFailure
deriving DecidableEq

variable (u : Unicode) (sha256 : Sha256)

def webProvenance (hit : SearchHit) (page : FetchedPage) : Provenance :=
  [("untrusted_source".toList, .bool true),
   ("search_rank".toList, .int hit.rank),
   ("search_engines".toList, .texts hit.engines),
   ("search_snippet".toList, .text hit.snippet),
   ("content_type".toList, .text page.contentType),
   ("bytes_received".toList, .int page.bytesReceived),
   ("redirect_count".toList, .int page.redirectCount)]

/-- `_web_candidate` before the validation -/
def webEvidenceOf (hit : SearchHit) (page : FetchedPage) : EvidenceCandidate :=
  let lexical := Content.normalizeLexical u page.text
  let contentHash := sha256.hexdigest page.text
  let lexicalHash := sha256.hexdigest lexical
  { candidateId := "web-".toList ++ sha256.hexdigest (page.finalUrl ++ Char.ofNat 0 :: contentHash)
    sourceType := .web
    sourceKey := page.finalUrl
    sectionKey := page.finalUrl ++ "#main".toList
    domain := some page.domain
    title := hit.title
    sourceFilename := none
    uri := some page.finalUrl
    pageStart := none
    pageEnd := none
    charStart := none
    charEnd := none
    textOriginal := page.text
    textLexical := lexical
    contentSha256 := contentHash
    lexicalSha256 := lexicalHash
    retrievalRank := hit.rank
    retrievalScore := hit.score
    matchedExactTerms := []
    matchedHints := []
    collapsedCandidateIds := []
    provenance := webProvenance hit page }

def webCandidate (hit : SearchHit) (page : FetchedPage) : Except (List String) EvidenceCandidate :=
  (webEvidenceOf u sha256 hit page).validate

/-- `fetch` of a hit, with its `except` clauses -/
def fetchHit (hit : SearchHit) : Except ServiceError FetchedPage → Except (List String) (FetchedPage ⊕ WebFailure)
  | .ok page => .ok (.inl page)
  | .error (.webRetrievalError code) => (WebFailure.validate (some hit.rank) code).map .inr
  | .error .unexpected => (WebFailure.validate (some hit.rank) "fetch_unexpected".toList).map .inr

structure Collected where
  candidates : List EvidenceCandidate
  failures : List WebFailure
  finalUrls : List Text

def collect (state : Collected) (item : SearchHit × (FetchedPage ⊕ WebFailure)) : Except (List String) Collected :=
  match item.2 with
  | .inr failure => .ok { state with failures := state.failures ++ [failure] }
  | .inl page =>
      if page.finalUrl ∈ state.finalUrls then do
        let failure ← WebFailure.validate (some item.1.rank) "duplicate_final_url".toList
        return { state with failures := state.failures ++ [failure] }
      else do
        let candidate ← webCandidate u sha256 item.1 page
        return ⟨state.candidates ++ [candidate], state.failures, page.finalUrl :: state.finalUrls⟩

def resultStatus (candidates : List EvidenceCandidate) (failures : List WebFailure) : Status :=
  if candidates ≠ [] ∧ failures ≠ [] then .incomplete
  else if candidates ≠ [] then .ok
  else if failures ≠ [] then .failed
  else .empty

/-- `retrieve`, with what the search and each of the fetches comes to -/
def retrieve (search : Except ServiceError (List SearchHit)) (fetch : ℕ → Except ServiceError FetchedPage) :
    Except (List String) WebRetrievalResult :=
  match search with
  | .error (.webRetrievalError code) => (WebFailure.validate none code).map fun failure => ⟨.failed, [], [failure]⟩
  | .error .unexpected =>
      (WebFailure.validate none "search_unexpected".toList).map fun failure => ⟨.failed, [], [failure]⟩
  | .ok [] => .ok ⟨.empty, [], []⟩
  | .ok hits => do
      let fetched ← hits.zipIdx.mapM fun x => (fetchHit x.1 (fetch x.2)).map fun result => (x.1, result)
      let state ← (sortBy (fun item => item.1.rank) fetched).foldlM (collect u sha256) ⟨[], [], []⟩
      return ⟨resultStatus state.candidates state.failures, state.candidates, state.failures⟩

end Etoeragcb.Web
