import Etoeragcb.Web.Http
import Etoeragcb.Web.Retriever

/-!
# Fetching a page

`SafePageFetcher` of `app/web/fetcher.py`. What the resolver and the transport answer may depend on all that has happened
before; an answer is also where the deadline cuts the fetch short. `extract_text` is a parameter, its text comes behind all
calls.
-/

namespace Etoeragcb.Web

open Lib

inductive FetchError
  | webFetchError (e : WebFetchError)
  | timeoutError
  | valueError
  | validationError
  | raised (name : String)
deriving DecidableEq

/-- A call to the resolver or to the transport, with its answer. -/
inductive FetchEvent
  | resolve (host : Text) (port : Nat) (answer : Except FetchError (List IpAddress))
  | fetchOnce (url : ValidatedUrl) (address : IpAddress) (answer : Except FetchError HttpResponse)

/-- A resolver and a transport, which know what has happened before. -/
structure Network where
  resolve : List FetchEvent → Text → Nat → Except FetchError (List IpAddress)
  fetchOnce : List FetchEvent → ValidatedUrl → IpAddress → Except FetchError HttpResponse

/-- `response.header(name)` -/
def HttpResponse.header (response : HttpResponse) (name : String) : Option Text := (valuesOf response.headers name).head?

/-- `FetchedPage(…)` -/
def fetchedPage (finalUrl domain text contentType : Text) (bytesReceived redirectCount : Nat) (resolvedIp : Text) :
    Except FetchError FetchedPage :=
  if hurl : finalUrl.length ≤ 4096 then
    if hdomain : domain.length ≤ 253 then
      .ok ⟨finalUrl, domain, text, contentType, bytesReceived, redirectCount, resolvedIp, hurl, hdomain⟩
    else .error .validationError
  else .error .validationError

structure SafePageFetcher where
  idna : Text → Option Text
  extractText : Bytes → Option Text → Except FetchError (Text × Text)
  allowedPorts : List Nat
  maxRedirects : Nat

namespace SafePageFetcher

variable (u : Unicode) (fetcher : SafePageFetcher) (network : Network)

def webError (code message : String) : FetchError := .webFetchError ⟨code, message⟩

/-- A hop up to the response: the host is resolved, its addresses are checked and the first one is asked. -/
def request (events : List FetchEvent) (validated : ValidatedUrl) :
    List FetchEvent × Except FetchError (IpAddress × HttpResponse) :=
  let answer := network.resolve events validated.host validated.port
  let events := events ++ [.resolve validated.host validated.port answer]
  match answer with
  | .error e => (events, .error e)
  | .ok addresses => match validatePublicAddresses addresses, addresses with
    | .error e, _ => (events, .error (.webFetchError e))
    | .ok (), [] => (events, .error (.raised "IndexError"))
    | .ok (), pinnedAddress :: _ =>
        let answer := network.fetchOnce events validated pinnedAddress
        (events ++ [.fetchOnce validated pinnedAddress answer], answer.map fun response => (pinnedAddress, response))

/-- What a response leads to: another URL, or the page. -/
def respond (redirectCount : Nat) (validated : ValidatedUrl) (pinnedAddress : IpAddress) (response : HttpResponse) :
    Except FetchError (Text ⊕ FetchedPage) :=
  if response.status ∈ redirectStatuses then
    match response.header "location" with
    | none => .error (webError "invalid_redirect" "redirect Location is missing")
    | some location =>
        if fetcher.maxRedirects ≤ redirectCount then .error (webError "redirect_limit" "redirect limit exceeded")
        else match urljoin u validated.canonicalUrl location with
          | none => .error .valueError
          | some current => .ok (.inl current)
  else if ¬(200 ≤ response.status ∧ response.status < 300) then
    .error (webError "http_status" "page returned a non-success status")
  else do
    let (text, mediaType) ← fetcher.extractText response.body (response.header "content-type")
    let page ← fetchedPage validated.canonicalUrl validated.host text mediaType response.body.length redirectCount
      pinnedAddress.compressed
    return .inr page

/-- The loop of `_fetch_redirect_chain` over the redirect counts that are left. -/
def followRedirects : List Nat → Text → List Text → List FetchEvent → List FetchEvent × Except FetchError FetchedPage
  | [], _, _, events => (events, .error (webError "redirect_limit" "redirect limit exceeded"))
  | redirectCount :: redirectCounts, current, visited, events =>
      match validateUrl u fetcher.idna fetcher.allowedPorts current with
      | .error e => (events, .error (.webFetchError e))
      | .ok validated =>
          if validated.canonicalUrl ∈ visited then (events, .error (webError "redirect_loop" "redirect loop detected"))
          else
            let (events, answer) := request network events validated
            match answer.bind fun (pinnedAddress, response) =>
              respond u fetcher redirectCount validated pinnedAddress response with
            | .error e => (events, .error e)
            | .ok (.inr page) => (events, .ok page)
            | .ok (.inl current) => followRedirects redirectCounts current (validated.canonicalUrl :: visited) events

def fetchRedirectChain (url : Text) : List FetchEvent × Except FetchError FetchedPage :=
  followRedirects u fetcher network (List.range (fetcher.maxRedirects + 1)) url [] []

/-- The calls that `fetch` makes, and what comes of it. -/
def fetch (url : Text) : List FetchEvent × Except FetchError FetchedPage :=
  let (events, result) := fetchRedirectChain u fetcher network url
  match result with
  | .error .timeoutError => (events, .error (webError "timeout" "page fetch exceeded its total deadline"))
  | result => (events, result)

end SafePageFetcher

end Etoeragcb.Web
