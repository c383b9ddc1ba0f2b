import Etoeragcb.Web.Lemmas.Fetcher
import Etoeragcb.Web.Lemmas.Http
import Etoeragcb.Web.Lemmas.Sizes
import Etoeragcb.Web.Lemmas.Parser
import Etoeragcb.Web.Lemmas.Breaks
import Etoeragcb.Web.Lemmas.Hits

/-!
# Pages of the web
-/

namespace Etoeragcb.Web

open Lib

/-! ## The text of a page -/

/-- The line breaks of the three conventions come to the same, once is enough, no control character is left but line feeds,
and the words are those of the text, without the characters that are lost. -/
structure Sanitizes (k : Categories) (s : Text) : Prop where
  conventions : sanitizeText k.isOther s = sanitizeText k.isOther (unifyBreaks s)
  idempotent : sanitizeText k.isOther (sanitizeText k.isOther s) = sanitizeText k.isOther s
  printable : ∀ c ∈ sanitizeText k.isOther s, c ≠ '\n' → k.isOther c = false
  words_eq : words (sanitizeText k.isOther s) = wordsOf (keeps k) s

theorem not_sanitizes : ¬∀ k s, Sanitizes k s := by
  intro hall
  have hwords := (hall Categories.ascii "heat\rpump".toList).words_eq
  exact absurd hwords (by decide)

/-- Between the first and the last visible character, a stretch of blanks, line breaks and lost characters with a carriage
return of its own has two line feeds, and a stretch without visible characters that has whitespace keeps some. -/
theorem sanitizes_iff (k : Categories) (s : Text) : Sanitizes k s ↔
    (∀ g ∈ (core k s).splitOnP (isSolid k), loneReturns g = 0 ∨ 2 ≤ g.count '\n') ∧
      ∀ g ∈ (core k s).splitOnP (isVisible k), (∃ c ∈ g, isSpace c = true) → ∃ c ∈ g, isSpace c = true ∧
        keeps k c = true := by
  rw [← sanitizeText_unifyBreaks, ← words_sanitizeText]
  constructor
  · exact fun h => ⟨h.conventions, h.words_eq⟩
  · intro h
    exact ⟨h.1, sanitizeText_sanitizeText k s, fun c => mem_sanitizeText, h.2⟩

/-! ## Skipped elements -/

/-- A text is kept exactly where no skipped element is open. -/
def HidesSkipped (u : Unicode) (events : List ParserEvent) : Prop :=
  ∀ before data after, events = before ++ .data data :: after →
    ((feed u (before ++ [.data data])).parts = (feed u before).parts ++ [data] ↔ openElements u before = [])

/-- The events of a drawing with the end tag of a frame inside. -/
def mismatched : List ParserEvent :=
  [.starttag "svg".toList, .endtag "iframe".toList, .data "alert".toList, .endtag "svg".toList]

theorem not_hidesSkipped : ¬∀ u events, HidesSkipped u events := by
  intro hall
  have hkept := (hall Unicode.latin mismatched [.starttag "svg".toList, .endtag "iframe".toList] "alert".toList
    [.endtag "svg".toList] rfl).mp (by decide)
  exact absurd hkept (by decide)

/-- Wherever a skipped element is open at a text, some stretch of the events that ends there has more start tags of skipped
elements than end tags of them. -/
theorem hidesSkipped_iff (u : Unicode) (events : List ParserEvent) : HidesSkipped u events ↔
    ∀ before data after, events = before ++ .data data :: after → openElements u before ≠ [] →
      ∃ stretch, stretch <:+ before ∧ stretch.countP (isSkipEnd u) < stretch.countP (isSkipStart u) := by
  have hkept : ∀ before data, ((feed u (before ++ [.data data])).parts = (feed u before).parts ++ [data] ↔
      openElements u before = []) ↔ (openElements u before ≠ [] →
        ∃ stretch, stretch <:+ before ∧ stretch.countP (isSkipEnd u) < stretch.countP (isSkipStart u)) := by
    intro before data
    have hclosed : openElements u before = [] → (feed u before).skipDepth = 0 := fun h => by
      have hle := skipDepth_le_length (u := u) before
      rw [h] at hle
      exact Nat.le_zero.mp hle
    rw [parts_data_iff]
    constructor
    · intro h hopen
      have hdepth := mt h.mp hopen
      rw [skipDepth_eq_zero_iff] at hdepth
      push Not at hdepth
      exact hdepth
    · intro h
      refine ⟨fun hdepth => ?_, hclosed⟩
      by_contra hopen
      obtain ⟨stretch, hs, hlt⟩ := h hopen
      exact absurd (skipDepth_eq_zero_iff.mp hdepth stretch hs) (Nat.not_le.mpr hlt)
  constructor
  · intro h before data after hsplit
    exact (hkept before data).mp (h before data after hsplit)
  · intro h before data after hsplit
    exact (hkept before data).mpr (h before data after hsplit)

/-! ## The transport -/

/-- There is a response within the limit, or the exception that the callers expect. -/
def Contained (received : Bytes → Nat) (maxBytes : Nat) (stream : Bytes) : Prop :=
  (∃ response, fetchOnce received maxBytes stream = .ok response ∧ response.body.length ≤ maxBytes) ∨
    ∃ e, fetchOnce received maxBytes stream = .error (.webFetchError e)

/-- A response with the length `²`. -/
def squared : Bytes :=
  [72, 84, 84, 80, 47, 49, 46, 49, 32, 50, 48, 48, 32, 79, 75, 13, 10, 67, 111, 110, 116, 101, 110, 116, 45, 76, 101, 110,
    103, 116, 104, 58, 32, 178, 13, 10, 13, 10]

theorem fetchOnce_squared (received : Bytes → Nat) : fetchOnce received 1 squared = .error .valueError := by
  rfl

theorem not_contained : ¬∀ received maxBytes stream, Contained received maxBytes stream := by
  intro hall
  rcases hall List.length 1 squared with ⟨response, hok, -⟩ | ⟨e, herr⟩
  · rw [fetchOnce_squared] at hok
    cases hok
  · rw [fetchOnce_squared] at herr
    cases herr

/-- Where the head is accepted, is of no redirect and does not say that the content is compressed, a length has no
superscript and at most 4300 digits, and behind chunks there is no line that is too long. -/
theorem contained_iff (received : Bytes → Nat) (maxBytes : Nat) (stream : Bytes) : Contained received maxBytes stream ↔
    ∀ status headers rest, readResponseHead stream = .ok ((status, headers), rest) → status ∉ redirectStatuses →
      IsIdentity headers → ¬Unreadable headers maxBytes rest := by
  cases hhead : readResponseHead stream with
  | error e =>
      obtain ⟨w, rfl⟩ := readResponseHead_error hhead
      have herr : fetchOnce received maxBytes stream = .error (.webFetchError w) := by
        rw [fetchOnce, readResponse, hhead]
        rfl
      exact iff_of_true (Or.inr ⟨w, herr⟩) fun _ _ _ h => nomatch h
  | ok x =>
      obtain ⟨⟨status, headers⟩, rest⟩ := x
      by_cases hredirect : status ∈ redirectStatuses
      · have hok : fetchOnce received maxBytes stream = .ok ⟨status, headers, []⟩ := by
          rw [fetchOnce, readResponse, hhead]
          simp [bind, Except.bind, hredirect, pure, Except.pure]
        refine iff_of_true (Or.inl ⟨_, hok, Nat.zero_le _⟩) ?_
        rintro _ _ _ ⟨⟩ hno
        exact absurd hredirect hno
      · have heq : readResponse received maxBytes stream =
            (readBody received headers maxBytes rest).map (HttpResponse.mk status headers) := by
          rw [readResponse, hhead]
          simp only [bind, Except.bind, if_neg hredirect, pure, Except.pure]
          cases readBody received headers maxBytes rest <;> rfl
        have hbody := readBody_ends received maxBytes rest (validateFraming_of_head hhead)
        rw [Contained, fetchOnce, heq]
        generalize readBody received headers maxBytes rest = result at hbody
        cases hbody with
        | read hlen hno =>
            refine iff_of_true (Or.inl ⟨_, rfl, hlen⟩) ?_
            rintro _ _ _ ⟨⟩ - hidentity hbad
            exact hno ⟨hidentity, hbad⟩
        | @contained e hne hno =>
            refine iff_of_true (Or.inr ?_) ?_
            · cases e with
              | valueError => exact absurd rfl hne
              | webFetchError w => exact ⟨w, rfl⟩
              | incompleteReadError => exact ⟨_, rfl⟩
              | limitOverrunError => exact ⟨_, rfl⟩
            · rintro _ _ _ ⟨⟩ - hidentity hbad
              exact hno ⟨hidentity, hbad⟩
        | raised hidentity hbad =>
            refine iff_of_false ?_ fun h => h status headers rest rfl hredirect hidentity hbad
            rintro (⟨_, hok, -⟩ | ⟨_, herr⟩)
            · cases hok
            · cases herr

/-! ## The chunked coding -/

/-- What is read are the bodies within the limit of the codings that the stream begins with. -/
def AcceptsChunked (maxBytes : Nat) (stream : Bytes) : Prop :=
  ∀ body, readChunked maxBytes [] stream = .ok body ↔
    body.length ≤ maxBytes ∧ ∃ texts enc rest, stream = enc ++ rest ∧ Coded HexSize texts body enc

/-- One chunk, the size of which has a sign. -/
def signed : Bytes := [43, 49, 13, 10, 65, 13, 10, 48, 13, 10, 13, 10]

theorem coded_signed : Coded IntSize [[43, 49], [48]] [65] signed := by
  have hlast : Coded IntSize [[48]] [] ([48, 13, 10] ++ [13, 10]) :=
    .last ⟨[], rfl, by decide, Or.inl rfl, by decide, by decide, rfl⟩ (.last (by decide))
  have hsize : SizeLine IntSize [43, 49] [43, 49, 13, 10] [(65 : UInt8)].length :=
    ⟨[], rfl, by decide, Or.inl rfl, by decide, by decide, rfl⟩
  exact .chunk hsize (List.cons_ne_nil _ _) hlast

theorem not_acceptsChunked : ¬∀ maxBytes stream, AcceptsChunked maxBytes stream := by
  intro hall
  have hread : readChunked 1 [] (signed ++ []) = .ok [65] := readChunked_nil_of_coded coded_signed (by decide) []
  obtain ⟨-, texts, enc, rest, hstream, hcoded⟩ := (hall 1 (signed ++ []) [65]).mp hread
  obtain ⟨hint, hhex⟩ := coded_hexSize_iff.mp hcoded
  obtain rfl := coded_texts_inj coded_signed hint hstream
  exact absurd (hhex _ List.mem_cons_self) (by decide)

/-- Where the stream begins with the coding of a body within the limit, as `int` takes the sizes, each is written with
hexadecimal digits alone. -/
theorem acceptsChunked_iff (maxBytes : Nat) (stream : Bytes) : AcceptsChunked maxBytes stream ↔
    ∀ texts body enc rest, stream = enc ++ rest → Coded IntSize texts body enc → body.length ≤ maxBytes →
      ∀ text ∈ texts, AllHex text := by
  constructor
  · rintro h texts body enc rest rfl hcoded hlen
    have hread := readChunked_nil_of_coded hcoded hlen rest
    obtain ⟨-, texts', enc', rest', hstream, hcoded'⟩ := (h body).mp hread
    obtain ⟨hint, hhex⟩ := coded_hexSize_iff.mp hcoded'
    obtain rfl := coded_texts_inj hcoded hint hstream
    exact hhex
  · intro h body
    constructor
    · intro hread
      rcases readChunked_cases maxBytes [] stream with ⟨texts, data, enc, rest, rfl, hcoded, hlen, hok⟩ | ⟨-,
        herr⟩ | ⟨e, -, herr⟩
      · obtain rfl := Except.ok.inj (hok.symm.trans hread)
        have hle : data.length ≤ maxBytes := by simpa using hlen
        exact ⟨hle, texts, enc, rest, rfl, coded_hexSize_iff.mpr ⟨hcoded, h texts data enc rest rfl hcoded hle⟩⟩
      · rw [herr] at hread
        cases hread
      · rw [herr] at hread
        cases hread
    · rintro ⟨hlen, texts, enc, rest, rfl, hcoded⟩
      exact readChunked_nil_of_coded (coded_hexSize_iff.mp hcoded).1 hlen rest

/-! ## Retrieval -/

section

open Rag

variable (u : Unicode) (sha256 : Sha256) (hits : List SearchHit) (fetch : ℕ → Except ServiceError FetchedPage)

/-- Each hit has one entry, a candidate of its page or a failure, in the order of the ranks. -/
structure Accounts (r : WebRetrievalResult) (es : List Entry) : Prop where
  once : (es.map Prod.fst).Perm (List.range hits.length)
  candidates : r.candidates = candidatesOf es
  failures : r.failures = failuresOf es
  own_candidate : ∀ i c, (i, .inl c) ∈ es → ∃ hit page, hits[i]? = some hit ∧ fetch i = .ok page ∧
    c = webEvidenceOf u sha256 hit page
  own_failure : ∀ i f, (i, .inr f) ∈ es → ∃ hit, hits[i]? = some hit ∧ f.searchRank = some hit.rank
  candidates_ordered : r.candidates.Pairwise fun c d => c.retrievalRank ≤ d.retrievalRank
  failures_ordered : r.failures.Pairwise fun f g => f.searchRank.getD 0 ≤ g.searchRank.getD 0
  distinct : (r.candidates.map (·.uri)).Nodup

/-- A failure, or a page with a URL that no page of another hit has. -/
def OwnUrl (i : ℕ) (result : Except ServiceError FetchedPage) : Prop :=
  ∀ page, result = .ok page → ∀ j < hits.length, j ≠ i → ∀ p, fetch j = .ok p → p.finalUrl ≠ page.finalUrl

/-- There is a result that accounts for the hits. With another outcome for one of the hits the candidates of the others stay,
and no other hit gets one, unless it had lost it to the page that is replaced. -/
def Isolates : Prop :=
  ∃ r es, retrieve u sha256 (.ok hits) fetch = .ok r ∧ Accounts u sha256 hits fetch r es ∧
    ∀ i result r', OwnUrl hits fetch i result → retrieve u sha256 (.ok hits) (Function.update fetch i result) = .ok r' →
      ∃ es', Accounts u sha256 hits (Function.update fetch i result) r' es' ∧
        (candidatesOf (others i es)).Sublist (candidatesOf (others i es')) ∧
        (OwnUrl hits fetch i (fetch i) → candidatesOf (others i es) = candidatesOf (others i es'))

variable {u sha256 hits fetch}

theorem accounts_entries {r : WebRetrievalResult} (h : retrieve u sha256 (.ok hits) fetch = .ok r) :
    Accounts u sha256 hits fetch r (entries u sha256 fetch [] (order hits)) := by
  obtain ⟨-, -, hcandidates, hfailures⟩ := retrieve_eq_ok h
  have hsorted : (order hits).Pairwise fun x y => x.1.rank ≤ y.1.rank := sortBy_pairwise _ _
  constructor
  · rw [map_fst_entries, List.range_eq_range', ← List.zipIdx_map_snd 0 hits]
    exact (sortBy_perm _ _).map _
  · exact hcandidates
  · exact hfailures
  · intro i c hc
    obtain ⟨hit, page, hmem, hpage, hc, -⟩ := candidate_of_mem hc
    exact ⟨hit, page, mem_order.mp hmem, hpage, hc⟩
  · intro i f hf
    obtain ⟨hit, hmem, hrank⟩ := failure_of_mem hf
    exact ⟨hit, mem_order.mp hmem, hrank⟩
  · exact hcandidates ▸ candidates_ordered hsorted
  · exact hfailures ▸ failures_ordered hsorted
  · exact hcandidates ▸ candidates_nodup

theorem others_sublist {fetch' : ℕ → Except ServiceError FetchedPage} {i : ℕ} (hsame : ∀ j ≠ i, fetch' j = fetch j)
    (hown : OwnUrl hits fetch i (fetch' i)) : (candidatesOf (others i (entries u sha256 fetch [] (order hits)))).Sublist
      (candidatesOf (others i (entries u sha256 fetch' [] (order hits)))) := by
  refine kept_sublist hsame (fun _ _ _ _ _ h => h) fun page' hpage' x hx hne page hpage => ?_
  exact hown page' hpage' x.2 (List.getElem?_eq_some_iff.mp (mem_order.mp hx)).1 hne page hpage

def longUrl : Text := "https://example.org/".toList ++ List.replicate 2024 'a'

theorem length_longUrl : longUrl.length = 2044 := by
  have hsite : "https://example.org/".toList.length = 20 := by decide
  have hsplit : longUrl.length = "https://example.org/".toList.length + (List.replicate 2024 'a').length :=
    List.length_append
  rw [hsplit, List.length_replicate, hsite]

def longPage : FetchedPage where
  finalUrl := longUrl
  domain := "example.org".toList
  text := "heat".toList
  contentType := "text/plain".toList
  bytesReceived := 4
  redirectCount := 0
  resolvedIp := "192.0.2.1".toList
  finalUrl_length := by rw [length_longUrl]; decide
  domain_length := by decide

def sampleHit : SearchHit where
  rank := 1
  title := "Heat".toList
  url := "https://example.org/".toList
  snippet := []
  score := 1
  engines := []
  rank_pos := Nat.one_pos
  title_length := by decide
  url_length := by decide
  snippet_length := by decide

def zeroSha256 : Sha256 := ⟨fun _ => List.replicate 64 '0', fun _ => by decide⟩

theorem not_isolates : ¬∀ u sha256 hits fetch, Isolates u sha256 hits fetch := by
  intro hall
  obtain ⟨r, es, hr, -⟩ := hall Unicode.latin zeroSha256 [sampleHit] fun _ => .ok longPage
  have horder : order [sampleHit] = [] ++ (sampleHit, 0) :: [] := rfl
  have hfits := pagesFit_iff.mp (retrieve_eq_ok hr).2.1 _ _ _ longPage horder rfl List.not_mem_nil
    fun _ hy => absurd hy List.not_mem_nil
  have hle : longUrl.length ≤ 2043 := hfits.2.1
  rw [length_longUrl] at hle
  exact absurd hle (by decide)

/-- The codes of the failures have 1 to 80 characters. In the order of the ranks, the first page of each URL has one of 1 to
2043 characters, and a text that is not empty and does not get empty in its lexical form. -/
theorem isolates_iff (u : Unicode) (sha256 : Sha256) (hits : List SearchHit) (fetch : ℕ → Except ServiceError FetchedPage) :
    Isolates u sha256 hits fetch ↔ CodesFit hits fetch ∧
      ∀ before x after page, order hits = before ++ x :: after → fetch x.2 = .ok page →
        (∀ y ∈ before, ∀ p, fetch y.2 = .ok p → p.finalUrl ≠ page.finalUrl) → Fits u page := by
  have hpages : PagesFit u fetch [] (order hits) ↔ ∀ before x after page, order hits = before ++ x :: after →
      fetch x.2 = .ok page → (∀ y ∈ before, ∀ p, fetch y.2 = .ok p → p.finalUrl ≠ page.finalUrl) → Fits u page := by
    simp only [pagesFit_iff, List.not_mem_nil, not_false_eq_true, true_imp_iff]
  rw [← hpages]
  constructor
  · rintro ⟨r, es, hr, -⟩
    exact ⟨(retrieve_eq_ok hr).1, (retrieve_eq_ok hr).2.1⟩
  · rintro ⟨hcodes, hfit⟩
    obtain ⟨r, hr⟩ := retrieve_of_fit sha256 hcodes hfit
    refine ⟨r, _, hr, accounts_entries hr, fun i result r' hown hr' => ⟨_, accounts_entries hr', ?_, fun hold => ?_⟩⟩
    · exact others_sublist (fun j hj => Function.update_of_ne hj _ _) (by rwa [Function.update_self])
    · refine (others_sublist (fun j hj => Function.update_of_ne hj _ _) (by rwa [Function.update_self])).antisymm ?_
      refine others_sublist (fun j hj => (Function.update_of_ne hj _ _).symm) fun page hpage j hj hne p hp => ?_
      rw [Function.update_of_ne hne] at hp
      exact hold page hpage j hj hne p hp

end

/-! ## Fetching -/

/-- The transport is asked for validated URLs only, at most once for each and once more than there may be redirects,
at the first
of the addresses that the resolver has just given for the host of the URL, all of which are public. Nothing follows an answer
with an address that is not. -/
structure SafeCalls (u : Unicode) (fetcher : SafePageFetcher) (events : List FetchEvent) : Prop where
  cleared : ∀ before v address answer after, events = before ++ .fetchOnce v address answer :: after →
    Cleared fetcher.allowedPorts v ∧ ∃ url, validateUrl u fetcher.idna fetcher.allowedPorts url = .ok v
  resolved : ∀ before v address answer after, events = before ++ .fetchOnce v address answer :: after →
    ∃ earlier addresses, before = earlier ++ [.resolve v.host v.port (.ok addresses)] ∧ addresses.head? = some address ∧
      validatePublicAddresses addresses = .ok ()
  bounded : (calledUrls events).length ≤ fetcher.maxRedirects + 1
  distinct : ((calledUrls events).map (·.canonicalUrl)).Nodup
  refused : ∀ before host port addresses after, events = before ++ .resolve host port (.ok addresses) :: after →
    (∃ address ∈ addresses, isForbiddenAddress address = true) → after = []

theorem validatePublicAddresses_forbidden {addresses : List IpAddress} {address : IpAddress} (hmem : address ∈ addresses)
    (h : isForbiddenAddress address = true) : validatePublicAddresses addresses ≠ .ok () := by
  have hne : addresses ≠ [] := List.ne_nil_of_mem hmem
  have hany : addresses.any isForbiddenAddress = true := List.any_eq_true.mpr ⟨address, hmem, h⟩
  simp [validatePublicAddresses, hne, hany]

theorem fetch_events (u : Unicode) (fetcher : SafePageFetcher) (network : Network) (url : Text) :
    (fetcher.fetch u network url).1 = (fetcher.fetchRedirectChain u network url).1 := by
  simp only [SafePageFetcher.fetch]
  split <;> rfl

theorem fetch_safe {u : Unicode} (hu : KeepsAt u) (fetcher : SafePageFetcher) (network : Network) (url : Text) :
    SafeCalls u fetcher (fetcher.fetch u network url).1 := by
  rw [fetch_events, SafePageFetcher.fetchRedirectChain]
  obtain ⟨done, visited, hhops, hlength, hend⟩ := followRedirects_hops (Hops.nil : Hops u fetcher [] [])
  generalize (fetcher.followRedirects u network _ url [] []).1 = events at hend
  obtain ⟨hurls, hnodup⟩ := hhops.calledUrls
  have hcalled : calledUrls events = calledUrls done := by
    rcases hend with rfl | ⟨host, port, answer, rfl⟩
    · rfl
    · simp [calledUrls]
  have hfetched : ∀ before v address answer after, events = before ++ .fetchOnce v address answer :: after →
      ∃ after', done = before ++ .fetchOnce v address answer :: after' := by
    intro before v address answer after heq
    rcases hend with rfl | ⟨host, port, answer', rfl⟩
    · exact ⟨after, heq⟩
    · rcases split_concat heq with ⟨after', hdone, -⟩ | ⟨-, hlast, -⟩
      · exact ⟨after', hdone⟩
      · cases hlast
  constructor
  case cleared =>
    intro before v address answer after heq
    obtain ⟨after', hdone⟩ := hfetched before v address answer after heq
    obtain ⟨⟨url', hurl⟩, -⟩ := hhops.fetched hdone
    exact ⟨validateUrl_cleared hu hurl, url', hurl⟩
  case resolved =>
    intro before v address answer after heq
    obtain ⟨after', hdone⟩ := hfetched before v address answer after heq
    exact (hhops.fetched hdone).2
  case bounded =>
    have hsame := congrArg List.length hurls
    rw [List.length_map, List.length_reverse] at hsame
    rw [List.length_nil, List.length_range] at hlength
    rw [hcalled, hsame]
    omega
  case distinct =>
    rw [hcalled, hurls]
    exact List.nodup_reverse.mpr hnodup
  case refused =>
    rintro before host port addresses after heq ⟨address, hmem, hforbidden⟩
    have hnot : .resolve host port (.ok addresses) ∉ done := fun hdone =>
      validatePublicAddresses_forbidden hmem hforbidden (hhops.public hdone)
    rcases hend with rfl | ⟨host', port', answer, rfl⟩
    · exact absurd (heq ▸ List.mem_append_right _ List.mem_cons_self) hnot
    · rcases split_concat heq with ⟨after', hdone, -⟩ | ⟨-, -, hafter⟩
      · exact absurd (hdone ▸ List.mem_append_right _ List.mem_cons_self) hnot
      · exact hafter

theorem latin_keepsAt : KeepsAt Unicode.latin := by
  have hletter : ∀ n < 26, '@' ≠ Char.ofNat (n + 97) := by decide
  intro c hc
  simp only [Unicode.latin, Unicode.latinLower] at hc
  split at hc
  · rename_i h
    have hlow : 65 ≤ c.toNat := h.1
    have hhigh : c.toNat ≤ 90 := h.2
    have hne := hletter (c.toNat - 65) (by omega)
    rw [show c.toNat - 65 + 97 = c.toNat + 32 by omega] at hne
    exact absurd (List.mem_singleton.mp hc) hne
  · split at hc
    case h_7 => exact (List.mem_singleton.mp hc).symm
    all_goals exact absurd hc (by decide)

/-- A host behind a public address that sends on to the path `/next` once. -/
def sampleNetwork : Network where
  resolve _ _ _ := .ok [.v4 (quad [93, 184, 216, 34])]
  fetchOnce events _ _ :=
    if (calledUrls events).length = 0 then .ok ⟨302, [("location".toList, ["/next".toList])], []⟩
    else .ok ⟨200, [("content-type".toList, ["text/plain".toList])], []⟩

/-- A fetcher whose codec takes ASCII texts as they are. -/
def sampleFetcher : SafePageFetcher where
  idna s := if s.all isAscii then some s else none
  extractText _ _ := .ok ([], "text/plain".toList)
  allowedPorts := [80, 443]
  maxRedirects := 3

theorem fetch_safe_next :
    (calledUrls (sampleFetcher.fetch .latin sampleNetwork "https://example.com/start".toList).1).map (·.canonicalUrl) =
        ["https://example.com/start".toList, "https://example.com/next".toList] ∧
      SafeCalls .latin sampleFetcher (sampleFetcher.fetch .latin sampleNetwork "https://example.com/start".toList).1 :=
  ⟨by decide +kernel, fetch_safe latin_keepsAt _ _ _⟩

end Etoeragcb.Web
