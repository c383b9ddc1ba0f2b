import Etoeragcb.Chat.Lemmas.Events
import Etoeragcb.Chat.Wire
import Etoeragcb.Frontend.Lemmas.Page

/-!
# What arrives of the events

A client that receives the events as JSON is in the state of one that receives them as they are.
-/

namespace Etoeragcb.Chat

open Lib Models

variable {safeExternalUrl : Text → Bool} {floatInteger : FloatLiteral → Option Nat} {c : Citation} {marker : Text}
  {items : List (Text × Citation)} {es : List StreamEvent} {e : StreamEvent} {a : ChatAccumulator} {n : Nat}

/-! ## Citations -/

/-- The pages of a citation are exact as numbers of a client. -/
def Citation.PagesExact (c : Citation) : Prop := (∀ p ∈ c.pageStart, p < 2 ^ 53) ∧ ∀ p ∈ c.pageEnd, p < 2 ^ 53

theorem nearestDouble_eq (h : n < 2 ^ 53) : Frontend.nearestDouble n = some n := by
  have hlog : n.log2 - 52 = 0 := by
    by_cases hn : n = 0
    · rw [hn]
      rfl
    · have := (Nat.log2_lt hn).mpr h
      omega
  have hfinite : n < 2 ^ 1024 := lt_of_lt_of_le h (pow_le_pow_right₀ one_le_two (by norm_num))
  simp only [Frontend.nearestDouble, hlog, pow_zero, Nat.div_one, Nat.mod_one]
  rw [if_neg (show ¬(1 < 2 * 0 ∨ 1 = 2 * 0 ∧ n % 2 = 1) by omega), Nat.mul_one, if_pos hfinite]

theorem pageNumber_natJson (h : n < 2 ^ 53) :
    Frontend.pageNumber floatInteger (natJson n) = (some n).filter (1 ≤ ·) := by
  rw [natJson, Frontend.pageNumber, Int.toNat_natCast, nearestDouble_eq h]

theorem validPage_optionJson {page : Option Nat} (h : ∀ p ∈ page, p < 2 ^ 53) :
    Frontend.validPage floatInteger (some (optionJson natJson page)) = page.all (1 ≤ ·) := by
  cases page with
  | none => rfl
  | some p =>
      have hp : p < 2 ^ 53 := h p rfl
      have hvalid : Frontend.validPage floatInteger (some (natJson p)) =
          (Frontend.pageNumber floatInteger (natJson p)).isSome := rfl
      rw [optionJson, hvalid, pageNumber_natJson hp]
      by_cases hone : 1 ≤ p <;> simp [Option.filter, hone]

theorem bind_pageNumber (f : FloatLiteral → Option Nat) {page : Option Nat} (h : ∀ p ∈ page, p < 2 ^ 53) (hone : page.all (1 ≤ ·) = true) :
    (some (optionJson natJson page)).bind (Frontend.pageNumber f) = page := by
  cases page with
  | none => rfl
  | some p =>
      have hp : 1 ≤ p := by simpa using hone
      rw [Option.bind_some, optionJson, pageNumber_natJson (h p rfl), Option.filter_some, if_pos (decide_eq_true hp)]

theorem acceptsPages_optionJson {start stop : Option Nat} (hstart : ∀ p ∈ start, p < 2 ^ 53) (hstop : ∀ p ∈ stop, p < 2 ^ 53) :
    Frontend.acceptsPages floatInteger (some (optionJson natJson start)) (some (optionJson natJson stop)) =
      (start.all (1 ≤ ·) && stop.all (1 ≤ ·) &&
        match start, stop with
        | some start, some stop => decide (start ≤ stop)
        | _, _ => true) := by
  rw [Frontend.acceptsPages, validPage_optionJson hstart, validPage_optionJson hstop]
  by_cases hone : start.all (1 ≤ ·) = true ∧ stop.all (1 ≤ ·) = true
  · have hstart' := bind_pageNumber floatInteger hstart hone.1
    have hstop' := bind_pageNumber floatInteger hstop hone.2
    cases start with
    | none => rfl
    | some i =>
        cases stop with
        | none => rw [Frontend.pagesInOrder, hstart', hstop']
        | some j => rw [Frontend.pagesInOrder, hstart', hstop']
  · simp only [Bool.and_eq_false_imp.mpr fun h => Bool.eq_false_iff.mpr fun h' => hone ⟨h, h'⟩, Bool.false_and]

def Citation.members (c : Citation) : List (Text × Json) :=
  match c.json with
  | .obj members => members
  | _ => []

theorem acceptsTarget_members (c : Citation) : Frontend.acceptsTarget safeExternalUrl c.members =
    match c.sourceType with
    | .document => c.documentId.any shownAsUuid && c.documentVersionId.any shownAsUuid
    | .web => c.uri.any safeExternalUrl := by
  have htype : Json.get? c.members "source_type".toList = some (.str c.sourceType.text) := rfl
  have hdocument : Json.get? c.members "document_id".toList = some (optionJson uuidJson c.documentId) := rfl
  have hversion : Json.get? c.members "document_version_id".toList = some (optionJson uuidJson c.documentVersionId) := rfl
  have huri : Json.get? c.members "uri".toList = some (optionJson .str c.uri) := rfl
  have huuid : ∀ id : Option Nat, Frontend.isUuid (some (optionJson uuidJson id)) = id.any shownAsUuid := fun id => by
    cases id <;> rfl
  have hlink : Frontend.acceptsUri safeExternalUrl (some (optionJson .str c.uri)) = c.uri.any safeExternalUrl := by
    cases c.uri <;> rfl
  have hisDocument : ∀ t : SourceType, Frontend.isString (some (.str t.text)) "document".toList = decide (t = .document) :=
    fun t => by cases t <;> decide
  have hisWeb : ∀ t : SourceType, Frontend.isString (some (.str t.text)) "web".toList = decide (t = .web) :=
    fun t => by cases t <;> decide
  simp only [Frontend.acceptsTarget, htype, hdocument, hversion, huri, huuid, hlink, hisDocument, hisWeb]
  cases c.sourceType with
  | document => simp
  | web => simp

theorem acceptsCitation_members (h : c.PagesExact) : Frontend.acceptsCitation safeExternalUrl floatInteger marker c.members =
    ((match marker? marker with
    | some ds => marker == markerOf ds && c.marker == marker && c.sourceId == 'S' :: ds
    | none => false) &&
    !c.title.isEmpty &&
    (match c.sourceType with
    | .document => c.documentId.any shownAsUuid && c.documentVersionId.any shownAsUuid
    | .web => c.uri.any safeExternalUrl) &&
    c.pageStart.all (1 ≤ ·) && c.pageEnd.all (1 ≤ ·) &&
    (match c.pageStart, c.pageEnd with
    | some start, some stop => decide (start ≤ stop)
    | _, _ => true)) := by
  have hmarker : Frontend.acceptsMarker marker c.members = (match marker? marker with
      | some ds => marker == markerOf ds && c.marker == marker && c.sourceId == 'S' :: ds
      | none => false) := rfl
  have htitle : Frontend.acceptsTitle (Json.get? c.members "title".toList) = !c.title.isEmpty := rfl
  have hstart : Json.get? c.members "page_start".toList = some (optionJson natJson c.pageStart) := rfl
  have hstop : Json.get? c.members "page_end".toList = some (optionJson natJson c.pageEnd) := rfl
  rw [Frontend.acceptsCitation, hmarker, htitle, acceptsTarget_members, hstart, hstop, acceptsPages_optionJson h.1 h.2]
  simp only [Bool.and_assoc]

/-- A dictionary of citations by marker, with pages that are exact. -/
structure Readable (items : List (Text × Citation)) : Prop where
  nodup : (items.map Prod.fst).Nodup
  pages : ∀ x ∈ items, x.2.PagesExact

theorem entries_eq {members : List (Text × Json)} (h : (members.map Prod.fst).Nodup) : Frontend.entries members = members := by
  induction members using List.reverseRecOn with
  | nil => rfl
  | append_singleton members x ih =>
      rw [List.map_append, List.nodup_append] at h
      have hx : x.1 ∉ members.map Prod.fst := fun hx => h.2.2 _ hx x.1 (List.mem_singleton_self _) rfl
      have hcut : Frontend.entries (members ++ [x]) = Dict.set (Frontend.entries members) x.1 x.2 := by
        simp [Frontend.entries]
      rw [hcut, ih h.1, Dict.set, if_neg hx]

theorem validateCitations_json (h : Readable items) :
    Frontend.validateCitations safeExternalUrl floatInteger (some (citationsJson items)) =
      (validateCitations shownAsUuid safeExternalUrl items).map fun x => (x.1, x.2.json) := by
  have hkeys : ((items.map fun x => (x.1, x.2.json)).map Prod.fst).Nodup := by
    rw [List.map_map]
    exact h.nodup
  rw [citationsJson, Frontend.validateCitations, entries_eq hkeys, List.filter_map, validateCitations]
  congr 1
  refine List.filter_congr fun x hx => ?_
  exact acceptsCitation_members (h.pages x hx)

/-! ## Events -/

def StreamEvent.Readable : StreamEvent → Prop
  | .citations items => Chat.Readable items
  | _ => True

variable (safeExternalUrl floatInteger) in
theorem rendered_apply (a : ChatAccumulator) (h : e.Readable) (i : Nat) :
    (a.apply shownAsUuid safeExternalUrl e).rendered =
      a.rendered.apply (Frontend.citationValidator safeExternalUrl floatInteger) (e.wire.received i) := by
  cases e with
  | start requestId userMessageId sessionId collectionIds documentIds webSearch => rfl
  | status stage => cases stage <;> simp [ChatAccumulator.apply, ChatAccumulator.rendered] <;> rfl
  | delta text => rfl
  | replace text => rfl
  | citations items =>
      have hitems : Frontend.validateCitations safeExternalUrl floatInteger (some (citationsJson items)) = _ :=
        validateCitations_json h
      simp only [ChatAccumulator.apply, ChatAccumulator.rendered, ← hitems]
      rfl
  | done messageId route usage => cases route <;> rfl
  | error code retryable => rfl

theorem rendered_foldl (a : ChatAccumulator) (h : ∀ e ∈ es, e.Readable) (i : Nat) :
    (es.foldl (ChatAccumulator.apply shownAsUuid safeExternalUrl) a).rendered =
      (Frontend.numbered i (es.map StreamEvent.wire)).foldl
        (Frontend.ChatAccumulator.apply (Frontend.citationValidator safeExternalUrl floatInteger)) a.rendered := by
  induction es generalizing a i with
  | nil => rfl
  | cons e es ih =>
      rw [List.foldl_cons, ih _ (fun e' he' => h e' (List.mem_cons_of_mem e he')) (i + 1),
        rendered_apply safeExternalUrl floatInteger a (h e List.mem_cons_self) (i + 1)]
      rfl

/-! ## What is cited -/

def EvidenceCandidate.PagesExact (c : EvidenceCandidate) : Prop :=
  (∀ p ∈ c.pageStart, p < 2 ^ 53) ∧ ∀ p ∈ c.pageEnd, p < 2 ^ 53

theorem nodup_eraseDups (l : List Text) : l.eraseDups.Nodup := by
  induction h : l.length using Nat.strong_induction_on generalizing l with
  | _ k ih =>
      cases l with
      | nil => simp
      | cons t l =>
          have hlt : (l.filter fun b => !b == t).length < k := by
            have := List.length_filter_le (fun b => !b == t) l
            simp only [List.length_cons] at h
            omega
          rw [List.eraseDups_cons, List.nodup_cons, List.mem_eraseDups]
          exact ⟨by simp, ih _ hlt _ rfl⟩

theorem citationsForAnswer_readable {answer : SanitizedAnswer} {sources : List PackedSource}
    (hnodup : answer.citedSourceIds.Nodup) (hpages : ∀ s ∈ sources, s.candidate.PagesExact)
    (h : citationsForAnswer answer sources = .ok items) : Readable items := by
  rw [citationsForAnswer] at h
  refine ⟨?_, fun x hx => ?_⟩
  · rw [map_of_mapM_eq_ok (g := Prod.fst) (k := fun x => '[' :: (x.1 ++ [']'])) (fun x y hxy => ?_) h, List.map_filterMap]
    · refine hnodup.filterMap fun i j m hi hj => ?_
      simp only [Option.map_map, Option.mem_def, Option.map_eq_some_iff, Function.comp_apply] at hi hj
      obtain ⟨-, -, rfl⟩ := hi
      obtain ⟨-, -, hj⟩ := hj
      exact (List.append_cancel_right (List.cons.inj hj).2).symm
    · simp only at hxy
      split at hxy
      · cases hxy
        rfl
      · cases hxy
  · obtain ⟨y, hy, hxy⟩ := mem_of_mapM_eq_ok h hx
    obtain ⟨i, -, hi⟩ := List.mem_filterMap.mp hy
    obtain ⟨s, hs, rfl⟩ := Option.map_eq_some_iff.mp hi
    simp only at hxy
    split at hxy
    · cases hxy
      exact hpages s (List.mem_reverse.mp (List.mem_of_find?_eq_some hs))
    · cases hxy

variable {casefold : Text → Text} {message : Text} {grounded : Bool} {sources : List PackedSource} {usage : UsageSummary}
  {answer : SanitizedAnswer} {answered : Answered} {sanitizer : CitationStreamSanitizer} {p p' : Progress}
  {retrieval : CombinedRetrievalResult} {services : Services} {accepted : AcceptedChat} {m : Persisted}

theorem readable_nil : Readable [] := ⟨List.nodup_nil, fun _ hx => absurd hx List.not_mem_nil⟩

theorem settle_readable (hnodup : answer.citedSourceIds.Nodup) (hpages : ∀ s ∈ sources, s.candidate.PagesExact)
    (h : settle casefold message grounded sources usage answer = .ok answered) : Readable answered.citations := by
  obtain ⟨x, hx, rfl⟩ := map_eq_ok.mp h
  rw [routed] at hx
  split
  · exact readable_nil
  · split at hx
    · cases hx
      exact readable_nil
    · obtain ⟨citations, hc, rfl⟩ := map_eq_ok.mp hx
      exact citationsForAnswer_readable hnodup hpages hc

/-! ## The course of a stream -/

/-- An event in the course of a stream. -/
def StreamEvent.OnTheWay : StreamEvent → Prop
  | .citations _ | .done .. | .error .. => False
  | _ => True

theorem StreamEvent.OnTheWay.readable (h : e.OnTheWay) : e.Readable := by
  cases e with
  | citations items => exact absurd h not_false
  | _ => trivial

theorem StreamEvent.OnTheWay.not_terminal (h : e.OnTheWay) : e.wire.isTerminal = false := by
  cases e with
  | done messageId route usage => exact absurd h not_false
  | error code retryable => exact absurd h not_false
  | _ => rfl

/-- What has been emitted begins with `start`, and the stream goes on. -/
structure Underway (p : Progress) : Prop where
  starts : ∃ requestId userMessageId sessionId collectionIds documentIds webSearch rest, p.emitted =
    .start requestId userMessageId sessionId collectionIds documentIds webSearch :: rest
  onTheWay : ∀ e ∈ p.emitted, e.OnTheWay

theorem Underway.say (h : Underway p) (he : e.OnTheWay) : Underway (p.say e) := by
  obtain ⟨requestId, userMessageId, sessionId, collectionIds, documentIds, webSearch, rest, hp⟩ := h.starts
  refine ⟨⟨requestId, userMessageId, sessionId, collectionIds, documentIds, webSearch, rest ++ [e], ?_⟩, ?_⟩
  · rw [Progress.say, hp]
    rfl
  · rw [Progress.say, List.forall_mem_append]
    exact ⟨h.onTheWay, fun e' he' => List.mem_singleton.mp he' ▸ he⟩

theorem underway_opened (accepted : AcceptedChat) : Underway (opened accepted) := by
  refine ⟨⟨_, _, _, _, _, _, _, rfl⟩, ?_⟩
  intro e he
  simp only [opened, List.foldl_cons, List.foldl_nil, Progress.say, List.nil_append, List.cons_append, List.mem_cons,
    List.not_mem_nil, or_false] at he
  rcases he with rfl | rfl | rfl | rfl <;> trivial

theorem underway_generate (usage : UsageSummary) (chunks : List GenerationChunk) (h : Underway p) :
    Underway (generate sanitizer usage p chunks).2.2 := by
  induction chunks generalizing sanitizer usage p with
  | nil => exact h
  | cons chunk chunks ih =>
      unfold generate
      by_cases hc : chunk.content = []
      · simpa only [hc, if_true] using ih (chunk.usage.getD usage) h
      · simp only [hc, if_false]
        refine ih _ ?_
        split
        · exact h.say trivial
        · exact h

theorem underway_conclude (h : Underway p) :
    Underway (conclude casefold message grounded sources usage sanitizer p).1 := by
  unfold conclude
  simp only
  split
  · exact h
  · dsimp only
    split
    · exact h.say (e := .replace _) trivial
    · exact h

theorem underway_respond (h : Underway p) : Underway (respond casefold message retrieval services p).1 := by
  have hgenerating : Underway (p.say (.status .generating)) := h.say trivial
  unfold respond
  split
  · exact h.say (e := .delta _) trivial
  · simp only
    split
    · exact hgenerating
    · split
      · exact underway_generate _ _ hgenerating
      · exact underway_conclude (underway_generate _ _ hgenerating)

theorem conclude_readable (hpages : ∀ s ∈ sources, s.candidate.PagesExact)
    (h : conclude casefold message grounded sources usage sanitizer p = (p', .ok answered)) :
    Readable answered.citations := by
  unfold conclude at h
  simp only at h
  split at h
  · cases h
  · rename_i settled hset
    simp only [Prod.mk.injEq, Except.ok.injEq] at h
    obtain ⟨-, rfl⟩ := h
    exact settle_readable (nodup_eraseDups _) hpages hset

theorem respond_readable (hpages : ∀ s ∈ retrieval.sources, s.candidate.PagesExact)
    (h : respond casefold message retrieval services p = (p', .ok answered)) : Readable answered.citations := by
  unfold respond at h
  split at h
  · cases h
    exact readable_nil
  · simp only at h
    split at h
    · cases h
    · split at h
      · cases h
      · exact conclude_readable hpages h

def Services.PagesExact (services : Services) : Prop :=
  ∀ retrieval, services.retrieval = .ok retrieval → ∀ s ∈ retrieval.sources, s.candidate.PagesExact

theorem events_finished (hpages : services.PagesExact) (h : (events casefold accepted services).persisted = some m) :
    ∃ p retrieval answered, Underway p ∧ Readable answered.citations ∧ services.retrieval = .ok retrieval ∧
      respond casefold accepted.request.message retrieval services (opened accepted) = (p, .ok answered) ∧
      m.assistantId = services.assistantId ∧ m.content = answered.finalText ∧
      (events casefold accepted services).emitted = p.emitted ++ [.citations answered.citations] ++
        [.done services.assistantId answered.route answered.usage] ∧
      m.transcript = (events casefold accepted services).emitted := by
  obtain ⟨retrieval, p, answered, hr, hres, hcontent, hemitted, htranscript⟩ := events_persisted h
  obtain ⟨t, hs, -⟩ : ∃ t, Shows (fun _ => true) (fun _ => true) p t ∧
      (t = answered.finalText ↔ ¬LosesBracket retrieval services.chunks) := respond_spec (shows_opened accepted) hres
  have hp : Underway (respond casefold accepted.request.message retrieval services (opened accepted)).1 :=
    underway_respond (underway_opened accepted)
  rw [hres] at hp
  have hid : m.assistantId = services.assistantId := by
    unfold events at h
    split at h
    · cases h
    · simp only [hr, hres] at h
      split at h
      · cases h
      · cases h
        rfl
  refine ⟨p, retrieval, answered, hp, respond_readable (hpages retrieval hr) hres, hr, hres, hid, hcontent, ?_, ?_⟩
  · rw [hemitted, List.append_assoc]
    rfl
  · rw [hemitted, htranscript, hs.same]

end Etoeragcb.Chat
