import Etoeragcb.Chat.Lemmas.Wire
import Etoeragcb.Chat.Theorems

/-!
# What the page shows of an answer

From the stored answer over the bytes of the stream to the accumulator of the page, with a second attempt where the first
response is interrupted.
-/

namespace Etoeragcb.Chat

open Lib Models
open Frontend (ByteResponse ChatPost Ending Page Interrupted sendBytes consumeBytes numbered citationValidator)

/-- A response that carries the whole stream, in any fragments of bytes. -/
def Carries (es : List StreamEvent) (ending : Ending) (response : ByteResponse) : Prop :=
  ∃ status bytes, response = .answered status (some (bytes, ending)) ∧ (200 ≤ status ∧ status ≤ 299) ∧
    bytes.flatten = streamBytes es

/-- The posts that are answered by two responses: one, if the first response carries the stream, and two, if the first one is
interrupted and the second one carries it. -/
inductive Conveys (post : ChatPost) (es : List StreamEvent) (ending : Ending) :
    ByteResponse → ByteResponse → List ChatPost → Prop
  | atOnce {first second : ByteResponse} (h : Carries es ending first) : Conveys post es ending first second [post]
  | again {first second : ByteResponse} (hfirst : Interrupted first) (hsecond : Carries es ending second) :
      Conveys post es ending first second [post, post]

variable {casefold : Text → Text} {safeExternalUrl : Text → Bool} {floatInteger : FloatLiteral → Option Nat}
  {accepted : AcceptedChat} {services : Services} {m : Persisted} {es : List StreamEvent} {e : StreamEvent}
  {post : ChatPost} {ending : Ending} {first second response : ByteResponse} {posts : List ChatPost}

/-! ## Streams that reach the page -/

theorem errorCode_received (h : ∀ e ∈ es, ∀ code retryable, e ≠ .error code retryable) :
    (received shownAsUuid safeExternalUrl es).errorCode = none := by
  induction es using List.reverseRecOn with
  | nil => rfl
  | append_singleton es e ih =>
      rw [List.forall_mem_append] at h
      have he := h.2 e (List.mem_singleton_self e)
      rw [received_concat]
      cases e with
      | start requestId userMessageId sessionId collectionIds documentIds webSearch => rfl
      | error code retryable => exact absurd rfl (he code retryable)
      | status stage => exact ih h.1
      | delta text => exact ih h.1
      | replace text => exact ih h.1
      | citations items => exact ih h.1
      | done messageId route usage => exact ih h.1

theorem foldl_started {p : Progress} (hp : Underway p) (rest : List StreamEvent)
    (a : Frontend.ChatAccumulator (List (Text × Json))) :
    (numbered 0 ((p.emitted ++ rest).map StreamEvent.wire)).foldl
        (Frontend.ChatAccumulator.apply (citationValidator safeExternalUrl floatInteger)) a =
      (numbered 0 ((p.emitted ++ rest).map StreamEvent.wire)).foldl
        (Frontend.ChatAccumulator.apply (citationValidator safeExternalUrl floatInteger))
        (.new (citationValidator safeExternalUrl floatInteger)) := by
  obtain ⟨requestId, userMessageId, sessionId, collectionIds, documentIds, webSearch, more, hmore⟩ := hp.starts
  rw [hmore]
  rfl

theorem sendBytes_stream {p : Progress} (hp : Underway p) {middle : List StreamEvent}
    (hmiddle : ∀ e ∈ middle, e.Readable ∧ e.wire.isTerminal = false) {last : StreamEvent} (hlast : last.Readable)
    (hstops : (received shownAsUuid safeExternalUrl (p.emitted ++ middle ++ [last])).rendered.stops = true)
    (h : Conveys post (p.emitted ++ middle ++ [last]) ending first second posts) :
    sendBytes (citationValidator safeExternalUrl floatInteger) post first second =
      ⟨posts, (received shownAsUuid safeExternalUrl (p.emitted ++ middle ++ [last])).rendered,
        ending.chatError (received shownAsUuid safeExternalUrl (p.emitted ++ middle ++ [last])).rendered⟩ := by
  have hreadable : ∀ e ∈ p.emitted ++ middle ++ [last], e.Readable := by
    rw [List.forall_mem_append, List.forall_mem_append]
    exact ⟨⟨fun e he => (hp.onTheWay e he).readable, fun e he => (hmiddle e he).1⟩,
      fun e he => List.mem_singleton.mp he ▸ hlast⟩
  have hquiet : ∀ event ∈ (p.emitted ++ middle).map StreamEvent.wire, event.isTerminal = false := by
    rw [List.forall_mem_map, List.forall_mem_append]
    exact ⟨fun e he => (hp.onTheWay e he).not_terminal, fun e he => (hmiddle e he).2⟩
  have hfold : ∀ a, (numbered 0 ((p.emitted ++ middle ++ [last]).map StreamEvent.wire)).foldl
      (Frontend.ChatAccumulator.apply (citationValidator safeExternalUrl floatInteger)) a =
        (received shownAsUuid safeExternalUrl (p.emitted ++ middle ++ [last])).rendered := by
    intro a
    rw [List.append_assoc, foldl_started hp, ← List.append_assoc, received]
    exact (rendered_foldl .new hreadable 0).symm
  have hconsume : ∀ {response}, Carries (p.emitted ++ middle ++ [last]) ending response →
      ∀ a : Frontend.ChatAccumulator (List (Text × Json)), a.terminal = false →
        consumeBytes (citationValidator safeExternalUrl floatInteger) a response =
          ((received shownAsUuid safeExternalUrl (p.emitted ++ middle ++ [last])).rendered, ending.cancel true) := by
    rintro response ⟨status, bytes, rfl, hs, hbytes⟩ a ha
    have hcut : (p.emitted ++ middle ++ [last]).map StreamEvent.wire =
        (p.emitted ++ middle).map StreamEvent.wire ++ [last.wire] := List.map_append
    have hstream : bytes.flatten =
        utf8 (Frontend.encodedEvents 0 ((p.emitted ++ middle).map StreamEvent.wire ++ [last.wire])) := by
      rw [hbytes, streamBytes, hcut]
    have hwhole := Frontend.consumeBytes_whole (v := citationValidator safeExternalUrl floatInteger) ending hs
      hstream hquiet (Frontend.stops_of_terminal ha) (by rw [← hcut, hfold]; exact hstops)
    rw [hwhole, ← hcut, hfold]
  cases h with
  | atOnce h => exact Frontend.sendBytes_first (hconsume h _ rfl)
  | again hfirst hsecond => exact Frontend.sendBytes_second hfirst (hconsume hsecond)

/-! ## Answers -/

/-- The page is done with the message: it has what the transcript amounts to, and its text is the stored one unless the last
`[` of the output has been lost. It shows an error only where the body has failed before it is cancelled. -/
structure ShowsAnswer (safeExternalUrl : Text → Bool) (services : Services) (m : Persisted) (ending : Ending)
    (page : Page (List (Text × Json))) : Prop where
  accumulator : page.accumulator = (received shownAsUuid safeExternalUrl m.transcript).rendered
  done : page.accumulator.done = true
  error : page.chatError = if ending = .failed true then .interrupted else .none
  message : page.accumulator.assistantMessageId = some (Rag.uuidStr m.assistantId)
  answer : page.accumulator.answer = m.content ↔
    ¬∃ retrieval, services.retrieval = .ok retrieval ∧ LosesBracket retrieval services.chunks

/-- The streams that bring the answer of an attempt: its own one, and every replay of what it has stored. -/
inductive StreamOf (casefold : Text → Text) (accepted : AcceptedChat) (services : Services) (m : Persisted) :
    List StreamEvent → Prop
  | live : StreamOf casefold accepted services m (events casefold accepted services).emitted
  | replay (accepted' : AcceptedChat) (services' : Services) (h : accepted'.replay = some ⟨m.assistantId, m.transcript⟩) :
      StreamOf casefold accepted services m (events casefold accepted' services').emitted

/-- However a stored answer reaches the page, cut into whatever fragments and on the first or the second attempt, the page
shows it once and as a whole. -/
theorem sendBytes_showsAnswer (hpages : services.PagesExact) (h : (events casefold accepted services).persisted = some m)
    (hes : StreamOf casefold accepted services m es) (hread : Conveys post es ending first second posts) :
    (sendBytes (citationValidator safeExternalUrl floatInteger) post first second).posts = posts ∧
      ShowsAnswer safeExternalUrl services m ending
        (sendBytes (citationValidator safeExternalUrl floatInteger) post first second) := by
  obtain ⟨p, retrieval, answered, hp, hcitations, hr, hres, hid, hcontent, hemitted, htranscript⟩ := events_finished hpages h
  obtain ⟨t, hs, hiff⟩ : ∃ t, Shows shownAsUuid safeExternalUrl p t ∧
      (t = answered.finalText ↔ ¬LosesBracket retrieval services.chunks) := respond_spec (shows_opened accepted) hres
  have hstream : es = p.emitted ++ [.citations answered.citations] ++
      [.done services.assistantId answered.route answered.usage] := by
    cases hes with
    | live => exact hemitted
    | replay accepted' services' hreplay =>
        rw [events, hreplay]
        exact htranscript.trans hemitted
  have herror : ∀ e ∈ p.emitted ++ [.citations answered.citations] ++
      [.done services.assistantId answered.route answered.usage], ∀ code retryable, e ≠ .error code retryable := by
    intro e he code retryable hcode
    subst hcode
    simp only [List.mem_append, List.mem_singleton, reduceCtorEq, or_false] at he
    exact hp.onTheWay _ he
  have hdone : (received shownAsUuid safeExternalUrl (p.emitted ++ [.citations answered.citations] ++
      [.done services.assistantId answered.route answered.usage])).rendered.done = true := by
    rw [received_concat]
    rfl
  rw [hstream] at hread
  have hmiddle : ∀ e ∈ [StreamEvent.citations answered.citations], e.Readable ∧ e.wire.isTerminal = false :=
    fun e he => List.mem_singleton.mp he ▸ ⟨hcitations, rfl⟩
  have hlast : (StreamEvent.done services.assistantId answered.route answered.usage).Readable := trivial
  rw [sendBytes_stream hp hmiddle hlast (by rw [Frontend.ChatAccumulator.stops, hdone]; rfl) hread]
  refine ⟨rfl, ⟨?_, hdone, ?_, ?_, ?_⟩⟩
  · rw [htranscript, hemitted]
  · have hcode : (received shownAsUuid safeExternalUrl (p.emitted ++ [.citations answered.citations] ++
        [.done services.assistantId answered.route answered.usage])).rendered.errorCode = none := by
      rw [ChatAccumulator.rendered, errorCode_received herror]
      rfl
    show ending.chatError _ = _
    rw [Ending.chatError, Frontend.chatError, hcode, hdone]
    rfl
  · show (received shownAsUuid safeExternalUrl (p.emitted ++ [.citations answered.citations] ++
      [.done services.assistantId answered.route answered.usage])).rendered.assistantMessageId = _
    rw [received_concat, hid]
    rfl
  · have hanswer : (received shownAsUuid safeExternalUrl (p.emitted ++ [.citations answered.citations] ++
        [.done services.assistantId answered.route answered.usage])).answer = t := by
      rw [List.append_assoc]
      exact (answer_finished _ _ _ _ _).trans hs.shown
    show (received shownAsUuid safeExternalUrl (p.emitted ++ [.citations answered.citations] ++
      [.done services.assistantId answered.route answered.usage])).answer = m.content ↔ _
    rw [hanswer, hcontent, hiff, hr]
    refine not_congr ⟨fun hl => ⟨retrieval, rfl, hl⟩, ?_⟩
    rintro ⟨r, hrr, hl⟩
    cases hrr
    exact hl

def samplePost : ChatPost := ⟨"{}".toList, sampleKey⟩

/-- The request is still in progress at first, and the second attempt gets the replay of the answer `Hi`. -/
theorem sendBytes_showsAnswer_hi :
    (sendBytes (citationValidator (fun _ => true) fun _ => none) samplePost (.answered 425 none)
        (.answered 200 (some ([streamBytes (sampleTranscript ['H', 'i'])], .closed)))).posts = [samplePost, samplePost] ∧
      ShowsAnswer (fun _ => true) (sampleServices ['H', 'i']) ⟨51, ['H', 'i'], sampleTranscript ['H', 'i']⟩ .closed
        (sendBytes (citationValidator (fun _ => true) fun _ => none) samplePost (.answered 425 none)
          (.answered 200 (some ([streamBytes (sampleTranscript ['H', 'i'])], .closed)))) :=
  sendBytes_showsAnswer
    (fun retrieval h s hs => by
      cases h
      cases hs)
    (show (events id sampleAccepted (sampleServices ['H', 'i'])).persisted =
      some ⟨51, ['H', 'i'], sampleTranscript ['H', 'i']⟩ from by decide)
    (.replay { sampleAccepted with replay := some ⟨51, sampleTranscript ['H', 'i']⟩ } (sampleServices []) rfl)
    (.again (.early none) ⟨200, _, rfl, by decide, List.flatten_singleton⟩)

/-! ## Failures -/

end Etoeragcb.Chat
