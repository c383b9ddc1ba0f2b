import Etoeragcb.Chat.Citations

/-!
# The event stream of one chat

`ChatCoordinator.events` of `app/chat/orchestrator.py`, and the `ChatAccumulator` of `frontend/src/lib/sse.ts`
that folds the events. What retrieval, the prompt, the generator and the database answer is given to the stream.
-/

namespace Etoeragcb.Chat

open Lib Models

/-! ## What the services answer -/

inductive Intent
  | smalltalk | «meta» | knowledge
deriving DecidableEq

inductive GateRoute
  | answer | noAnswer
deriving DecidableEq

/-- The fields of an `EvidenceCandidate` that a citation takes over. -/
structure EvidenceCandidate where
  sourceType : SourceType
  title : Text
  sourceFilename : Option Text
  uri : Option Text
  pageStart : Option Nat
  pageEnd : Option Nat
  documentId : Option DocumentId
  documentVersionId : Option VersionId
deriving DecidableEq

structure PackedSource where
  sourceId : SourceId
  candidate : EvidenceCandidate
deriving DecidableEq

structure CombinedRetrievalResult where
  intent : Intent
  gateRoute : GateRoute
  sources : List PackedSource
deriving DecidableEq

structure GenerationChunk where
  content : Text
  usage : Option UsageSummary
deriving DecidableEq

/-- The exceptions that `events` tells apart. -/
inductive Failure
  | scopeValidation
  | generation (code : String) (retryable : Bool)
  | other
deriving DecidableEq

/-- The answers of the services to one request: the retrieval with the history, the bounded prompt, the
generator's chunks and how its stream ends, and the transaction of `_persist`. -/
structure Services where
  retrieval : Except Failure CombinedRetrievalResult
  messages : Except Failure Unit
  chunks : List GenerationChunk
  streamEnd : Except Failure Unit
  assistantId : MessageId
  persist : Except Failure Unit

/-! ## Citations and fixed answers -/

def Citation.valid (c : Citation) : Bool :=
  1 ≤ c.title.length && c.title.length ≤ 1024 &&
    (c.sourceFilename.all fun f => f.length ≤ 1024) && c.pageStart.all (1 ≤ ·) && c.pageEnd.all (1 ≤ ·) &&
    (c.uri.all fun u => u.length ≤ 4096) &&
    match c.sourceType with
    | .document => c.documentId.isSome && c.documentVersionId.isSome
    | .web => c.uri.isSome

/-- `citations_for_answer`; a citation that does not validate raises. -/
def citationsForAnswer (answer : SanitizedAnswer) (sources : List PackedSource) :
    Except Failure (List (Text × Citation)) :=
  (answer.citedSourceIds.filterMap fun sourceId =>
    (sources.reverse.find? fun s => s.sourceId.text = sourceId).map fun s => (sourceId, s.candidate)).mapM
    fun (sourceId, candidate) =>
      let marker := '[' :: (sourceId ++ [']'])
      let citation : Citation := ⟨marker, sourceId, candidate.sourceType, candidate.title, candidate.documentId,
        candidate.documentVersionId, candidate.sourceFilename, candidate.pageStart, candidate.pageEnd,
        candidate.uri⟩
      if citation.valid then .ok (marker, citation) else .error .other

def turkishCharacters : Text := "çğıöşü".toList

def turkishWords : List Text := [" nedir ", " nasıl ", " hangi ", " hakkında "].map String.toList

/-- `_no_answer`, given what `str.casefold` makes of the message. -/
def noAnswer (casefold : Text → Text) (message : Text) : Text :=
  let lowered := ' ' :: (casefold message ++ [' '])
  let turkish := lowered.any (turkishCharacters.contains ·) || turkishWords.any fun w => decide (w <:+: lowered)
  if turkish then "Bu soruyu yanıtlamak için yeterli güvenilir kanıt bulamadım.".toList
  else "I could not find enough reliable evidence to answer that question.".toList

/-! ## The stream -/

/-- The events that have been yielded, and the transcript beside them. -/
structure Progress where
  emitted : List StreamEvent
  transcript : List StreamEvent
deriving DecidableEq

def Progress.say (p : Progress) (e : StreamEvent) : Progress :=
  ⟨p.emitted ++ [e], p.transcript ++ [e]⟩

/-- `async for chunk in self._generator.stream(messages)` -/
def generate : CitationStreamSanitizer → UsageSummary → Progress → List GenerationChunk →
    CitationStreamSanitizer × UsageSummary × Progress
  | sanitizer, usage, p, [] => (sanitizer, usage, p)
  | sanitizer, usage, p, chunk :: chunks =>
      let usage := chunk.usage.getD usage
      if chunk.content = [] then generate sanitizer usage p chunks
      else
        let (sanitizer, safe) := sanitizer.feed chunk.content
        generate sanitizer usage (if safe ≠ [] then p.say (.delta safe) else p) chunks

/-- The final text of a stream with what belongs to it. -/
structure Answered where
  finalText : Text
  route : Route
  usage : UsageSummary
  citations : List (Text × Citation)
deriving DecidableEq

variable (casefold : Text → Text)

/-- The text, route and citations after `sanitizer.finish`; a grounded answer has to cite something. -/
def routed (message : Text) (grounded : Bool) (sources : List PackedSource) (usage : UsageSummary)
    (answer : SanitizedAnswer) : Except Failure Answered :=
  if grounded && answer.citedSourceIds.isEmpty then .ok ⟨noAnswer casefold message, .noAnswer, usage, []⟩
  else (citationsForAnswer answer sources).map fun citations =>
    ⟨answer.text, if grounded then .answer else .conversation, usage, citations⟩

/-- `if not final_text` -/
def settle (message : Text) (grounded : Bool) (sources : List PackedSource) (usage : UsageSummary)
    (answer : SanitizedAnswer) : Except Failure Answered :=
  (routed casefold message grounded sources usage answer).map fun answered =>
    if answered.finalText = [] then ⟨noAnswer casefold message, .noAnswer, usage, []⟩ else answered

/-- What follows the generator's last chunk: the answer replaces a streamed text that differs. -/
def conclude (message : Text) (grounded : Bool) (sources : List PackedSource) (usage : UsageSummary)
    (sanitizer : CitationStreamSanitizer) (p : Progress) : Progress × Except Failure Answered :=
  let (sanitizer, answer) := sanitizer.finish
  match settle casefold message grounded sources usage answer with
  | .error f => (p, .error f)
  | .ok settled =>
      (if settled.finalText ≠ sanitizer.streamedText then p.say (.replace settled.finalText) else p, .ok settled)

def CombinedRetrievalResult.grounded (retrieval : CombinedRetrievalResult) : Bool :=
  decide (retrieval.intent = .knowledge)

def CombinedRetrievalResult.allowedSourceIds (retrieval : CombinedRetrievalResult) : List SourceId :=
  if retrieval.grounded then retrieval.sources.map (·.sourceId) else []

/-- From the retrieval to the final text: the events so far, and the answer unless something raised. -/
def respond (message : Text) (retrieval : CombinedRetrievalResult) (services : Services) (p : Progress) :
    Progress × Except Failure Answered :=
  if retrieval.grounded && retrieval.gateRoute ≠ .answer then
    let finalText := noAnswer casefold message
    (p.say (.delta finalText), .ok ⟨finalText, .noAnswer, ⟨0, 0, 0⟩, []⟩)
  else
    let p := p.say (.status .generating)
    match services.messages with
    | .error f => (p, .error f)
    | .ok () =>
        let (sanitizer, usage, p) := generate (.new retrieval.allowedSourceIds) ⟨0, 0, 0⟩ p services.chunks
        match services.streamEnd with
        | .error f => (p, .error f)
        | .ok () => conclude casefold message retrieval.grounded retrieval.sources usage sanitizer p

structure Persisted where
  assistantId : MessageId
  content : Text
  transcript : List StreamEvent
deriving DecidableEq

structure Streamed where
  emitted : List StreamEvent
  persisted : Option Persisted
deriving DecidableEq

def failureEvent : Failure → StreamEvent
  | .scopeValidation => .error "invalid_scope" false
  | .generation code retryable => .error code retryable
  | .other => .error "chat_unavailable" true

def Progress.fail (p : Progress) (f : Failure) : Streamed := ⟨p.emitted ++ [failureEvent f], none⟩

def opened (accepted : AcceptedChat) : Progress :=
  let q := accepted.request
  [StreamEvent.start q.clientRequestId accepted.userMessageId q.sessionId q.collectionIds q.documentIds q.webSearch,
    .status .planning, .status .retrieving, .status .reranking].foldl Progress.say ⟨[], []⟩

def events (accepted : AcceptedChat) (services : Services) : Streamed :=
  match accepted.replay with
  | some replay => ⟨replay.events, none⟩
  | none =>
      match services.retrieval with
      | .error f => (opened accepted).fail f
      | .ok retrieval =>
          match respond casefold accepted.request.message retrieval services (opened accepted) with
          | (p, .error f) => p.fail f
          | (p, .ok answered) =>
              let citationsEvent := StreamEvent.citations answered.citations
              let done := StreamEvent.done services.assistantId answered.route answered.usage
              match services.persist with
              | .error f => p.fail f
              | .ok () =>
                  ⟨p.emitted ++ [citationsEvent, done],
                    some ⟨services.assistantId, answered.finalText, p.transcript ++ [citationsEvent, done]⟩⟩

/-! ## The client -/

/-- `ChatAccumulator`, with the citations as `validateCitations` returns them. -/
structure ChatAccumulator where
  answer : Text
  citations : List (Text × Citation)
  stages : List Stage
  assistantMessageId : Option MessageId
  route : Option Route
  errorCode : Option String
  retryable : Bool
  started : Bool
  done : Bool
deriving DecidableEq

def ChatAccumulator.new : ChatAccumulator := ⟨[], [], [], none, none, none, false, false, false⟩

variable (isUuid : Nat → Bool) (safeExternalUrl : Text → Bool)

/-- `validateCitations` keeps the entries that a client may show. -/
def validateCitations (items : List (Text × Citation)) : List (Text × Citation) :=
  items.filter fun (marker, c) =>
    (match marker? marker with
    | some ds => marker == markerOf ds && c.marker == marker && c.sourceId == 'S' :: ds
    | none => false) &&
    !c.title.isEmpty &&
    (match c.sourceType with
    | .document => c.documentId.any isUuid && c.documentVersionId.any isUuid
    | .web => c.uri.any safeExternalUrl) &&
    c.pageStart.all (1 ≤ ·) && c.pageEnd.all (1 ≤ ·) &&
    (match c.pageStart, c.pageEnd with
    | some start, some stop => decide (start ≤ stop)
    | _, _ => true)

def ChatAccumulator.apply (a : ChatAccumulator) : StreamEvent → ChatAccumulator
  | .start .. => { ChatAccumulator.new with started := true }
  | .status stage => { a with stages := a.stages ++ [stage] }
  | .delta text => { a with answer := a.answer ++ text }
  | .replace text => { a with answer := text }
  | .citations items => { a with citations := validateCitations isUuid safeExternalUrl items }
  | .done messageId route _ => { a with assistantMessageId := some messageId, route := some route, done := true }
  | .error code retryable => { a with errorCode := some code, retryable := retryable }

/-- The state of a client that has received the events. -/
def received (es : List StreamEvent) : ChatAccumulator :=
  es.foldl (ChatAccumulator.apply isUuid safeExternalUrl) .new

end Etoeragcb.Chat
