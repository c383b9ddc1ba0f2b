import Etoeragcb.Chat.Metadata
import Etoeragcb.Frontend.Citations
import Etoeragcb.Frontend.Page

/-!
# Events on the wire

The dictionaries that the events of `app/chat/orchestrator.py` carry, and the accumulator of the client that has received
them.
-/

namespace Etoeragcb.Chat

open Lib Models

def Stage.text : Stage → Text
  | planning => "planning".toList
  | retrieving => "retrieving".toList
  | reranking => "reranking".toList
  | generating => "generating".toList

def Route.text : Route → Text
  | answer => "answer".toList
  | noAnswer => "no_answer".toList
  | conversation => "conversation".toList

def UsageSummary.json (usage : UsageSummary) : Json :=
  .obj [("prompt_tokens".toList, natJson usage.promptTokens),
    ("completion_tokens".toList, natJson usage.completionTokens),
    ("total_tokens".toList, natJson usage.totalTokens)]

def uuidJson (n : Nat) : Json := .str (Rag.uuidStr n)

def citationsJson (items : List (Text × Citation)) : Json := .obj (items.map fun x => (x.1, x.2.json))

def StreamEvent.wire : StreamEvent → Frontend.StreamEvent
  | .start requestId userMessageId sessionId collectionIds documentIds webSearch =>
      ⟨.start, [("request_id".toList, uuidJson requestId),
        ("user_message_id".toList, uuidJson userMessageId),
        ("session_id".toList, uuidJson sessionId),
        ("options".toList, .obj [("collection_ids".toList, .arr (collectionIds.map uuidJson)),
          ("document_ids".toList, .arr (documentIds.map uuidJson)),
          ("web_search".toList, .bool webSearch)])]⟩
  | .status stage => ⟨.status, [("stage".toList, .str stage.text)]⟩
  | .delta text => ⟨.delta, [("text".toList, .str text)]⟩
  | .replace text => ⟨.replace, [("text".toList, .str text)]⟩
  | .citations items => ⟨.citations, [("items".toList, citationsJson items)]⟩
  | .done messageId route usage =>
      ⟨.done, [("message_id".toList, uuidJson messageId), ("route".toList, .str route.text),
        ("usage".toList, usage.json)]⟩
  | .error code retryable => ⟨.error, [("code".toList, .str code.toList), ("retryable".toList, .bool retryable)]⟩

/-- The body that `_stream_response` sends. -/
def streamBytes (es : List StreamEvent) : List UInt8 := utf8 (Frontend.encodedEvents 0 (es.map StreamEvent.wire))

/-- The accumulator of a client that has received the events as JSON. -/
def ChatAccumulator.rendered (a : ChatAccumulator) : Frontend.ChatAccumulator (List (Text × Json)) where
  answer := a.answer
  citations := a.citations.map fun x => (x.1, x.2.json)
  stages := a.stages.map Stage.text
  assistantMessageId := a.assistantMessageId.map Rag.uuidStr
  route := a.route.map Route.text
  errorCode := a.errorCode.map String.toList
  retryable := a.retryable
  started := a.started
  done := a.done

/-- What the pattern of the client makes of the text of an identifier. -/
def shownAsUuid (n : Nat) : Bool := Frontend.isUuid (some (uuidJson n))

end Etoeragcb.Chat
