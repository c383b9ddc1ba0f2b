import Etoeragcb.Lib.Json
import Etoeragcb.Lib.Result

/-!
# Streamed events

`_encode_event` of `app/chat/routes.py`, the `SSEParser` and the `ChatAccumulator` of `frontend/src/lib/sse.ts`, and `send`
and `consume` of the chat page. The numbers of an event stay as they are written.
-/

namespace Etoeragcb.Frontend

open Lib

/-! ## The backend -/

inductive EventName
  | start | status | delta | replace | citations | done | error
deriving DecidableEq

def EventName.text : EventName → Text
  | start => "start".toList
  | status => "status".toList
  | delta => "delta".toList
  | replace => "replace".toList
  | citations => "citations".toList
  | done => "done".toList
  | error => "error".toList

structure StreamEvent where
  event : EventName
  data : List (Text × Json)

def encodeEvent (event : StreamEvent) (eventId : Nat) : Text :=
  "id: ".toList ++ decimal eventId ++ "\nevent: ".toList ++ event.event.text ++ "\ndata: ".toList ++
    (Json.obj event.data).encode ++ ['\n', '\n']

/-- `encoded_events`, after `i` events. -/
def encodedEvents : Nat → List StreamEvent → Text
  | _, [] => []
  | i, event :: events => encodeEvent event (i + 1) ++ encodedEvents (i + 1) events

/-! ## The parser -/

structure SSEEvent where
  event : Text
  data : List (Text × Json)
  id : Option Text

/-- The fields of the event that is being read. -/
structure Fields where
  eventName : Text
  eventId : Option Text
  dataLines : List Text

def Fields.new : Fields := ⟨"message".toList, none, []⟩

structure SSEParser where
  buffer : Text
  fields : Fields

def SSEParser.new : SSEParser := ⟨[], .new⟩

def Fields.dispatch (p : Fields) : Except String (Fields × SSEEvent) :=
  match Json.parse (['\n'].intercalate p.dataLines) with
  | none => .error "invalid SSE JSON"
  | some (.obj data) => .ok (.new, ⟨p.eventName, data, p.eventId⟩)
  | some _ => .error "invalid SSE payload"

/-- What stands before the first colon, and what behind it without one leading space. -/
def splitField (line : Text) : Text × Text :=
  let value := (line.dropWhile (· ≠ ':')).drop 1
  (line.takeWhile (· ≠ ':'), if value.head? = some ' ' then value.drop 1 else value)

/-- `line` of a line that is not empty. -/
def Fields.setField (p : Fields) (line : Text) : Fields :=
  if line.head? = some ':' then p
  else
    let (field, value) := splitField line
    if field = "event".toList then { p with eventName := value }
    else if field = "id".toList ∧ '\x00' ∉ value then { p with eventId := some value }
    else if field = "data".toList then { p with dataLines := p.dataLines ++ [value] }
    else p

def Fields.flush (p : Fields) : Except String (Fields × List SSEEvent) :=
  if p.dataLines = [] then .ok (p, []) else p.dispatch.map fun x => (x.1, [x.2])

def Fields.line (p : Fields) (line : Text) : Except String (Fields × List SSEEvent) :=
  if line = [] then p.flush else .ok (p.setField line, [])

/-- `.replace(/\r$/, '')` -/
def dropReturn (line : Text) : Text := if line.getLast? = some '\r' then line.dropLast else line

def Fields.lines : Fields → List Text → Except String (Fields × List SSEEvent)
  | p, [] => .ok (p, [])
  | p, line :: ls => do
      let (p, event) ← p.line (dropReturn line)
      let (p, events) ← p.lines ls
      return (p, event ++ events)

/-- The lines that have an end, and what follows them. -/
def cutLines (buffer : Text) : List Text × Text :=
  ((buffer.splitOn '\n').dropLast, (buffer.splitOn '\n').getLastD [])

def SSEParser.feed (p : SSEParser) (fragment : Text) (final : Bool) : Except String (SSEParser × List SSEEvent) := do
  let (ls, buffer) := cutLines (p.buffer ++ fragment)
  let (fields, events) ← p.fields.lines ls
  if final then
    let (fields, last) ← fields.lines (if buffer = [] then [] else [buffer])
    let (fields, pending) ← fields.flush
    return (⟨[], fields⟩, events ++ last ++ pending)
  else return (⟨buffer, fields⟩, events)

def SSEParser.feedAll : SSEParser → List Text → Except String (List SSEEvent)
  | _, [] => .ok []
  | p, [fragment] => (p.feed fragment true).map Prod.snd
  | p, fragment :: fragments => do
      let (p, events) ← p.feed fragment false
      let rest ← p.feedAll fragments
      return events ++ rest

/-! ## The accumulator -/

variable {κ : Type}

/-- `ChatAccumulator`, with citations of any type. -/
structure ChatAccumulator (κ : Type) where
  answer : Text
  citations : κ
  stages : List Text
  assistantMessageId : Option Text
  route : Option Text
  errorCode : Option Text
  retryable : Bool
  started : Bool
  done : Bool

/-- The `validateCitations` of the client, with what it returns for no citations. -/
structure Validator (κ : Type) where
  empty : κ
  validate : Option Json → κ

def ChatAccumulator.new (v : Validator κ) : ChatAccumulator κ := ⟨[], v.empty, [], none, none, none, false, false, false⟩

def stringMember (data : List (Text × Json)) (key : String) : Option Text :=
  match Json.get? data key.toList with
  | some (.str s) => some s
  | _ => none

def stageNames : List Text := ["planning", "retrieving", "reranking", "generating"].map String.toList

def ChatAccumulator.apply (v : Validator κ) (a : ChatAccumulator κ) (e : SSEEvent) : ChatAccumulator κ :=
  if e.event = EventName.start.text then { ChatAccumulator.new v with started := true }
  else if e.event = EventName.status.text then
    { a with stages := a.stages ++ ((stringMember e.data "stage").filter (· ∈ stageNames)).toList }
  else if e.event = EventName.delta.text then { a with answer := a.answer ++ (stringMember e.data "text").getD [] }
  else if e.event = EventName.replace.text then { a with answer := (stringMember e.data "text").getD a.answer }
  else if e.event = EventName.citations.text then
    { a with citations := v.validate (Json.get? e.data "items".toList) }
  else if e.event = EventName.done.text then
    { a with
      assistantMessageId := (stringMember e.data "message_id").or a.assistantMessageId
      route := (stringMember e.data "route").or a.route
      done := true }
  else if e.event = EventName.error.text then
    { a with
      errorCode := some ((stringMember e.data "code").getD "chat_error".toList)
      retryable := match Json.get? e.data "retryable".toList with
        | some (.bool b) => b
        | _ => false }
  else a

/-! ## The chat page -/

/-- How the reading of a body ends behind its fragments. A body that fails may have failed before it is cancelled. -/
inductive Ending
  | closed | failed (early : Bool)
deriving DecidableEq

/-- What `fetch` yields; the fragments are decoded. -/
inductive Response
  | rejected
  | answered (status : Nat) (body : Option (List Text × Ending))

inductive Outcome
  | threw
  | returned (terminal : Bool)
deriving DecidableEq

/-- `accumulator.done || accumulator.errorCode`, where an empty code is no reason to stop. -/
def ChatAccumulator.stops (a : ChatAccumulator κ) : Bool := a.done || a.errorCode.any (· ≠ [])

def ChatAccumulator.terminal (a : ChatAccumulator κ) : Bool := a.done || a.errorCode.isSome

/-- `await reader.cancel()`, which rejects if the body has failed, and what `consume` returns behind it. -/
def Ending.cancel (terminal : Bool) : Ending → Outcome
  | .failed true => .threw
  | .closed | .failed false => .returned terminal

/-- The loop of `consume`. -/
def readBody (v : Validator κ) (parser : SSEParser) (a : ChatAccumulator κ) :
    List Text → Ending → ChatAccumulator κ × Outcome
  | [], .failed _ => (a, .threw)
  | [], .closed =>
      match parser.feed [] true with
      | .error _ => (a, .threw)
      | .ok (_, events) =>
          let a := events.foldl (ChatAccumulator.apply v) a
          (a, .returned a.terminal)
  | fragment :: fragments, ending =>
      match parser.feed fragment false with
      | .error _ => (a, .threw)
      | .ok (parser, events) =>
          let a := events.foldl (ChatAccumulator.apply v) a
          if a.stops then (a, ending.cancel a.terminal) else readBody v parser a fragments ending

def consume (v : Validator κ) (a : ChatAccumulator κ) : Response → ChatAccumulator κ × Outcome
  | .rejected => (a, .threw)
  | .answered status body =>
      if status = 425 then (a, .returned false)
      else if 200 ≤ status ∧ status ≤ 299 then
        match body with
        | some (fragments, ending) => readBody v .new a fragments ending
        | none => (a, .threw)
      else (a, .threw)

inductive ChatError
  | none | incomplete (retryable : Bool) | endedUnexpectedly | interrupted
deriving DecidableEq

def chatError (a : ChatAccumulator κ) : ChatError :=
  if a.errorCode.any (· ≠ []) then .incomplete a.retryable
  else if a.done then .none
  else .endedUnexpectedly

structure ChatPost where
  body : Text
  idempotencyKey : Text
deriving DecidableEq

/-- The attempts that are left, each with what the server answers to it; the posts that are made. -/
def attempts (v : Validator κ) (post : ChatPost) : ChatAccumulator κ → List Response → List ChatPost × ChatError
  | _, [] => ([], .interrupted)
  | a, response :: responses =>
      match consume v a response with
      | (_, .threw) => ([post], .interrupted)
      | (a, .returned true) => ([post], chatError a)
      | (a, .returned false) =>
          let (posts, e) := attempts v post a responses
          (post :: posts, e)

/-- `send` from its `try` on, given the answers to the two attempts, where `invalidateAll` does not throw. -/
def send (v : Validator κ) (post : ChatPost) (first second : Response) : List ChatPost × ChatError :=
  attempts v post (.new v) [first, second]

/-! ## What a prefix of a stream holds -/

def StreamEvent.received (event : StreamEvent) (eventId : Nat) : SSEEvent :=
  ⟨event.event.text, event.data, some (decimal eventId)⟩

/-- The events, after the first `i` ones, whose data ends within `n` characters. -/
def within : Nat → List StreamEvent → Nat → List (StreamEvent × Nat)
  | _, [], _ => []
  | i, event :: events, n =>
      let size := (encodeEvent event (i + 1)).length
      if size ≤ n + 2 then (event, i + 1) :: within (i + 1) events (n - size) else []

/-- The first `n` characters end in a data line whose data is not complete. -/
def splitsData : Nat → List StreamEvent → Nat → Bool
  | _, [], _ => false
  | i, event :: events, n =>
      let size := (encodeEvent event (i + 1)).length
      if size ≤ n then splitsData (i + 1) events (n - size)
      else decide (size ≤ n + (Json.obj event.data).encode.length + 4 ∧ n + 2 < size)

def StreamEvent.isTerminal (event : StreamEvent) : Bool := event.event = .done || event.event = .error

/-- The fragments yield the events whose data lies in the first `n` characters. -/
def ReadsPrefix (events : List StreamEvent) (n : Nat) (fragments : List Text) : Prop :=
  SSEParser.new.feedAll fragments = .ok ((within 0 events n).map fun x => x.1.received x.2)

/-- A stream without a terminal event in its first `n` characters leads to one more attempt. -/
def Reconnects (v : Validator κ) (events : List StreamEvent) (n : Nat) (response : Response) : Prop :=
  (∀ x ∈ within 0 events n, x.1.isTerminal = false) →
    (∀ a : ChatAccumulator κ, a.terminal = false → (consume v a response).2 = .returned false) ∧
      ∀ post second, (send v post response second).1 = [post, post]

end Etoeragcb.Frontend
