import Etoeragcb.Frontend.Sse
import Etoeragcb.Lib.Decoder

/-!
# The chat page

`send` and `consume` of `frontend/src/routes/(app)/chat/+page.svelte` over the bytes of a body, with what the page holds
when `send` has ended.
-/

namespace Etoeragcb.Frontend

open Lib

variable {κ : Type} (v : Validator κ)

/-- What `fetch` yields; the fragments are bytes. -/
inductive ByteResponse
  | rejected
  | answered (status : Nat) (body : Option (List (List UInt8) × Ending))

/-- The loop of `consume`, with its decoder. -/
def readBytes (parser : SSEParser) (decoder : TextDecoder) (a : ChatAccumulator κ) :
    List (List UInt8) → Ending → ChatAccumulator κ × Outcome
  | [], .failed _ => (a, .threw)
  | [], .closed =>
      match parser.feed decoder.flush true with
      | .error _ => (a, .threw)
      | .ok (_, events) =>
          let a := events.foldl (ChatAccumulator.apply v) a
          (a, .returned a.terminal)
  | fragment :: fragments, ending =>
      match parser.feed (decoder.decode fragment).2 false with
      | .error _ => (a, .threw)
      | .ok (parser, events) =>
          let a := events.foldl (ChatAccumulator.apply v) a
          if a.stops then (a, ending.cancel a.terminal)
          else readBytes parser (decoder.decode fragment).1 a fragments ending

def consumeBytes (a : ChatAccumulator κ) : ByteResponse → ChatAccumulator κ × Outcome
  | .rejected => (a, .threw)
  | .answered status body =>
      if status = 425 then (a, .returned false)
      else if 200 ≤ status ∧ status ≤ 299 then
        match body with
        | some (fragments, ending) => readBytes v .new .new a fragments ending
        | none => (a, .threw)
      else (a, .threw)

structure Page (κ : Type) where
  posts : List ChatPost
  accumulator : ChatAccumulator κ
  chatError : ChatError

def Page.after (page : Page κ) (post : ChatPost) : Page κ := { page with posts := post :: page.posts }

/-- The attempts that are left, each with what the server answers to it. -/
def attemptBytes (post : ChatPost) : ChatAccumulator κ → List ByteResponse → Page κ
  | a, [] => ⟨[], a, .interrupted⟩
  | a, response :: responses =>
      match consumeBytes v a response with
      | (a, .threw) => ⟨[post], a, .interrupted⟩
      | (a, .returned true) => ⟨[post], a, chatError a⟩
      | (a, .returned false) => (attemptBytes post a responses).after post

/-- `send` from its `try` on, given the answers to the two attempts, where `invalidateAll` does not throw. -/
def sendBytes (post : ChatPost) (first second : ByteResponse) : Page κ := attemptBytes v post (.new v) [first, second]

end Etoeragcb.Frontend
