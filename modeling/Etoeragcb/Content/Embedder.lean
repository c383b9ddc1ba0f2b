import Etoeragcb.Content.Chunker
import Etoeragcb.Lib.Json
import Etoeragcb.Lib.Utf8

/-!
# The tokenizer service

`TeiClient` of `app/ingest/embedder.py`, as far as texts are tokenized.
-/

namespace Etoeragcb.Content

open Lib

inductive TeiError
  | tokenizationTooLong
  | embedding (message : String)
deriving DecidableEq

/-- What comes back for a request: a response, whose body may not be JSON, or an error of the transport. -/
inductive Response
  | answered (status : Nat) (body : Option Json)
  | httpError

/-- `TeiClient._post` for `/tokenize` -/
def post : Response → Except TeiError Json
  | .answered status body =>
      if 200 ≤ status ∧ status < 300 then
        match body with
        | some payload => .ok payload
        | none => .error (.embedding "TEI request failed for /tokenize")
      else if status = 413 ∨ status = 422 then .error .tokenizationTooLong
      else .error (.embedding "TEI request failed for /tokenize")
  | .httpError => .error (.embedding "TEI request failed for /tokenize")

/-! ## Offsets -/

/-- The character offsets by their byte offsets, from one of the text on. -/
def boundariesFrom (byteOffset characterOffset : Nat) : Text → List (Int × Nat)
  | [] => [(byteOffset, characterOffset)]
  | c :: s =>
      ((byteOffset : Int), characterOffset) ::
        boundariesFrom (byteOffset + (String.utf8EncodeChar c).length) (characterOffset + 1) s

def utf8BoundaryMap (text : Text) : List (Int × Nat) := boundariesFrom 0 0 text

/-- A value with `isinstance(value, int)`, which a truth value is, too. -/
def intOf : Json → Option Int
  | .int n => some n
  | .bool b => some (if b then 1 else 0)
  | _ => none

def tokensOf (payload : Json) : Except TeiError (List Json) :=
  let tokens := match payload with
    | .obj members => ((Json.get? members "tokens".toList).or (Json.get? members "data".toList)).getD .null
    | payload => payload
  match tokens with
  | .arr [.arr tokens] => .ok tokens
  | .arr tokens => .ok tokens
  | _ => .error (.embedding "TEI tokenize response has an unexpected shape")

def isSpecial (members : List (Text × Json)) : Bool :=
  match Json.get? members "special".toList with
  | some (.bool b) => b
  | _ => false

def spanOf (byteToCharacter : List (Int × Nat)) (baseOffset : Nat) : Json → Except TeiError (Option TokenSpan)
  | .obj members =>
      if isSpecial members then .ok none
      else
        match (Json.get? members "start".toList).bind intOf,
          ((Json.get? members "stop".toList).or (Json.get? members "end".toList)).bind intOf with
        | some start, some stop =>
            match byteToCharacter.lookup start, byteToCharacter.lookup stop with
            | some characterStart, some characterStop =>
                .ok (some ⟨(baseOffset + characterStart : Nat), (baseOffset + characterStop : Nat)⟩)
            | _, _ => .error (.embedding "TEI returned a non-boundary UTF-8 token offset")
        | _, _ => .ok none
  | _ => .ok none

def spansOf (byteToCharacter : List (Int × Nat)) (baseOffset : Nat) : List Json → Except TeiError (List TokenSpan)
  | [] => .ok []
  | token :: tokens => do
      let span ← spanOf byteToCharacter baseOffset token
      let spans ← spansOf byteToCharacter baseOffset tokens
      return span.toList ++ spans

def answeredSpans (baseOffset : Nat) (text : Text) (payload : Json) : Except TeiError (List TokenSpan) := do
  let tokens ← tokensOf payload
  let spans ← spansOf (utf8BoundaryMap text) baseOffset tokens
  if spans.isEmpty && !(strip text).isEmpty then throw (.embedding "TEI tokenize response did not include source offsets")
  else return spans

/-! ## Splitting -/

def spacesIn (text : Text) (start stop : Nat) : List Nat :=
  (List.range' start (stop - start)).filter fun position => text[position]? = some ' '

/-- The first of the positions that are as close to the midpoint as possible. -/
def closest (midpoint : Nat) : Nat → List Nat → Nat
  | best, [] => best
  | best, position :: positions =>
      closest midpoint
        (if ((position : Int) - midpoint).natAbs < ((best : Int) - midpoint).natAbs then position else best) positions

def safeSplit (text : Text) : Nat :=
  let midpoint := text.length / 2
  let before := (spacesIn text 0 midpoint).getLast?
  let after := (spacesIn text midpoint text.length).head?
  match (before.toList ++ after.toList).filter fun position => 0 < position ∧ position < text.length with
  | [] => midpoint
  | position :: positions => closest midpoint position positions + 1

/-! ## Requests -/

/-- What the service sends back for a text in the request with a number. -/
abbrev Service := Nat → Text → Response

variable (service : Service)

/-- `TeiClient._token_spans` from the request with the number `n` on, at most `fuel` calls deep: what it returns or raises,
with the number of the next request. -/
def tokenSpansFrom : Nat → Nat → Nat → Text → Option (Except TeiError (List TokenSpan) × Nat)
  | 0, _, _, _ => none
  | fuel + 1, n, baseOffset, text =>
      match post (service n text) with
      | .ok payload => some (answeredSpans baseOffset text payload, n + 1)
      | .error .tokenizationTooLong =>
          if text.length < 2 then some (.error .tokenizationTooLong, n + 1)
          else
            let split := safeSplit text
            match tokenSpansFrom fuel (n + 1) baseOffset (text.take split) with
            | some (.ok left, n) =>
                match tokenSpansFrom fuel n (baseOffset + split) (text.drop split) with
                | some (.ok right, n) => some (.ok (left ++ right), n)
                | result => result
            | result => result
      | .error e => some (.error e, n + 1)

def tokenSpans (fuel : Nat) (text : Text) : Option (Except TeiError (List TokenSpan)) :=
  (tokenSpansFrom service fuel 0 0 text).map Prod.fst

end Etoeragcb.Content
