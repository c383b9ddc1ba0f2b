import Etoeragcb.Lib.Dict
import Etoeragcb.Lib.Json
import Etoeragcb.Lib.Result
import Etoeragcb.Web.Security

/-!
# Responses

`PinnedHttpTransport.fetch_once` of `app/web/http.py` from the response on. The server sends the bytes of a finite
stream and closes the connection. A `StreamReader` with a limit reads them; how many bytes it has received when it is
asked for some matters to `read` alone.
-/

namespace Etoeragcb.Web

open Lib

abbrev Bytes := List UInt8

/-- `HEADER_LIMIT`, which is also the limit of the stream -/
def headerLimit : Nat := 65536

def chunkLineLimit : Nat := 128

def redirectStatuses : List Nat := [301, 302, 303, 307, 308]

inductive Raised
  | webFetchError (e : WebFetchError)
  | incompleteReadError
  | limitOverrunError
  | valueError
deriving DecidableEq

def invalidResponse (message : String) : Raised := .webFetchError ⟨"invalid_response", message⟩

abbrev Headers := List (Text × List Text)

structure HttpResponse where
  status : Nat
  headers : Headers
  body : Bytes
deriving DecidableEq

/-! ## The reader -/

/-- What precedes the first empty line, and what follows it. -/
def cutHead : Bytes → Option (Bytes × Bytes)
  | 13 :: 10 :: 13 :: 10 :: s => some ([], s)
  | b :: s => (cutHead s).map fun x => (b :: x.1, x.2)
  | [] => none

/-- `readuntil(b"\r\n\r\n")`, without the separator -/
def readHead (stream : Bytes) : Except Raised (Bytes × Bytes) :=
  match cutHead stream with
  | some (raw, rest) => if headerLimit < raw.length then .error .limitOverrunError else .ok (raw, rest)
  | none => if headerLimit + 3 < stream.length then .error .limitOverrunError else .error .incompleteReadError

/-- `readline()`, with a line that may end with the stream -/
def readline (stream : Bytes) : Except Raised (Bytes × Bytes) :=
  let line := stream.takeWhile (· ≠ 10)
  if headerLimit < line.length then .error .valueError
  else match stream.dropWhile (· ≠ 10) with
    | [] => .ok (line, [])
    | b :: rest => .ok (line ++ [b], rest)

/-- `readexactly(n)` -/
def readexactly (n : Nat) (stream : Bytes) : Except Raised (Bytes × Bytes) :=
  if n ≤ stream.length then .ok (stream.take n, stream.drop n) else .error .incompleteReadError

/-! ## The head -/

/-- `raw.split(b"\r\n")` -/
def splitCrlf : Bytes → List Bytes
  | 13 :: 10 :: s => [] :: splitCrlf s
  | b :: s => (splitCrlf s).modifyHead (b :: ·)
  | [] => [[]]

/-- `bytes.decode("latin-1")` -/
def latin1 (s : Bytes) : Text := s.map fun b => Char.ofNat b.toNat

/-- `bytes.decode("ascii")` -/
def ascii? (s : Bytes) : Option Text := if s.all (· < 128) then some (latin1 s) else none

/-- `str.lower` of a text over Latin-1 -/
def lowerLatin1 (s : Text) : Text :=
  s.map fun c => if ('A' ≤ c ∧ c ≤ 'Z') ∨ ('À' ≤ c ∧ c ≤ 'Þ' ∧ c ≠ '×') then Char.ofNat (c.toNat + 32) else c

/-- `str.isdigit` of a text over Latin-1 -/
def isdigitLatin1 (s : Text) : Bool := s ≠ [] && s.all fun c => isDigit c || c ∈ ['²', '³', '¹']

/-- `int` of such a text: a digit is a decimal one, and there are not too many of them. -/
def intLatin1 (s : Text) : Option Nat :=
  if s.all isDigit ∧ s.length ≤ 4300 then some (ofDecimal s) else none

/-- `HTTP/1\.[01] ([1-5][0-9]{2})(?: .*)?` of a whole line -/
def statusOf (line : Text) : Option Nat :=
  match line with
  | 'H' :: 'T' :: 'T' :: 'P' :: '/' :: '1' :: '.' :: v :: ' ' :: a :: b :: c :: rest =>
      if (v = '0' ∨ v = '1') ∧ ('1' ≤ a ∧ a ≤ '5') ∧ isDigit b ∧ isDigit c ∧
          (rest = [] ∨ (rest.head? = some ' ' ∧ '\n' ∉ rest)) then
        some (ofDecimal [a, b, c])
      else none
  | _ => none

def isNameChar (c : Char) : Bool :=
  isDigit c || ('a' ≤ c && c ≤ 'z') || c ∈ ("!#$%&*+.^_|~-".toList ++ [Char.ofNat 39, Char.ofNat 96])

def parseHeader (line : Bytes) : Except Raised (Text × Text) :=
  if line = [] ∨ line.head? = some 32 ∨ line.head? = some 9 ∨ 58 ∉ line then
    .error (invalidResponse "HTTP response header is malformed")
  else match ascii? (line.takeWhile (· ≠ 58)) with
    | none => .error (invalidResponse "HTTP response header is invalid")
    | some name =>
        let name := lowerLatin1 name
        let value := strip (latin1 (line.dropWhile (· ≠ 58)).tail)
        if name = [] ∨ !name.all isNameChar then .error (invalidResponse "HTTP response header name is invalid")
        else if value.any fun c => c.toNat < 32 ∧ c ≠ '\t' then
          .error (invalidResponse "HTTP response header value is invalid")
        else .ok (name, value)

/-- `headers.get(name, ())` -/
def valuesOf (headers : Headers) (name : String) : List Text := (Dict.get? headers name.toList).getD []

def validateFraming (headers : Headers) : Except Raised Unit :=
  let contentLengths := valuesOf headers "content-length"
  let transferEncodings := valuesOf headers "transfer-encoding"
  if contentLengths ≠ [] ∧ transferEncodings ≠ [] then .error (invalidResponse "ambiguous HTTP response framing")
  else if contentLengths ≠ [] ∧ (contentLengths.dedup.length ≠ 1 ∨ !(contentLengths.head?.any isdigitLatin1)) then
    .error (invalidResponse "invalid Content-Length")
  else if transferEncodings ≠ [] ∧ lowerLatin1 (strip ([','].intercalate transferEncodings)) ≠ "chunked".toList then
    .error (.webFetchError ⟨"unsupported_encoding", "unsupported transfer encoding"⟩)
  else .ok ()

/-- The values of a header join those of the earlier lines of its name. -/
def addHeader (headers : Headers) (header : Text × Text) : Headers :=
  Dict.set headers header.1 ((Dict.get? headers header.1).getD [] ++ [header.2])

/-- `_read_response_head`, with what follows the head -/
def readResponseHead (stream : Bytes) : Except Raised ((Nat × Headers) × Bytes) := do
  let (raw, rest) ← match readHead stream with
    | .error _ => .error (invalidResponse "HTTP response headers are invalid")
    | .ok x => .ok x
  if headerLimit < raw.length + 4 then .error (invalidResponse "HTTP response headers are oversized")
  else
    let lines := splitCrlf raw
    let statusLine ← orRaise (lines.head?.bind ascii?) (invalidResponse "HTTP status line is not ASCII")
    let status ← orRaise (statusOf statusLine) (invalidResponse "HTTP response status is malformed")
    let parsed ← lines.tail.mapM parseHeader
    let headers := parsed.foldl addHeader []
    validateFraming headers
    return ((status, headers), rest)

/-! ## Chunks -/

/-- The whitespace that `int` skips around the bytes of a number. -/
def isByteSpace (b : UInt8) : Bool := b == 32 || (9 ≤ b && b ≤ 13)

def hexByte (b : UInt8) : Option Nat := Json.hexValue (Char.ofNat b.toNat)

/-- The digits behind one that has been read, with single underscores between them. -/
def readHexBytes : Nat → Bytes → Option Nat
  | acc, [] => some acc
  | acc, 95 :: b :: s => (hexByte b).bind fun d => readHexBytes (16 * acc + d) s
  | acc, b :: s => (hexByte b).bind fun d => readHexBytes (16 * acc + d) s

/-- The digits of a number, the first of which is no underscore. -/
def hexNumber : Bytes → Option Nat
  | [] => none
  | b :: s => (hexByte b).bind fun d => readHexBytes d s

/-- A number behind its sign: there may be a prefix, and an underscore behind that. -/
def unsignedBase16 : Bytes → Option Nat
  | 48 :: x :: s =>
      if x = 120 ∨ x = 88 then (match s with
        | 95 :: s => hexNumber s
        | s => hexNumber s)
      else hexNumber (48 :: x :: s)
  | s => hexNumber s

/-- `int(text, 16)` of bytes, or nothing where it raises `ValueError` -/
def intBase16 (text : Bytes) : Option ℤ :=
  match (text.dropWhile isByteSpace).rdropWhile isByteSpace with
  | 45 :: s => (unsignedBase16 s).map fun n => -(n : ℤ)
  | 43 :: s => (unsignedBase16 s).map (↑)
  | s => (unsignedBase16 s).map (↑)

/-- `line.endswith(b"\r\n")` -/
def endsCrlf (line : Bytes) : Bool := [13, 10].isSuffixOf line

/-- `line[:-2].split(b";", 1)[0]` -/
def sizeText (line : Bytes) : Bytes := (line.take (line.length - 2)).takeWhile (· ≠ 59)

theorem readline_length {stream line rest : Bytes} (h : readline stream = .ok (line, rest)) :
    line.length + rest.length = stream.length := by
  simp only [readline] at h
  split at h
  · cases h
  · have hlen := congrArg List.length (List.takeWhile_append_dropWhile (p := fun b : UInt8 => decide (b ≠ 10)) (l := stream))
    rw [List.length_append] at hlen
    split at h
    · rename_i hd
      cases h
      rw [hd] at hlen
      exact hlen
    · rename_i b rest hd
      cases h
      rw [hd, List.length_cons] at hlen
      rw [List.length_append, List.length_singleton]
      omega

theorem readexactly_length {n : Nat} {stream data rest : Bytes} (h : readexactly n stream = .ok (data, rest)) :
    data.length + rest.length = stream.length := by
  simp only [readexactly] at h
  split at h
  · cases h
    rw [← List.length_append, List.take_append_drop]
  · cases h

theorem length_pos_of_endsCrlf {line : Bytes} (h : endsCrlf line = true) : 0 < line.length := by
  rw [endsCrlf, List.isSuffixOf_iff_suffix] at h
  have := h.length_le
  simp only [List.length_cons, List.length_nil] at this
  omega

/-- `_read_trailers` behind lines of the given length -/
def readTrailers (total : Nat) (stream : Bytes) : Except Raised Unit :=
  match _h : readline stream with
  | .error e => .error e
  | .ok (line, rest) =>
      if headerLimit < total + line.length then .error (invalidResponse "chunk trailers are invalid")
      else if _hline : endsCrlf line then
        if line = [13, 10] then .ok () else readTrailers (total + line.length) rest
      else .error (invalidResponse "chunk trailers are invalid")
termination_by stream.length
decreasing_by
  have := readline_length _h
  have := length_pos_of_endsCrlf _hline
  omega

def tooLarge (message : String) : Raised := .webFetchError ⟨"too_large", message⟩

/-- `_read_chunked` behind the chunks of the given body -/
def readChunked (maxBytes : Nat) (body stream : Bytes) : Except Raised Bytes :=
  match _h : readline stream with
  | .error e => .error e
  | .ok (line, rest) =>
      if _hline : endsCrlf line ∧ line.length ≤ chunkLineLimit then
        match intBase16 (sizeText line) with
        | none => .error (invalidResponse "chunk size is invalid")
        | some size =>
            if size < 0 ∨ (maxBytes : ℤ) < body.length + size then
              .error (tooLarge "chunked response exceeds the byte limit")
            else if size = 0 then (readTrailers 0 rest).map fun _ => body
            else match _hdata : readexactly size.toNat rest with
              | .error e => .error e
              | .ok (data, after) => match _hend : readexactly 2 after with
                | .error e => .error e
                | .ok (terminator, after) =>
                    if terminator ≠ [13, 10] then .error (invalidResponse "chunk terminator is invalid")
                    else readChunked maxBytes (body ++ data) after
      else .error (invalidResponse "chunk header is malformed")
termination_by stream.length
decreasing_by
  have := readline_length _h
  have := length_pos_of_endsCrlf _hline.1
  have := readexactly_length _hdata
  have := readexactly_length _hend
  omega

/-! ## The body -/

/-- `read(n)` until the stream ends, where `received` says how many of the bytes that are left the reader has; it waits
for one at least. -/
def readToEnd (received : Bytes → Nat) (maxBytes total : Nat) (stream : Bytes) : Except Raised Bytes :=
  let n := min (min 65536 (maxBytes - total + 1)) (max 1 (received stream))
  if _hs : stream = [] then .ok []
  else if maxBytes < total + (stream.take n).length then .error (tooLarge "response exceeds the byte limit")
  else (readToEnd received maxBytes (total + (stream.take n).length) (stream.drop n)).map (stream.take n ++ ·)
termination_by stream.length
decreasing_by
  have := List.length_pos_iff.mpr _hs
  rw [List.length_drop]
  omega

def readBody (received : Bytes → Nat) (headers : Headers) (maxBytes : Nat) (stream : Bytes) : Except Raised Bytes :=
  let contentEncoding := lowerLatin1 (strip ([','].intercalate (valuesOf headers "content-encoding")))
  if contentEncoding ≠ [] ∧ contentEncoding ≠ "identity".toList then
    .error (.webFetchError ⟨"unsupported_encoding", "compressed responses are not accepted"⟩)
  else match valuesOf headers "content-length" with
    | contentLength :: _ => do
        let length ← orRaise (intLatin1 contentLength) .valueError
        if maxBytes < length then .error (tooLarge "response exceeds the byte limit")
        else (readexactly length stream).map Prod.fst
    | [] =>
        if valuesOf headers "transfer-encoding" ≠ [] then readChunked maxBytes [] stream
        else readToEnd received maxBytes 0 stream

def readResponse (received : Bytes → Nat) (maxBytes : Nat) (stream : Bytes) : Except Raised HttpResponse := do
  let ((status, headers), rest) ← readResponseHead stream
  if status ∈ redirectStatuses then return ⟨status, headers, []⟩
  else
    let body ← readBody received headers maxBytes rest
    return ⟨status, headers, body⟩

/-- `fetch_once`, with its `except` clauses -/
def fetchOnce (received : Bytes → Nat) (maxBytes : Nat) (stream : Bytes) : Except Raised HttpResponse :=
  match readResponse received maxBytes stream with
  | .ok response => .ok response
  | .error (.webFetchError e) => .error (.webFetchError e)
  | .error .incompleteReadError | .error .limitOverrunError =>
      .error (.webFetchError ⟨"connection_failure", "page connection failed"⟩)
  | .error .valueError => .error .valueError

end Etoeragcb.Web
