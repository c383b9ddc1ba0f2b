import Etoeragcb.Chat.Schemas
import Etoeragcb.Lib.Scan

/-!
# Citation markers

The stream sanitizer of `app/chat/citations.py`. A pattern is a rule that looks at the text from the place
where a match may start.
-/

namespace Etoeragcb.Chat

open Lib Models

/-! ## Markers -/

/-- The digits of a source id, `[1-9][0-9]*`. -/
def isCanonical : Text → Bool
  | d :: ds => isDigit d && d != '0' && ds.all isDigit
  | [] => false

structure SourceId where
  digits : Text
  canonical : isCanonical digits = true
deriving DecidableEq

def SourceId.text (i : SourceId) : Text := 'S' :: i.digits

def markerOf (ds : Text) : Text := '[' :: 'S' :: (ds ++ [']'])

/-- The digits that follow `[S`, and what is left behind them. -/
def opening? : Text → Option (Text × Text)
  | '[' :: 'S' :: s => some (s.takeWhile isDigit, s.dropWhile isDigit)
  | _ => none

/-- `ANY_MARKER_RE`, `\[S([0-9]+)\]` -/
def anyMarker? (s : Text) : Option Text :=
  match opening? s with
  | some (d :: ds, ']' :: _) => some (d :: ds)
  | _ => none

/-- `MARKER_RE`, `\[S([1-9][0-9]*)\]` -/
def marker? (s : Text) : Option Text := (anyMarker? s).filter isCanonical

/-- `INCOMPLETE_MARKER_RE.fullmatch`, `\[S[0-9]*` up to the end -/
def incompleteMarker? (s : Text) : Bool :=
  match opening? s with
  | some (_, []) => true
  | _ => false

def allows (allowed : List SourceId) (ds : Text) : Bool := decide ('S' :: ds ∈ allowed.map SourceId.text)

/-! ## Repair of the complete answer -/

/-- Markers outside the allow-list are replaced by nothing, the others by themselves. -/
def fabricatedRule (allowed : List SourceId) : Rule Char := fun s =>
  (anyMarker? s).map fun ds => (if allows allowed ds then markerOf ds else [], (markerOf ds).length)

/-- `INCOMPLETE_MARKER_RE`, where `$` also stands before a final line break. -/
def incompleteRule : Rule Char := fun s =>
  match opening? s with
  | some (ds, []) => some ([], ds.length + 2)
  | some (ds, ['\n']) => some ([], ds.length + 2)
  | _ => none

/-- The length of `(?:\s*\1)*` in `s`, where `\1` is `m`; the first argument bounds the number of rounds. -/
def repeatsLength (m : Text) : Nat → Text → Nat
  | 0, _ => 0
  | n + 1, s =>
      if m.isPrefixOf (s.dropWhile isSpace) then
        (s.takeWhile isSpace).length + m.length + repeatsLength m n ((s.dropWhile isSpace).drop m.length)
      else 0

/-- `ADJACENT_DUPLICATE_RE`, `(\[S[1-9][0-9]*\])(?:\s*\1)+` -/
def duplicateRule : Rule Char := fun s =>
  match marker? s with
  | some ds =>
      let m := markerOf ds
      let k := repeatsLength m s.length (s.drop m.length)
      if k = 0 then none else some (m, m.length + k)
  | none => none

/-- `[ \t]` -/
def isBlank (c : Char) : Bool := c == ' ' || c == '\t'

/-- `[,.;:!?]` -/
def isPunctuation (c : Char) : Bool := [',', '.', ';', ':', '!', '?'].contains c

/-- `[ \t]+([,.;:!?])` -/
def punctuationRule : Rule Char := fun s =>
  match s.takeWhile isBlank, s.dropWhile isBlank with
  | b :: bs, p :: _ => if isPunctuation p then some ([p], (b :: bs).length + 1) else none
  | _, _ => none

/-- `[ \t]{2,}` -/
def blanksRule : Rule Char := fun s =>
  let b := s.takeWhile isBlank
  if 2 ≤ b.length then some ([' '], b.length) else none

def repairCompleteAnswer (value : Text) (allowed : List SourceId) : Text :=
  let repaired := rewrite (fabricatedRule allowed) value
  let repaired := rewrite incompleteRule repaired
  let repaired := rewrite duplicateRule repaired
  let repaired := rewrite punctuationRule repaired
  let repaired := rewrite blanksRule repaired
  strip repaired

def orderedSourceIds (value : Text) : List Text :=
  (findAll (fun s => (marker? s).map fun ds => ('S' :: ds, (markerOf ds).length)) 0 value).eraseDups

/-! ## The stream sanitizer -/

structure SanitizedAnswer where
  text : Text
  citedSourceIds : List Text
  repaired : Bool
deriving DecidableEq

structure CitationStreamSanitizer where
  allowed : List SourceId
  pending : Text
  rawParts : List Text
  emittedParts : List Text
  repaired : Bool
deriving DecidableEq

def CitationStreamSanitizer.new (allowed : List SourceId) : CitationStreamSanitizer :=
  ⟨allowed, [], [], [], false⟩

/-- What `_drain` puts out, what it leaves pending, and whether it dropped something. -/
structure Drained where
  output : Text
  pending : Text
  repaired : Bool
deriving DecidableEq

def Drained.emit (t : Text) (d : Drained) : Drained := { d with output := t ++ d.output }

/-- The loop of `_drain`; the second argument counts the characters of the token that the cursor has still to
pass. -/
def drainLoop (allowed : List SourceId) (final : Bool) : Nat → Text → Drained
  | _, [] => ⟨[], [], false⟩
  | n + 1, _ :: s => drainLoop allowed final n s
  | 0, c :: s =>
      if c ≠ '[' then (drainLoop allowed final 0 s).emit [c]
      else match anyMarker? (c :: s) with
        | some ds =>
            let rest := drainLoop allowed final ((markerOf ds).length - 1) s
            if allows allowed ds then rest.emit (markerOf ds) else { rest with repaired := true }
        | none =>
            if !final && (s == [] || incompleteMarker? (c :: s)) then ⟨[], c :: s, false⟩
            else if final && incompleteMarker? (c :: s) then ⟨[], [], true⟩
            else (drainLoop allowed final 0 s).emit ['[']

/-- `_drain`, with the text it returns. -/
def CitationStreamSanitizer.drain (s : CitationStreamSanitizer) (final : Bool) :
    CitationStreamSanitizer × Text :=
  let d := drainLoop s.allowed final 0 s.pending
  if final && d.pending ≠ [] then
    ({ s with pending := [], repaired := s.repaired || d.repaired }, d.output ++ d.pending)
  else ({ s with pending := d.pending, repaired := s.repaired || d.repaired }, d.output)

def CitationStreamSanitizer.record (s : CitationStreamSanitizer) (emitted : Text) :
    CitationStreamSanitizer :=
  if emitted ≠ [] then { s with emittedParts := s.emittedParts ++ [emitted] } else s

def CitationStreamSanitizer.feed (s : CitationStreamSanitizer) (fragment : Text) :
    CitationStreamSanitizer × Text :=
  if fragment = [] then (s, [])
  else
    let s := { s with rawParts := s.rawParts ++ [fragment], pending := s.pending ++ fragment }
    let (s, emitted) := s.drain false
    (s.record emitted, emitted)

def CitationStreamSanitizer.streamedText (s : CitationStreamSanitizer) : Text := s.emittedParts.flatten

def CitationStreamSanitizer.finish (s : CitationStreamSanitizer) :
    CitationStreamSanitizer × SanitizedAnswer :=
  let (s, emitted) := s.drain true
  let s := s.record emitted
  let streamed := s.streamedText
  let authoritative := repairCompleteAnswer s.rawParts.flatten s.allowed
  (s, ⟨authoritative, orderedSourceIds authoritative, s.repaired || decide (authoritative ≠ streamed)⟩)

def CitationStreamSanitizer.feedAll (s : CitationStreamSanitizer) :
    List Text → CitationStreamSanitizer × Text
  | [] => (s, [])
  | fragment :: fragments =>
      let (s, emitted) := s.feed fragment
      let (s, rest) := s.feedAll fragments
      (s, emitted ++ rest)

end Etoeragcb.Chat
