import Etoeragcb.Chat.Citations
import Etoeragcb.Frontend.Sse
import Etoeragcb.Lib.Dict
import Mathlib.Algebra.Group.Nat.Defs

/-!
# Citations that a client shows

`validateCitations` of `frontend/src/lib/citations.ts`. What the browser makes of an URL is a parameter, and so is the
positive integer that it reads a number with a fraction or an exponent as.
-/

namespace Etoeragcb.Frontend

open Lib Chat

/-- The own members of the object that `JSON.parse` returns. A repeated key keeps its place and takes the last value. -/
def entries (members : List (Text × Json)) : List (Text × Json) := members.foldl (fun d x => Dict.set d x.1 x.2) []

/-- `value === text` -/
def isString (value : Option Json) (text : Text) : Bool :=
  match value with
  | some (.str s) => s == text
  | _ => false

/-- `[0-9a-f]` without regard to case -/
def isHex (c : Char) : Bool := isDigit c || ('a' ≤ c && c ≤ 'f') || ('A' ≤ c && c ≤ 'F')

/-- A text that has one character of each class. -/
def fitsClasses : List (Char → Bool) → Text → Bool
  | [], [] => true
  | p :: ps, c :: s => p c && fitsClasses ps s
  | _, _ => false

/-- `UUID` -/
def uuidClasses : List (Char → Bool) :=
  List.replicate 8 isHex ++ [(· == '-')] ++ List.replicate 4 isHex ++ [(· == '-'), fun c => '1' ≤ c && c ≤ '8'] ++
    List.replicate 3 isHex ++ [(· == '-'), fun c => ['8', '9', 'a', 'b', 'A', 'B'].contains c] ++ List.replicate 3 isHex ++
    [(· == '-')] ++ List.replicate 12 isHex

def isUuid (value : Option Json) : Bool :=
  match value with
  | some (.str s) => fitsClasses uuidClasses s
  | _ => false

/-- The double next to a natural number, with an even mantissa between two of them; a larger number is infinite. -/
def nearestDouble (n : Nat) : Option Nat :=
  let unit := 2 ^ (n.log2 - 52)
  let mantissa := n / unit
  let mantissa :=
    if unit < 2 * (n % unit) ∨ unit = 2 * (n % unit) ∧ mantissa % 2 = 1 then mantissa + 1 else mantissa
  if mantissa * unit < 2 ^ 1024 then some (mantissa * unit) else none

variable (safeExternalUrl : Text → Bool) (floatInteger : FloatLiteral → Option Nat)

/-- A number of JSON that is an integer of at least one. -/
def pageNumber : Json → Option Nat
  | .int n => (nearestDouble n.toNat).filter (1 ≤ ·)
  | .float l => (floatInteger l).filter (1 ≤ ·)
  | _ => none

def validPage : Option Json → Bool
  | none | some .null => true
  | some value => (pageNumber floatInteger value).isSome

def pagesInOrder (start stop : Option Json) : Bool :=
  match start.bind (pageNumber floatInteger), stop.bind (pageNumber floatInteger) with
  | some start, some stop => decide (start ≤ stop)
  | _, _ => true

def acceptsPages (start stop : Option Json) : Bool :=
  validPage floatInteger start && validPage floatInteger stop && pagesInOrder floatInteger start stop

def acceptsMarker (marker : Text) (raw : List (Text × Json)) : Bool :=
  match marker? marker with
  | some ds => marker == markerOf ds && isString (Json.get? raw "marker".toList) marker &&
      isString (Json.get? raw "source_id".toList) ('S' :: ds)
  | none => false

def acceptsTitle (title : Option Json) : Bool :=
  match title with
  | some (.str s) => !s.isEmpty
  | _ => false

def acceptsUri (uri : Option Json) : Bool :=
  match uri with
  | some (.str s) => safeExternalUrl s
  | _ => false

def acceptsTarget (raw : List (Text × Json)) : Bool :=
  let sourceType := Json.get? raw "source_type".toList
  (isString sourceType "document".toList || isString sourceType "web".toList) &&
    (!isString sourceType "document".toList ||
      isUuid (Json.get? raw "document_id".toList) && isUuid (Json.get? raw "document_version_id".toList)) &&
    (!isString sourceType "web".toList || acceptsUri safeExternalUrl (Json.get? raw "uri".toList))

def acceptsCitation (marker : Text) (raw : List (Text × Json)) : Bool :=
  acceptsMarker marker raw && acceptsTitle (Json.get? raw "title".toList) && acceptsTarget safeExternalUrl raw &&
    acceptsPages floatInteger (Json.get? raw "page_start".toList) (Json.get? raw "page_end".toList)

def validateCitations : Option Json → List (Text × Json)
  | some (.obj members) => (entries members).filter fun (marker, raw) =>
      match raw with
      | .obj raw => acceptsCitation safeExternalUrl floatInteger marker raw
      | _ => false
  | _ => []

def citationValidator : Validator (List (Text × Json)) := ⟨[], validateCitations safeExternalUrl floatInteger⟩

end Etoeragcb.Frontend
