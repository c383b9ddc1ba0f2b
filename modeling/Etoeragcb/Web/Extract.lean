import Etoeragcb.Lib.Scan
import Etoeragcb.Lib.Unicode

/-!
# The text of a page

`app/web/extract.py`: the handlers of `_TextExtractor`, and `extract_text` from its raw text on, which is the decoded body
of a `text/plain` response or the data that the HTML parser has collected.
-/

namespace Etoeragcb.Web

open Lib

/-- `[\t ]+` by a space -/
def blankRun : Rule Char := fun s =>
  match s.takeWhile fun c => c = '\t' || c = ' ' with
  | [] => none
  | b => some ([' '], b.length)

/-- ` *\n *` by a line break -/
def breakRun : Rule Char := fun s =>
  match s.dropWhile (· = ' ') with
  | '\n' :: rest => some (['\n'], (s.takeWhile (· = ' ')).length + 1 + (rest.takeWhile (· = ' ')).length)
  | _ => none

/-- `\n{3,}` by two line breaks -/
def breaksRun : Rule Char := fun s =>
  let b := s.takeWhile (· = '\n')
  if 3 ≤ b.length then some (['\n', '\n'], b.length) else none

/-- `sanitize_text`, with the characters whose general category starts with `C`. -/
def sanitizeText (isOther : Char → Bool) (text : Text) : Text :=
  let cleaned := text.filter fun c => c = '\n' || c = '\t' || !isOther c
  let cleaned := cleaned.map fun c => if c = '\r' then '\n' else c
  let cleaned := rewrite blankRun cleaned
  let cleaned := rewrite breakRun cleaned
  let cleaned := rewrite breaksRun cleaned
  strip cleaned

/-- `extract_text` from `raw_text` on. -/
def extractText (isOther : Char → Bool) (rawText : Text) (maxChars : Nat) : Except String Text :=
  let sanitized := sanitizeText isOther rawText
  if sanitized = [] then .error "page contained no usable text" else .ok (sanitized.take maxChars)

def isControl (c : Char) : Bool := c.toNat < 32 || c.toNat = 127

/-! ## The handlers of the parser -/

def blockTags : List Text :=
  ["article", "aside", "blockquote", "br", "div", "footer", "h1", "h2", "h3", "h4", "h5", "h6", "header", "li", "main",
    "nav", "p", "section", "table", "td", "th", "tr"].map String.toList

def skipTags : List Text :=
  ["script", "style", "noscript", "template", "svg", "iframe", "object"].map String.toList

/-- A handler that the parser calls. -/
inductive ParserEvent
  | starttag (tag : Text)
  | endtag (tag : Text)
  | data (data : Text)
deriving DecidableEq

structure TextExtractor where
  parts : List Text
  skipDepth : Nat
deriving DecidableEq

/-- `handle_starttag`, `handle_endtag` and `handle_data` -/
def TextExtractor.handle (u : Unicode) (x : TextExtractor) : ParserEvent → TextExtractor
  | .starttag tag =>
      let normalized := u.lower tag
      if normalized ∈ skipTags then { x with skipDepth := x.skipDepth + 1 }
      else if x.skipDepth = 0 ∧ normalized ∈ blockTags then { x with parts := x.parts ++ [['\n']] }
      else x
  | .endtag tag =>
      let normalized := u.lower tag
      if normalized ∈ skipTags ∧ 0 < x.skipDepth then { x with skipDepth := x.skipDepth - 1 }
      else if x.skipDepth = 0 ∧ normalized ∈ blockTags then { x with parts := x.parts ++ [['\n']] }
      else x
  | .data data => if x.skipDepth = 0 then { x with parts := x.parts ++ [data] } else x

def feed (u : Unicode) (events : List ParserEvent) : TextExtractor := events.foldl (TextExtractor.handle u) ⟨[], 0⟩

end Etoeragcb.Web
