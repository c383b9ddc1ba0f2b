import Etoeragcb.Lib.Json
import Etoeragcb.Lib.Replace

/-!
# The rendering of answers

`renderMarkdown` of `frontend/src/lib/markdown.ts`. What the browser makes of an URL is a parameter.
-/

namespace Etoeragcb.Frontend

open Lib

/-! ## Escaping -/

def escapeHtml (value : Text) : Text :=
  replaceAll '\x27' "&#039;".toList (replaceAll '"' "&quot;".toList (replaceAll '>' "&gt;".toList
    (replaceAll '<' "&lt;".toList (replaceAll '&' "&amp;".toList value))))

def escapeAttribute (value : Text) : Text := escapeHtml value

/-! ## Patterns -/

/-- `\s` of a pattern of JavaScript -/
def isBlankCharacter (c : Char) : Bool :=
  let n := c.toNat
  (9 ≤ n && n ≤ 13) || n == 32 || n == 0xa0 || n == 0x1680 || (0x2000 ≤ n && n ≤ 0x200a) || n == 0x2028 || n == 0x2029 ||
    n == 0x202f || n == 0x205f || n == 0x3000 || n == 0xfeff

/-- `.` of a pattern of JavaScript -/
def isDot (c : Char) : Bool := c != '\n' && c != '\r' && c != '\u2028' && c != '\u2029'

def trimEnd (s : Text) : Text := s.rdropWhile isBlankCharacter

def fenceMark : Text := ['\x60', '\x60', '\x60']

/-- The code of a fence, and the length of the match. -/
def fence? (s : Text) : Option (Text × Nat) :=
  if fenceMark.isPrefixOf s then
    match (s.drop 3).dropWhile (· ≠ '\n') with
    | '\n' :: body =>
        (splitFirst fenceMark body).map fun x => (x.1, 3 + ((s.drop 3).takeWhile (· ≠ '\n')).length + 1 + x.1.length + 3)
    | _ => none
  else none

structure Link where
  label : Text
  url : Text
deriving DecidableEq

/-- `\[([^\]\n]+)\]\(([^)\s]+)\)` -/
def link? : Text → Option (Link × Nat)
  | '[' :: s =>
      let label := s.takeWhile fun c => c ≠ ']' ∧ c ≠ '\n'
      match s.dropWhile fun c => c ≠ ']' ∧ c ≠ '\n' with
      | ']' :: '(' :: t =>
          let url := t.takeWhile fun c => c ≠ ')' ∧ isBlankCharacter c = false
          match t.dropWhile fun c => c ≠ ')' ∧ isBlankCharacter c = false with
          | ')' :: _ =>
              if label ≠ [] ∧ url ≠ [] then some (⟨label, url⟩, 1 + label.length + 2 + url.length + 1) else none
          | _ => none
      | _ => none
  | _ => none

/-- A run without `stop` and line breaks between two delimiters, and the length of the match. -/
def enclosed? (delimiter : Text) (stop : Char) (s : Text) : Option (Text × Nat) :=
  if delimiter.isPrefixOf s then
    let t := s.drop delimiter.length
    let run := t.takeWhile fun c => c ≠ stop ∧ c ≠ '\n'
    if run ≠ [] ∧ delimiter.isPrefixOf (t.dropWhile fun c => c ≠ stop ∧ c ≠ '\n') then
      some (run, delimiter.length + run.length + delimiter.length)
    else none
  else none

def code? : Text → Option (Text × Nat) := enclosed? ['\x60'] '\x60'

/-- What is enclosed is put between two tags. -/
def tagRule (delimiter : Text) (stop : Char) (opening closing : Text) : Rule Char := fun s =>
  (enclosed? delimiter stop s).map fun x => (opening ++ (x.1 ++ closing), x.2)

def strongRule : Rule Char := tagRule ['*', '*'] '*' "<strong>".toList "</strong>".toList

def strongRule' : Rule Char := tagRule ['_', '_'] '_' "<strong>".toList "</strong>".toList

def emphasisStart : Rule Char := tagRule ['*'] '*' "<em>".toList "</em>".toList

def emphasisRule : Rule Char
  | c :: s => if c = '*' then none else (emphasisStart s).map fun x => (c :: x.1, x.2 + 1)
  | [] => none

/-- `(^|[^*])\*([^*\n]+)\*` -/
def emphasize (s : Text) : Text :=
  match emphasisStart s with
  | some (r, n) => r ++ rewrite emphasisRule (s.drop n)
  | none => rewrite emphasisRule s

/-! ## Protected blocks -/

def placeholder (index : Nat) : Text := '\x00' :: 'P' :: (decimal index ++ ['\x00'])

def token (values : List Text) (value : Text) : Text × List Text := (placeholder values.length, values ++ [value])

def fenceBlock (code : Text) : Text := "<pre><code>".toList ++ (escapeHtml (trimEnd code) ++ "</code></pre>".toList)

def codeBlock (code : Text) : Text := "<code>".toList ++ (escapeHtml code ++ "</code>".toList)

def linkStart (url : Text) : Text :=
  "<a href=\"".toList ++ (escapeAttribute url ++ "\" target=\"_blank\" rel=\"noopener noreferrer\">".toList)

def linkBlock (link : Link) : Text := linkStart link.url ++ (escapeHtml link.label ++ "</a>".toList)

def protectFence (values : List Text) (code : Text) : Text × List Text := token values (fenceBlock code)

def protectLink (safeExternalUrl : Text → Bool) (values : List Text) (link : Link) : Text × List Text :=
  if safeExternalUrl link.url then token values (linkBlock link) else (escapeHtml link.label, values)

def protectCode (values : List Text) (code : Text) : Text × List Text := token values (codeBlock code)

/-! ## Blocks -/

/-- `split(/\n{2,}/)`; behind a separator, its other line breaks are passed over first. -/
def splitBlocks : Bool → Text → List Text
  | _, [] => [[]]
  | true, c :: s =>
      if c = '\n' then splitBlocks true s
      else (c :: (splitBlocks false s).headD []) :: (splitBlocks false s).tail
  | false, c :: s =>
      if c = '\n' ∧ s.head? = some '\n' then [] :: splitBlocks true s
      else (c :: (splitBlocks false s).headD []) :: (splitBlocks false s).tail

/-- `^(?:- .+(?:\n|$))+` matches. -/
def isList : Text → Bool
  | '-' :: ' ' :: s => !(s.takeWhile isDot).isEmpty &&
      match s.dropWhile isDot with
      | [] => true
      | c :: _ => c == '\n'
  | _ => false

/-- `line.replace(/^- /, '')` -/
def dropDash : Text → Text
  | '-' :: ' ' :: s => s
  | s => s

/-- `^(#{1,3}) (.+)$` -/
def heading? (block : Text) : Option (Nat × Text) :=
  let level := (block.takeWhile (· = '#')).length
  match block.dropWhile (· = '#') with
  | ' ' :: s => if 1 ≤ level ∧ level ≤ 3 ∧ s ≠ [] ∧ s.all isDot then some (level, s) else none
  | _ => none

def listItem (line : Text) : Text := "<li>".toList ++ (dropDash line ++ "</li>".toList)

def renderBlock (block : Text) : Text :=
  if ['\x00', 'P'].isPrefixOf block ∧ block.getLast? = some '\x00' then block
  else if isList block then
    "<ul>".toList ++ (((block.splitOn '\n').filter (· ≠ [])).flatMap listItem ++ "</ul>".toList)
  else
    match heading? block with
    | some (level, s) => "<h".toList ++ (decimal level ++ '>' :: (s ++ ("</h".toList ++ (decimal level ++ ['>']))))
    | none => "<p>".toList ++ (replaceAll '\n' "<br>".toList block ++ "</p>".toList)

/-- The blocks from `index` on take the places of their markers. -/
def restore : Nat → List Text → Text → Text
  | _, [], rendered => rendered
  | index, block :: blocks, rendered => restore (index + 1) blocks (replaceFirst (placeholder index) block rendered)

/-! ## The renderer -/

/-- The text with its fences taken out, and the blocks that take their places. -/
def withoutFences (source : Text) : Text × List Text := replaceWith fence? protectFence [] (source.filter (· ≠ '\x00'))

variable (safeExternalUrl : Text → Bool)

def withoutLinks (source : Text) : Text × List Text :=
  replaceWith link? (protectLink safeExternalUrl) (withoutFences source).2 (withoutFences source).1

def withoutCode (source : Text) : Text × List Text :=
  replaceWith code? protectCode (withoutLinks safeExternalUrl source).2 (withoutLinks safeExternalUrl source).1

def renderMarkdown (source : Text) : Text :=
  let (value, protectedBlocks) := withoutCode safeExternalUrl source
  let value := escapeHtml value
  let value := rewrite strongRule value
  let value := rewrite strongRule' value
  let value := emphasize value
  restore 0 protectedBlocks ((splitBlocks false value).flatMap renderBlock)

end Etoeragcb.Frontend
