import Etoeragcb.Content.Chunker
import Etoeragcb.Ingest.Machine
import Etoeragcb.Ingest.Storage
import Etoeragcb.Lib.Json

/-!
# Parsers

`app/ingest/parsers.py`, and the content that `IngestionPipeline.process` builds from a raw file. The decoder, `json.loads`
and the readers of PDF, DOCX and ZIP files are parameters, which answer with nothing where they raise.
-/

namespace Etoeragcb.Content

open Lib Models Ingest

structure Paragraph where
  text : Text
  styleName : Option Text

structure Readers where
  /-- `utf-8-sig` -/
  decode : Bytes → Option Text
  loads : Text → Option Json
  /-- The text that is extracted from each page. -/
  pdfPages : Bytes → Option (List Text)
  /-- The names and the expanded sizes of the entries. -/
  archive : Bytes → Option (List (Text × Nat))
  paragraphs : Bytes → Option (List Paragraph)

/-! ## Text files -/

/-- Line ends become `\n`, as in a file that is opened as text. -/
def universalNewlines : Text → Text
  | [] => []
  | '\r' :: '\n' :: s => '\n' :: universalNewlines s
  | c :: s => (if c = '\r' then '\n' else c) :: universalNewlines s

def readText (r : Readers) (path : Bytes) : Except String Text :=
  (orRaise (r.decode path) "UnicodeDecodeError").map universalNewlines

/-- The lines of a file, each with its end. -/
def rawLines : Text → List Text
  | [] => []
  | c :: s =>
      if c = '\n' then [c] :: rawLines s
      else match rawLines s with
        | [] => [[c]]
        | l :: ls => (c :: l) :: ls

def pageBlocks (pages : List Text) : List ParsedBlock :=
  pages.zipIdx.map fun (page, i) => ⟨i + 1, page, ["Page ".toList ++ decimal (i + 1)], Nat.le_add_left 1 i⟩

def parseText (text : Text) : List ParsedBlock := pageBlocks (text.splitOn '\x0c')

/-! ## `_parse_jsonl` -/

def isBlankLine (line : Text) : Bool := strip line = []

def textField (row : List (Text × Json)) (key : Text) : Option Text :=
  match Json.get? row key with
  | some (.str s) => if isBlankLine s then none else some s
  | _ => none

/-- `str(source_page)` of a string or an integer, of which the truth values are two. -/
def sourcePage (row : List (Text × Json)) : Option Text :=
  match Json.get? row "source_page".toList with
  | some (.str s) => if isBlankLine s then none else some s
  | some (.int n) => some (encodeInt n)
  | some (.bool b) => some (if b then "True" else "False").toList
  | _ => none

def wordCount (row : List (Text × Json)) : Option Nat :=
  match Json.get? row "word_count".toList with
  | some (.int n) => if n < 0 then none else some n.toNat
  | _ => none

def parseRow (r : Readers) (i : Nat) (rawLine : Text) : Except String ParsedBlock := do
  let lineNumber := i + 1
  match ← orRaise (r.loads rawLine) s!"invalid JSON on line {lineNumber}" with
  | .obj row => do
      let text ← orRaise (textField row "text".toList) s!"line {lineNumber} has invalid text"
      let page ← orRaise (sourcePage row) s!"line {lineNumber} has invalid source_page"
      let category ← orRaise (textField row "category".toList) s!"line {lineNumber} has invalid category"
      let _ ← orRaise (wordCount row) s!"line {lineNumber} has invalid word_count"
      return ⟨i + 1, text, [strip category, strip page], Nat.le_add_left 1 i⟩
  | _ => throw s!"line {lineNumber} must be a JSON object"

def parseLines (r : Readers) : Nat → List Text → Except String (List ParsedBlock)
  | _, [] => .ok []
  | i, rawLine :: lines =>
      if isBlankLine rawLine then parseLines r (i + 1) lines
      else do
        let block ← parseRow r i rawLine
        let blocks ← parseLines r (i + 1) lines
        return block :: blocks

def parseJsonl (r : Readers) (path : Bytes) : Except String (List ParsedBlock) :=
  (readText r path).bind fun text => parseLines r 0 (rawLines text)

/-! ## Headings -/

def firstPage (text : Text) (hierarchy : List Text) : ParsedBlock :=
  ⟨1, text, if hierarchy = [] then ["Document".toList] else hierarchy, Nat.le_refl 1⟩

def descend (hierarchy : List Text) (level : Nat) (heading : Text) : List Text := hierarchy.take (level - 1) ++ [heading]

/-- `DOCX_HEADING_RE` -/
def docxLevel? (styleName : Text) : Option Nat :=
  if styleName.take 8 = "Heading ".toList then
    match styleName.drop 8 with
    | [d] => if '1' ≤ d ∧ d ≤ '6' then some (d.toNat - 48) else none
    | _ => none
  else none

def parseParagraphs : List Text → List Paragraph → List ParsedBlock
  | _, [] => []
  | hierarchy, p :: ps =>
      if isBlankLine p.text then parseParagraphs hierarchy ps
      else match docxLevel? (p.styleName.getD []) with
        | some level => parseParagraphs (descend hierarchy level (strip p.text)) ps
        | none => firstPage p.text hierarchy :: parseParagraphs hierarchy ps

/-- The line boundaries of `str.splitlines`; no carriage return is left by then. -/
def isLineBreak (c : Char) : Bool :=
  let n := c.toNat
  (10 ≤ n && n ≤ 13) || (28 ≤ n && n ≤ 30) || n == 0x85 || n == 0x2028 || n == 0x2029

def splitLines : Text → List Text
  | [] => []
  | c :: s =>
      if isLineBreak c then [] :: splitLines s
      else match splitLines s with
        | [] => [[c]]
        | l :: ls => (c :: l) :: ls

/-- The level and the stripped title of a line that `MARKDOWN_HEADING_RE` matches. A title of spaces needs one more. -/
def markdownHeading? (line : Text) : Option (Nat × Text) :=
  let hashes := line.takeWhile (· = '#')
  let rest := line.dropWhile (· = '#')
  let spaces := rest.takeWhile isSpace
  let title := rest.dropWhile isSpace
  if 1 ≤ hashes.length ∧ hashes.length ≤ 6 ∧ spaces ≠ [] ∧ 2 ≤ spaces.length + title.length then
    some (hashes.length, strip title)
  else none

def flush (hierarchy currentLines : List Text) : List ParsedBlock :=
  if currentLines.any (!isBlankLine ·) then [firstPage (['\n'].intercalate currentLines) hierarchy] else []

def parseMarkdownLines : List Text → List Text → List Text → List ParsedBlock
  | hierarchy, currentLines, [] => flush hierarchy currentLines
  | hierarchy, currentLines, line :: lines =>
      match markdownHeading? line with
      | some (level, title) => flush hierarchy currentLines ++ parseMarkdownLines (descend hierarchy level title) [] lines
      | none => parseMarkdownLines hierarchy (currentLines ++ [line]) lines

def parseMarkdown (text : Text) : List ParsedBlock := parseMarkdownLines [] [] (splitLines text)

/-! ## `_validate_docx_archive` -/

/-- The checks of the entries, from `expanded` bytes on. -/
def validateEntries (limit : Nat) : Nat → List (Text × Nat) → Except String Unit
  | _, [] => .ok ()
  | expanded, (name, size) :: entries =>
      if name.head? = some '/' ∨ ['.', '.'] ∈ name.splitOn '/' then .error "unsafe DOCX archive path"
      else if limit < expanded + size then .error "expanded DOCX exceeds the upload limit"
      else validateEntries limit (expanded + size) entries

def validateDocxArchive (r : Readers) (path : Bytes) (expandedLimitBytes : Nat) : Except String Unit := do
  let entries ← orRaise (r.archive path) "invalid DOCX archive"
  if "[Content_Types].xml".toList ∈ entries.map Prod.fst ∧ "word/document.xml".toList ∈ entries.map Prod.fst then
    validateEntries expandedLimitBytes 0 entries
  else throw "file is not a DOCX package"

/-! ## `parse_document` -/

def jsonlMimes : List Text := ["application/x-ndjson", "application/jsonl"].map String.toList

def pdfMime : Text := "application/pdf".toList

def docxMime : Text := "application/vnd.openxmlformats-officedocument.wordprocessingml.document".toList

def markdownMime : Text := "text/markdown".toList

def plainMime : Text := "text/plain".toList

def parseBlocks (r : Readers) (path : Bytes) (mime : Text) (expandedLimitBytes : Nat) : Except String (List ParsedBlock) :=
  if mime ∈ jsonlMimes then parseJsonl r path
  else if mime = pdfMime then (orRaise (r.pdfPages path) "invalid or unsupported PDF").map pageBlocks
  else if mime = docxMime then do
    validateDocxArchive r path expandedLimitBytes
    let paragraphs ← orRaise (r.paragraphs path) "invalid DOCX"
    return parseParagraphs [] paragraphs
  else if mime = markdownMime then (readText r path).map parseMarkdown
  else if mime = plainMime then (readText r path).map parseText
  else .error "unsupported MIME type"

def parseDocument (r : Readers) (path : Bytes) (mime : Text) (expandedLimitBytes : Nat) :
    Except String (List ParsedBlock) := do
  let blocks ← parseBlocks r path mime expandedLimitBytes
  if blocks.any (!isBlankLine ·.textOriginal) then return blocks else throw "document contains no extractable text"

/-! ## The content of a version -/

structure BuiltContent where
  sections : List BuiltSection
  chunks : List BuiltChunk
  pageCount : Nat
deriving DecidableEq

structure SourceFile where
  path : Bytes
  mime : Text

structure Builder where
  readers : Readers
  expandedLimitBytes : Nat
  uuid5 : VersionId → Text → SectionId
  chunker : Chunker

/-- What `process` builds between `_start` and `_persist_staged_content`. -/
def Builder.build (b : Builder) (version : VersionId) (file : SourceFile) : Except String BuiltContent := do
  let blocks ← parseDocument b.readers file.path file.mime b.expandedLimitBytes
  let sections := buildSections b.chunker.unicode b.uuid5 version blocks
  let chunks ← chunkBlocks b.chunker version sections.2
  return ⟨sections.1, chunks, (blocks.map (·.pageNumber)).dedup.length⟩

/-- A run of `process` persists what it builds from the raw file of its version. -/
def persistsContent (b : Builder) (files : VersionId → SourceFile) (s : State) : Action → Prop
  | .persist r sections chunks pageCount _ => ∀ c, s.runs r = .started c →
      ∃ content, b.build c.versionId (files c.versionId) = .ok content ∧
        sections = content.sections.map (·.toBuiltSection) ∧ chunks = content.chunks.map (·.toBuiltChunk) ∧
        pageCount = content.pageCount
  | _ => True

/-! ## Gaps -/

/-- No blank line stands before a row. -/
def blankLinesLast (lines : List Text) : Bool := (lines.dropWhile (!isBlankLine ·)).all isBlankLine

/-- The pages of the file are numbered without a gap: it is not a JSONL file with a blank line before a row. -/
def PagesFilled (r : Readers) (file : SourceFile) : Prop :=
  file.mime ∈ jsonlMimes → ∀ text, readText r file.path = .ok text → blankLinesLast (rawLines text) = true

end Etoeragcb.Content
