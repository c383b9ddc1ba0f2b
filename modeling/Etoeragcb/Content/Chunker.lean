import Etoeragcb.Content.Sections

/-!
# Chunks

`chunk_blocks` of `app/ingest/chunker.py`.
-/

namespace Etoeragcb.Content

open Lib Models

/-- A span that the tokenizer returns, which need not lie in the text. -/
structure TokenSpan where
  start : Int
  stop : Int

/-- A chunk with the column that no transaction of the pipeline reads. -/
structure BuiltChunk extends Ingest.BuiltChunk where
  occurrenceIndex : Nat
deriving DecidableEq

structure Chunker where
  unicode : Unicode
  tokenSpans : Text → List TokenSpan
  sha256Text : Text → Text
  stableChunkId : VersionId → Nat → SectionId → Nat → Nat → Text → ChunkId
  maxTokens : Nat
  overlap : Nat

/-- The spans with `0 <= span.start < span.end <= len(source_text)` -/
def sourceSpans (spans : List TokenSpan) (text : Text) : List (Nat × Nat) :=
  spans.filterMap fun span =>
    if 0 ≤ span.start ∧ span.start < span.stop ∧ span.stop ≤ (text.length : Int) then some (span.start.toNat, span.stop.toNat)
    else none

/-- The windows over the spans, the first one after `skip` spans, up to the one that reaches the last span. -/
def windows (maxTokens step : Nat) : Nat → List (Nat × Nat) → List (List (Nat × Nat))
  | _, [] => []
  | skip + 1, _ :: spans => windows maxTokens step skip spans
  | 0, span :: spans =>
      (span :: spans).take maxTokens ::
        if (span :: spans).length ≤ maxTokens then [] else windows maxTokens step (step - 1) spans

/-- `text[start:stop]` -/
def slice (text : Text) (start stop : Nat) : Text := (text.drop start).take (stop - start)

/-- Chunks, each with the position of the block that it is cut from. -/
abbrev Cut := List (Nat × BuiltChunk)

variable (k : Chunker) (version : VersionId)

def windowText (text : Text) (window : List (Nat × Nat)) : Text :=
  slice text (window.headD (0, 0)).1 (window.getLastD (0, 0)).2

/-- `occurrence_by_hash` counts the chunks before, and `chunk_index` is how many there are. -/
def newChunk (sectioned : SectionedBlock) (result : Cut) (window : List (Nat × Nat)) : BuiltChunk :=
  let charStart := (window.headD (0, 0)).1
  let original := windowText sectioned.block.textOriginal window
  let lexical := normalizeLexical k.unicode original
  let contentHash := k.sha256Text original
  let lexicalHash := k.sha256Text lexical
  let occurrence := result.countP fun x => decide (x.2.lexicalSha256 = lexicalHash)
  { id := k.stableChunkId version sectioned.block.pageNumber sectioned.sectionId charStart occurrence contentHash
    sectionId := sectioned.sectionId
    occurrenceIndex := occurrence
    chunkIndex := result.length
    pageStart := sectioned.block.pageNumber
    pageEnd := sectioned.block.pageNumber
    charStart := charStart
    charEnd := (window.getLastD (0, 0)).2
    contentSha256 := contentHash
    lexicalSha256 := lexicalHash
    tokenCount := window.length
    textOriginal := original
    textLexical := lexical }

def Chunker.blockWindows (text : Text) : List (List (Nat × Nat)) :=
  windows k.maxTokens (k.maxTokens - k.overlap) 0 (sourceSpans (k.tokenSpans text) text)

def cutBlock (result : Cut) (sectioned : SectionedBlock) (position : Nat) : Except String Cut :=
  let sourceText := sectioned.block.textOriginal
  if strip sourceText = [] then .ok result
  else if sourceSpans (k.tokenSpans sourceText) sourceText = [] then
    .error "serving tokenizer returned no source token offsets"
  else
    .ok ((k.blockWindows sourceText).foldl (fun result window =>
      result ++ [(position, newChunk k version sectioned result window)]) result)

def cutBlocks : Nat → Cut → List SectionedBlock → Except String Cut
  | _, result, [] => .ok result
  | position, result, sectioned :: blocks => do
      let result ← cutBlock k version result sectioned position
      cutBlocks (position + 1) result blocks

/-- `chunk_blocks` with the positions of the blocks. -/
def cut (blocks : List SectionedBlock) : Except String Cut :=
  if k.maxTokens ≤ k.overlap then .error "overlap must be smaller than the chunk size"
  else do
    let result ← cutBlocks k version 0 [] blocks
    if result = [] then .error "document produced no chunks" else .ok result

def chunkBlocks (blocks : List SectionedBlock) : Except String (List BuiltChunk) :=
  (cut k version blocks).map (List.map Prod.snd)

end Etoeragcb.Content
