import Etoeragcb.Content.Normalization
import Etoeragcb.Ingest.Pipeline
import Mathlib.Data.List.Sort

/-!
# Sections

`build_sections` of `app/ingest/sections.py` over the blocks of `app/ingest/parsers.py`.
-/

namespace Etoeragcb.Content

open Lib Models

/-- A block of a parsed document. The pages of every parser are counted from 1. -/
structure ParsedBlock where
  pageNumber : Nat
  textOriginal : Text
  headingPath : List Text
  pageNumber_pos : 1 ≤ pageNumber

/-- A section with the columns that no transaction of the pipeline reads. -/
structure BuiltSection extends Ingest.BuiltSection where
  ordinal : Nat
  level : Nat
  headingOriginal : Text
  pageStart : Nat
  pageEnd : Nat
deriving DecidableEq

structure SectionedBlock where
  block : ParsedBlock
  sectionId : SectionId

abbrev HeadingPath := List Text

/-- The stripped headings that are not blank, or `("Document",)`. -/
def ParsedBlock.rawPath (block : ParsedBlock) : HeadingPath :=
  match (block.headingPath.map strip).filter (· ≠ []) with
  | [] => ["Document".toList]
  | path => path

/-- `sections_by_path` with the next ordinal and the section of the last path. -/
structure Outline where
  sectionsByPath : Table HeadingPath BuiltSection
  ordinal : Nat
  parentId : Option SectionId

variable (u : Unicode) (uuid5 : VersionId → Text → SectionId) (version : VersionId)

def sectionName (path : HeadingPath) : Text := "section:".toList ++ ['/'].intercalate (path.map (normalizeLexical u))

def newSection (block : ParsedBlock) (path : HeadingPath) (o : Outline) : BuiltSection where
  id := uuid5 version (sectionName u path)
  parentId := o.parentId
  ordinal := o.ordinal
  level := path.length
  headingOriginal := path.getLastD []
  headingLexical := normalizeLexical u (path.getLastD [])
  pageStart := block.pageNumber
  pageEnd := block.pageNumber
  pathOriginal := (" / ".toList).intercalate path
  pathLexical := (" / ".toList).intercalate (path.map (normalizeLexical u))

/-- One turn of the inner loop: the section of a prefix of the path is made, or its last page moves on. -/
def visitPath (block : ParsedBlock) (o : Outline) (path : HeadingPath) : Outline :=
  match o.sectionsByPath.get? path with
  | none =>
      let new := newSection u uuid5 version block path o
      { sectionsByPath := (o.sectionsByPath.insert? path new).getD o.sectionsByPath
        ordinal := o.ordinal + 1
        parentId := some new.id }
  | some existing =>
      { o with
        sectionsByPath :=
          if existing.pageEnd < block.pageNumber then
            o.sectionsByPath.modify path fun r => { r with pageEnd := block.pageNumber }
          else o.sectionsByPath
        parentId := some existing.id }

def prefixes (path : HeadingPath) : List HeadingPath := (List.range path.length).map fun depth => path.take (depth + 1)

def visitBlock (o : Outline) (block : ParsedBlock) : Outline × Option SectionedBlock :=
  let o := (prefixes block.rawPath).foldl (visitPath u uuid5 version block) { o with parentId := none }
  (o, o.parentId.map fun sectionId => ⟨block, sectionId⟩)

def visitBlocks : Outline → List ParsedBlock → Outline × List SectionedBlock
  | o, [] => (o, [])
  | o, block :: blocks =>
      let (o, sectioned) := visitBlock u uuid5 version o block
      let (o, rest) := visitBlocks o blocks
      (o, sectioned.toList ++ rest)

def buildSections (blocks : List ParsedBlock) : List BuiltSection × List SectionedBlock :=
  let (o, sectioned) := visitBlocks u uuid5 version ⟨.empty, 0, none⟩ blocks
  ((o.sectionsByPath.rows.map Prod.snd).insertionSort fun a b => a.ordinal ≤ b.ordinal, sectioned)

end Etoeragcb.Content
