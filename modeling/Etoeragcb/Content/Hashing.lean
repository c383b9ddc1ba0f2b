import Etoeragcb.Content.Chunker
import Etoeragcb.Lib.Uuid

/-!
# The ids of chunks

`stable_chunk_id` of `app/ingest/hashing.py`. The name-based ids of its namespace are a parameter.
-/

namespace Etoeragcb.Content

open Lib Models

def uuidOf (n : Nat) : UUID := ⟨n % 2 ^ 128, Nat.mod_lt n (by decide)⟩

/-- What the id of a chunk is derived from. -/
structure ChunkIdentity where
  documentVersionId : UUID
  pageStart : Nat
  sectionId : Option UUID
  charStart : Nat
  occurrenceIndex : Nat
  contentSha256 : Text
deriving DecidableEq

/-- `section_id or 'none'` -/
def sectionText : Option UUID → Text
  | none => "none".toList
  | some sectionId => sectionId.text

def ChunkIdentity.text (x : ChunkIdentity) : Text :=
  x.documentVersionId.text ++ ':' :: (decimal x.pageStart ++ ':' :: (sectionText x.sectionId ++ ':' ::
    (decimal x.charStart ++ ':' :: (decimal x.occurrenceIndex ++ ':' :: x.contentSha256))))

def stableChunkId (uuid5 : Text → ChunkId) (documentVersionId : VersionId) (pageStart : Nat) (sectionId : SectionId)
    (charStart occurrenceIndex : Nat) (contentSha256 : Text) : ChunkId :=
  uuid5 (ChunkIdentity.text ⟨uuidOf documentVersionId, pageStart, some (uuidOf sectionId), charStart, occurrenceIndex,
    contentSha256⟩)

/-- The chunker with the ids of `stable_chunk_id`. -/
def Chunker.stable (k : Chunker) (uuid5 : Text → ChunkId) : Chunker :=
  { k with stableChunkId := Content.stableChunkId uuid5 }

/-! ## Reading an identity -/

def cutColon (s : Text) : Text × Text := (s.takeWhile (· ≠ ':'), (s.dropWhile (· ≠ ':')).drop 1)

def readSection (s : Text) : Option (Option UUID) := if s = "none".toList then some none else (UUID.ofText s).map some

def ChunkIdentity.read (s : Text) : Option ChunkIdentity := do
  let (version, s) := cutColon s
  let (pageStart, s) := cutColon s
  let (sectionId, s) := cutColon s
  let (charStart, s) := cutColon s
  let (occurrenceIndex, contentSha256) := cutColon s
  let version ← UUID.ofText version
  let sectionId ← readSection sectionId
  pure ⟨version, ofDecimal pageStart, sectionId, ofDecimal charStart, ofDecimal occurrenceIndex, contentSha256⟩

end Etoeragcb.Content
