import Etoeragcb.Content.Hashing
import Etoeragcb.Content.Lemmas.Windows

/-!
# The chunks of a document have ids of their own
-/

namespace Etoeragcb.Content

open Lib Models

variable {k : Chunker} {uuid5 : Text → ChunkId} {version : VersionId} {blocks : List SectionedBlock}
  {sectioned : SectionedBlock} {result : Cut} {s t : Text}

/-! ## The identity is read back -/

theorem cutColon_append (h : ':' ∉ s) : cutColon (s ++ ':' :: t) = (s, t) := by
  have hs : ∀ c ∈ s, decide (c ≠ ':') = true := fun c hc => decide_eq_true fun he => h (he ▸ hc)
  rw [cutColon, List.takeWhile_append_of_pos hs, List.dropWhile_append_of_pos hs]
  simp

theorem colon_notMem_text (u : UUID) : ':' ∉ u.text := fun h => absurd (UUID.mem_text h) (by decide)

theorem colon_notMem_sectionText (sectionId : Option UUID) : ':' ∉ sectionText sectionId := by
  cases sectionId with
  | none => decide
  | some sectionId => exact colon_notMem_text sectionId

theorem readSection_sectionText (sectionId : Option UUID) : readSection (sectionText sectionId) = some sectionId := by
  cases sectionId with
  | none => rfl
  | some sectionId =>
      have hne : sectionId.text ≠ "none".toList := fun h => by
        have hlength := congrArg List.length h
        rw [UUID.length_text] at hlength
        exact absurd hlength (by decide)
      rw [sectionText, readSection, if_neg hne, UUID.ofText_text]
      rfl

theorem ChunkIdentity.read_text (x : ChunkIdentity) : read x.text = some x := by
  simp only [read, text, cutColon_append (colon_notMem_text _), cutColon_append (colon_notMem_decimal _),
    cutColon_append (colon_notMem_sectionText _), UUID.ofText_text, readSection_sectionText, ofDecimal_decimal,
    Option.bind_eq_bind, Option.bind_some, Option.pure_def]

theorem ChunkIdentity.text_inj {x y : ChunkIdentity} (h : x.text = y.text) : x = y := by
  rw [← Option.some_inj, ← read_text x, h, read_text]

/-! ## The occurrences -/

/-- The chunks of one lexical hash are counted one after the other. -/
structure Counted (result : Cut) : Prop where
  below : ∀ x ∈ result, x.2.occurrenceIndex < result.countP fun y => decide (y.2.lexicalSha256 = x.2.lexicalSha256)
  rising : result.Pairwise fun x y => x.2.lexicalSha256 = y.2.lexicalSha256 → x.2.occurrenceIndex < y.2.occurrenceIndex

theorem Counted.append (h : Counted result) (position : Nat) (sectioned : SectionedBlock) (window : List (Nat × Nat)) :
    Counted (result ++ [(position, newChunk k version sectioned result window)]) := by
  refine ⟨fun x hx => ?_, List.pairwise_append.mpr ⟨h.rising, List.pairwise_singleton _ _, fun x hx y hy he => ?_⟩⟩
  · rw [List.countP_append]
    rcases List.mem_append.mp hx with hx | hx
    · exact Nat.lt_add_right _ (h.below x hx)
    · rw [List.mem_singleton.mp hx]
      simp [newChunk]
  · have hbelow := h.below x hx
    rw [List.mem_singleton.mp hy] at he ⊢
    rw [he] at hbelow
    exact hbelow

/-- What the fields of a chunk are computed from. -/
structure Hashed (k : Chunker) (version : VersionId) (chunk : BuiltChunk) : Prop where
  content : chunk.contentSha256 = k.sha256Text chunk.textOriginal
  lexical : chunk.lexicalSha256 = k.sha256Text (normalizeLexical k.unicode chunk.textOriginal)
  id : chunk.id = k.stableChunkId version chunk.pageStart chunk.sectionId chunk.charStart chunk.occurrenceIndex chunk.contentSha256

theorem chunkBlocks_counted {chunks : List BuiltChunk} (h : chunkBlocks k version blocks = .ok chunks) :
    (∀ chunk ∈ chunks, Hashed k version chunk) ∧
      chunks.Pairwise fun x y => x.lexicalSha256 = y.lexicalSha256 → x.occurrenceIndex < y.occurrenceIndex := by
  obtain ⟨-, result, hcut, rfl⟩ := chunkBlocks_cutBlocks h
  have hcounted : Counted result := cutBlocks_induction (fun _ position sectioned window h => h.append position sectioned window)
    ⟨fun _ hx => absurd hx List.not_mem_nil, List.Pairwise.nil⟩ hcut
  have hhashed : ∀ x ∈ result, Hashed k version x.2 := by
    refine cutBlocks_induction (P := fun result => ∀ x ∈ result, Hashed k version x.2) ?_
      (fun _ hx => absurd hx List.not_mem_nil) hcut
    intro result position sectioned window h x hx
    rcases List.mem_append.mp hx with hx | hx
    · exact h x hx
    · rw [List.mem_singleton.mp hx]
      exact ⟨rfl, rfl, rfl⟩
  refine ⟨fun chunk hchunk => ?_, List.pairwise_map.mpr hcounted.rising⟩
  obtain ⟨x, hx, rfl⟩ := List.mem_map.mp hchunk
  exact hhashed x hx

def identityOf (version : VersionId) (chunk : BuiltChunk) : ChunkIdentity :=
  ⟨uuidOf version, chunk.pageStart, some (uuidOf chunk.sectionId), chunk.charStart, chunk.occurrenceIndex,
    chunk.contentSha256⟩

theorem chunkBlocks_id {chunks : List BuiltChunk} (h : chunkBlocks (k.stable uuid5) version blocks = .ok chunks)
    {chunk : BuiltChunk} (hchunk : chunk ∈ chunks) : chunk.id = uuid5 (identityOf version chunk).text :=
  ((chunkBlocks_counted h).1 chunk hchunk).id

/-- Chunks of the same text have different occurrences, so that no two chunks have one identity. -/
theorem chunkBlocks_ids_nodup (hsha : Function.Injective k.sha256Text) (huuid : Function.Injective uuid5)
    {chunks : List BuiltChunk} (h : chunkBlocks (k.stable uuid5) version blocks = .ok chunks) :
      (chunks.map (·.id)).Nodup := by
  obtain ⟨hhashed, hrising⟩ := chunkBlocks_counted h
  rw [List.Nodup, List.pairwise_map]
  refine List.Pairwise.imp_of_mem (fun {x y} hx hy hlt hid => ?_) hrising
  rw [chunkBlocks_id h hx, chunkBlocks_id h hy] at hid
  have hidentity := ChunkIdentity.text_inj (huuid hid)
  have hcontent : x.contentSha256 = y.contentSha256 := congrArg ChunkIdentity.contentSha256 hidentity
  have hoccurrence : x.occurrenceIndex = y.occurrenceIndex := congrArg ChunkIdentity.occurrenceIndex hidentity
  rw [(hhashed x hx).content, (hhashed y hy).content] at hcontent
  have htext : x.textOriginal = y.textOriginal := hsha hcontent
  exact absurd hoccurrence (hlt (by rw [(hhashed x hx).lexical, (hhashed y hy).lexical, htext])).ne

/-! ## Running it again -/

/-- The chunks depend on the tokenizer through the spans of the blocks only. -/
theorem chunkBlocks_congr {tokenSpans : Text → List TokenSpan}
    (h : ∀ sectioned ∈ blocks, tokenSpans sectioned.block.textOriginal = k.tokenSpans sectioned.block.textOriginal) :
    chunkBlocks { k with tokenSpans := tokenSpans } version blocks = chunkBlocks k version blocks := by
  have hblock : ∀ sectioned ∈ blocks, ∀ result position,
      cutBlock { k with tokenSpans := tokenSpans } version result sectioned position =
        cutBlock k version result sectioned position := by
    intro sectioned hs result position
    simp only [cutBlock, Chunker.blockWindows, h sectioned hs]
    rfl
  have hblocks : ∀ position result, cutBlocks { k with tokenSpans := tokenSpans } version position result blocks =
      cutBlocks k version position result blocks := by
    clear h
    induction blocks with
    | nil => exact fun _ _ => rfl
    | cons sectioned blocks ih =>
        intro position result
        rw [cutBlocks, cutBlocks, hblock sectioned List.mem_cons_self]
        exact congrArg _ (funext fun _ => ih (fun s hs => hblock s (List.mem_cons_of_mem _ hs)) _ _)
  simp only [chunkBlocks, cut, hblocks]

end Etoeragcb.Content
