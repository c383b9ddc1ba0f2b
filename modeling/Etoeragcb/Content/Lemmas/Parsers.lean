import Etoeragcb.Content.Lemmas.Chunker
import Etoeragcb.Content.Lemmas.Sections
import Etoeragcb.Content.Parsers

/-!
# The pages of a document

What each parser numbers, against the number of distinct pages.
-/

namespace Etoeragcb.Content

open Lib Models Ingest

variable {r : Readers} {blocks : List ParsedBlock} {lines : List Text} {k : Nat}

def pageCount (blocks : List ParsedBlock) : Nat := (blocks.map (·.pageNumber)).dedup.length

/-- Every block stands on one of the counted pages. -/
def Numbered (blocks : List ParsedBlock) : Prop := ∀ block ∈ blocks, block.pageNumber ≤ pageCount blocks

theorem pageBlocks_pageNumber (pages : List Text) : (pageBlocks pages).map (·.pageNumber) = List.range' 1 pages.length := by
  have hsucc : (pageBlocks pages).map (·.pageNumber) = (pages.zipIdx.map Prod.snd).map (· + 1) := by
    rw [pageBlocks, List.map_map, List.map_map]
    rfl
  rw [hsucc, List.zipIdx_map_snd]
  have hrange : (List.range' 0 pages.length).map (1 + ·) = List.range' (1 + 0) pages.length := List.map_add_range' _ _ _
  simpa [Nat.add_comm] using hrange

theorem numbered_pageBlocks (pages : List Text) : Numbered (pageBlocks pages) := by
  intro block hb
  have hmem : block.pageNumber ∈ (pageBlocks pages).map (·.pageNumber) := List.mem_map_of_mem hb
  rw [pageCount, pageBlocks_pageNumber, List.Nodup.dedup List.nodup_range', List.length_range']
  rw [pageBlocks_pageNumber, List.mem_range'_1] at hmem
  omega

theorem numbered_of_firstPage (h : ∀ block ∈ blocks, block.pageNumber = 1) : Numbered blocks := by
  intro block hb
  have hmem : block.pageNumber ∈ (blocks.map (·.pageNumber)).dedup := List.mem_dedup.mpr (List.mem_map_of_mem hb)
  rw [h block hb, pageCount]
  exact List.length_pos_of_mem hmem

theorem parseParagraphs_firstPage {hierarchy : List Text} {ps : List Paragraph} :
    ∀ block ∈ parseParagraphs hierarchy ps, block.pageNumber = 1 := by
  induction ps generalizing hierarchy with
  | nil => simp [parseParagraphs]
  | cons p ps ih =>
      rw [parseParagraphs]
      split
      · exact ih
      · split
        · exact ih
        · exact List.forall_mem_cons.mpr ⟨rfl, ih⟩

theorem flush_firstPage {hierarchy currentLines : List Text} :
    ∀ block ∈ flush hierarchy currentLines, block.pageNumber = 1 := by
  rw [flush]
  split
  · exact List.forall_mem_cons.mpr ⟨rfl, by simp⟩
  · simp

theorem parseMarkdownLines_firstPage {hierarchy currentLines : List Text} :
    ∀ block ∈ parseMarkdownLines hierarchy currentLines lines, block.pageNumber = 1 := by
  induction lines generalizing hierarchy currentLines with
  | nil => exact flush_firstPage
  | cons line lines ih =>
      rw [parseMarkdownLines]
      split
      · exact List.forall_mem_append.mpr ⟨flush_firstPage, ih⟩
      · exact ih

/-! ## JSONL -/

/-- The numbers of the lines with a row, behind the first `k` lines. -/
def rowNumbers : Nat → List Text → List Nat
  | _, [] => []
  | k, line :: lines => if isBlankLine line then rowNumbers (k + 1) lines else (k + 1) :: rowNumbers (k + 1) lines

theorem parseRow_spec {line : Text} {block : ParsedBlock} (h : parseRow r k line = .ok block) :
    block.pageNumber = k + 1 ∧ strip block.textOriginal ≠ [] := by
  simp only [parseRow, bind_eq_ok, orRaise_eq_ok] at h
  obtain ⟨parsed, -, h⟩ := h
  cases parsed with
  | obj row =>
      simp only [bind_eq_ok, orRaise_eq_ok, pure_eq_ok] at h
      obtain ⟨text, htext, page, -, category, -, _, -, rfl⟩ := h
      refine ⟨rfl, ?_⟩
      simp only [textField] at htext
      split at htext
      · split at htext
        · cases htext
        · rename_i hne
          cases htext
          simpa [isBlankLine] using hne
      · cases htext
  | null => simp at h
  | bool b => simp at h
  | int n => simp at h
  | float l => simp at h
  | str s => simp at h
  | arr items => simp at h

theorem parseLines_spec (h : parseLines r k lines = .ok blocks) :
    blocks.map (·.pageNumber) = rowNumbers k lines ∧ ∀ block ∈ blocks, strip block.textOriginal ≠ [] := by
  induction lines generalizing k blocks with
  | nil =>
      cases h
      exact ⟨rfl, by simp⟩
  | cons line lines ih =>
      rw [parseLines] at h
      rw [rowNumbers]
      split at h
      · rename_i hb
        rw [if_pos hb]
        exact ih h
      · rename_i hb
        rw [if_neg hb]
        simp only [bind_eq_ok, pure_eq_ok] at h
        obtain ⟨block, hrow, rest, hrest, rfl⟩ := h
        obtain ⟨hpage, hne⟩ := parseRow_spec hrow
        obtain ⟨hpages, hall⟩ := ih hrest
        exact ⟨by rw [List.map_cons, hpage, hpages], List.forall_mem_cons.mpr ⟨hne, hall⟩⟩

theorem lt_of_mem_rowNumbers {n : Nat} (h : n ∈ rowNumbers k lines) : k < n := by
  induction lines generalizing k with
  | nil => cases h
  | cons line lines ih =>
      rw [rowNumbers] at h
      split at h
      · have := ih h
        omega
      · rcases List.mem_cons.mp h with rfl | h
        · omega
        · have := ih h
          omega

theorem rowNumbers_nodup : (rowNumbers k lines).Nodup := by
  induction lines generalizing k with
  | nil => exact List.nodup_nil
  | cons line lines ih =>
      rw [rowNumbers]
      split
      · exact ih
      · exact List.nodup_cons.mpr ⟨fun h => absurd (lt_of_mem_rowNumbers h) (lt_irrefl _), ih⟩

theorem rowNumbers_eq_nil : rowNumbers k lines = [] ↔ ∀ line ∈ lines, isBlankLine line = true := by
  induction lines generalizing k with
  | nil => simp [rowNumbers]
  | cons line lines ih =>
      rw [rowNumbers, List.forall_mem_cons]
      cases hb : isBlankLine line <;> simp [ih]

/-- The last row stands at least as far behind the first `k` lines as there are rows. -/
theorem exists_rowNumber (h : rowNumbers k lines ≠ []) : ∃ n ∈ rowNumbers k lines, k + (rowNumbers k lines).length ≤ n := by
  induction lines generalizing k with
  | nil => exact absurd rfl h
  | cons line lines ih =>
      rw [rowNumbers] at h ⊢
      split
      · rename_i hb
        rw [if_pos hb] at h
        obtain ⟨n, hn, hle⟩ := ih h
        exact ⟨n, hn, by omega⟩
      · by_cases hrest : rowNumbers (k + 1) lines = []
        · exact ⟨k + 1, List.mem_cons_self, by simp [hrest]⟩
        · obtain ⟨n, hn, hle⟩ := ih hrest
          exact ⟨n, List.mem_cons_of_mem _ hn, by rw [List.length_cons]; omega⟩

theorem blankLinesLast_cons {line : Text} : blankLinesLast (line :: lines) =
    if isBlankLine line then lines.all isBlankLine else blankLinesLast lines := by
  cases hb : isBlankLine line <;> simp [blankLinesLast, hb]

/-- The rows are numbered without a gap if and only if no blank line stands before one. -/
theorem rowNumbers_le_iff : (∀ n ∈ rowNumbers k lines, n ≤ k + (rowNumbers k lines).length) ↔
    blankLinesLast lines = true := by
  induction lines generalizing k with
  | nil => simp [rowNumbers, blankLinesLast]
  | cons line lines ih =>
      rw [blankLinesLast_cons, rowNumbers]
      split
      · rw [List.all_eq_true, ← rowNumbers_eq_nil (k := k + 1)]
        constructor
        · intro h
          by_contra hne
          obtain ⟨n, hn, hle⟩ := exists_rowNumber hne
          have := h n hn
          omega
        · intro h
          simp [h]
      · rw [← ih (k := k + 1), List.forall_mem_cons, List.length_cons]
        constructor
        · intro h n hn
          have := h.2 n hn
          omega
        · intro h
          refine ⟨by omega, fun n hn => ?_⟩
          have := h n hn
          omega

/-! ## The pages of the content -/

variable {b : Builder} {version : VersionId} {file : SourceFile} {content : BuiltContent} {limit : Nat}

theorem parseBlocks_pages (h : parseBlocks r file.path file.mime limit = .ok blocks) :
    (∀ block ∈ blocks, strip block.textOriginal ≠ [] → block.pageNumber ≤ pageCount blocks) ↔ PagesFilled r file := by
  unfold parseBlocks at h
  split_ifs at h with hjsonl hpdf hdocx hmarkdown hplain
  · unfold parseJsonl at h
    cases htext : readText r file.path with
    | error e =>
        rw [htext] at h
        cases h
    | ok text =>
        rw [htext] at h
        obtain ⟨hpages, hne⟩ := parseLines_spec h
        have hfilled : PagesFilled r file ↔ blankLinesLast (rawLines text) = true := by
          simp [PagesFilled, hjsonl, htext]
        rw [hfilled, ← rowNumbers_le_iff (k := 0), ← hpages, List.forall_mem_map, pageCount,
          List.Nodup.dedup (hpages ▸ rowNumbers_nodup), Nat.zero_add]
        exact ⟨fun h block hb => h block hb (hne block hb), fun h block hb _ => h block hb⟩
  all_goals
    refine iff_of_true (fun block hb _ => ?_) fun hj => absurd hj hjsonl
  · obtain ⟨pages, -, rfl⟩ := map_eq_ok.mp h
    exact numbered_pageBlocks pages block hb
  · simp only [bind_eq_ok, pure_eq_ok] at h
    obtain ⟨_, -, paragraphs, -, rfl⟩ := h
    exact numbered_of_firstPage parseParagraphs_firstPage block hb
  · obtain ⟨text, -, rfl⟩ := map_eq_ok.mp h
    exact numbered_of_firstPage parseMarkdownLines_firstPage block hb
  · obtain ⟨text, -, rfl⟩ := map_eq_ok.mp h
    exact numbered_pageBlocks _ block hb

def BuiltChunk.Inside (pageCount : Nat) (chunk : BuiltChunk) : Prop :=
  (1 ≤ chunk.pageStart ∧ chunk.pageStart ≤ pageCount) ∧ 1 ≤ chunk.pageEnd ∧ chunk.pageEnd ≤ pageCount

/-- Every chunk of the content lies on the counted pages if and only if the pages are numbered without a gap. -/
theorem build_inside (h : b.build version file = .ok content) :
    (∀ chunk ∈ content.chunks, chunk.Inside content.pageCount) ↔ PagesFilled b.readers file := by
  simp only [Builder.build, parseDocument, bind_eq_ok, pure_eq_ok] at h
  obtain ⟨blocks, ⟨blocks', hblocks, hany⟩, chunks, hchunks, rfl⟩ := h
  obtain rfl : blocks' = blocks := by
    split at hany
    · exact pure_eq_ok.mp hany
    · simp at hany
  have hall : (visitBlocks b.chunker.unicode b.uuid5 version ⟨.empty, 0, none⟩ blocks').2.map (·.block) = blocks' :=
    visitBlocks_blocks
  rw [← parseBlocks_pages hblocks]
  constructor
  · intro hin block hb hne
    rw [← hall] at hb
    obtain ⟨sectioned, hs, rfl⟩ := List.mem_map.mp hb
    obtain ⟨chunk, hc, hpage⟩ := chunkBlocks_block hchunks hs hne
    exact hpage ▸ (hin chunk hc).1.2
  · intro hin chunk hc
    obtain ⟨sectioned, hs, hne, hstart, hstop⟩ := chunkBlocks_page hchunks hc
    have hpos := sectioned.block.pageNumber_pos
    have hle := hin sectioned.block (hall ▸ List.mem_map_of_mem hs) hne
    rw [BuiltChunk.Inside, hstart, hstop]
    exact ⟨⟨hpos, hle⟩, hpos, hle⟩

end Etoeragcb.Content
