import Etoeragcb.Content.Lemmas.Embedder
import Etoeragcb.Content.Lemmas.Hashing
import Etoeragcb.Content.Lemmas.Headings
import Etoeragcb.Content.Lemmas.Outline
import Etoeragcb.Content.Lemmas.Pages
import Etoeragcb.Content.Lemmas.Windows
import Etoeragcb.Documents.Files
import Etoeragcb.Ingest.Theorems
import Mathlib.Logic.Equiv.List

/-!
# What the content of a version guarantees
-/

namespace Etoeragcb.Content

open Lib Models Ingest Documents

variable {u : Unicode} {uuid5 : VersionId → Text → SectionId} {version : VersionId} {blocks : List ParsedBlock}

/-! ## Section ids -/

/-- The sections of a document have pairwise distinct ids, so that they can all be inserted. -/
def SectionIdsDistinct (u : Unicode) (uuid5 : VersionId → Text → SectionId) (version : VersionId)
    (blocks : List ParsedBlock) : Prop :=
  ((buildSections u uuid5 version blocks).1.map (·.id)).Nodup

def slashedHeadings : List ParsedBlock :=
  [⟨1, ['x'], [['A', '/', 'B']], Nat.one_pos⟩, ⟨1, ['y'], [['A'], ['B']], Nat.one_pos⟩]

/-- A name-based id that tells all names apart. -/
def sampleUuid5 (_ : VersionId) (name : Text) : SectionId := Encodable.encode (name.map Char.toNat)

theorem sampleUuid5_injective (version : VersionId) : Function.Injective (sampleUuid5 version) :=
  Encodable.encode_injective.comp (List.map_injective_iff.mpr fun _ _ h => Char.toNat_inj.mp h)

theorem not_sectionIdsDistinct : ¬∀ (u : Unicode) (uuid5 : VersionId → Text → SectionId),
    (∀ version, Function.Injective (uuid5 version)) → ∀ version blocks, SectionIdsDistinct u uuid5 version blocks := by
  intro hall
  have h := ids_nodup_iff.mp (hall .latin sampleUuid5 sampleUuid5_injective 1 slashedHeadings)
    [['A', '/', 'B']] (by decide) [['A'], ['B']] (by decide) (congrArg _ (by decide))
  exact absurd h (by decide)

/-- The sections have distinct ids if and only if no two paths consist of the same pieces. -/
theorem sectionIdsDistinct_iff (hinj : ∀ version, Function.Injective (uuid5 version)) :
    SectionIdsDistinct u uuid5 version blocks ↔
      ∀ p ∈ sectionPaths blocks, ∀ q ∈ sectionPaths blocks, pieces u p = pieces u q → p = q := by
  rw [SectionIdsDistinct, ids_nodup_iff]
  have hname : ∀ p ∈ sectionPaths blocks, ∀ q ∈ sectionPaths blocks,
      (uuid5 version (sectionName u p) = uuid5 version (sectionName u q) ↔ pieces u p = pieces u q) := by
    intro p hp q hq
    rw [(hinj version).eq_iff, sectionName_inj (ne_nil_of_mem_sectionPaths hp) (ne_nil_of_mem_sectionPaths hq)]
  exact ⟨fun h p hp q hq he => h p hp q hq ((hname p hp q hq).mpr he),
    fun h p hp q hq he => h p hp q hq ((hname p hp q hq).mp he)⟩

theorem sectionIdsDistinct_nested : SectionIdsDistinct .latin sampleUuid5 1
    [⟨1, ['x'], [['A']], Nat.one_pos⟩, ⟨2, ['y'], [['A'], ['I', '/', 'b']], by decide⟩] :=
  (sectionIdsDistinct_iff sampleUuid5_injective).mpr (by decide)

/-! ## The outline of a document -/

/-- The check constraints of the table `sections`. -/
structure SectionChecks (s : BuiltSection) : Prop where
  ordinal_nonnegative : 0 ≤ s.ordinal
  level_positive : 1 ≤ s.level
  page_start_positive : 1 ≤ s.pageStart
  page_order : s.pageStart ≤ s.pageEnd

/-- What is built of the blocks is the tree of their paths: `rows` are the sections with the paths that they stand for. -/
structure IsOutline (blocks : List ParsedBlock) (built : List BuiltSection × List SectionedBlock)
    (rows : List (HeadingPath × BuiltSection)) : Prop where
  sections : built.1 = rows.map Prod.snd
  paths_nodup : (rows.map Prod.fst).Nodup
  mem_paths : ∀ path, path ∈ rows.map Prod.fst ↔ path ≠ [] ∧ ∃ block ∈ blocks, path <+: block.rawPath
  ordinals : built.1.map (·.ordinal) = List.range built.1.length
  level : ∀ path s, (path, s) ∈ rows → s.level = path.length
  root : ∀ path s, (path, s) ∈ rows → s.level = 1 → s.parentId = none
  parent : ∀ path s, (path, s) ∈ rows → 1 < s.level → ∃ s', (path.dropLast, s') ∈ rows ∧ s.parentId = some s'.id ∧
    s'.ordinal < s.ordinal ∧ s.level = s'.level + 1
  pages : ∀ path s, (path, s) ∈ rows →
    IsLeast (startingPages blocks path) s.pageStart ∧ IsGreatest (startingPages blocks path) s.pageEnd
  checks : ∀ s ∈ built.1, SectionChecks s
  blocks : built.2.map (·.block) = blocks
  mapped : ∀ sectioned ∈ built.2, ∃ s, (sectioned.block.rawPath, s) ∈ rows ∧ sectioned.sectionId = s.id

theorem buildSections_outline (hpages : blocks.Pairwise fun a b => a.pageNumber ≤ b.pageNumber) :
    ∃ rows, IsOutline blocks (buildSections u uuid5 version blocks) rows := by
  have hsections : (buildSections u uuid5 version blocks).1 = (outlineRows u uuid5 version blocks).map Prod.snd :=
    buildSections_eq hpages
  refine ⟨outlineRows u uuid5 version blocks, ?_⟩
  constructor
  case sections => exact hsections
  case paths_nodup => exact Table.keys_nodup _
  case mem_paths => exact fun path => mem_outlineRows_map
  case ordinals =>
    rw [hsections, List.map_map, List.length_map]
    exact outlineRows_ordinals hpages
  case level => exact fun path s hs => outlineRows_level hpages hs
  case root => exact fun path s hs => outlineRows_root hpages hs
  case parent => exact fun path s hs => outlineRows_parent hpages hs
  case pages => exact fun path s hs => outlineRows_pages hpages hs
  case checks =>
    intro s hs
    rw [hsections] at hs
    obtain ⟨⟨path, s⟩, hrow, rfl⟩ := List.mem_map.mp hs
    obtain ⟨⟨⟨block, hblock, hpath, hstart⟩, -⟩, hend⟩ := outlineRows_pages hpages hrow
    refine ⟨Nat.zero_le _, ?_, ?_, hend.2 ⟨block, hblock, hpath, hstart⟩⟩
    · rw [outlineRows_level hpages hrow]
      exact List.length_pos_iff.mpr (outlineRows_ne_nil hrow)
    · rw [← hstart]
      exact block.pageNumber_pos
  case blocks => exact visitBlocks_blocks
  case mapped => exact fun sectioned hs => buildSections_mapped hs

theorem buildSections_outline_nested : ∃ rows, IsOutline
    [⟨1, ['x'], [['A']], Nat.one_pos⟩, ⟨2, ['y'], [['A'], ['B']], by decide⟩]
    (buildSections .latin sampleUuid5 1 [⟨1, ['x'], [['A']], Nat.one_pos⟩, ⟨2, ['y'], [['A'], ['B']], by decide⟩]) rows :=
  buildSections_outline (by decide)

/-! ## Heading paths -/

/-- Every block shows the chain of the headings that are open before it. -/
def ShowsOpenHeadings (blocks : List ParsedBlock) (contexts : List (List Heading)) : Prop :=
  blocks.map (·.headingPath) = contexts.map openPath

theorem not_showsOpenHeadings :
    ¬((∀ text, ShowsOpenHeadings (parseMarkdown text) (markdownContexts [] [] (splitLines text))) ∧
      ∀ ps, ShowsOpenHeadings (parseParagraphs [] ps) (docxContexts [] ps)) := by
  rintro ⟨hmarkdown, -⟩
  have h : (parseMarkdown "### A\n### B\nc".toList).map (·.headingPath) =
      (markdownContexts [] [] (splitLines "### A\n### B\nc".toList)).map openPath := hmarkdown _
  exact absurd h (by decide)

/-- Every block does if and only if before each of them no heading has been closed since the open ones were without a gap. -/
theorem showsOpenHeadings_iff (text : Text) (ps : List Paragraph) :
    (ShowsOpenHeadings (parseMarkdown text) (markdownContexts [] [] (splitLines text)) ↔
      ∀ hs ∈ markdownContexts [] [] (splitLines text), Settled hs) ∧
    (ShowsOpenHeadings (parseParagraphs [] ps) (docxContexts [] ps) ↔ ∀ hs ∈ docxContexts [] ps, Settled hs) := by
  have hpaths : ∀ {blocks : List ParsedBlock} {contexts : List (List Heading)}, (∀ hs ∈ contexts, Leveled hs) →
      blocks.map (·.headingPath) = contexts.map (fun hs => shownPath (keptPath hs)) →
        (ShowsOpenHeadings blocks contexts ↔ ∀ hs ∈ contexts, Settled hs) := by
    intro blocks contexts hleveled hkept
    rw [ShowsOpenHeadings, hkept, List.map_inj_left]
    exact forall₂_congr fun hs hmem => shownPath_eq_openPath_iff (hleveled hs hmem)
  exact ⟨hpaths (leveled_markdownContexts nofun) (parseMarkdownLines_paths [] [] _),
    hpaths (leveled_docxContexts nofun) (parseParagraphs_paths [] ps)⟩

/-! ## The tokenizer service -/

/-- The split leaves something on both sides. -/
def SplitsInside (text : Text) : Prop := 2 ≤ text.length → 0 < safeSplit text ∧ safeSplit text < text.length

instance (text : Text) : Decidable (SplitsInside text) := inferInstanceAs (Decidable (_ → _))

/-- The client comes to an end, and the spans that it returns are in order if those of the answers are, with the same
characters as in the pieces that have been answered. -/
structure Tokenizes (service : Service) (text : Text) : Prop where
  ends : ∃ fuel outcome, tokenSpans service fuel text = some outcome
  spans : ∀ fuel spans, tokenSpans service fuel text = some (.ok spans) → ∃ leaves, Assembled service 0 text leaves spans ∧
    (∀ l ∈ leaves, ∀ span ∈ l.spans, covered text (.moved l.offset span) = covered l.piece span) ∧
    ((∀ l ∈ leaves, OrderedWithin l.spans 0 l.piece.length) → OrderedWithin spans 0 text.length)

theorem tokenizes_of_ends {service : Service} {text : Text} (h : ∃ fuel, (tokenSpansFrom service fuel 0 0 text).isSome) :
    Tokenizes service text where
  ends := by
    obtain ⟨fuel, h⟩ := h
    obtain ⟨outcome, ho⟩ := Option.isSome_iff_exists.mp h
    exact ⟨fuel, outcome.1, by rw [tokenSpans, ho, Option.map_some]⟩
  spans fuel spans hspans := by
    obtain ⟨⟨_, m⟩, hfrom, rfl⟩ := Option.map_eq_some_iff.mp hspans
    obtain ⟨leaves, h⟩ := tokenSpansFrom_assembled hfrom
    refine ⟨leaves, h, fun l hl span => h.covered_eq hl, fun hin => ?_⟩
    have hordered := h.tiles.orderedWithin hin
    rwa [← h.spans_eq, Nat.zero_add] at hordered

theorem not_tokenizes_of_none {service : Service} {text : Text} (h : ∀ fuel, tokenSpansFrom service fuel 0 0 text = none) :
    ¬Tokenizes service text := by
  rintro ⟨⟨fuel, outcome, he⟩, -⟩
  rw [tokenSpans, h fuel] at he
  cases he

/-- A service that answers for single characters only, each of them a token. -/
def singleCharacters : Service := fun _ text =>
  if 2 ≤ text.length then .answered 413 none
  else .answered 200 (some (.arr [.obj [("start".toList, .int 0), ("stop".toList, .int (utf8 text).length)]]))

theorem singleCharacters_refuses {n : Nat} {text : Text} (h : 2 ≤ text.length) :
    post (singleCharacters n text) = .error .tokenizationTooLong := by
  rw [singleCharacters, if_pos h]
  rfl

theorem not_tokenizes : (¬∀ text, SplitsInside text) ∧ ¬∀ service text, Tokenizes service text := by
  constructor
  · intro hall
    exact absurd (hall "ab ".toList) (by decide)
  · intro hall
    refine not_tokenizes_of_none (fun fuel => ?_) (hall singleCharacters "ab ".toList)
    exact refused_forever (fun _ _ => singleCharacters_refuses) (by decide)

/-- A text is split inside if and only if its last character is not the only space to split behind. It is tokenized
whatever the service refuses if and only if there is no space behind its first character, and its parts are, where the
service has one answer for each text, if and only if the service refuses none of them that is not split inside. -/
theorem tokenizes_iff (text : Text) (answer : Text → Response) :
    (SplitsInside text ↔ ¬SpaceAtEnd text) ∧
    ((∀ service, Tokenizes service text) ↔ ' ' ∉ text.tail) ∧
    ((∀ piece, piece <:+: text → Tokenizes (fun _ => answer) piece) ↔
      ∀ piece, piece <:+: text → SpaceAtEnd piece → post (answer piece) ≠ .error .tokenizationTooLong) := by
  refine ⟨?_, ⟨fun h hspace => ?_, fun h service => ?_⟩, ⟨fun h piece hp hend hpost => ?_, fun h piece hp => ?_⟩⟩
  · by_cases hlen : 2 ≤ text.length
    · rw [SplitsInside, imp_iff_right hlen, safeSplit_inside hlen]
    · exact iff_of_true (fun h => absurd h hlen) fun hend => hlen (spaceAtEnd_iff.mp hend).1
  · exact not_tokenizes_of_none (fun fuel => refused_forever (fun _ _ => singleCharacters_refuses) hspace) (h singleCharacters)
  · exact tokenizes_of_ends ⟨text.length + 1, tokenSpansFrom_isSome (Nat.lt_succ_self _) fun _ _ hp hend =>
      absurd (mem_tail_of_spaceAtEnd hp hend) h⟩
  · exact not_tokenizes_of_none (fun fuel => refused_again (fun _ => hpost) hend) (h piece hp)
  · exact tokenizes_of_ends ⟨piece.length + 1, tokenSpansFrom_isSome (Nat.lt_succ_self _) fun _ q hq => h q (hq.trans hp)⟩

/-! ## Pages -/

variable {b : Builder} {files : VersionId → SourceFile} {timeout : Nat} {tenants : Table TenantId Tenant} {s : State}
  {v : VersionId}

/-- The stored chunks of a version lie on its counted pages, and a signed URL for one of their pages is not refused. -/
def PagesReadable (db : Db) (v : VersionId) : Prop :=
  ∀ version k row, db.versions.get? v = some version → db.chunks.get? k = some row → row.documentVersionId = v →
    ∀ page ∈ [row.pageStart, row.pageEnd], 1 ≤ page ∧ page ≤ version.pageCount ∧
      pageOutside version (some page) = false ∧ pageMissing version (some page) = false

def sampleBuilder : Builder where
  readers := ⟨fun path => some (path.map fun x => Char.ofNat x.toNat), Json.parse, fun _ => none, fun _ => none,
    fun _ => none⟩
  expandedLimitBytes := 1000
  uuid5 := fun _ name => name.length
  chunker := ⟨.latin, fun text => [⟨0, text.length⟩], id, fun _ page _ _ _ _ => page, 8, 0⟩

def jsonlFile (text : Text) : SourceFile := ⟨text.map fun c => UInt8.ofNat c.toNat, "application/jsonl".toList⟩

def sampleRow : Text := "\x7b\"text\":\"a\",\"source_page\":1,\"category\":\"b\",\"word_count\":1\x7d".toList

def gapFile : SourceFile := jsonlFile ('\n' :: sampleRow)

def filledFile : SourceFile := jsonlFile (sampleRow ++ ['\n', '\n'])

def sampleContent (page : Nat) : BuiltContent where
  sections := [⟨⟨9, none, ['b'], ['b'], ['b']⟩, 0, 1, ['b'], page, page⟩,
    ⟨⟨11, some 9, ['1'], "b / 1".toList, "b / 1".toList⟩, 1, 2, ['1'], page, page⟩]
  chunks := [⟨⟨page, 11, 0, page, page, 0, 1, ['a'], ['a'], 1, ['a'], ['a']⟩, 0⟩]
  pageCount := 1

def persistsSample (page : Nat) (s : State) : Action → Bool
  | .persist r sections chunks pageCount _ => (s.runs r).claim?.all (·.versionId = 70) &&
      decide (sections = (sampleContent page).sections.map (·.toBuiltSection)) &&
      decide (chunks = (sampleContent page).chunks.map (·.toBuiltChunk)) && decide (pageCount = 1)
  | _ => true

def sampleRun (page : Nat) : List Action :=
  [.upload 1 7 [] [] [] 70 700 0, .start 0 700 0,
    .persist 0 ((sampleContent page).sections.map (·.toBuiltSection)) ((sampleContent page).chunks.map (·.toBuiltChunk)) 1 1,
    .markReady 0 2, .activate 0 3]

theorem persistsContent_sample {page : Nat} {file : SourceFile}
    (h : sampleBuilder.build 70 file = .ok (sampleContent page)) :
    ∀ s a, persistsSample page s a = true → persistsContent sampleBuilder (fun _ => file) s a := by
  intro s a ha
  cases a with
  | persist r sections chunks pageCount now =>
      simp only [persistsSample, Bool.and_eq_true, decide_eq_true_eq] at ha
      obtain ⟨⟨⟨hv, hs⟩, hc⟩, hp⟩ := ha
      intro c hrun
      simp only [hrun, Process.claim?, Option.all_some, decide_eq_true_eq] at hv
      exact ⟨sampleContent page, hv ▸ h, hs, hc, hp⟩
  | _ => trivial

theorem not_pagesReadable : ¬∀ b files timeout tenants s, Run (step timeout) (persistsContent b files) (.fresh tenants) s →
    ∀ v, PagesReadable s.db v := by
  intro hall
  have hbuild : sampleBuilder.build 70 gapFile = .ok (sampleContent 2) := by decide +kernel
  have hrun : (exec (step 60) (fun s a => persistsSample 2 s a = true) (.fresh oneTenant) (sampleRun 2)).map (fun s =>
      ((s.db.versions.get? 70).map (·.pageCount), (s.db.chunks.get? 2).map fun r => (r.documentVersionId, r.pageStart))) =
        some (some 1, some (70, 2)) := by decide +kernel
  obtain ⟨s, hs, he⟩ := Option.map_eq_some_iff.mp hrun
  obtain ⟨hv, hc⟩ := Prod.mk.inj he
  obtain ⟨version, hv, hcount⟩ := Option.map_eq_some_iff.mp hv
  obtain ⟨row, hc, hrow⟩ := Option.map_eq_some_iff.mp hc
  obtain ⟨hof, hpage⟩ := Prod.mk.inj hrow
  have hread := hall sampleBuilder (fun _ => gapFile) 60 oneTenant s
    ((Run.of_exec hs).mono (persistsContent_sample hbuild)) 70 version 2 row hv hc hof row.pageStart List.mem_cons_self
  omega

theorem pagesReadable_iff_inside {content : BuiltContent} (h : Holds b files s.db v content) :
    PagesReadable s.db v ↔ ∀ chunk ∈ content.chunks, chunk.Inside content.pageCount := by
  obtain ⟨version, hv, hcount⟩ := Table.view_eq_some.mp h.counted
  constructor
  · intro hread chunk hc
    obtain ⟨k, row, hk, hof, hp⟩ := (h.pages _).mpr ⟨chunk, hc, rfl⟩
    obtain ⟨hstart, hstop⟩ := Prod.mk.inj hp
    have hall := hread version k row hv hk hof
    rw [hstart, hstop, hcount, List.forall_mem_cons, List.forall_mem_singleton] at hall
    exact ⟨⟨hall.1.1, hall.1.2.1⟩, hall.2.1, hall.2.2.1⟩
  · intro hin version' k row hv' hk hof page hpage
    obtain rfl : version = version' := Option.some.inj (hv.symm.trans hv')
    obtain ⟨chunk, hc, hp⟩ := (h.pages _).mp ⟨k, row, hk, hof, rfl⟩
    obtain ⟨hstart, hstop⟩ := Prod.mk.inj hp
    obtain ⟨⟨h₁, h₂⟩, h₃, h₄⟩ := hin chunk hc
    rw [← hcount, hstart] at h₂
    rw [← hcount, hstop] at h₄
    have hbounds : 1 ≤ page ∧ page ≤ version.pageCount := by
      rw [List.mem_cons, List.mem_singleton] at hpage
      rcases hpage with rfl | rfl
      · exact ⟨hstart ▸ h₁, h₂⟩
      · exact ⟨hstop ▸ h₃, h₄⟩
    refine ⟨hbounds.1, hbounds.2, ?_, ?_⟩
    · simp only [pageOutside, Option.any_some, Bool.or_eq_false_iff, decide_eq_false_iff_not]
      omega
    · simp only [pageMissing, Option.any_some, Bool.or_eq_false_iff, decide_eq_false_iff_not]
      omega

/-- The stored pages of a version can be read if and only if the pages of its raw file are numbered without a gap. -/
theorem pagesReadable_iff (h : Run (step timeout) (persistsContent b files) (.fresh tenants) s)
    (hstored : ∃ k row, s.db.chunks.get? k = some row ∧ row.documentVersionId = v) :
    PagesReadable s.db v ↔ PagesFilled b.readers (files v) := by
  obtain ⟨k, row, hk, hof⟩ := hstored
  rcases stored_of_run h v with hnone | ⟨content, hholds⟩
  · exact absurd ⟨k, row, hk, hof, rfl⟩ (hnone _)
  · rw [pagesReadable_iff_inside hholds, build_inside hholds.build]

theorem pagesReadable_iff_filled : ∃ s, exec (step 60) (fun s a => persistsSample 1 s a = true) (.fresh oneTenant)
    (sampleRun 1) = some s ∧
    StatusActive s.db 70 ∧ (PagesReadable s.db 70 ↔ PagesFilled sampleBuilder.readers filledFile) := by
  have hbuild : sampleBuilder.build 70 filledFile = .ok (sampleContent 1) := by decide +kernel
  have hrun : (exec (step 60) (fun s a => persistsSample 1 s a = true) (.fresh oneTenant) (sampleRun 1)).map (fun s =>
      ((s.db.versions.get? 70).map (·.status), (s.db.chunks.get? 1).map (·.documentVersionId))) =
        some (some .active, some 70) := by decide +kernel
  obtain ⟨s, hs, he⟩ := Option.map_eq_some_iff.mp hrun
  obtain ⟨hv, hc⟩ := Prod.mk.inj he
  obtain ⟨version, hv, hactive⟩ := Option.map_eq_some_iff.mp hv
  obtain ⟨row, hc, hof⟩ := Option.map_eq_some_iff.mp hc
  exact ⟨s, hs, ⟨version, hv, hactive⟩, pagesReadable_iff ((Run.of_exec hs).mono (persistsContent_sample hbuild)) ⟨1, row, hc, hof⟩⟩

/-! ## Chunks -/

section Chunks

variable {k : Chunker} {sections : List SectionedBlock} {chunks : List BuiltChunk}

/-- The spans of every text begin and end one behind the other. -/
def SpansInOrder (k : Chunker) : Prop :=
  ∀ text, (sourceSpans (k.tokenSpans text) text).Pairwise fun a b => a.1 ≤ b.1 ∧ a.2 ≤ b.2

/-- `part` are the chunks of the block: those of a layout of its spans, which lie in their texts. -/
structure IsCutInto (k : Chunker) (sectioned : SectionedBlock) (part : List BuiltChunk) : Prop where
  blank : strip sectioned.block.textOriginal = [] → part = []
  layout : strip sectioned.block.textOriginal ≠ [] → ∃ ranges,
    IsLayout (sourceSpans (k.tokenSpans sectioned.block.textOriginal) sectioned.block.textOriginal).length k.maxTokens k.overlap
      ranges ∧
    List.Forall₂ (ChunkAt sectioned.block.textOriginal
      (sourceSpans (k.tokenSpans sectioned.block.textOriginal) sectioned.block.textOriginal)) ranges part
  covers : strip sectioned.block.textOriginal ≠ [] →
    ∀ span ∈ sourceSpans (k.tokenSpans sectioned.block.textOriginal) sectioned.block.textOriginal,
      ∃ chunk ∈ part, chunk.charStart ≤ span.1 ∧ span.2 ≤ chunk.charEnd

theorem chunkBlocks_windows (hin : SpansInOrder k) (h : chunkBlocks k version sections = .ok chunks) :
    (∃ parts, parts.flatten = chunks ∧ List.Forall₂ (IsCutInto k) sections parts) ∧
      chunks.map (·.chunkIndex) = List.range chunks.length := by
  obtain ⟨hlimits, parts, hparts, hall⟩ := chunkBlocks_parts h
  refine ⟨⟨parts, hparts, hall.imp fun sectioned part hpart => ?_⟩, chunkBlocks_chunkIndex h⟩
  refine ⟨fun hblank => ?_, hpart.layout hlimits, fun hne span hspan => ?_⟩
  · rcases hpart with ⟨-, hnil⟩ | ⟨hne, -⟩
    · exact hnil
    · exact absurd hblank hne
  · obtain ⟨ranges, hlayout, hat⟩ := hpart.layout hlimits hne
    exact covered_of_layout hlayout hat (hin _) hspan

def letterChunker (maxTokens overlap : Nat) : Chunker where
  unicode := .latin
  tokenSpans text := (List.range text.length).map fun (i : ℕ) => ⟨i, i + 1⟩
  sha256Text := id
  stableChunkId := stableChunkId (sampleUuid5 0)
  maxTokens := maxTokens
  overlap := overlap

theorem spansInOrder_letterChunker (maxTokens overlap : Nat) : SpansInOrder (letterChunker maxTokens overlap) := by
  intro text
  rw [sourceSpans, List.pairwise_filterMap]
  refine List.pairwise_map.mpr (List.pairwise_lt_range.imp fun {i j} hlt x hx y hy => ?_)
  simp only [Option.ite_none_right_eq_some, Option.some.injEq] at hx hy
  rw [← hx.2, ← hy.2]
  simp only
  omega

def letters : SectionedBlock := ⟨⟨1, "abcde".toList, [], Nat.one_pos⟩, 3⟩

theorem chunkBlocks_windows_letters : ∃ chunks, chunkBlocks (letterChunker 3 1) 1 [letters, letters] = .ok chunks ∧
    chunks.map (·.textOriginal) = ["abc".toList, "cde".toList, "abc".toList, "cde".toList] ∧
    (∃ parts, parts.flatten = chunks ∧ List.Forall₂ (IsCutInto (letterChunker 3 1)) [letters, letters] parts) ∧
    chunks.map (·.chunkIndex) = List.range chunks.length := by
  have htexts : (chunkBlocks (letterChunker 3 1) 1 [letters, letters]).map (fun chunks => chunks.map (·.textOriginal)) =
      .ok ["abc".toList, "cde".toList, "abc".toList, "cde".toList] := by decide
  obtain ⟨chunks, h, htexts⟩ := map_eq_ok.mp htexts
  exact ⟨chunks, h, htexts, chunkBlocks_windows (spansInOrder_letterChunker 3 1) h⟩

/-! ## Chunk ids -/

/-- No two chunks share an id, a retried job makes the same ids, and an id tells what it is made of. -/
structure StableIds (k : Chunker) (uuid5 : Text → ChunkId) : Prop where
  distinct : ∀ version sections chunks, chunkBlocks (k.stable uuid5) version sections = .ok chunks →
    (chunks.map (·.id)).Nodup
  apart : ∀ version version' sections sections' chunks chunks', uuidOf version ≠ uuidOf version' →
    chunkBlocks (k.stable uuid5) version sections = .ok chunks →
    chunkBlocks (k.stable uuid5) version' sections' = .ok chunks' → ∀ chunk ∈ chunks, ∀ chunk' ∈ chunks',
      chunk.id ≠ chunk'.id
  again : ∀ version sections (tokenSpans : Text → List TokenSpan),
    (∀ sectioned ∈ sections, tokenSpans sectioned.block.textOriginal = k.tokenSpans sectioned.block.textOriginal) →
    chunkBlocks { k.stable uuid5 with tokenSpans := tokenSpans } version sections =
      chunkBlocks (k.stable uuid5) version sections
  recovered : ∀ version sections chunks, chunkBlocks (k.stable uuid5) version sections = .ok chunks → ∀ chunk ∈ chunks,
    chunk.id = uuid5 (identityOf version chunk).text ∧
      ChunkIdentity.read (identityOf version chunk).text = some (identityOf version chunk)

theorem chunkBlocks_stableIds {uuid5 : Text → ChunkId} (hsha : Function.Injective k.sha256Text)
    (huuid : Function.Injective uuid5) : StableIds k uuid5 := by
  refine ⟨fun _ _ _ h => chunkBlocks_ids_nodup hsha huuid h,
    fun version version' _ _ _ _ hne h h' chunk hc chunk' hc' hid => ?_,
    fun _ _ _ h => chunkBlocks_congr h, fun _ _ _ h chunk hc => ⟨chunkBlocks_id h hc, ChunkIdentity.read_text _⟩⟩
  rw [chunkBlocks_id h hc, chunkBlocks_id h' hc'] at hid
  exact hne (congrArg ChunkIdentity.documentVersionId (ChunkIdentity.text_inj (huuid hid)))

theorem chunkBlocks_stableIds_letters : StableIds (letterChunker 3 1) (sampleUuid5 0) :=
  chunkBlocks_stableIds Function.injective_id (sampleUuid5_injective 0)

end Chunks

end Etoeragcb.Content
