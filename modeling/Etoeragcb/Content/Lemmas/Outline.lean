import Etoeragcb.Content.Lemmas.Tree
import Mathlib.Order.Bounds.Basic

/-!
# The pages and the order of the sections of a document
-/

namespace Etoeragcb.Content

open Lib Models

variable {u : Unicode} {uuid5 : VersionId → Text → SectionId} {version : VersionId} {block : ParsedBlock}
  {blocks done : List ParsedBlock} {path p q : HeadingPath} {o : Outline} {pages : HeadingPath → Set Nat}

/-- The sections are numbered in the order of the table, each behind the one that it lies in, and reach over the pages that
have been seen at their paths. -/
structure Outlined (pages : HeadingPath → Set Nat) (o : Outline) : Prop where
  ordinals : o.sectionsByPath.rows.map (·.2.ordinal) = List.range o.ordinal
  level : ∀ path s, o.sectionsByPath.get? path = some s → s.level = path.length
  above : ∀ path s, o.sectionsByPath.get? path = some s → path.dropLast ≠ [] →
    ∃ s', o.sectionsByPath.get? path.dropLast = some s' ∧ s'.ordinal < s.ordinal
  first : ∀ path s, o.sectionsByPath.get? path = some s → IsLeast (pages path) s.pageStart
  last : ∀ path s, o.sectionsByPath.get? path = some s → IsGreatest (pages path) s.pageEnd
  unseen : ∀ path, o.sectionsByPath.get? path = none → pages path = ∅

theorem Outlined.ordinal_lt (h : Outlined pages o) {s : BuiltSection} (hs : o.sectionsByPath.get? path = some s) :
    s.ordinal < o.ordinal := by
  have hmem : s.ordinal ∈ o.sectionsByPath.rows.map (·.2.ordinal) :=
    List.mem_map.mpr ⟨(path, s), Table.get?_eq_some.mp hs, rfl⟩
  rw [h.ordinals] at hmem
  exact List.mem_range.mp hmem

/-! ## One turn of the loop -/

variable (u uuid5 version block) in
theorem visitPath_seen {existing : BuiltSection} (h : o.sectionsByPath.get? path = some existing) :
    (∀ q, (visitPath u uuid5 version block o path).sectionsByPath.get? q =
      if q = path then some { existing with pageEnd := max existing.pageEnd block.pageNumber } else o.sectionsByPath.get? q) ∧
    (visitPath u uuid5 version block o path).sectionsByPath.rows.map (·.2.ordinal) =
      o.sectionsByPath.rows.map (·.2.ordinal) ∧
    (visitPath u uuid5 version block o path).ordinal = o.ordinal := by
  simp only [visitPath, h]
  split
  · rename_i hlt
    refine ⟨fun q => ?_, ?_, trivial⟩
    · rw [Table.get?_modify]
      by_cases hq : q = path
      · rw [if_pos hq, if_pos hq, hq, h, max_eq_right hlt.le]
        rfl
      · rw [if_neg hq, if_neg hq]
    · simp only [Table.modify, Table.update, List.map_map]
      refine List.map_congr_left fun x _ => ?_
      simp only [Function.comp_apply]
      split <;> rfl
  · rename_i hle
    refine ⟨fun q => ?_, rfl, trivial⟩
    by_cases hq : q = path
    · rw [if_pos hq, hq, h, max_eq_left (Nat.le_of_not_lt hle)]
    · rw [if_neg hq]

variable (u uuid5 version block) in
theorem visitPath_fresh (h : o.sectionsByPath.get? path = none) :
    (∀ q, (visitPath u uuid5 version block o path).sectionsByPath.get? q =
      if q = path then some (newSection u uuid5 version block path o) else o.sectionsByPath.get? q) ∧
    (visitPath u uuid5 version block o path).sectionsByPath.rows.map (·.2.ordinal) =
      o.sectionsByPath.rows.map (·.2.ordinal) ++ [o.ordinal] ∧
    (visitPath u uuid5 version block o path).ordinal = o.ordinal + 1 := by
  obtain ⟨t, ht⟩ := Table.insert?_isSome (newSection u uuid5 version block path o) h
  simp only [visitPath, h, ht, Option.getD_some]
  refine ⟨fun q => Table.get?_insert? ht q, ?_, trivial⟩
  simp only [Table.insert?, h, ↓reduceDIte, Option.some.injEq] at ht
  rw [← ht, List.map_append]
  rfl

theorem dropLast_ne_self (hne : path ≠ []) : path.dropLast ≠ path := fun heq => hne <| by
  have hlength := congrArg List.length heq
  rw [List.length_dropLast] at hlength
  exact List.eq_nil_of_length_eq_zero (by omega)

/-- The table after a visit: a section `new` at the path, and the others as before. -/
theorem Outlined.update (h : Outlined pages o) {o' : Outline} {new : BuiltSection} {n : Nat} (hne : path ≠ [])
    (hget : ∀ q, o'.sectionsByPath.get? q = if q = path then some new else o.sectionsByPath.get? q)
    (hordinals : o'.sectionsByPath.rows.map (·.2.ordinal) = List.range o'.ordinal) (hlevel : new.level = path.length)
    (habove : path.dropLast ≠ [] → ∃ s, o.sectionsByPath.get? path.dropLast = some s ∧ s.ordinal < new.ordinal)
    (hsame : ∀ s, o.sectionsByPath.get? path = some s → s.ordinal = new.ordinal)
    (hfirst : IsLeast (insert n (pages path)) new.pageStart) (hlast : IsGreatest (insert n (pages path)) new.pageEnd) :
    Outlined (Function.update pages path (insert n (pages path))) o' := by
  refine ⟨hordinals, fun q s hq => ?_, fun q s hq hdrop => ?_, fun q s hq => ?_, fun q s hq => ?_, fun q hq => ?_⟩
  all_goals rw [hget] at hq
  all_goals by_cases hqp : q = path
  all_goals first | (rw [if_pos hqp] at hq; cases hq) | rw [if_neg hqp] at hq
  · rw [hlevel, hqp]
  · exact h.level q s hq
  · subst hqp
    obtain ⟨s', hs', hlt⟩ := habove hdrop
    exact ⟨s', by rw [hget, if_neg (dropLast_ne_self hne)]; exact hs', hlt⟩
  · obtain ⟨s', hs', hlt⟩ := h.above q s hq hdrop
    by_cases hdp : q.dropLast = path
    · rw [hdp] at hs' ⊢
      exact ⟨new, by rw [hget, if_pos rfl], by rw [← hsame s' hs']; exact hlt⟩
    · exact ⟨s', by rw [hget, if_neg hdp]; exact hs', hlt⟩
  · rw [hqp, Function.update_self]
    exact hfirst
  · rw [Function.update_of_ne hqp]
    exact h.first q s hq
  · rw [hqp, Function.update_self]
    exact hlast
  · rw [Function.update_of_ne hqp]
    exact h.last q s hq
  · rw [Function.update_of_ne hqp]
    exact h.unseen q hq

variable (u uuid5 version block path) in
/-- A block is seen at a path whose blocks before are on no later page. -/
theorem Outlined.visitPath (h : Outlined pages o) (hne : path ≠ [])
    (habove : path.dropLast ≠ [] → ∃ s, o.sectionsByPath.get? path.dropLast = some s)
    (hlater : ∀ n ∈ pages path, n ≤ block.pageNumber) :
    Outlined (Function.update pages path (insert block.pageNumber (pages path)))
      (Content.visitPath u uuid5 version block o path) := by
  cases hs : o.sectionsByPath.get? path with
  | none =>
      obtain ⟨hget, hordinals, hordinal⟩ := visitPath_fresh u uuid5 version block hs
      have hempty := h.unseen path hs
      refine h.update hne hget ?_ rfl ?_ ?_ ?_ ?_
      · rw [hordinals, hordinal, h.ordinals, List.range_succ]
      · intro hdrop
        obtain ⟨s, hs'⟩ := habove hdrop
        exact ⟨s, hs', h.ordinal_lt hs'⟩
      · intro s hs'
        rw [hs] at hs'
        cases hs'
      · rw [hempty, insert_empty_eq]
        exact isLeast_singleton
      · rw [hempty, insert_empty_eq]
        exact isGreatest_singleton
  | some existing =>
      obtain ⟨hget, hordinals, hordinal⟩ := visitPath_seen u uuid5 version block hs
      obtain ⟨hstart, hleast⟩ := h.first path existing hs
      obtain ⟨hend, hgreatest⟩ := h.last path existing hs
      refine h.update hne hget ?_ (h.level path existing hs) ?_ ?_ ?_ ?_
      · rw [hordinals, hordinal, h.ordinals]
      · exact h.above path existing hs
      · intro s hs'
        rw [hs] at hs'
        cases hs'
        rfl
      · refine ⟨Or.inr hstart, ?_⟩
        rintro n (rfl | hn)
        · exact hlater _ hstart
        · exact hleast hn
      · have hmax : max existing.pageEnd block.pageNumber = block.pageNumber := max_eq_right (hlater _ hend)
        simp only [hmax]
        refine ⟨Or.inl rfl, ?_⟩
        rintro n (rfl | hn)
        · exact Nat.le_refl _
        · exact hlater n hn

/-! ## All blocks -/

def pagesBelow (blocks : List ParsedBlock) (path : HeadingPath) : Set Nat :=
  {n | ∃ block ∈ blocks, path ∈ prefixes block.rawPath ∧ block.pageNumber = n}

variable (u uuid5 version block) in
theorem Outlined.visitPaths (h : Outlined pages o) (path : HeadingPath)
    (hlater : ∀ q ∈ prefixes path, ∀ n ∈ pages q, n ≤ block.pageNumber) :
    Outlined (fun q => {n | (q ∈ prefixes path ∧ n = block.pageNumber) ∨ n ∈ pages q})
      ((prefixes path).foldl (Content.visitPath u uuid5 version block) o) := by
  induction path using List.reverseRecOn with
  | nil => simpa [prefixes] using h
  | append_singleton path heading ih =>
      rw [prefixes_concat] at hlater ⊢
      have hbefore := ih fun q hq => hlater q (List.mem_append_left _ hq)
      have hfresh : path ++ [heading] ∉ prefixes path := fun hmem => by
        have hlength := (mem_prefixes.mp hmem).2.length_le
        rw [List.length_append, List.length_singleton] at hlength
        omega
      rw [List.foldl_append, List.foldl_cons, List.foldl_nil]
      have hvisit := hbefore.visitPath u uuid5 version block (path ++ [heading]) (by simp) ?_ ?_
      · convert hvisit using 1
        funext q
        by_cases hq : q = path ++ [heading]
        · subst hq
          rw [Function.update_self]
          ext n
          simp [hfresh]
        · rw [Function.update_of_ne hq]
          simp [hq]
      · intro hdrop
        rw [List.dropLast_concat] at hdrop ⊢
        exact (visitPaths_get? _ _).mpr (Or.inl (mem_prefixes.mpr ⟨hdrop, List.prefix_rfl⟩))
      · rintro n (⟨hmem, -⟩ | hn)
        · exact absurd hmem hfresh
        · exact hlater _ (List.mem_append_right _ (List.mem_singleton_self _)) n hn

theorem Outlined.visitBlocks (h : Outlined (pagesBelow done) o)
    (hpages : (done ++ blocks).Pairwise fun a b => a.pageNumber ≤ b.pageNumber) :
    Outlined (pagesBelow (done ++ blocks)) (visitBlocks u uuid5 version o blocks).1 := by
  induction blocks generalizing o done with
  | nil => rwa [List.append_nil]
  | cons block blocks ih =>
      have hstart : Outlined (pagesBelow done) { o with parentId := none } :=
        ⟨h.ordinals, h.level, h.above, h.first, h.last, h.unseen⟩
      have hlater : ∀ q ∈ prefixes block.rawPath, ∀ n ∈ pagesBelow done q, n ≤ block.pageNumber := by
        rintro q - n ⟨b, hb, -, rfl⟩
        exact (List.pairwise_append.mp hpages).2.2 b hb block List.mem_cons_self
      have hblock := hstart.visitPaths u uuid5 version block block.rawPath hlater
      have hnext : (fun q => {n | (q ∈ prefixes block.rawPath ∧ n = block.pageNumber) ∨ n ∈ pagesBelow done q}) =
          pagesBelow (done ++ [block]) := by
        funext q
        ext n
        simp only [pagesBelow, Set.mem_ofPred_eq, List.mem_append, List.mem_singleton]
        constructor
        · rintro (⟨hq, rfl⟩ | ⟨b, hb, hq, rfl⟩)
          · exact ⟨block, Or.inr rfl, hq, rfl⟩
          · exact ⟨b, Or.inl hb, hq, rfl⟩
        · rintro ⟨b, hb | rfl, hq, rfl⟩
          · exact Or.inr ⟨b, hb, hq, rfl⟩
          · exact Or.inl ⟨hq, rfl⟩
      rw [hnext] at hblock
      rw [List.append_cons] at hpages ⊢
      exact ih hblock hpages

variable (u uuid5 version) in
theorem outlined_buildSections (hpages : blocks.Pairwise fun a b => a.pageNumber ≤ b.pageNumber) :
    Outlined (pagesBelow blocks) (Content.visitBlocks u uuid5 version ⟨.empty, 0, none⟩ blocks).1 := by
  have hempty : Outlined (pagesBelow []) ⟨.empty, 0, none⟩ :=
    ⟨rfl, nofun, nofun, nofun, nofun, fun _ _ => by simp [pagesBelow]⟩
  rw [← List.nil_append blocks] at hpages ⊢
  exact hempty.visitBlocks hpages

/-! ## The sections in their order -/

def outlineRows (u : Unicode) (uuid5 : VersionId → Text → SectionId) (version : VersionId) (blocks : List ParsedBlock) :
    List (HeadingPath × BuiltSection) := (Content.visitBlocks u uuid5 version ⟨.empty, 0, none⟩ blocks).1.sectionsByPath.rows

def startingPages (blocks : List ParsedBlock) (path : HeadingPath) : Set Nat :=
  {n | ∃ block ∈ blocks, path <+: block.rawPath ∧ block.pageNumber = n}

variable {s : BuiltSection}

theorem mem_outlineRows : (path, s) ∈ outlineRows u uuid5 version blocks ↔
    (Content.visitBlocks u uuid5 version ⟨.empty, 0, none⟩ blocks).1.sectionsByPath.get? path = some s :=
  Table.get?_eq_some.symm

theorem mem_outlineRows_map : path ∈ (outlineRows u uuid5 version blocks).map Prod.fst ↔
    path ≠ [] ∧ ∃ block ∈ blocks, path <+: block.rawPath := by
  have hrow : path ∈ (outlineRows u uuid5 version blocks).map Prod.fst ↔ path ∈ sectionPaths blocks := by
    have hpath : path ∈ sectionPaths blocks ↔ ∃ s,
        (Content.visitBlocks u uuid5 version ⟨.empty, 0, none⟩ blocks).1.sectionsByPath.get? path = some s :=
          mem_sectionPaths
    rw [List.mem_map, hpath]
    constructor
    · rintro ⟨⟨path', row⟩, hx, rfl⟩
      exact ⟨row, mem_outlineRows.mp hx⟩
    · rintro ⟨s, hs⟩
      exact ⟨(path, s), mem_outlineRows.mpr hs, rfl⟩
  rw [hrow, sectionPaths, List.mem_flatMap]
  simp only [mem_prefixes]
  constructor
  · rintro ⟨b, hb, hne, hp⟩
    exact ⟨hne, b, hb, hp⟩
  · rintro ⟨hne, b, hb, hp⟩
    exact ⟨b, hb, hne, hp⟩

theorem outlineRows_placed (hs : (path, s) ∈ outlineRows u uuid5 version blocks) : Placed u uuid5 version path s :=
  allPlaced_buildSections path s (mem_outlineRows.mp hs)

theorem outlineRows_ne_nil (hs : (path, s) ∈ outlineRows u uuid5 version blocks) : path ≠ [] :=
  (mem_outlineRows_map.mp (List.mem_map_of_mem (f := Prod.fst) hs)).1

section Sorted

variable (hpages : blocks.Pairwise fun a b => a.pageNumber ≤ b.pageNumber)

include hpages

theorem outlineRows_ordinals : (outlineRows u uuid5 version blocks).map (·.2.ordinal) =
    List.range (outlineRows u uuid5 version blocks).length := by
  have hordinals := (outlined_buildSections u uuid5 version hpages).ordinals
  have hlength := congrArg List.length hordinals
  rw [List.length_map, List.length_range] at hlength
  rw [outlineRows, hlength]
  exact hordinals

/-- The sections come in the order in which they are made. -/
theorem buildSections_eq : (buildSections u uuid5 version blocks).1 = (outlineRows u uuid5 version blocks).map Prod.snd := by
  refine List.Pairwise.insertionSort_eq (List.pairwise_map.mpr ?_)
  have hsorted := List.pairwise_lt_range (n := (outlineRows u uuid5 version blocks).length)
  rw [← outlineRows_ordinals hpages, List.pairwise_map] at hsorted
  exact hsorted.imp fun h => h.le

theorem outlineRows_level (hs : (path, s) ∈ outlineRows u uuid5 version blocks) : s.level = path.length :=
  (outlined_buildSections u uuid5 version hpages).level path s (mem_outlineRows.mp hs)

theorem outlineRows_pages (hs : (path, s) ∈ outlineRows u uuid5 version blocks) :
    IsLeast (startingPages blocks path) s.pageStart ∧ IsGreatest (startingPages blocks path) s.pageEnd := by
  have hbelow : pagesBelow blocks path = startingPages blocks path := by
    ext n
    simp [pagesBelow, startingPages, mem_prefixes, outlineRows_ne_nil hs]
  rw [← hbelow]
  exact ⟨(outlined_buildSections u uuid5 version hpages).first path s (mem_outlineRows.mp hs),
    (outlined_buildSections u uuid5 version hpages).last path s (mem_outlineRows.mp hs)⟩

theorem outlineRows_root (hs : (path, s) ∈ outlineRows u uuid5 version blocks) (hlevel : s.level = 1) :
    s.parentId = none := by
  have hdrop : path.dropLast = [] := by
    rw [List.eq_nil_iff_length_eq_zero, List.length_dropLast, ← outlineRows_level hpages hs, hlevel]
  rw [(outlineRows_placed hs).parentId, hdrop]
  rfl

theorem outlineRows_parent (hs : (path, s) ∈ outlineRows u uuid5 version blocks) (hlevel : 1 < s.level) :
    ∃ s', (path.dropLast, s') ∈ outlineRows u uuid5 version blocks ∧ s.parentId = some s'.id ∧ s'.ordinal < s.ordinal ∧
      s.level = s'.level + 1 := by
  have hdrop : path.dropLast ≠ [] := fun h => by
    have hlength := congrArg List.length h
    rw [List.length_dropLast, List.length_nil, ← outlineRows_level hpages hs] at hlength
    omega
  obtain ⟨s', hs', hlt⟩ := (outlined_buildSections u uuid5 version hpages).above path s (mem_outlineRows.mp hs) hdrop
  have hmem := mem_outlineRows.mpr hs'
  refine ⟨s', hmem, ?_, hlt, ?_⟩
  · rw [(outlineRows_placed hs).parentId, enclosing_of_ne_nil hdrop, (outlineRows_placed hmem).id]
  · rw [outlineRows_level hpages hmem, List.length_dropLast, ← outlineRows_level hpages hs]
    omega

end Sorted

theorem visitBlocks_mapped (h : AllPlaced u uuid5 version o) {sectioned : SectionedBlock}
    (hs : sectioned ∈ (Content.visitBlocks u uuid5 version o blocks).2) :
    sectioned.sectionId = pathId u uuid5 version sectioned.block.rawPath := by
  induction blocks generalizing o with
  | nil => cases hs
  | cons block blocks ih =>
      have hstart : AllPlaced u uuid5 version { o with parentId := none } := h
      obtain ⟨hplaced, hparent⟩ := hstart.visitPaths block rfl block.rawPath
      simp only [Content.visitBlocks, visitBlock, hparent, enclosing_of_ne_nil (rawPath_ne_nil block), Option.map_some,
        Option.toList_some, List.singleton_append, List.mem_cons] at hs
      rcases hs with rfl | hs
      · rfl
      · exact ih hplaced hs

/-- The section of a block stands in the table under the whole path of the block. -/
theorem buildSections_mapped {sectioned : SectionedBlock} (hs : sectioned ∈ (buildSections u uuid5 version blocks).2) :
    ∃ s, (sectioned.block.rawPath, s) ∈ outlineRows u uuid5 version blocks ∧ sectioned.sectionId = s.id := by
  have hblock : sectioned.block ∈ blocks := by
    have hblocks : (buildSections u uuid5 version blocks).2.map (·.block) = blocks := visitBlocks_blocks
    rw [← hblocks]
    exact List.mem_map_of_mem hs
  have hrow : sectioned.block.rawPath ∈ (outlineRows u uuid5 version blocks).map Prod.fst :=
    mem_outlineRows_map.mpr ⟨rawPath_ne_nil sectioned.block, sectioned.block, hblock, List.prefix_rfl⟩
  obtain ⟨x, hx, hpath⟩ := List.mem_map.mp hrow
  refine ⟨x.2, hpath ▸ hx, ?_⟩
  rw [visitBlocks_mapped (fun _ _ h => by cases h) hs, (outlineRows_placed hx).id, hpath]

end Etoeragcb.Content
