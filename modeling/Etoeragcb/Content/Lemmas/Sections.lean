import Etoeragcb.Content.Sections
import Etoeragcb.Lib.Split

/-!
# The sections of a document are those of its heading paths
-/

namespace Etoeragcb.Content

open Lib Models

variable {u : Unicode} {uuid5 : VersionId → Text → SectionId} {version : VersionId} {block : ParsedBlock}
  {blocks : List ParsedBlock} {path p q : HeadingPath} {o : Outline} {new : BuiltSection}

/-! ## The name of a section -/

/-- The headings of a path in their lexical forms, cut at the separator of the name. -/
def pieces (u : Unicode) (path : HeadingPath) : List Text :=
  path.flatMap fun heading => (normalizeLexical u heading).splitOn '/'

/-- Two sections have one name if and only if their paths consist of the same pieces. -/
theorem sectionName_inj (hp : p ≠ []) (hq : q ≠ []) : sectionName u p = sectionName u q ↔ pieces u p = pieces u q := by
  have hpieces : ∀ {p : HeadingPath}, p ≠ [] →
      (['/'].intercalate (p.map (normalizeLexical u))).splitOn '/' = pieces u p := by
    intro p hp
    rw [splitOn_intercalate '/' _ (by simpa using hp), List.flatMap_map, pieces]
  have hname : sectionName u p = sectionName u q ↔
      ['/'].intercalate (p.map (normalizeLexical u)) = ['/'].intercalate (q.map (normalizeLexical u)) :=
    List.append_right_inj _
  rw [hname, ← hpieces hp, ← hpieces hq]
  refine ⟨fun h => by rw [h], fun h => ?_⟩
  have hback := congrArg ['/'].intercalate h
  rwa [List.intercalate_splitOn, List.intercalate_splitOn] at hback

/-! ## The table of the sections -/

/-- A section is stored under its path, with the id of its name. -/
def Keyed (u : Unicode) (uuid5 : VersionId → Text → SectionId) (version : VersionId) (o : Outline) : Prop :=
  ∀ path s, o.sectionsByPath.get? path = some s → s.id = uuid5 version (sectionName u path)

theorem visitPath_get? (p : HeadingPath) :
    (∃ s, (visitPath u uuid5 version block o path).sectionsByPath.get? p = some s) ↔
      p = path ∨ ∃ s, o.sectionsByPath.get? p = some s := by
  simp only [visitPath]
  cases h : o.sectionsByPath.get? path with
  | none =>
      obtain ⟨t, ht⟩ := Table.insert?_isSome (newSection u uuid5 version block path o) h
      simp only [ht, Option.getD_some, Table.get?_insert? ht]
      by_cases hp : p = path <;> simp [hp]
  | some existing =>
      simp only
      split
      · rw [Table.get?_modify]
        by_cases hp : p = path
        · subst hp; simp [h]
        · simp [hp]
      · by_cases hp : p = path
        · subst hp; simp [h]
        · simp [hp]

theorem Keyed.visitPath (h : Keyed u uuid5 version o) (block : ParsedBlock) (path : HeadingPath) :
    Keyed u uuid5 version (visitPath u uuid5 version block o path) := by
  intro p s hs
  simp only [Content.visitPath] at hs
  cases hp : o.sectionsByPath.get? path with
  | none =>
      obtain ⟨t, ht⟩ := Table.insert?_isSome (newSection u uuid5 version block path o) hp
      simp only [hp, ht, Option.getD_some, Table.get?_insert? ht] at hs
      split at hs
      · rename_i he
        cases hs
        rw [he]; rfl
      · exact h p s hs
  | some existing =>
      simp only [hp] at hs
      split at hs
      · rw [Table.get?_modify] at hs
        split at hs
        · obtain ⟨s₀, hs₀, rfl⟩ := Option.map_eq_some_iff.mp hs
          exact h p s₀ hs₀
        · exact h p s hs
      · exact h p s hs

theorem visitPaths_get? (paths : List HeadingPath) (p : HeadingPath) :
    (∃ s, (paths.foldl (visitPath u uuid5 version block) o).sectionsByPath.get? p = some s) ↔
      p ∈ paths ∨ ∃ s, o.sectionsByPath.get? p = some s := by
  induction paths generalizing o with
  | nil => simp
  | cons path paths ih => rw [List.foldl_cons, ih, visitPath_get?, List.mem_cons, or_assoc, or_left_comm]

theorem Keyed.visitPaths (h : Keyed u uuid5 version o) (block : ParsedBlock) (paths : List HeadingPath) :
    Keyed u uuid5 version (paths.foldl (Content.visitPath u uuid5 version block) o) := by
  induction paths generalizing o with
  | nil => exact h
  | cons path paths ih => exact ih (h.visitPath block path)

theorem visitBlocks_get? (p : HeadingPath) :
    (∃ s, (visitBlocks u uuid5 version o blocks).1.sectionsByPath.get? p = some s) ↔
      (∃ block ∈ blocks, p ∈ prefixes block.rawPath) ∨ ∃ s, o.sectionsByPath.get? p = some s := by
  induction blocks generalizing o with
  | nil => simp [visitBlocks]
  | cons block blocks ih =>
      simp only [visitBlocks, ih, visitBlock, visitPaths_get?, List.mem_cons, exists_eq_or_imp]
      rw [or_assoc, or_left_comm]

theorem Keyed.visitBlocks (h : Keyed u uuid5 version o) (blocks : List ParsedBlock) :
    Keyed u uuid5 version (visitBlocks u uuid5 version o blocks).1 := by
  induction blocks generalizing o with
  | nil => exact h
  | cons block blocks ih =>
      have hstart : Keyed u uuid5 version { o with parentId := none } := h
      exact ih (hstart.visitPaths block _)

def sectionPaths (blocks : List ParsedBlock) : List HeadingPath := blocks.flatMap fun block => prefixes block.rawPath

theorem rawPath_ne_nil (block : ParsedBlock) : block.rawPath ≠ [] := by
  simp only [ParsedBlock.rawPath]
  split
  · simp
  · rename_i h
    exact h

theorem ne_nil_of_mem_sectionPaths (h : p ∈ sectionPaths blocks) : p ≠ [] := by
  obtain ⟨block, -, hp⟩ := List.mem_flatMap.mp h
  obtain ⟨depth, -, rfl⟩ := List.mem_map.mp hp
  cases hr : block.rawPath with
  | nil => exact absurd hr (rawPath_ne_nil block)
  | cons => simp

/-- The ids of the sections are distinct if and only if the ids of their paths are. -/
theorem ids_nodup_iff : ((buildSections u uuid5 version blocks).1.map (·.id)).Nodup ↔
    ∀ p ∈ sectionPaths blocks, ∀ q ∈ sectionPaths blocks,
      uuid5 version (sectionName u p) = uuid5 version (sectionName u q) → p = q := by
  have hkeyed : ∀ p s, (visitBlocks u uuid5 version ⟨.empty, 0, none⟩ blocks).1.sectionsByPath.get? p = some s →
      s.id = uuid5 version (sectionName u p) := Keyed.visitBlocks (fun _ _ h => by cases h) blocks
  have hrow : ∀ p, p ∈ sectionPaths blocks ↔
      ∃ s, (visitBlocks u uuid5 version ⟨.empty, 0, none⟩ blocks).1.sectionsByPath.get? p = some s := fun p => by
    simp [visitBlocks_get?, sectionPaths]
  simp only [buildSections]
  generalize (visitBlocks u uuid5 version ⟨.empty, 0, none⟩ blocks).1.sectionsByPath = t at hkeyed hrow
  rw [((List.perm_insertionSort _ _).map _).nodup_iff]
  have hids : (t.rows.map Prod.snd).map (·.id) = (t.rows.map Prod.fst).map fun p => uuid5 version (sectionName u p) := by
    rw [List.map_map, List.map_map]
    exact List.map_congr_left fun x hx => hkeyed x.1 x.2 (Table.get?_eq_some.mpr hx)
  have hmem : ∀ p, p ∈ t.rows.map Prod.fst ↔ p ∈ sectionPaths blocks := fun p => by
    rw [hrow]
    simp [Table.get?_eq_some]
  rw [hids, List.nodup_map_iff_inj_on t.keys_nodup]
  exact ⟨fun h p hp q hq => h p ((hmem p).mpr hp) q ((hmem q).mpr hq),
    fun h p hp q hq => h p ((hmem p).mp hp) q ((hmem q).mp hq)⟩

/-! ## The blocks -/

theorem visitPath_parentId : ((visitPath u uuid5 version block o path).parentId).isSome := by
  simp only [visitPath]
  split <;> rfl

theorem visitPaths_parentId {paths : List HeadingPath} (h : paths ≠ []) :
    ((paths.foldl (visitPath u uuid5 version block) o).parentId).isSome := by
  rcases List.eq_nil_or_concat paths with rfl | ⟨paths, path, rfl⟩
  · exact absurd rfl h
  · rw [List.concat_eq_append, List.foldl_append]
    exact visitPath_parentId

theorem visitBlocks_blocks : (visitBlocks u uuid5 version o blocks).2.map (·.block) = blocks := by
  induction blocks generalizing o with
  | nil => rfl
  | cons block blocks ih =>
      have hprefixes : prefixes block.rawPath ≠ [] := by
        simpa [prefixes] using rawPath_ne_nil block
      have hsome : (((prefixes block.rawPath).foldl (visitPath u uuid5 version block)
        { o with parentId := none }).parentId).isSome := visitPaths_parentId hprefixes
      obtain ⟨parent, hparent⟩ := Option.isSome_iff_exists.mp hsome
      simp only [visitBlocks, visitBlock, hparent, Option.map_some, Option.toList_some, List.map_cons, ih,
        List.singleton_append]

end Etoeragcb.Content
