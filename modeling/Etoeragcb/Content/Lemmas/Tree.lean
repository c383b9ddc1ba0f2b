import Etoeragcb.Content.Lemmas.Sections
import Mathlib.Logic.Relation

/-!
# The tree of the sections of a document
-/

namespace Etoeragcb.Content

open Lib Models

variable {u : Unicode} {uuid5 : VersionId → Text → SectionId} {version : VersionId} {block : ParsedBlock}
  {blocks : List ParsedBlock} {path p q : HeadingPath} {o : Outline}

/-! ## Parents -/

def pathId (u : Unicode) (uuid5 : VersionId → Text → SectionId) (version : VersionId) (path : HeadingPath) : SectionId :=
  uuid5 version (sectionName u path)

/-- The section that the sections with one more heading lie in. -/
def enclosing (u : Unicode) (uuid5 : VersionId → Text → SectionId) (version : VersionId) : HeadingPath → Option SectionId
  | [] => none
  | path => some (pathId u uuid5 version path)

def lexicalPath (u : Unicode) (path : HeadingPath) : Text := (" / ".toList).intercalate (path.map (normalizeLexical u))

structure Placed (u : Unicode) (uuid5 : VersionId → Text → SectionId) (version : VersionId) (path : HeadingPath)
    (s : BuiltSection) : Prop where
  id : s.id = pathId u uuid5 version path
  parentId : s.parentId = enclosing u uuid5 version path.dropLast
  pathLexical : s.pathLexical = lexicalPath u path

def AllPlaced (u : Unicode) (uuid5 : VersionId → Text → SectionId) (version : VersionId) (o : Outline) : Prop :=
  ∀ path s, o.sectionsByPath.get? path = some s → Placed u uuid5 version path s

theorem enclosing_of_ne_nil (h : path ≠ []) : enclosing u uuid5 version path = some (pathId u uuid5 version path) := by
  cases path with
  | nil => exact absurd rfl h
  | cons => rfl

/-- A turn of the loop goes down to the section of its path. -/
theorem AllPlaced.visitPath (h : AllPlaced u uuid5 version o) (hne : path ≠ [])
    (hparent : o.parentId = enclosing u uuid5 version path.dropLast) :
    AllPlaced u uuid5 version (visitPath u uuid5 version block o path) ∧
      (visitPath u uuid5 version block o path).parentId = enclosing u uuid5 version path := by
  simp only [Content.visitPath, enclosing_of_ne_nil hne]
  cases hp : o.sectionsByPath.get? path with
  | none =>
      obtain ⟨t, ht⟩ := Table.insert?_isSome (newSection u uuid5 version block path o) hp
      refine ⟨fun q s hs => ?_, rfl⟩
      simp only [ht, Option.getD_some, Table.get?_insert? ht] at hs
      split at hs
      · rename_i he
        cases hs
        rw [he]
        exact ⟨rfl, hparent, rfl⟩
      · exact h q s hs
  | some existing =>
      refine ⟨fun q s hs => ?_, congrArg some (h path existing hp).id⟩
      simp only at hs
      split at hs
      · rw [Table.get?_modify] at hs
        split at hs
        · obtain ⟨s₀, hs₀, rfl⟩ := Option.map_eq_some_iff.mp hs
          exact ⟨(h q s₀ hs₀).id, (h q s₀ hs₀).parentId, (h q s₀ hs₀).pathLexical⟩
        · exact h q s hs
      · exact h q s hs

theorem prefixes_concat (path : HeadingPath) (heading : Text) :
    prefixes (path ++ [heading]) = prefixes path ++ [path ++ [heading]] := by
  have hlower : ∀ depth ∈ List.range path.length, (path ++ [heading]).take (depth + 1) = path.take (depth + 1) :=
    fun depth hd => List.take_append_of_le_length (List.mem_range.mp hd)
  rw [prefixes, List.length_append, List.length_singleton, List.range_succ, List.map_append, List.map_congr_left hlower,
    List.map_singleton, List.take_of_length_le (by simp)]
  rfl

variable (block) in
theorem AllPlaced.visitPaths (h : AllPlaced u uuid5 version o) (hroot : o.parentId = none) (path : HeadingPath) :
    AllPlaced u uuid5 version ((prefixes path).foldl (Content.visitPath u uuid5 version block) o) ∧
      ((prefixes path).foldl (Content.visitPath u uuid5 version block) o).parentId = enclosing u uuid5 version path := by
  induction path using List.reverseRecOn with
  | nil => exact ⟨h, hroot⟩
  | append_singleton path heading ih =>
      rw [prefixes_concat, List.foldl_append]
      exact ih.1.visitPath (by simp) (by rw [List.dropLast_concat]; exact ih.2)

theorem AllPlaced.visitBlocks (h : AllPlaced u uuid5 version o) (blocks : List ParsedBlock) :
    AllPlaced u uuid5 version (visitBlocks u uuid5 version o blocks).1 := by
  induction blocks generalizing o with
  | nil => exact h
  | cons block blocks ih =>
      have hstart : AllPlaced u uuid5 version { o with parentId := none } := h
      exact ih (hstart.visitPaths block rfl block.rawPath).1

/-! ## The rows of a version -/

def builtRows (versionId : VersionId) (version : DocumentVersion) (built : List BuiltSection) (s : SectionId) :
    Option Section :=
  (built.find? (·.id = s)).map fun row => (Ingest.sectionRow versionId version row.toBuiltSection).2

/-- The row is the one of a section at the path. -/
structure RowAt (u : Unicode) (uuid5 : VersionId → Text → SectionId) (version : VersionId) (path : HeadingPath)
    (row : Section) : Prop where
  documentVersionId : row.documentVersionId = version
  parentId : row.parentId = enclosing u uuid5 version path.dropLast
  pathLexical : row.pathLexical = lexicalPath u path

theorem mem_buildSections {s : BuiltSection} : s ∈ (buildSections u uuid5 version blocks).1 ↔
    ∃ path, (visitBlocks u uuid5 version ⟨.empty, 0, none⟩ blocks).1.sectionsByPath.get? path = some s := by
  simp [buildSections, Table.get?_eq_some]

theorem mem_sectionPaths : path ∈ sectionPaths blocks ↔
    ∃ s, (visitBlocks u uuid5 version ⟨.empty, 0, none⟩ blocks).1.sectionsByPath.get? path = some s := by
  simp [visitBlocks_get?, sectionPaths]

theorem allPlaced_buildSections : AllPlaced u uuid5 version (visitBlocks u uuid5 version ⟨.empty, 0, none⟩ blocks).1 :=
  AllPlaced.visitBlocks (fun _ _ h => by cases h) blocks

theorem mem_ids {s : SectionId} : s ∈ (buildSections u uuid5 version blocks).1.map (·.id) ↔
    ∃ path ∈ sectionPaths blocks, pathId u uuid5 version path = s := by
  rw [List.mem_map]
  constructor
  · rintro ⟨built, hmem, rfl⟩
    obtain ⟨path, hget⟩ := mem_buildSections.mp hmem
    exact ⟨path, mem_sectionPaths.mpr ⟨built, hget⟩, (allPlaced_buildSections path built hget).id.symm⟩
  · rintro ⟨path, hpath, rfl⟩
    obtain ⟨built, hget⟩ : ∃ s, (visitBlocks u uuid5 version ⟨.empty, 0, none⟩ blocks).1.sectionsByPath.get? path = some s :=
      mem_sectionPaths.mp hpath
    exact ⟨built, mem_buildSections.mpr ⟨path, hget⟩, (allPlaced_buildSections path built hget).id⟩

section Distinct

variable (hdistinct : ((buildSections u uuid5 version blocks).1.map (·.id)).Nodup) (row : DocumentVersion)

include hdistinct

theorem pathId_inj (hp : p ∈ sectionPaths blocks) (hq : q ∈ sectionPaths blocks) :
    pathId u uuid5 version p = pathId u uuid5 version q ↔ p = q :=
  ⟨ids_nodup_iff.mp hdistinct p hp q hq, fun h => h ▸ rfl⟩

theorem builtRows_pathId (hp : p ∈ sectionPaths blocks) :
    ∃ s, builtRows version row (buildSections u uuid5 version blocks).1 (pathId u uuid5 version p) = some s ∧
      RowAt u uuid5 version p s := by
  have hsome : ((buildSections u uuid5 version blocks).1.find? (·.id = pathId u uuid5 version p)).isSome := by
    obtain ⟨built, hmem, hid⟩ := List.mem_map.mp (mem_ids.mpr ⟨p, hp, rfl⟩)
    exact List.find?_isSome.mpr ⟨built, hmem, decide_eq_true hid⟩
  obtain ⟨built, hfind⟩ := Option.isSome_iff_exists.mp hsome
  obtain ⟨q, hget⟩ := mem_buildSections.mp (List.mem_of_find?_eq_some hfind)
  have hplaced := allPlaced_buildSections q built hget
  have hq : q ∈ sectionPaths blocks := mem_sectionPaths.mpr ⟨built, hget⟩
  have hid : built.id = pathId u uuid5 version p := by simpa using List.find?_some hfind
  obtain rfl : q = p := (pathId_inj hdistinct hq hp).mp (hplaced.id.symm.trans hid)
  exact ⟨_, by rw [builtRows, hfind, Option.map_some], ⟨rfl, hplaced.parentId, hplaced.pathLexical⟩⟩

end Distinct

/-! ## Below a section -/

/-- The section `s` names `parent` in `parent_id`. -/
def IsParent (sections : SectionId → Option Section) (parent s : SectionId) : Prop :=
  ∃ row, sections s = some row ∧ row.parentId = some parent

/-- A section and its descendants along `parent_id`. -/
def Below (sections : SectionId → Option Section) : SectionId → SectionId → Prop :=
  Relation.ReflTransGen (IsParent sections)

theorem mem_ids_of_below {built : List BuiltSection} {row : DocumentVersion} {root s : SectionId}
    (h : Below (builtRows version row built) root s) (hroot : root ∈ built.map (·.id)) : s ∈ built.map (·.id) := by
  rcases Relation.ReflTransGen.cases_tail h with rfl | ⟨parent, -, _, hs, -⟩
  · exact hroot
  · obtain ⟨found, hfind, -⟩ := Option.map_eq_some_iff.mp hs
    exact List.mem_map.mpr ⟨found, List.mem_of_find?_eq_some hfind, by simpa using List.find?_some hfind⟩

theorem mem_prefixes : p ∈ prefixes path ↔ p ≠ [] ∧ p <+: path := by
  rw [prefixes, List.mem_map]
  constructor
  · rintro ⟨depth, hd, rfl⟩
    have hlt : depth < path.length := List.mem_range.mp hd
    refine ⟨fun h => ?_, List.take_prefix _ _⟩
    have hlen := congrArg List.length h
    rw [List.length_take, List.length_nil] at hlen
    omega
  · rintro ⟨hne, hp⟩
    have hpos : 0 < p.length := List.length_pos_iff.mpr hne
    have hle := hp.length_le
    exact ⟨p.length - 1, List.mem_range.mpr (by omega), by
      rw [Nat.sub_add_cancel hpos]; exact (List.prefix_iff_eq_take.mp hp).symm⟩

theorem mem_sectionPaths_of_isPrefix (hq : q ∈ sectionPaths blocks) (hne : p ≠ []) (hp : p <+: q) :
    p ∈ sectionPaths blocks := by
  obtain ⟨block, hb, hmem⟩ := List.mem_flatMap.mp hq
  exact List.mem_flatMap.mpr ⟨block, hb, mem_prefixes.mpr ⟨hne, hp.trans (mem_prefixes.mp hmem).2⟩⟩

section Distinct

variable (hdistinct : ((buildSections u uuid5 version blocks).1.map (·.id)).Nodup) (row : DocumentVersion)

include hdistinct

theorem isParent_iff (hq : q ∈ sectionPaths blocks) {parent : SectionId} :
    IsParent (builtRows version row (buildSections u uuid5 version blocks).1) parent (pathId u uuid5 version q) ↔
      q.dropLast ≠ [] ∧ pathId u uuid5 version q.dropLast = parent := by
  obtain ⟨s, hs, hat⟩ := builtRows_pathId hdistinct row hq
  simp only [IsParent, hs, Option.some.injEq, exists_eq_left', hat.parentId]
  by_cases hne : q.dropLast = []
  · simp [hne, enclosing]
  · simp [hne, enclosing_of_ne_nil hne]

/-- A section lies below another one if and only if its path continues the one of that section. -/
theorem below_iff (hp : p ∈ sectionPaths blocks) (hq : q ∈ sectionPaths blocks) :
    Below (builtRows version row (buildSections u uuid5 version blocks).1) (pathId u uuid5 version p)
      (pathId u uuid5 version q) ↔ p <+: q := by
  constructor
  · intro h
    generalize hs : pathId u uuid5 version q = s at h
    induction h generalizing q with
    | refl => exact (pathId_inj hdistinct hq hp).mp hs ▸ List.prefix_rfl
    | tail _ hparent ih =>
        subst hs
        obtain ⟨hne, hid⟩ := (isParent_iff hdistinct row hq).mp hparent
        have hup := mem_sectionPaths_of_isPrefix hq hne (List.dropLast_prefix q)
        exact (ih hup hid).trans (List.dropLast_prefix q)
  · rintro ⟨rest, rfl⟩
    have hne := ne_nil_of_mem_sectionPaths hp
    induction rest using List.reverseRecOn with
    | nil => rw [List.append_nil]; exact .refl
    | append_singleton rest heading ih =>
        rw [← List.append_assoc] at hq ⊢
        have hup : p ++ rest ≠ [] := by simp [hne]
        refine .tail (ih (mem_sectionPaths_of_isPrefix hq hup (List.prefix_append _ _))) ?_
        exact (isParent_iff hdistinct row hq).mpr ⟨by rwa [List.dropLast_concat], by rw [List.dropLast_concat]⟩

end Distinct

end Etoeragcb.Content
