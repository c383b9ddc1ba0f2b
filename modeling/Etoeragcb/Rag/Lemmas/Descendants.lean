import Etoeragcb.Content.Lemmas.Tree
import Etoeragcb.Rag.Scope

/-!
# Paths and the tree of sections
-/

namespace Etoeragcb.Rag

open Lib Models Content

variable {u : Unicode} {uuid5 : VersionId → Text → SectionId} {version : VersionId} {blocks : List ParsedBlock}
  {p q : HeadingPath} {a b : Section}

/-- The headings of a path in their lexical forms, cut at every word that is a lone slash. -/
def segments (u : Unicode) (path : HeadingPath) : List (List Text) :=
  path.flatMap fun heading => slashed (normalizeLexical u heading)

/-- The segments of a path begin with those of another one, and more than a single empty one or none at all follow. -/
def Continues (u : Unicode) (p q : HeadingPath) : Prop :=
  segments u p <+: segments u q ∧ segments u q ≠ segments u p ++ [[]]

instance (u : Unicode) (p q : HeadingPath) : Decidable (Continues u p q) := inferInstanceAs (Decidable (_ ∧ _))

theorem slashed_lexicalPath (h : p ≠ []) : slashed (lexicalPath u p) = segments u p := by
  rw [lexicalPath, slashed_intercalate (by simpa using h), List.flatMap_map, segments]

theorem continues_iff (hp : p ≠ []) (hq : q ≠ []) :
    Continues u p q ↔ lexicalPath u q = lexicalPath u p ∨ lexicalPath u p ++ " / ".toList <+: lexicalPath u q := by
  rw [Continues, ← slashed_lexicalPath hp, ← slashed_lexicalPath hq, slashed_continues]

theorem Continues.of_isPrefix (hp : p ≠ []) (h : p <+: q) : Continues u p q := by
  obtain ⟨rest, rfl⟩ := h
  refine (continues_iff hp (by simp [hp])).mpr ?_
  by_cases hrest : rest = []
  · left
    rw [hrest, List.append_nil]
  · right
    rw [lexicalPath, lexicalPath, List.map_append, intercalate_append _ (by simpa using hp) (by simpa using hrest)]
    exact List.prefix_append _ _

theorem descends_iff (hp : p ≠ []) (hq : q ≠ []) (ha : RowAt u uuid5 version p a) (hb : RowAt u uuid5 version q b) :
    descends a b = true ↔ Continues u p q := by
  rw [continues_iff hp hq, descends, ha.documentVersionId, hb.documentVersionId, ha.pathLexical, hb.pathLexical]
  simp

section Distinct

variable (hdistinct : ((buildSections u uuid5 version blocks).1.map (·.id)).Nodup) (row : DocumentVersion)
  {roots : Finset SectionId} {s : SectionId}

include hdistinct

/-- The expansion consists of the sections at the paths that continue the one of a root. -/
theorem mem_expandSectionDescendants :
    s ∈ expandSectionDescendants roots ((buildSections u uuid5 version blocks).1.map (·.id)).toFinset
        (builtRows version row (buildSections u uuid5 version blocks).1) ↔
      ∃ q ∈ sectionPaths blocks, pathId u uuid5 version q = s ∧
        ∃ p ∈ sectionPaths blocks, pathId u uuid5 version p ∈ roots ∧ Continues u p q := by
  have hrows : ∀ {p q : HeadingPath}, p ∈ sectionPaths blocks → q ∈ sectionPaths blocks →
      (((builtRows version row (buildSections u uuid5 version blocks).1 (pathId u uuid5 version p)).any fun a =>
        (builtRows version row (buildSections u uuid5 version blocks).1 (pathId u uuid5 version q)).any (descends a)) =
          true ↔ Continues u p q) := by
    intro p q hp hq
    obtain ⟨a, ha, hata⟩ := builtRows_pathId hdistinct row hp
    obtain ⟨b, hb, hatb⟩ := builtRows_pathId hdistinct row hq
    rw [ha, hb]
    exact descends_iff (ne_nil_of_mem_sectionPaths hp) (ne_nil_of_mem_sectionPaths hq) hata hatb
  simp only [expandSectionDescendants, Finset.mem_filter, List.mem_toFinset, mem_ids]
  constructor
  · rintro ⟨⟨q, hq, rfl⟩, _, ⟨p, hp, rfl⟩, hroot, hdescends⟩
    exact ⟨q, hq, rfl, p, hp, hroot, (hrows hp hq).mp hdescends⟩
  · rintro ⟨q, hq, rfl, p, hp, hroot, hcontinues⟩
    exact ⟨⟨q, hq, rfl⟩, _, ⟨p, hp, rfl⟩, hroot, (hrows hp hq).mpr hcontinues⟩

end Distinct

end Etoeragcb.Rag
