import Etoeragcb.Content.Parsers

/-!
# Open headings
-/

namespace Etoeragcb.Content

open Lib

structure Heading where
  level : Nat
  title : Text
deriving DecidableEq

variable {h : Heading} {hs before after opened stack : List Heading}

/-! ## Chains -/

/-- A heading closes the open headings that are not above it. -/
def openNext (opened : List Heading) (h : Heading) : List Heading := opened.filter (·.level < h.level) ++ [h]

/-- The headings that are open behind some headings, the outermost one first. -/
def openHeadings (hs : List Heading) : List Heading := hs.foldl openNext []

/-- The headings that the parsers keep. -/
def keptNext (stack : List Heading) (h : Heading) : List Heading := stack.take (h.level - 1) ++ [h]

def keptHeadings (hs : List Heading) : List Heading := hs.foldl keptNext []

/-- The levels are 1, 2 and so on. -/
def GapFree (opened : List Heading) : Prop := opened.map (·.level) = List.range' 1 opened.length

instance (opened : List Heading) : Decidable (GapFree opened) := inferInstanceAs (Decidable (_ = _))

/-- No heading has been closed since the open ones were without a gap. -/
def Settled (hs : List Heading) : Prop :=
  ∃ before after, hs = before ++ after ∧ GapFree (openHeadings before) ∧ openHeadings hs = openHeadings before ++ after

theorem openHeadings_concat (hs : List Heading) (h : Heading) : openHeadings (hs ++ [h]) = openNext (openHeadings hs) h := by
  rw [openHeadings, List.foldl_append]
  rfl

theorem keptHeadings_concat (hs : List Heading) (h : Heading) : keptHeadings (hs ++ [h]) = keptNext (keptHeadings hs) h := by
  rw [keptHeadings, List.foldl_append]
  rfl

theorem mem_openHeadings (hmem : h ∈ openHeadings hs) : h ∈ hs := by
  induction hs using List.reverseRecOn with
  | nil => cases hmem
  | append_singleton hs g ih =>
      rw [openHeadings_concat, openNext, List.mem_append] at hmem
      exact List.mem_append.mpr (hmem.imp_left fun hm => ih (List.mem_of_mem_filter hm))

theorem openHeadings_append_sublist (before after : List Heading) :
    (openHeadings (before ++ after)).Sublist (openHeadings before ++ after) := by
  induction after using List.reverseRecOn with
  | nil => rw [List.append_nil, List.append_nil]
  | append_singleton after g ih =>
      rw [← List.append_assoc, ← List.append_assoc, openHeadings_concat]
      exact (List.filter_sublist.trans ih).append (List.Sublist.refl _)

theorem openHeadings_pairwise (hs : List Heading) : (openHeadings hs).Pairwise fun a b => a.level < b.level := by
  induction hs using List.reverseRecOn with
  | nil => exact List.Pairwise.nil
  | append_singleton hs g ih =>
      rw [openHeadings_concat, openNext, List.pairwise_append]
      refine ⟨ih.filter _, List.pairwise_singleton _ _, fun a ha b hb => ?_⟩
      rw [List.mem_singleton.mp hb]
      exact of_decide_eq_true (List.mem_filter.mp ha).2

/-! ## What the parsers keep -/

def Leveled (hs : List Heading) : Prop := ∀ h ∈ hs, 1 ≤ h.level

/-- A heading that is kept at some place is at least as deep as this place. -/
def Deep (stack : List Heading) : Prop := ∀ (i : Nat) (h : Heading), stack[i]? = some h → i < h.level

theorem deep_keptHeadings (hlevel : Leveled hs) : Deep (keptHeadings hs) := by
  induction hs using List.reverseRecOn with
  | nil =>
      intro i h hi
      cases hi
  | append_singleton hs g ih =>
      have hdeep := ih fun h hh => hlevel h (List.mem_append_left _ hh)
      have hg := hlevel g (by simp)
      intro i h hi
      rw [keptHeadings_concat, keptNext, List.getElem?_append] at hi
      split at hi
      · rename_i hlt
        rw [List.getElem?_take_of_lt (by rw [List.length_take] at hlt; omega)] at hi
        exact hdeep i h hi
      · rename_i hge
        obtain ⟨hlt, rfl⟩ := List.getElem?_eq_some_iff.mp hi
        rw [List.length_singleton] at hlt
        rw [List.getElem_singleton]
        rw [List.length_take] at hge hlt
        omega

theorem filter_sublist_take (hdeep : Deep stack) (l : Nat) : (stack.filter (·.level < l)).Sublist (stack.take (l - 1)) := by
  have hdrop : (stack.drop (l - 1)).filter (·.level < l) = [] := by
    rw [List.filter_eq_nil_iff]
    intro h hh
    obtain ⟨i, hi, rfl⟩ := List.mem_iff_getElem.mp hh
    rw [List.getElem_drop]
    have hlt := hdeep (l - 1 + i) _ (List.getElem?_eq_getElem (by rw [List.length_drop] at hi; omega))
    simp only [decide_eq_true_eq]
    omega
  have hsplit := congrArg (List.filter fun x : Heading => decide (x.level < l)) (List.take_append_drop (l - 1) stack)
  rw [List.filter_append, hdrop, List.append_nil] at hsplit
  rw [← hsplit]
  exact List.filter_sublist

/-- No open heading is lost. -/
theorem openHeadings_sublist (hlevel : Leveled hs) : (openHeadings hs).Sublist (keptHeadings hs) := by
  induction hs using List.reverseRecOn with
  | nil => exact List.Sublist.slnil
  | append_singleton hs g ih =>
      have hlevel' : Leveled hs := fun h hh => hlevel h (List.mem_append_left _ hh)
      rw [openHeadings_concat, keptHeadings_concat]
      exact (((ih hlevel').filter _).trans (filter_sublist_take (deep_keptHeadings hlevel') _)).append (List.Sublist.refl _)

theorem ne_nil_of_concat (hs : List Heading) (h : Heading) :
    openHeadings (hs ++ [h]) ≠ [] ∧ keptHeadings (hs ++ [h]) ≠ [] := by
  rw [openHeadings_concat, keptHeadings_concat, openNext, keptNext]
  exact ⟨by simp, by simp⟩

/-! ## When they are the open ones -/

theorem eq_range'_of_pairwise {ns : List Nat} {n : Nat} (hpair : ns.Pairwise (· < ·)) (hrange : ∀ m ∈ ns, 1 ≤ m ∧ m ≤ n)
    (hlength : n ≤ ns.length) : ns = List.range' 1 n := by
  have hsub : ns ⊆ List.range' 1 n := fun m hm => List.mem_range'_1.mpr ⟨(hrange m hm).1, by have := (hrange m hm).2; omega⟩
  have hnodup : ns.Nodup := hpair.imp fun h => ne_of_lt h
  have hperm : ns.Perm (List.range' 1 n) :=
    (List.subperm_of_subset hnodup hsub).perm_of_length_le (by rwa [List.length_range'])
  exact hperm.eq_of_pairwise (fun a b _ _ hab hba => absurd hab (Nat.lt_asymm hba)) hpair List.pairwise_lt_range'

theorem openNext_eq_keptNext_iff (hdeep : Deep stack) (hpair : opened.Pairwise fun a b => a.level < b.level)
    (hsub : opened.Sublist stack) (hlevel : ∀ g ∈ opened, 1 ≤ g.level) (hh : 1 ≤ h.level) :
    openNext opened h = keptNext stack h ↔
      GapFree (openNext opened h) ∨ (opened = stack ∧ opened.filter (·.level < h.level) = opened) := by
  have htake : (opened.filter (·.level < h.level)).Sublist (stack.take (h.level - 1)) :=
    (hsub.filter _).trans (filter_sublist_take hdeep _)
  simp only [openNext, keptNext, List.append_left_inj]
  constructor
  · intro heq
    by_cases hlong : h.level - 1 ≤ stack.length
    · left
      have hlength : (opened.filter (·.level < h.level)).length = h.level - 1 := by
        rw [heq, List.length_take, Nat.min_eq_left hlong]
      have hrange : (opened.filter (·.level < h.level)).map (·.level) = List.range' 1 (h.level - 1) := by
        refine eq_range'_of_pairwise (List.pairwise_map.mpr (hpair.filter _)) (fun m hm => ?_) (by rw [List.length_map, hlength])
        obtain ⟨g, hg, rfl⟩ := List.mem_map.mp hm
        obtain ⟨hmem, hlt⟩ := List.mem_filter.mp hg
        have := of_decide_eq_true hlt
        exact ⟨hlevel g hmem, by omega⟩
      rw [GapFree, List.map_append, hrange, List.length_append, hlength, List.length_singleton, List.range'_concat]
      simp
      omega
    · right
      rw [List.take_of_length_le (by omega)] at heq
      have hfilter : opened.filter (·.level < h.level) = opened :=
        List.filter_sublist.eq_of_length_le (by rw [heq]; exact hsub.length_le)
      exact ⟨hfilter ▸ heq, hfilter⟩
  · rintro (hgap | ⟨rfl, hfilter⟩)
    · refine htake.eq_of_length_le ?_
      rw [GapFree, List.map_append, List.length_append, List.length_singleton, List.range'_concat] at hgap
      have hlast := (List.append_inj' hgap rfl).2
      simp only [List.map_singleton, List.cons.injEq, and_true, Nat.one_mul] at hlast
      rw [List.length_take]
      omega
    · have hshort : opened.length ≤ h.level - 1 := by
        rcases Nat.eq_zero_or_pos opened.length with hzero | hpos
        · omega
        · have hlt : opened.length - 1 < opened.length := by omega
          have hlast := hdeep _ _ (List.getElem?_eq_getElem hlt)
          have habove := List.filter_eq_self.mp hfilter _ (List.getElem_mem hlt)
          have := of_decide_eq_true habove
          omega
      rw [hfilter, List.take_of_length_le hshort]

/-- A heading settles the open ones, or leaves them settled and closes none of them. -/
theorem settled_concat_iff : Settled (hs ++ [h]) ↔
    GapFree (openNext (openHeadings hs) h) ∨
      (Settled hs ∧ (openHeadings hs).filter (·.level < h.level) = openHeadings hs) := by
  constructor
  · rintro ⟨before, after, hsplit, hgap, hopen⟩
    rcases List.eq_nil_or_concat after with rfl | ⟨after, last, rfl⟩
    · left
      rw [List.append_nil] at hsplit
      rwa [← openHeadings_concat, hsplit]
    · right
      rw [List.concat_eq_append, ← List.append_assoc] at hsplit hopen
      obtain ⟨rfl, -⟩ := List.append_inj' hsplit rfl
      rw [openHeadings_concat, openNext] at hopen
      have hkept := (List.append_inj' hopen rfl).1
      have hwhole : openHeadings (before ++ after) = openHeadings before ++ after :=
        (openHeadings_append_sublist before after).eq_of_length_le (hkept ▸ List.length_filter_le _ _)
      exact ⟨⟨before, after, rfl, hgap, hwhole⟩, hkept.trans hwhole.symm⟩
  · rintro (hgap | ⟨⟨before, after, rfl, hgap, hopen⟩, hfilter⟩)
    · exact ⟨hs ++ [h], [], (List.append_nil _).symm, by rwa [openHeadings_concat], (List.append_nil _).symm⟩
    · refine ⟨before, after ++ [h], List.append_assoc _ _ _, hgap, ?_⟩
      rw [openHeadings_concat, openNext, hfilter, hopen, List.append_assoc]

theorem openHeadings_eq_keptHeadings_iff (hlevel : Leveled hs) :
    openHeadings hs = keptHeadings hs ↔ Settled hs := by
  induction hs using List.reverseRecOn with
  | nil => exact ⟨fun _ => ⟨[], [], rfl, rfl, rfl⟩, fun _ => rfl⟩
  | append_singleton hs g ih =>
      have hlevel' : Leveled hs := fun h hh => hlevel h (List.mem_append_left _ hh)
      rw [openHeadings_concat, keptHeadings_concat, settled_concat_iff, ← ih hlevel']
      exact openNext_eq_keptNext_iff (deep_keptHeadings hlevel') (openHeadings_pairwise hs) (openHeadings_sublist hlevel')
        (fun h hh => hlevel' h (mem_openHeadings hh)) (hlevel g (by simp))

/-! ## Paths -/

/-- The path that a block shows. -/
def shownPath (path : List Text) : List Text := if path = [] then ["Document".toList] else path

def openPath (hs : List Heading) : List Text := shownPath ((openHeadings hs).map (·.title))

def keptPath (hs : List Heading) : List Text := (keptHeadings hs).map (·.title)

theorem keptPath_concat (hs : List Heading) (level : Nat) (title : Text) :
    keptPath (hs ++ [⟨level, title⟩]) = descend (keptPath hs) level title := by
  rw [keptPath, keptHeadings_concat, keptNext, List.map_append, List.map_take]
  rfl

theorem shownPath_eq_openPath_iff (hlevel : Leveled hs) : shownPath (keptPath hs) = openPath hs ↔ Settled hs := by
  rw [← openHeadings_eq_keptHeadings_iff hlevel]
  constructor
  · intro h
    rcases List.eq_nil_or_concat hs with rfl | ⟨hs, g, rfl⟩
    · rfl
    · rw [List.concat_eq_append] at h hlevel ⊢
      obtain ⟨hopen, hkept⟩ := ne_nil_of_concat hs g
      rw [openPath, shownPath, shownPath, keptPath, if_neg (by simpa using hkept), if_neg (by simpa using hopen)] at h
      refine (openHeadings_sublist hlevel).eq_of_length ?_
      simpa using (congrArg List.length h).symm
  · intro h
    rw [openPath, h]
    rfl

/-! ## The headings before each block -/

def flushContexts (hs : List Heading) (currentLines : List Text) : List (List Heading) :=
  if currentLines.any (!isBlankLine ·) then [hs] else []

def markdownContexts : List Heading → List Text → List Text → List (List Heading)
  | hs, currentLines, [] => flushContexts hs currentLines
  | hs, currentLines, line :: lines =>
      match markdownHeading? line with
      | some (level, title) => flushContexts hs currentLines ++ markdownContexts (hs ++ [⟨level, title⟩]) [] lines
      | none => markdownContexts hs (currentLines ++ [line]) lines

def docxContexts : List Heading → List Paragraph → List (List Heading)
  | _, [] => []
  | hs, p :: ps =>
      if isBlankLine p.text then docxContexts hs ps
      else match docxLevel? (p.styleName.getD []) with
        | some level => docxContexts (hs ++ [⟨level, strip p.text⟩]) ps
        | none => hs :: docxContexts hs ps

theorem flush_paths (hs : List Heading) (currentLines : List Text) :
    (flush (keptPath hs) currentLines).map (·.headingPath) = (flushContexts hs currentLines).map fun hs =>
      shownPath (keptPath hs) := by
  rw [flush, flushContexts]
  split <;> rfl

theorem parseMarkdownLines_paths (hs : List Heading) (currentLines lines : List Text) :
    (parseMarkdownLines (keptPath hs) currentLines lines).map (·.headingPath) =
      (markdownContexts hs currentLines lines).map fun hs => shownPath (keptPath hs) := by
  induction lines generalizing hs currentLines with
  | nil => exact flush_paths hs currentLines
  | cons line lines ih =>
      cases hheading : markdownHeading? line with
      | none =>
          rw [parseMarkdownLines, markdownContexts]
          simp only [hheading]
          exact ih hs _
      | some heading =>
          rw [parseMarkdownLines, markdownContexts]
          simp only [hheading]
          rw [← keptPath_concat, List.map_append, List.map_append, flush_paths, ih]

theorem parseParagraphs_paths (hs : List Heading) (ps : List Paragraph) :
    (parseParagraphs (keptPath hs) ps).map (·.headingPath) = (docxContexts hs ps).map fun hs => shownPath (keptPath hs) := by
  induction ps generalizing hs with
  | nil => rfl
  | cons p ps ih =>
      rw [parseParagraphs, docxContexts]
      by_cases hblank : isBlankLine p.text = true
      · rw [if_pos hblank, if_pos hblank]
        exact ih hs
      · rw [if_neg hblank, if_neg hblank]
        cases docxLevel? (p.styleName.getD []) with
        | none => exact congrArg (shownPath (keptPath hs) :: ·) (ih hs)
        | some level =>
            simp only
            rw [← keptPath_concat]
            exact ih _

/-! ## Levels -/

theorem Leveled.concat (hleveled : Leveled hs) (hlevel : 1 ≤ h.level) : Leveled (hs ++ [h]) := by
  intro g hg
  rcases List.mem_append.mp hg with hg | hg
  · exact hleveled g hg
  · rw [List.mem_singleton.mp hg]
    exact hlevel

theorem markdownHeading?_level {line : Text} {level : Nat} {title : Text} (h : markdownHeading? line = some (level, title)) :
    1 ≤ level := by
  simp only [markdownHeading?] at h
  split at h
  · rename_i hmatch
    cases h
    exact hmatch.1
  · cases h

theorem docxLevel?_level {styleName : Text} {level : Nat} (h : docxLevel? styleName = some level) : 1 ≤ level := by
  simp only [docxLevel?] at h
  split at h
  · split at h
    · rename_i d _
      split at h
      · rename_i hdigit
        cases h
        have hd : '1'.toNat ≤ d.toNat := hdigit.1
        have hone : '1'.toNat = 49 := rfl
        omega
      · cases h
    · cases h
  · cases h

theorem leveled_flushContexts {currentLines : List Text} (hleveled : Leveled hs) :
    ∀ context ∈ flushContexts hs currentLines, Leveled context := by
  intro context hcontext
  rw [flushContexts] at hcontext
  split at hcontext
  · rw [List.mem_singleton.mp hcontext]
    exact hleveled
  · cases hcontext

theorem leveled_markdownContexts {currentLines lines : List Text} (hleveled : Leveled hs) :
    ∀ context ∈ markdownContexts hs currentLines lines, Leveled context := by
  induction lines generalizing hs currentLines with
  | nil => exact leveled_flushContexts hleveled
  | cons line lines ih =>
      rw [markdownContexts]
      cases hheading : markdownHeading? line with
      | none => exact ih hleveled
      | some heading =>
          intro context hcontext
          rcases List.mem_append.mp hcontext with hcontext | hcontext
          · exact leveled_flushContexts hleveled context hcontext
          · exact ih (hleveled.concat (markdownHeading?_level hheading)) context hcontext

theorem leveled_docxContexts {ps : List Paragraph} (hleveled : Leveled hs) :
    ∀ context ∈ docxContexts hs ps, Leveled context := by
  induction ps generalizing hs with
  | nil => exact nofun
  | cons p ps ih =>
      rw [docxContexts]
      by_cases hblank : isBlankLine p.text = true
      · rw [if_pos hblank]
        exact ih hleveled
      · rw [if_neg hblank]
        cases hlevel : docxLevel? (p.styleName.getD []) with
        | none =>
            intro context hcontext
            rcases List.mem_cons.mp hcontext with rfl | hcontext
            · exact hleveled
            · exact ih hleveled context hcontext
        | some level => exact ih (hleveled.concat (docxLevel?_level hlevel))

end Etoeragcb.Content
