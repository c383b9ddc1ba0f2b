import Etoeragcb.Web.Extract
import Mathlib.Data.List.Infix

/-!
# Skipped elements
-/

namespace Etoeragcb.Web

open Lib

variable (u : Unicode)

def isSkipStart : ParserEvent → Bool
  | .starttag tag => u.lower tag ∈ skipTags
  | _ => false

def isSkipEnd : ParserEvent → Bool
  | .endtag tag => u.lower tag ∈ skipTags
  | _ => false

/-- The skipped elements that an event leaves open: an end tag closes the last open element of its name. -/
def openElement (opened : List Text) : ParserEvent → List Text
  | .starttag tag => if u.lower tag ∈ skipTags then u.lower tag :: opened else opened
  | .endtag tag => opened.erase (u.lower tag)
  | .data _ => opened

def openElements (events : List ParserEvent) : List Text := events.foldl (openElement u) []

variable {u} {events : List ParserEvent}

@[simp] theorem feed_snoc (e : ParserEvent) : feed u (events ++ [e]) = (feed u events).handle u e := by
  simp [feed]

@[simp] theorem openElements_snoc (e : ParserEvent) :
    openElements u (events ++ [e]) = openElement u (openElements u events) e := by
  simp [openElements]

theorem skipDepth_handle (x : TextExtractor) (e : ParserEvent) : (x.handle u e).skipDepth =
    if isSkipStart u e then x.skipDepth + 1 else if isSkipEnd u e then x.skipDepth - 1 else x.skipDepth := by
  cases e with
  | starttag tag =>
      by_cases hskip : u.lower tag ∈ skipTags
      · simp [TextExtractor.handle, isSkipStart, hskip]
      · by_cases hblock : x.skipDepth = 0 ∧ u.lower tag ∈ blockTags <;>
          simp [TextExtractor.handle, isSkipStart, isSkipEnd, hskip, hblock]
  | endtag tag =>
      by_cases hskip : u.lower tag ∈ skipTags
      · by_cases hdepth : 0 < x.skipDepth
        · simp [TextExtractor.handle, isSkipStart, isSkipEnd, hskip, hdepth]
        · by_cases hblock : u.lower tag ∈ blockTags <;>
            simp [TextExtractor.handle, isSkipStart, isSkipEnd, hskip, hblock, Nat.eq_zero_of_not_pos hdepth]
      · by_cases hblock : x.skipDepth = 0 ∧ u.lower tag ∈ blockTags <;>
          simp [TextExtractor.handle, isSkipStart, isSkipEnd, hskip, hblock]
  | data data => by_cases hdepth : x.skipDepth = 0 <;> simp [TextExtractor.handle, isSkipStart, isSkipEnd, hdepth]

/-- The counter is at least `k` exactly if some stretch that ends here has `k` start tags of skipped elements more than
end tags. -/
theorem le_skipDepth_iff {k : Nat} (hk : 0 < k) : k ≤ (feed u events).skipDepth ↔
    ∃ stretch, stretch <:+ events ∧ stretch.countP (isSkipEnd u) + k ≤ stretch.countP (isSkipStart u) := by
  induction events using List.reverseRecOn generalizing k with
  | nil => simp [feed, List.suffix_nil]
  | append_singleton events e ih =>
      rw [feed_snoc, skipDepth_handle]
      -- a stretch behind the event is empty, or it is one before it and the event
      have hsuffix : (∃ stretch, stretch <:+ events ++ [e] ∧
          stretch.countP (isSkipEnd u) + k ≤ stretch.countP (isSkipStart u)) ↔
          ∃ stretch, stretch <:+ events ∧ stretch.countP (isSkipEnd u) + (if isSkipEnd u e then 1 else 0) + k ≤
            stretch.countP (isSkipStart u) + if isSkipStart u e then 1 else 0 := by
        constructor
        · rintro ⟨stretch, hs, hle⟩
          rcases List.suffix_concat_iff.mp hs with rfl | ⟨before, rfl, hbefore⟩
          · exact absurd hle (by simp; omega)
          · exact ⟨before, hbefore, by simpa [List.countP_append, Nat.add_assoc] using hle⟩
        · rintro ⟨stretch, hs, hle⟩
          exact ⟨stretch ++ [e], List.suffix_concat_iff.mpr (Or.inr ⟨stretch, rfl, hs⟩),
            by simpa [List.countP_append, Nat.add_assoc] using hle⟩
      have hboth : isSkipStart u e = true → isSkipEnd u e = false := by cases e <;> simp [isSkipStart, isSkipEnd]
      rw [hsuffix]
      by_cases hstart : isSkipStart u e = true
      · simp only [hstart, hboth hstart, if_true, Bool.false_eq_true, if_false, Nat.add_zero]
        obtain ⟨k, rfl⟩ := Nat.exists_eq_succ_of_ne_zero (Nat.ne_of_gt hk)
        rcases Nat.eq_zero_or_pos k with rfl | hk
        · exact iff_of_true (by omega) ⟨[], List.nil_suffix, by simp⟩
        · rw [Nat.succ_le_succ_iff, ih hk]
          simp only [Nat.succ_eq_add_one, ← Nat.add_assoc, Nat.add_le_add_iff_right]
      · simp only [hstart, Bool.false_eq_true, if_false, Nat.add_zero]
        by_cases hend : isSkipEnd u e = true
        · simp only [hend, if_true]
          have hsub : k ≤ (feed u events).skipDepth - 1 ↔ k + 1 ≤ (feed u events).skipDepth := by omega
          rw [hsub, ih (Nat.succ_pos k)]
          simp only [Nat.add_right_comm _ 1 k, Nat.add_assoc]
        · simp only [hend, Bool.false_eq_true, if_false, Nat.add_zero]
          exact ih hk

theorem openElement_subset {opened : List Text} (h : opened ⊆ skipTags) (e : ParserEvent) :
    openElement u opened e ⊆ skipTags := by
  cases e with
  | starttag tag =>
      simp only [openElement]
      split
      · rename_i hskip
        exact List.cons_subset.mpr ⟨hskip, h⟩
      · exact h
  | endtag tag => exact List.Subset.trans List.erase_subset h
  | data data => exact h

theorem openElements_subset (events : List ParserEvent) : openElements u events ⊆ skipTags := by
  induction events using List.reverseRecOn with
  | nil => exact List.nil_subset _
  | append_singleton events e ih =>
      rw [openElements_snoc]
      exact openElement_subset ih e

/-- Every end tag of a skipped element lowers the counter, and only those of open elements close one. -/
theorem skipDepth_le_length (events : List ParserEvent) :
    (feed u events).skipDepth ≤ (openElements u events).length := by
  induction events using List.reverseRecOn with
  | nil => exact Nat.zero_le _
  | append_singleton events e ih =>
      rw [feed_snoc, openElements_snoc, skipDepth_handle]
      cases e with
      | starttag tag =>
          by_cases hskip : u.lower tag ∈ skipTags
          · simpa [isSkipStart, openElement, hskip] using ih
          · simpa [isSkipStart, isSkipEnd, openElement, hskip] using ih
      | endtag tag =>
          have hsub := openElements_subset (u := u) events
          by_cases hopen : u.lower tag ∈ openElements u events
          · have hlen := List.length_erase_of_mem hopen
            simp only [isSkipStart, isSkipEnd, openElement, decide_eq_true (hsub hopen), Bool.false_eq_true, if_false, if_true,
              hlen]
            omega
          · simp only [isSkipStart, openElement, List.erase_of_not_mem hopen, Bool.false_eq_true, if_false]
            split <;> omega
      | data data => simpa [isSkipStart, isSkipEnd, openElement] using ih

theorem parts_data_iff (data : Text) :
    (feed u (events ++ [.data data])).parts = (feed u events).parts ++ [data] ↔ (feed u events).skipDepth = 0 := by
  rw [feed_snoc, TextExtractor.handle]
  split
  · rename_i hdepth
    exact iff_of_true rfl hdepth
  · rename_i hdepth
    exact iff_of_false (by simp) hdepth

theorem skipDepth_eq_zero_iff : (feed u events).skipDepth = 0 ↔
    ∀ stretch, stretch <:+ events → stretch.countP (isSkipStart u) ≤ stretch.countP (isSkipEnd u) := by
  rw [← not_iff_not, ← ne_eq, ← Nat.one_le_iff_ne_zero, le_skipDepth_iff Nat.one_pos]
  simp only [not_forall, not_le, exists_prop, Nat.add_one_le_iff]

end Etoeragcb.Web
