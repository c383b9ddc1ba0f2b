import Mathlib.Data.List.DropRight

/-!
# Text

Strings as lists of characters, with the whitespace that `str.strip` and the `\s` of a pattern know.
-/

namespace Etoeragcb.Lib

abbrev Text := List Char

instance instLawfulBEqText : LawfulBEq Text := inferInstanceAs (LawfulBEq (List Char))

/-- `str.isspace` of one character, and `\s` of a pattern over `str`. -/
def isSpace (c : Char) : Bool :=
  let n := c.toNat
  (9 ≤ n && n ≤ 13) || (28 ≤ n && n ≤ 32) || n == 0x85 || n == 0xa0 || n == 0x1680 ||
    (0x2000 ≤ n && n ≤ 0x200a) || n == 0x2028 || n == 0x2029 || n == 0x202f || n == 0x205f || n == 0x3000

def strip (s : Text) : Text := (s.dropWhile isSpace).rdropWhile isSpace

/-- An ASCII digit, the `[0-9]` of a pattern. -/
def isDigit (c : Char) : Bool := '0' ≤ c && c ≤ '9'

/-- An ASCII letter, the `[A-Za-z]` of a pattern. -/
def isLetter (c : Char) : Bool := ('A' ≤ c && c ≤ 'Z') || ('a' ≤ c && c ≤ 'z')

theorem head_dropWhile {α : Type} {p : α → Bool} {l t : List α} {a : α} (h : l.dropWhile p = a :: t) : p a = false := by
  have hne : l.dropWhile p ≠ [] := by simp [h]
  have hhead := List.head_dropWhile_not p hne
  simpa only [h, List.head_cons] using hhead

/-! ## The ends of the text -/

variable {s t w : Text} {c : Char}

theorem strip_prefix_dropWhile (s : Text) : strip s <+: s.dropWhile isSpace := List.rdropWhile_prefix _ _

theorem strip_inside (s : Text) : strip s <:+: s :=
  (strip_prefix_dropWhile s).isInfix.trans (List.dropWhile_suffix _).isInfix

theorem strip_head (h : strip s = c :: t) : isSpace c = false := by
  obtain ⟨u, hu⟩ := strip_prefix_dropWhile s
  rw [h, List.cons_append] at hu
  have hne : s.dropWhile isSpace ≠ [] := by simp [← hu]
  simpa [← hu] using List.head_dropWhile_not isSpace hne

theorem strip_last (h : strip s = t ++ [c]) : isSpace c = false := by
  have hne : (s.dropWhile isSpace).rdropWhile isSpace ≠ [] := by
    have : strip s ≠ [] := by simp [h]
    exact this
  have hl := List.rdropWhile_last_not isSpace _ hne
  have h' : (s.dropWhile isSpace).rdropWhile isSpace = t ++ [c] := h
  simpa [h'] using hl

theorem strip_eq_self (hh : ∀ c t, s = c :: t → isSpace c = false) (hl : ∀ c t, s = t ++ [c] → isSpace c = false) :
    strip s = s := by
  have hd : s.dropWhile isSpace = s := by
    cases s with
    | nil => rfl
    | cons c t => simp [hh c t rfl]
  rw [strip, hd, List.rdropWhile_eq_self_iff]
  intro hne
  rcases List.eq_nil_or_concat s with rfl | ⟨t, c, rfl⟩
  · exact absurd rfl hne
  · simp [hl c t (by simp)]

theorem strip_eq_nil : strip s = [] ↔ ∀ c ∈ s, isSpace c = true := by
  rw [strip, List.rdropWhile_eq_nil_iff]
  constructor
  · intro h c hc
    rw [← List.takeWhile_append_dropWhile (p := isSpace) (l := s), List.mem_append] at hc
    rcases hc with hc | hc
    · exact List.mem_takeWhile_imp hc
    · exact h c hc
  · intro h c hc
    exact h c ((List.dropWhile_sublist _).mem hc)

theorem dropWhile_append_cons (x : Text) (hc : isSpace c = false) :
    ∃ y, (x ++ c :: t).dropWhile isSpace = y ++ c :: t := by
  rw [List.dropWhile_append]
  split
  · exact ⟨[], by simp [hc]⟩
  · exact ⟨_, rfl⟩

theorem infix_strip (h : w <:+: s) (hh : ∀ c t, w = c :: t → isSpace c = false)
    (hl : ∀ c t, w = t ++ [c] → isSpace c = false) : w <:+: strip s := by
  obtain ⟨x, y, rfl⟩ := h
  cases w with
  | nil => exact List.nil_infix
  | cons c t =>
      obtain ⟨x', hx⟩ := dropWhile_append_cons (t := t ++ y) x (hh c t rfl)
      obtain ⟨t', d, hd⟩ : ∃ t' d, c :: t = t' ++ [d] := ⟨_, _, (List.dropLast_append_getLast (by simp)).symm⟩
      obtain ⟨y', hy⟩ := dropWhile_append_cons (t := (x' ++ t').reverse) y.reverse (hl d t' hd)
      have hrev : (x' ++ c :: (t ++ y)).reverse = y.reverse ++ d :: (x' ++ t').reverse := by
        rw [← List.cons_append, hd]
        simp
      have hstrip : strip (x ++ c :: t ++ y) = (x' ++ t') ++ d :: y'.reverse := by
        rw [strip, List.append_assoc, List.cons_append, hx, List.rdropWhile, hrev, hy]
        simp
      rw [hstrip, hd]
      exact ⟨x', y'.reverse, by simp⟩

end Etoeragcb.Lib
