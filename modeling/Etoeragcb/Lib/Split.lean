import Etoeragcb.Lib.Text

/-!
# Cutting a text at its separators
-/

namespace Etoeragcb.Lib

variable {s s' t t' : Text} {c : Char}

/-! ## One separator -/

/-- The part before a separator and the part behind it, if the first part does not contain it. -/
theorem append_cons_inj_left (hs : c ∉ s) (hs' : c ∉ s') (h : s ++ c :: t = s' ++ c :: t') : s = s' ∧ t = t' := by
  induction s generalizing s' with
  | nil =>
      cases s' with
      | nil => exact ⟨rfl, (List.cons.inj h).2⟩
      | cons d s' => exact absurd (List.mem_cons.mpr (Or.inl (List.cons.inj h).1)) hs'
  | cons d s ih =>
      cases s' with
      | nil => exact absurd (List.mem_cons.mpr (Or.inl (List.cons.inj h).1.symm)) hs
      | cons d' s' =>
          obtain ⟨rfl, htail⟩ := List.cons.inj h
          obtain ⟨rfl, ht⟩ := ih (fun hc => hs (List.mem_cons_of_mem _ hc)) (fun hc => hs' (List.mem_cons_of_mem _ hc)) htail
          exact ⟨rfl, ht⟩

theorem append_cons_inj_right (ht : c ∉ t) (ht' : c ∉ t') (h : s ++ c :: t = s' ++ c :: t') : s = s' ∧ t = t' := by
  have hrev : t.reverse ++ c :: s.reverse = t'.reverse ++ c :: s'.reverse := by
    simpa using congrArg List.reverse h
  obtain ⟨ht, hs⟩ := append_cons_inj_left (by simpa using ht) (by simpa using ht') hrev
  exact ⟨List.reverse_inj.mp hs, List.reverse_inj.mp ht⟩

/-! ## Separated parts -/

theorem splitOn_intercalate (c : Char) (ss : List Text) (h : ss ≠ []) :
    ([c].intercalate ss).splitOn c = ss.flatMap (List.splitOn c) := by
  induction ss with
  | nil => exact absurd rfl h
  | cons s ss ih =>
      cases ss with
      | nil => simp
      | cons t ss =>
          have hcut : [c].intercalate (s :: t :: ss) = s ++ c :: [c].intercalate (t :: ss) := by
            simp [List.intercalate]
          rw [hcut, List.splitOn_append_cons_self, ih (List.cons_ne_nil t ss)]
          rfl

theorem intercalate_append {α : Type} (sep : List α) {xs ys : List (List α)} (hx : xs ≠ []) (hy : ys ≠ []) :
    sep.intercalate (xs ++ ys) = sep.intercalate xs ++ sep ++ sep.intercalate ys := by
  induction xs with
  | nil => exact absurd rfl hx
  | cons x xs ih =>
      cases xs with
      | nil => rw [List.singleton_append, List.intercalate_cons_of_ne_nil hy, List.intercalate_singleton]
      | cons x' xs =>
          rw [List.cons_append, List.intercalate_cons_of_ne_nil (by simp), ih (List.cons_ne_nil x' xs),
            List.intercalate_cons_of_ne_nil (List.cons_ne_nil x' xs)]
          simp only [List.append_assoc]

/-! ## The separator of a path -/

/-- The words of a text, cut at every one that is a lone slash. -/
def slashed (s : Text) : List (List Text) := (s.splitOn ' ').splitOn ['/']

theorem slashed_append (s t : Text) : slashed (s ++ " / ".toList ++ t) = slashed s ++ slashed t := by
  have hwords : (s ++ " / ".toList ++ t).splitOn ' ' = s.splitOn ' ' ++ ['/'] :: t.splitOn ' ' := by
    have hcut : s ++ " / ".toList ++ t = s ++ ' ' :: (['/'] ++ ' ' :: t) := by simp
    rw [hcut, List.splitOn_append_cons_self, List.splitOn_append_cons_self]
    rfl
  rw [slashed, hwords, List.splitOn_append_cons_self]
  rfl

theorem unslashed (s : Text) : [' '].intercalate ([['/']].intercalate (slashed s)) = s := by
  rw [slashed, List.intercalate_splitOn, List.intercalate_splitOn]

theorem slashed_ne_nil (s : Text) : slashed s ≠ [] := List.splitOn_ne_nil _ _

theorem slashed_intercalate {ss : List Text} (h : ss ≠ []) :
    slashed ((" / ".toList).intercalate ss) = ss.flatMap slashed := by
  induction ss with
  | nil => exact absurd rfl h
  | cons s ss ih =>
      cases ss with
      | nil => simp
      | cons t ss =>
          rw [List.intercalate_cons_cons, slashed_append, ih (List.cons_ne_nil t ss)]
          rfl

/-- A text is another one, or it continues it behind the separator, if and only if its pieces continue those of the
other one, a single empty piece apart. -/
theorem slashed_continues :
    (t = s ∨ s ++ " / ".toList <+: t) ↔ slashed s <+: slashed t ∧ slashed t ≠ slashed s ++ [[]] := by
  constructor
  · rintro (rfl | ⟨tail, rfl⟩)
    · exact ⟨List.prefix_rfl, fun h => by simpa using congrArg List.length h⟩
    · rw [slashed_append]
      refine ⟨List.prefix_append _ _, fun h => ?_⟩
      -- the words of a text are never the empty list
      have hwords := congrArg [['/']].intercalate (List.append_cancel_left h)
      rw [slashed, List.intercalate_splitOn, List.intercalate_singleton] at hwords
      exact List.splitOn_ne_nil _ _ hwords
  · rintro ⟨⟨rest, ht⟩, hlast⟩
    have hrest : rest ≠ [[]] := fun h => hlast (h ▸ ht.symm)
    by_cases hnil : rest = []
    · left
      rw [← unslashed t, ← ht, hnil, List.append_nil, unslashed]
    · right
      have hwords : [['/']].intercalate rest ≠ [] := by
        cases rest with
        | nil => exact absurd rfl hnil
        | cons piece rest =>
            cases rest with
            | nil =>
                rw [List.intercalate_singleton]
                exact fun h => hrest (by rw [h])
            | cons => simp
      have hs : [['/']].intercalate (slashed s) = s.splitOn ' ' := List.intercalate_splitOn ['/']
      have ht' : [['/']].intercalate (slashed t) = s.splitOn ' ' ++ ['/'] :: [['/']].intercalate rest := by
        rw [← ht, intercalate_append _ (slashed_ne_nil s) hnil, hs, List.append_assoc, List.singleton_append]
      refine ⟨[' '].intercalate ([['/']].intercalate rest), ?_⟩
      calc s ++ " / ".toList ++ [' '].intercalate ([['/']].intercalate rest)
          = s ++ [' '] ++ [' '].intercalate (['/'] :: [['/']].intercalate rest) := by
            rw [List.intercalate_cons_of_ne_nil hwords]
            simp
        _ = [' '].intercalate (s.splitOn ' ' ++ ['/'] :: [['/']].intercalate rest) := by
            rw [intercalate_append _ (List.splitOn_ne_nil _ _) (List.cons_ne_nil _ _), List.intercalate_splitOn]
        _ = t := by rw [← ht', unslashed]

end Etoeragcb.Lib
