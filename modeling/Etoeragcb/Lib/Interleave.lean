import Mathlib.Data.List.Basic

/-!
# Two lists in turn
-/

namespace Etoeragcb.Lib

universe u v

/-- Two lists in turn, and what one of them has left. -/
def interleave {α : Type u} : List α → List α → List α
  | [], ys => ys
  | x :: xs, [] => x :: xs
  | x :: xs, y :: ys => x :: y :: interleave xs ys

variable {α : Type u} {β : Type v}

theorem interleave_nil (xs : List α) : interleave xs [] = xs := by cases xs <;> rfl

theorem interleave_drop (xs ys : List α) (i : Nat) :
    interleave (xs.drop i) (ys.drop i) = xs[i]?.toList ++ (ys[i]?.toList ++ interleave (xs.drop (i + 1)) (ys.drop (i + 1))) := by
  by_cases hx : i < xs.length
  · rw [List.drop_eq_getElem_cons hx, List.getElem?_eq_getElem hx]
    by_cases hy : i < ys.length
    · rw [List.drop_eq_getElem_cons hy, List.getElem?_eq_getElem hy]
      rfl
    · rw [List.drop_eq_nil_of_le (Nat.le_of_not_lt hy), List.drop_eq_nil_of_le (by omega : ys.length ≤ i + 1),
        List.getElem?_eq_none (Nat.le_of_not_lt hy), interleave_nil, interleave_nil]
      rfl
  · rw [List.drop_eq_nil_of_le (Nat.le_of_not_lt hx), List.drop_eq_nil_of_le (by omega : xs.length ≤ i + 1),
      List.getElem?_eq_none (Nat.le_of_not_lt hx)]
    by_cases hy : i < ys.length
    · rw [List.drop_eq_getElem_cons hy, List.getElem?_eq_getElem hy]
      rfl
    · rw [List.drop_eq_nil_of_le (Nat.le_of_not_lt hy), List.drop_eq_nil_of_le (by omega : ys.length ≤ i + 1),
        List.getElem?_eq_none (Nat.le_of_not_lt hy)]
      rfl

theorem length_interleave (xs ys : List α) : (interleave xs ys).length = xs.length + ys.length := by
  induction xs generalizing ys with
  | nil => simp [interleave]
  | cons x xs ih =>
      cases ys with
      | nil => rfl
      | cons y ys =>
          simp only [interleave, List.length_cons, ih]
          omega

theorem interleave_map {f : α → β} (xs ys : List α) : interleave (xs.map f) (ys.map f) = (interleave xs ys).map f := by
  induction xs generalizing ys with
  | nil => rfl
  | cons x xs ih =>
      cases ys with
      | nil => rfl
      | cons y ys => simp only [interleave, List.map_cons, ih]

theorem interleave_perm (xs ys : List α) : (interleave xs ys).Perm (xs ++ ys) := by
  induction xs generalizing ys with
  | nil => exact List.Perm.refl _
  | cons x xs ih =>
      cases ys with
      | nil => simp [interleave]
      | cons y ys =>
          simp only [interleave, List.cons_append]
          exact ((ih ys).cons y).trans List.perm_middle.symm |>.cons x

def lefts (l : List (α ⊕ β)) : List α := l.filterMap Sum.getLeft?

def rights (l : List (α ⊕ β)) : List β := l.filterMap Sum.getRight?

@[simp] theorem lefts_inl (l : List α) : lefts (l.map (Sum.inl : α → α ⊕ β)) = l := by
  simp [lefts, List.filterMap_map, Function.comp_def]

@[simp] theorem lefts_inr (l : List β) : lefts (l.map (Sum.inr : β → α ⊕ β)) = [] := by
  simp [lefts, List.filterMap_map, Function.comp_def]

@[simp] theorem rights_inl (l : List α) : rights (l.map (Sum.inl : α → α ⊕ β)) = [] := by
  simp [rights, List.filterMap_map, Function.comp_def]

@[simp] theorem rights_inr (l : List β) : rights (l.map (Sum.inr : β → α ⊕ β)) = l := by
  simp [rights, List.filterMap_map, Function.comp_def]

/-- The first entries of two lists in turn: those of each list, which keep their order, and how many there are of each. -/
theorem take_interleave (xs : List α) (ys : List β) (j : Nat) :
    ∃ a b, lefts ((interleave (xs.map Sum.inl) (ys.map Sum.inr)).take j) = xs.take a ∧
      rights ((interleave (xs.map Sum.inl) (ys.map Sum.inr)).take j) = ys.take b ∧
      a ≤ xs.length ∧ b ≤ ys.length ∧ a + b = min j (xs.length + ys.length) ∧
      (b ≤ a ∨ a = xs.length) ∧ (a ≤ b + 1 ∨ b = ys.length) := by
  induction xs generalizing ys j with
  | nil =>
      refine ⟨0, min j ys.length, ?_, ?_, Nat.le_refl 0, Nat.min_le_right _ _, by simp, Or.inr rfl, Or.inl (Nat.zero_le _)⟩
      · rw [List.map_nil, interleave, ← List.map_take, lefts_inr, List.take_nil]
      · rw [List.map_nil, interleave, ← List.map_take, rights_inr, ← List.take_eq_take_min]
  | cons x xs ih =>
      cases ys with
      | nil =>
          refine ⟨min j (x :: xs).length, 0, ?_, ?_, Nat.min_le_right _ _, Nat.le_refl 0, by simp, Or.inl (Nat.zero_le _),
            Or.inr rfl⟩
          · rw [List.map_nil, interleave_nil, ← List.map_take, lefts_inl, ← List.take_eq_take_min]
          · rw [List.map_nil, interleave_nil, ← List.map_take, rights_inl, List.take_nil]
      | cons y ys =>
          match j with
          | 0 => exact ⟨0, 0, rfl, rfl, Nat.zero_le _, Nat.zero_le _, by simp, Or.inl (Nat.le_refl 0), Or.inl (Nat.zero_le _)⟩
          | 1 =>
              refine ⟨1, 0, rfl, rfl, ?_, Nat.zero_le _, ?_, Or.inl (Nat.zero_le _), Or.inl (Nat.le_refl 1)⟩
              · simp
              · simp only [List.length_cons]
                omega
          | j + 2 =>
              obtain ⟨a, b, hl, hr, ha, hb, hab, hba, hab'⟩ := ih ys j
              refine ⟨a + 1, b + 1, congrArg (x :: ·) hl, congrArg (y :: ·) hr, ?_, ?_, ?_, ?_, ?_⟩ <;>
                simp only [List.length_cons] <;> omega

end Etoeragcb.Lib
