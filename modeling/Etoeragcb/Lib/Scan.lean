import Mathlib.Data.List.Infix

/-!
# Rewriting passes

A pass walks through a list once, from left to right, and replaces every match of a rule, as `re.sub` does
with a pattern that has no lookbehind. The rule sees what is left of the list and answers with the
replacement and the length of the match that starts there.
-/

namespace Etoeragcb.Lib

universe u

variable {α : Type u}

abbrev Rule (α : Type u) := List α → Option (List α × Nat)

/-- A pass that first skips the items which still belong to the last match. -/
def sub (rule : Rule α) : Nat → List α → List α
  | _, [] => []
  | n + 1, _ :: s => sub rule n s
  | 0, c :: s =>
      match rule (c :: s) with
      | some (r, n) => r ++ sub rule (n - 1) s
      | none => c :: sub rule 0 s

def rewrite (rule : Rule α) (s : List α) : List α := sub rule 0 s

/-- What the matches of a pattern yield, in order, as with `re.finditer`. -/
def findAll {β : Type u} (find : List α → Option (β × Nat)) : Nat → List α → List β
  | _, [] => []
  | n + 1, _ :: s => findAll find n s
  | 0, c :: s =>
      match find (c :: s) with
      | some (b, n) => b :: findAll find (n - 1) s
      | none => findAll find 0 s

variable {rule : Rule α} {c : α} {s t r l x : List α} {n : Nat}

theorem sub_eq_rewrite (n : Nat) (s : List α) : sub rule n s = rewrite rule (s.drop n) := by
  induction n generalizing s with
  | zero => rfl
  | succ n ih =>
      cases s with
      | nil => rfl
      | cons c s => exact ih s

@[simp] theorem rewrite_nil : rewrite rule [] = [] := rfl

theorem rewrite_keep (h : rule (c :: s) = none) : rewrite rule (c :: s) = c :: rewrite rule s := by
  simp [rewrite, sub, h]

theorem rewrite_hit (h : rule (c :: s) = some (r, n)) :
    rewrite rule (c :: s) = r ++ rewrite rule (s.drop (n - 1)) := by
  rw [← sub_eq_rewrite]
  simp only [rewrite, sub, h]

theorem rewrite_match (ht : t ≠ []) (h : rule (t ++ s) = some (r, t.length)) :
    rewrite rule (t ++ s) = r ++ rewrite rule s := by
  cases t with
  | nil => exact absurd rfl ht
  | cons c t =>
      rw [List.cons_append] at h ⊢
      rw [rewrite_hit h]
      simp

theorem rewrite_split (hs : s = t ++ x) (ht : t ≠ []) (h : rule s = some (r, t.length)) :
    rewrite rule s = r ++ rewrite rule x := by
  subst hs
  exact rewrite_match ht h

theorem length_drop_lt (c : α) (s : List α) (n : Nat) : (s.drop n).length < (c :: s).length := by
  rw [List.length_drop, List.length_cons]
  omega

/-- Reasoning along a pass: the rule finds nothing at an item, or the pass goes on behind a match. -/
theorem rewrite_induction {p : List α → List α → Prop} (nil : p [] [])
    (keep : ∀ c s, rule (c :: s) = none → p s (rewrite rule s) → p (c :: s) (c :: rewrite rule s))
    (hit : ∀ c s r n, rule (c :: s) = some (r, n) →
      p (s.drop (n - 1)) (rewrite rule (s.drop (n - 1))) →
      p (c :: s) (r ++ rewrite rule (s.drop (n - 1)))) (s : List α) : p s (rewrite rule s) := by
  induction h : s.length using Nat.strong_induction_on generalizing s with
  | _ k ih =>
      subst h
      cases s with
      | nil => exact nil
      | cons c s =>
          cases hr : rule (c :: s) with
          | none =>
              rw [rewrite_keep hr]
              exact keep c s hr (ih s.length (by simp) s rfl)
          | some rn =>
              rw [rewrite_hit hr]
              exact hit c s rn.1 rn.2 hr (ih _ (length_drop_lt c s _) _ rfl)

theorem rewrite_eq_self (h : ∀ t, t <:+ s → rule t = none) : rewrite rule s = s := by
  induction s with
  | nil => rfl
  | cons c s ih =>
      rw [rewrite_keep (h _ List.suffix_rfl), ih fun t ht => h t (ht.trans (List.suffix_cons c s))]

/-- No match that starts in `x` reaches into `t`, so the pass over `t` stands at the end. -/
theorem rewrite_append (h : ∀ y r n, y <:+ x → y ≠ [] → rule (y ++ t) = some (r, n) → n ≤ y.length) :
    ∃ y, rewrite rule (x ++ t) = y ++ rewrite rule t := by
  induction hx : x.length using Nat.strong_induction_on generalizing x with
  | _ k ih =>
      subst hx
      cases x with
      | nil => exact ⟨[], rfl⟩
      | cons c x =>
          rw [List.cons_append]
          cases hr : rule (c :: (x ++ t)) with
          | none =>
              rw [rewrite_keep hr]
              obtain ⟨y, hy⟩ := ih x.length (by simp)
                (fun y r n hs => h y r n (hs.trans (List.suffix_cons c x))) rfl
              exact ⟨c :: y, by rw [hy]; rfl⟩
          | some rn =>
              have hn : rn.2 ≤ (c :: x).length := h _ rn.1 rn.2 List.suffix_rfl (by simp) hr
              rw [List.length_cons] at hn
              rw [rewrite_hit hr, List.drop_append_of_le_length (by omega)]
              obtain ⟨y, hy⟩ := ih (x.drop (rn.2 - 1)).length (length_drop_lt c x _)
                (fun y r n hs => h y r n
                  ((hs.trans (List.drop_suffix _ x)).trans (List.suffix_cons c x))) rfl
              exact ⟨rn.1 ++ y, by rw [hy, List.append_assoc]⟩

/-- A rule that sees nothing of `t` in front of it works on the two parts alone. -/
theorem rewrite_append_local (h : ∀ y, y <:+ x → y ≠ [] → rule (y ++ t) = rule y)
    (hlen : ∀ y r n, y ≠ [] → rule y = some (r, n) → n ≤ y.length) :
    rewrite rule (x ++ t) = rewrite rule x ++ rewrite rule t := by
  induction hx : x.length using Nat.strong_induction_on generalizing x with
  | _ k ih =>
      subst hx
      cases x with
      | nil => rfl
      | cons c x =>
          have hc := h (c :: x) List.suffix_rfl (List.cons_ne_nil c x)
          rw [List.cons_append] at hc ⊢
          cases hr : rule (c :: x) with
          | none =>
              have hx := ih x.length (by simp) (fun y hy => h y (hy.trans (List.suffix_cons c x))) rfl
              rw [rewrite_keep (hc.trans hr), rewrite_keep hr, hx, List.cons_append]
          | some rn =>
              have hn : rn.2 ≤ (c :: x).length := hlen _ rn.1 rn.2 (List.cons_ne_nil c x) hr
              rw [List.length_cons] at hn
              have hdrop : x.drop (rn.2 - 1) <:+ c :: x := (List.drop_suffix _ x).trans (List.suffix_cons c x)
              have hx := ih (x.drop (rn.2 - 1)).length (length_drop_lt c x _) (fun y hy => h y (hy.trans hdrop)) rfl
              rw [rewrite_hit (hc.trans hr), rewrite_hit hr, List.drop_append_of_le_length (by omega), hx,
                List.append_assoc]

/-- An item of the result that no replacement has behind its head was put there by the pass over some suffix
of the input. -/
theorem rewrite_suffix (hr : ∀ s d r n, rule s = some (d :: r, n) → c ∉ r)
    (h : rewrite rule s = x ++ c :: t) : ∃ y, y <:+ s ∧ rewrite rule y = c :: t := by
  induction hs : s.length using Nat.strong_induction_on generalizing s x with
  | _ k ih =>
      subst hs
      cases s with
      | nil => simp at h
      | cons d s =>
          rcases x with _ | ⟨e, x⟩
          · exact ⟨d :: s, List.suffix_rfl, h⟩
          · cases hrule : rule (d :: s) with
            | none =>
                rw [rewrite_keep hrule, List.cons_append, List.cons.injEq] at h
                obtain ⟨y, hy, he⟩ := ih s.length (by simp) h.2 rfl
                exact ⟨y, hy.trans (List.suffix_cons d s), he⟩
            | some rn =>
                obtain ⟨r, n⟩ := rn
                rw [rewrite_hit hrule] at h
                have hsuf : ∀ y, y <:+ s.drop (n - 1) → y <:+ d :: s := fun y hy =>
                  (hy.trans (List.drop_suffix _ s)).trans (List.suffix_cons d s)
                rcases List.append_eq_append_iff.mp h with ⟨z, hz, he⟩ | ⟨z, hz, he⟩
                · obtain ⟨y, hy, he'⟩ := ih (s.drop (n - 1)).length (length_drop_lt d s _) he rfl
                  exact ⟨y, hsuf y hy, he'⟩
                · rcases z with _ | ⟨f, z⟩
                  · exact ⟨s.drop (n - 1), hsuf _ List.suffix_rfl, he.symm⟩
                  · rw [List.cons_append, List.cons.injEq] at he
                    rw [hz, he.1.symm, List.cons_append] at hrule
                    exact absurd (by simp) (hr _ e _ n hrule)

theorem rewrite_prefix (hl : ∀ s r n, rule s = some (r, n) → ∃ d r', r = d :: r' ∧ d ∉ l)
    (h : rewrite rule s = l ++ t) : ∃ y, s = l ++ y ∧ rewrite rule y = t := by
  induction l generalizing s with
  | nil => exact ⟨s, rfl, h⟩
  | cons c l ih =>
      cases s with
      | nil => simp at h
      | cons d s =>
          cases hrule : rule (d :: s) with
          | none =>
              rw [rewrite_keep hrule, List.cons_append, List.cons.injEq] at h
              obtain ⟨y, rfl, hy⟩ := ih (fun s r n hs => by
                obtain ⟨d, r', hr, hd⟩ := hl s r n hs
                exact ⟨d, r', hr, fun hm => hd (List.mem_cons_of_mem _ hm)⟩) h.2
              exact ⟨y, by rw [h.1]; rfl, hy⟩
          | some rn =>
              obtain ⟨r, n⟩ := rn
              obtain ⟨e, r', rfl, he⟩ := hl _ r n hrule
              rw [rewrite_hit hrule] at h
              simp only [List.cons_append, List.cons.injEq] at h
              exact absurd (h.1 ▸ List.mem_cons_self) he

theorem findAll_eq_nil_iff {β : Type u} {find : List α → Option (β × Nat)} :
    findAll find 0 s = [] ↔ ∀ t, t <:+ s → t ≠ [] → find t = none := by
  induction s with
  | nil => simp [findAll]
  | cons c s ih =>
      cases hf : find (c :: s) with
      | none =>
          simp only [findAll, hf, ih, List.suffix_cons_iff]
          exact ⟨fun h t ht hne => ht.elim (fun e => e ▸ hf) fun ht => h t ht hne,
            fun h t ht hne => h t (Or.inr ht) hne⟩
      | some bn =>
          simp only [findAll, hf, List.cons_ne_nil, false_iff, not_forall]
          exact ⟨c :: s, List.suffix_rfl, by simp, by simp [hf]⟩

end Etoeragcb.Lib
