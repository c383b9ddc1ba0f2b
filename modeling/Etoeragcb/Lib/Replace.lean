import Etoeragcb.Lib.Scan
import Etoeragcb.Lib.Text

/-!
# Replacing parts of a text

`replace` of JavaScript: with a callback that remembers what it has been called with, with a string whose `$` sequences
stand for the parts of the text, and for all occurrences of a character.
-/

namespace Etoeragcb.Lib

universe u v

/-! ## Callbacks -/

section Callbacks

variable {α β : Type u} {σ : Type v}

/-- A pass that first skips the items which still belong to the last match, and whose callback changes a state. -/
def subWith (find : List α → Option (β × Nat)) (callback : σ → β → List α × σ) : Nat → σ → List α → List α × σ
  | _, state, [] => ([], state)
  | n + 1, state, _ :: s => subWith find callback n state s
  | 0, state, c :: s =>
      match find (c :: s) with
      | some (b, n) =>
          let (r, state) := callback state b
          let (rest, state) := subWith find callback (n - 1) state s
          (r ++ rest, state)
      | none =>
          let (rest, state) := subWith find callback 0 state s
          (c :: rest, state)

/-- `s.replace(pattern, callback)` with the flag `g` -/
def replaceWith (find : List α → Option (β × Nat)) (callback : σ → β → List α × σ) (state : σ) (s : List α) : List α × σ :=
  subWith find callback 0 state s

variable {find : List α → Option (β × Nat)} {callback : σ → β → List α × σ}

theorem mem_findAll {b : β} {n : Nat} {s : List α} (h : b ∈ findAll find n s) : ∃ t m, t <:+ s ∧ find t = some (b, m) := by
  induction s generalizing n with
  | nil => cases n <;> exact absurd h List.not_mem_nil
  | cons c s ih =>
      have hmore : ∀ n, b ∈ findAll find n s → ∃ t m, t <:+ c :: s ∧ find t = some (b, m) := fun n h => by
        obtain ⟨t, m, ht, hm⟩ := ih h
        exact ⟨t, m, ht.trans (List.suffix_cons c s), hm⟩
      cases n with
      | succ n => exact hmore n h
      | zero =>
          rw [findAll] at h
          cases hfind : find (c :: s) with
          | none =>
              rw [hfind] at h
              exact hmore 0 h
          | some x =>
              simp only [hfind, List.mem_cons] at h
              rcases h with rfl | h
              · exact ⟨c :: s, x.2, List.suffix_rfl, hfind⟩
              · exact hmore _ h

theorem subWith_state {p : σ → Prop} (n : Nat) (state : σ) (s : List α)
    (h : ∀ state, ∀ b ∈ findAll find n s, p state → p (callback state b).2) (hstate : p state) :
    p (subWith find callback n state s).2 := by
  induction s generalizing n state with
  | nil => cases n <;> exact hstate
  | cons c s ih =>
      cases n with
      | succ n => exact ih n state h hstate
      | zero =>
          rw [findAll] at h
          rw [subWith]
          cases hfind : find (c :: s) with
          | none =>
              simp only [hfind] at h ⊢
              exact ih 0 state h hstate
          | some x =>
              simp only [hfind, List.forall_mem_cons] at h ⊢
              exact ih _ _ (fun state b hb => (h state).2 b hb) ((h state).1 hstate)

/-- A part of the result that the replacements have nothing in common with is a part of the text. -/
theorem prefix_of_subWith {w : List α} (hreplaced : ∀ state b, ∃ c r, (callback state b).1 = c :: r ∧ c ∉ w) (n : Nat) (state : σ)
    (s : List α) (h : w <+: (subWith find callback n state s).1) : w <+: s.drop n := by
  induction s generalizing n state w with
  | nil => cases n <;> simpa [subWith] using h
  | cons c s ih =>
      cases n with
      | succ n => exact ih hreplaced n state h
      | zero =>
          cases w with
          | nil => exact List.nil_prefix
          | cons d w =>
              rw [subWith] at h
              cases hfind : find (c :: s) with
              | some x =>
                  obtain ⟨e, r, hr, he⟩ := hreplaced state x.1
                  simp only [hfind, hr, List.cons_append, List.cons_prefix_cons] at h
                  exact absurd (h.1 ▸ List.mem_cons_self) he
              | none =>
                  simp only [hfind, List.cons_prefix_cons] at h
                  have htail := ih (fun state b => by
                    obtain ⟨e, r, hr, he⟩ := hreplaced state b
                    exact ⟨e, r, hr, fun hm => he (List.mem_cons_of_mem d hm)⟩) 0 state h.2
                  exact List.cons_prefix_cons.mpr ⟨h.1, htail⟩

theorem infix_of_subWith {w : List α} {d : α} (hreplaced : ∀ state b, ∃ c r, (callback state b).1 = c :: r ∧ c ∉ d :: w)
    (hd : ∀ state b, d ∉ (callback state b).1) (n : Nat) (state : σ) (s : List α)
    (h : d :: w <:+: (subWith find callback n state s).1) : d :: w <:+: s := by
  induction s generalizing n state with
  | nil => cases n <;> simp [subWith] at h
  | cons c s ih =>
      cases n with
      | succ n => exact (ih n state h).trans (List.suffix_cons c s).isInfix
      | zero =>
          rw [subWith] at h
          cases hfind : find (c :: s) with
          | none =>
              have hsub : (subWith find callback 0 state (c :: s)).1 = c :: (subWith find callback 0 state s).1 := by
                rw [subWith, hfind]
              simp only [hfind] at h
              rcases List.infix_cons_iff.mp h with hpre | hin
              · rw [← hsub] at hpre
                exact (prefix_of_subWith hreplaced 0 state (c :: s) hpre).isInfix
              · exact (ih 0 state hin).trans (List.suffix_cons c s).isInfix
          | some x =>
              simp only [hfind] at h
              obtain ⟨y, z, hyz⟩ := h
              rw [List.append_assoc] at hyz
              rcases List.append_eq_append_iff.mp hyz with ⟨v, hv, hrest⟩ | ⟨v, hv, hrest⟩
              · cases v with
                | nil =>
                    rw [List.nil_append] at hrest
                    exact (ih _ _ ⟨[], z, hrest⟩).trans (List.suffix_cons c s).isInfix
                | cons e v =>
                    rw [List.cons_append, List.cons_append, List.cons.injEq] at hrest
                    refine absurd ?_ (hd state x.1)
                    rw [hv, hrest.1]
                    simp
              · exact (ih _ _ ⟨v, z, by rw [hrest, List.append_assoc]⟩).trans (List.suffix_cons c s).isInfix

end Callbacks

/-! ## Strings -/

/-- `s.replaceAll(c, t)` -/
def replaceAll (c : Char) (t s : Text) : Text := s.flatMap fun d => if d = c then t else [d]

def splitFirst (pattern : Text) : Text → Option (Text × Text)
  | [] => if pattern = [] then some ([], []) else none
  | c :: s =>
      if pattern.isPrefixOf (c :: s) then some ([], (c :: s).drop pattern.length)
      else (splitFirst pattern s).map fun x => (c :: x.1, x.2)

/-- A replacement without captures: `$$` is a dollar sign, and behind a dollar sign `&` stands for what is matched, a grave
accent for what precedes it and an apostrophe for what follows it. -/
def expand (before matched after : Text) : Text → Text
  | [] => []
  | [c] => [c]
  | c :: d :: s =>
      if c = '$' then
        if d = '$' then '$' :: expand before matched after s
        else if d = '&' then matched ++ expand before matched after s
        else if d = '\x60' then before ++ expand before matched after s
        else if d = '\x27' then after ++ expand before matched after s
        else c :: expand before matched after (d :: s)
      else c :: expand before matched after (d :: s)

/-- `s.replace(pattern, replacement)` -/
def replaceFirst (pattern replacement s : Text) : Text :=
  match splitFirst pattern s with
  | some (before, after) => before ++ (expand before pattern after replacement ++ after)
  | none => s

variable {pattern s t before matched after : Text} {c : Char}

theorem splitFirst_spec {x : Text × Text} (h : splitFirst pattern s = some x) : s = x.1 ++ (pattern ++ x.2) := by
  induction s generalizing x with
  | nil =>
      rw [splitFirst] at h
      split at h
      · rename_i hp
        cases h
        simp [hp]
      · cases h
  | cons c s ih =>
      rw [splitFirst] at h
      split at h
      · rename_i hp
        cases h
        rw [List.nil_append]
        exact List.prefix_iff_eq_append.mp (List.isPrefixOf_iff_prefix.mp hp) |>.symm
      · obtain ⟨y, hy, rfl⟩ := Option.map_eq_some_iff.mp h
        rw [List.cons_append, ← ih hy]

theorem expand_cons (hc : c ≠ '$') (s : Text) : expand before matched after (c :: s) = c :: expand before matched after s := by
  cases s with
  | nil => rfl
  | cons d s => rw [expand, if_neg hc]

theorem expand_append (ht : '$' ∉ t) (s : Text) : expand before matched after (t ++ s) = t ++ expand before matched after s := by
  induction t with
  | nil => rfl
  | cons c t ih =>
      rw [List.mem_cons, not_or] at ht
      rw [List.cons_append, expand_cons (Ne.symm ht.1), ih ht.2]
      rfl

end Etoeragcb.Lib
