import Etoeragcb.Content.Normalization

/-!
# Blank texts and parts of texts in their lexical forms
-/

namespace Etoeragcb.Content

open Lib

variable {u : Unicode} {s t n before after : Text} {b turkish : Bool} {language : Language}

/-! ## Blank texts -/

/-- Nothing but whitespace turns into nothing but whitespace. -/
structure KeepsSpaces (u : Unicode) : Prop where
  nfkc : ∀ s, (∀ c ∈ u.nfkc s, isSpace c = true) ↔ ∀ c ∈ s, isSpace c = true
  lowerChar : ∀ c, (∀ d ∈ u.lowerChar c, isSpace d = true) ↔ isSpace c = true
  foldChar : ∀ c, (∀ d ∈ u.foldChar c, isSpace d = true) ↔ isSpace c = true

theorem turkishCaseMap_isSpace (c : Char) : isSpace (turkishCaseMap c) = isSpace c := by
  by_cases hI : c = 'I'
  · subst hI; decide
  · by_cases hİ : c = 'İ'
    · subst hİ; decide
    · simp [turkishCaseMap, hI, hİ]

theorem lowerFrom_blank (hu : KeepsSpaces u) :
    (∀ c ∈ u.lowerFrom before s, isSpace c = true) ↔ ∀ c ∈ s, isSpace c = true := by
  induction s generalizing before with
  | nil => simp [Unicode.lowerFrom]
  | cons c s ih =>
      rw [Unicode.lowerFrom, List.forall_mem_append, ih, List.forall_mem_cons]
      refine and_congr_left fun _ => ?_
      split
      · rename_i hc
        subst hc
        split <;> simp [isSpace]
      · exact hu.lowerChar c

theorem fold_blank (hu : KeepsSpaces u) :
    (∀ c ∈ fold u turkish s, isSpace c = true) ↔ ∀ c ∈ s, isSpace c = true := by
  cases turkish with
  | true =>
      simp only [fold, ↓reduceIte, Unicode.lower, lowerFrom_blank hu, List.forall_mem_map, turkishCaseMap_isSpace]
  | false =>
      simp only [fold, Bool.false_eq_true, ↓reduceIte, Unicode.casefold, List.mem_flatMap, forall_exists_index,
        and_imp]
      constructor
      · intro h c hc
        exact (hu.foldChar c).mp fun d hd => h d c hc hd
      · intro h d c hc hd
        exact (hu.foldChar c).mpr (h c hc) d hd

theorem collapse_blank : (∀ c ∈ collapse b s, isSpace c = true) ↔ ∀ c ∈ s, isSpace c = true := by
  induction s generalizing b with
  | nil => simp [collapse]
  | cons c s ih =>
      by_cases hc : isSpace c
      · cases b <;> simp [collapse, hc, ih, show isSpace ' ' from rfl]
      · simp [collapse, hc]

/-- The lexical form of a text is empty exactly when there is nothing but whitespace in it. -/
theorem normalizeLexicalIn_eq_nil (hu : KeepsSpaces u) :
    normalizeLexicalIn u language s = [] ↔ ∀ c ∈ s, isSpace c = true := by
  rw [normalizeLexicalIn, strip_eq_nil, collapse_blank, fold_blank hu, hu.nfkc]

/-! ## Parts of texts -/

def endsInSpace (b : Bool) (s : Text) : Bool := (s.getLast?.map isSpace).getD b

theorem collapse_append (b : Bool) (s t : Text) : collapse b (s ++ t) = collapse b s ++ collapse (endsInSpace b s) t := by
  induction s generalizing b with
  | nil => rfl
  | cons c s ih =>
      have hends : endsInSpace b (c :: s) = endsInSpace (isSpace c) s := by
        cases s with
        | nil => rfl
        | cons d s => simp [endsInSpace, List.getLast?_eq_some_getLast]
      rw [List.cons_append, hends]
      by_cases hc : isSpace c
      · cases b <;> simp [collapse, hc, ih]
      · simp [collapse, hc, ih]

theorem strip_collapse (b : Bool) (s : Text) : strip (collapse b s) = strip (collapse true s) := by
  cases b with
  | true => rfl
  | false =>
      cases s with
      | nil => rfl
      | cons c s =>
          by_cases hc : isSpace c
          · simp [collapse, hc, strip, show isSpace ' ' from rfl]
          · simp [collapse, hc]

/-- What the collapsed form of a part begins and ends with, apart from whitespace, is in that of the whole. -/
theorem strip_collapse_infix (h : s <:+: t) : strip (collapse false s) <:+: strip (collapse false t) := by
  obtain ⟨x, y, rfl⟩ := h
  have hpart : collapse (endsInSpace false x) s <:+: collapse false (x ++ s ++ y) := by
    rw [List.append_assoc, collapse_append, collapse_append]
    exact ⟨_, _, (List.append_assoc _ _ _)⟩
  have hstrip : strip (collapse false s) <:+: collapse false (x ++ s ++ y) := by
    rw [strip_collapse false, ← strip_collapse (endsInSpace false x)]
    exact (strip_inside _).trans hpart
  exact infix_strip hstrip (fun _ _ hc => strip_head hc) (fun _ _ hc => strip_last hc)

/-- How a rule folds the part `n` of a text, behind `before` and in front of `after`. -/
def foldWithin (u : Unicode) (turkish : Bool) (before n after : Text) : Text :=
  if turkish then lowerWithin (before.map turkishCaseMap).reverse (n.map turkishCaseMap) (after.map turkishCaseMap)
  else u.casefold n
where
  lowerWithin : Text → Text → Text → Text
    | _, [], _ => []
    | before, c :: s, after =>
        (if c = 'Σ' then [if u.isFinal before (s ++ after) then 'ς' else 'σ'] else u.lowerChar c) ++
          lowerWithin (c :: before) s after

theorem lowerFrom_append (before s t : Text) :
    u.lowerFrom before (s ++ t) = foldWithin.lowerWithin u before s t ++ u.lowerFrom (s.reverse ++ before) t := by
  induction s generalizing before with
  | nil => rfl
  | cons c s ih => simp [Unicode.lowerFrom, foldWithin.lowerWithin, ih]

theorem foldWithin_infix : foldWithin u turkish before n after <:+: fold u turkish (before ++ n ++ after) := by
  cases turkish with
  | true =>
      simp only [foldWithin, fold, ↓reduceIte, Unicode.lower, List.map_append]
      rw [List.append_assoc, lowerFrom_append, lowerFrom_append, List.append_nil]
      exact ⟨_, _, List.append_assoc _ _ _⟩
  | false =>
      simp only [foldWithin, fold, Bool.false_eq_true, ↓reduceIte, Unicode.casefold, List.flatMap_append]
      exact ⟨_, _, rfl⟩

/-- The normal form of the part stands in that of the whole, which folds it as the part is folded on its own. -/
def FoldsAlike (u : Unicode) (whole part : Text) : Prop :=
  ∃ before after, u.nfkc whole = before ++ u.nfkc part ++ after ∧
    foldWithin u (isTurkish .auto (u.nfkc whole)) before (u.nfkc part) after =
      fold u (isTurkish .auto (u.nfkc part)) (u.nfkc part)

theorem FoldsAlike.folds_within (h : FoldsAlike u s t) : normalizeLexical u t <:+: normalizeLexical u s := by
  obtain ⟨before, after, hs, hfold⟩ := h
  simp only [normalizeLexical, normalizeLexicalIn]
  refine strip_collapse_infix ?_
  rw [← hfold, hs]
  exact foldWithin_infix

/-- Without a capital sigma, two texts that are folded by one rule fold alike. -/
theorem foldsAlike_of_rule (hs : u.nfkc s = before ++ u.nfkc t ++ after)
    (hrule : isTurkish .auto (u.nfkc s) = isTurkish .auto (u.nfkc t)) (hsigma : 'Σ' ∉ u.nfkc t) : FoldsAlike u s t := by
  refine ⟨before, after, hs, ?_⟩
  rw [hrule]
  have hcase : ∀ c ∈ (u.nfkc t).map turkishCaseMap, c ≠ 'Σ' := by
    simp only [List.forall_mem_map, turkishCaseMap]
    intro c hc
    split
    · decide
    · split
      · decide
      · rintro rfl
        exact hsigma hc
  have hlower : ∀ (x before after : Text), (∀ c ∈ x, c ≠ 'Σ') →
      foldWithin.lowerWithin u before x after = x.flatMap u.lowerChar := by
    intro x
    induction x with
    | nil => intros; rfl
    | cons c x ih =>
        intro before after hx
        rw [List.forall_mem_cons] at hx
        simp [foldWithin.lowerWithin, hx.1, ih _ _ hx.2]
  cases isTurkish .auto (u.nfkc t) with
  | false => rfl
  | true =>
      have hfold := lowerFrom_append (u := u) [] ((u.nfkc t).map turkishCaseMap) []
      rw [List.append_nil] at hfold
      simp only [foldWithin, fold, ↓reduceIte, Unicode.lower, hfold, hlower _ _ _ hcase]
      simp [Unicode.lowerFrom]

end Etoeragcb.Content
