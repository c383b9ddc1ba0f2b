import Etoeragcb.Chat.Lemmas.Repair

/-!
# The polished text

The passes behind the removal of fabricated markers, taken together.
-/

namespace Etoeragcb.Chat

open Lib

variable {rule : Rule Char} {s t u x y w r ds e : Text} {c b p : Char} {n : Nat}

/-! ## Whitespace around markers -/

/-- A pass that treats markers as wholes, stops at a `[` that no `]` follows, and turns whitespace into
whitespace. -/
structure Tidies (rule : Rule Char) : Prop where
  keeps : KeepsMarkers rule
  stops : ∀ y u r n, ']' ∉ u → y ≠ [] → rule (y ++ '[' :: u) = some (r, n) → n ≤ y.length
  starts : ∀ c s r n, ']' ∉ c :: s → rule (c :: s) = some (r, n) → isSpace c
  spaces : ∀ s r n, rule s = some (r, n) → Spaces s → Spaces r
  behind : ∀ c s r n, rule (c :: s) = some (r, n) → Spaces r → Spaces (c :: s.take (n - 1))

theorem tidies_duplicateRule : Tidies duplicateRule where
  keeps := keepsMarkers_duplicateRule
  stops y u r n hu hne h := by
    obtain ⟨ds, q, t, -, -, hs, rfl, -⟩ := duplicateRule_cases h
    have hs' : y ++ '[' :: u = (markerOf ds ++ (q ++ incompleteOf ds)) ++ ']' :: t := by
      rw [hs]; simp [markerOf_eq]
    rcases List.append_eq_append_iff.mp hs' with ⟨z, -, hz⟩ | ⟨z, rfl, hz⟩
    · have hm : ']' ∈ '[' :: u := by simp [hz]
      simp [hu] at hm
    · cases z with
      | nil => cases hz
      | cons d z => simp [markerOf_eq]
  starts c s r n hc h := by
    obtain ⟨ds, q, t, -, -, hs, -⟩ := duplicateRule_cases h
    exact absurd (by simp [hs, markerOf]) hc
  spaces s r n h hs := by
    obtain ⟨ds, q, t, -, -, rfl, -⟩ := duplicateRule_cases h
    exact absurd (hs '[' (by simp [markerOf])) (by decide)
  behind c s r n h hr := by
    obtain ⟨ds, q, t, -, rfl, -⟩ := duplicateRule_cases h
    exact absurd (hr '[' (by simp [markerOf])) (by decide)

theorem notMem_blanks (hb : Blanks w) (hc : isBlank c = false) : c ∉ w := fun hm => by
  rw [hb c hm] at hc; cases hc

theorem tidies_punctuationRule : Tidies punctuationRule where
  keeps := keepsMarkers_punctuationRule
  stops y u r n _ _ h := by
    obtain ⟨b, p, t, -, hb, hp, hs, -, rfl⟩ := punctuationRule_eq_some.mp h
    have hm : '[' ∉ b ++ [p] := by
      have := (isPunctuation_other hp).2.2.2
      simp only [List.mem_cons, not_or] at this
      simp [notMem_blanks hb (c := '[') (by decide), Ne.symm this.1]
    simpa using length_le_of_notMem hm (s := t) (b := y) (t := u) (by rw [hs]; simp)
  starts c s r n _ h := by
    obtain ⟨b, p, t, hne, hb, -, hs, -⟩ := punctuationRule_eq_some.mp h
    cases b with
    | nil => exact absurd rfl hne
    | cons d b => rw [(List.cons.inj hs).1]; exact isSpace_of_isBlank (hb d List.mem_cons_self)
  spaces s r n h hs := by
    obtain ⟨b, p, t, -, -, hp, rfl, -⟩ := punctuationRule_eq_some.mp h
    have := hs p (by simp)
    rw [(isPunctuation_other hp).2.1] at this; cases this
  behind c s r n h hr := by
    obtain ⟨b, p, t, -, -, hp, -, rfl, -⟩ := punctuationRule_eq_some.mp h
    have := hr p (by simp)
    rw [(isPunctuation_other hp).2.1] at this; cases this

theorem tidies_blanksRule : Tidies blanksRule where
  keeps := keepsMarkers_blanksRule
  stops y u r n _ _ h := by
    obtain ⟨b, t, -, hb, -, hs, -, rfl⟩ := blanksRule_eq_some.mp h
    exact length_le_of_notMem (notMem_blanks hb (c := '[') (by decide)) hs.symm
  starts c s r n _ h := by
    obtain ⟨b, t, hl, hb, -, hs, -⟩ := blanksRule_eq_some.mp h
    cases b with
    | nil => simp at hl
    | cons d b => rw [(List.cons.inj hs).1]; exact isSpace_of_isBlank (hb d List.mem_cons_self)
  spaces s r n h hs := by
    obtain ⟨b, t, -, -, -, -, rfl, -⟩ := blanksRule_eq_some.mp h
    simp [Spaces, isSpace]
  behind c s r n h hr := by
    obtain ⟨b, t, hl, hb, -, hs, -, rfl⟩ := blanksRule_eq_some.mp h
    cases b with
    | nil => simp at hl
    | cons d b =>
        obtain ⟨rfl, rfl⟩ := List.cons.inj hs
        intro c' hc'
        exact isSpace_of_isBlank (hb c' (by simpa using hc'))

theorem Tidies.spaces_of_rewrite (hr : Tidies rule) (h : Spaces (rewrite rule s)) : Spaces s := by
  revert h
  refine rewrite_induction (p := fun s o => Spaces o → Spaces s) id (fun c s _ ih h => ?_)
    (fun c s r n hrule ih h => ?_) s
  · obtain ⟨hc, h⟩ := spaces_cons.mp h
    exact spaces_cons.mpr ⟨hc, ih h⟩
  · obtain ⟨h1, h2⟩ := spaces_append.mp h
    have hs := spaces_append.mpr ⟨hr.behind c s r n hrule h1, ih h2⟩
    rwa [List.cons_append, List.take_append_drop] at hs

theorem Tidies.spaces_rewrite (hr : Tidies rule) (h : Spaces s) : Spaces (rewrite rule s) := by
  revert h
  refine rewrite_induction (p := fun s o => Spaces s → Spaces o) id (fun c s _ ih h => ?_)
    (fun c s r n hrule ih h => ?_) s
  · obtain ⟨hc, h⟩ := spaces_cons.mp h
    exact spaces_cons.mpr ⟨hc, ih h⟩
  · refine spaces_append.mpr ⟨hr.spaces _ r n hrule h, ih fun d hd => h d ?_⟩
    exact List.mem_cons_of_mem c (List.mem_of_mem_drop hd)

theorem Tidies.rewrite_incompleteOf (hr : Tidies rule) (hds : ∀ c ∈ ds, isDigit c) (hw : Spaces w) :
    rewrite rule (incompleteOf ds ++ w) = incompleteOf ds ++ rewrite rule w := by
  have hkeep : ∀ l : Text, (∀ c ∈ l, c ∈ incompleteOf ds) → rewrite rule (l ++ w) = l ++ rewrite rule w := by
    intro l hl
    induction l with
    | nil => rfl
    | cons c l ih =>
        have hc := hl c List.mem_cons_self
        have hl' : ∀ c ∈ l, c ∈ incompleteOf ds := fun d hd => hl d (List.mem_cons_of_mem c hd)
        have hclose : ']' ∉ c :: (l ++ w) := by
          rw [← List.cons_append, List.mem_append, not_or]
          exact ⟨fun hm => close_notMem_incompleteOf hds (hl _ hm), notMem_of_isSpace hw (by decide)⟩
        have hnone : rule (c :: (l ++ w)) = none := by
          cases hrule : rule (c :: (l ++ w)) with
          | none => rfl
          | some rn =>
              have := hr.starts c _ rn.1 rn.2 hclose hrule
              rw [isSpace_of_mem_incompleteOf hds hc] at this; cases this
        rw [List.cons_append, rewrite_keep hnone, ih hl']; rfl
  exact hkeep _ fun c hc => hc

/-- An incomplete marker of the result was one in the input. -/
theorem KeepsMarkers.incomplete (hr : KeepsMarkers rule) (hds : ∀ c ∈ ds, isDigit c) (ht : ']' ∉ t)
    (h : rewrite rule s = x ++ (incompleteOf ds ++ t)) : ∃ u, incompleteOf ds ++ u <:+ s ∧ rewrite rule u = t := by
  obtain ⟨y, hy, he⟩ := hr.suffix (s := s) (x := x) (t := 'S' :: (ds ++ t)) (by rw [h]; rfl)
  cases y with
  | nil => cases he
  | cons c y =>
      cases hrule : rule (c :: y) with
      | none =>
          rw [rewrite_keep hrule] at he
          have he' : rewrite rule y = 'S' :: ds ++ t := (List.cons.inj he).2
          have hl : ∀ s r n, rule s = some (r, n) → ∃ d r', r = d :: r' ∧ d ∉ 'S' :: ds := by
            intro s r n hs
            rcases hr s r n hs with ⟨d, rfl, hd, hd'⟩ | ⟨ds', u, -, rfl, -⟩
            · refine ⟨d, [], rfl, ?_⟩
              simp only [List.mem_cons, not_or] at hd
              simp [hd.2.1, Digits.notMem hds hd']
            · exact ⟨'[', _, rfl, by simp [Digits.notMem hds (c := '[') (by decide)]⟩
          obtain ⟨u, rfl, hu⟩ := rewrite_prefix hl he'
          rw [(List.cons.inj he).1] at hy
          exact ⟨u, hy, hu⟩
      | some rn =>
          obtain ⟨r, n⟩ := rn
          rw [rewrite_hit hrule] at he
          rcases hr _ r n hrule with ⟨d, rfl, hd, -⟩ | ⟨ds', u, hds', rfl, hu⟩
          · rw [(List.cons.inj he).1] at hd
            simp at hd
          · have hm : ']' ∈ incompleteOf ds ++ t := by
              show ']' ∈ '[' :: ('S' :: (ds ++ t))
              rw [← he]; simp [markerOf]
            rw [List.mem_append] at hm
            exact absurd hm (not_or.mpr ⟨close_notMem_incompleteOf hds, ht⟩)

theorem Tidies.trails_iff (hr : Tidies rule) : Trails (rewrite rule s) ↔ Trails s := by
  constructor
  · rintro ⟨ds, w, hds, hw, x, h⟩
    obtain ⟨u, hu, he⟩ := hr.keeps.incomplete hds (notMem_of_isSpace hw (by decide)) h.symm
    exact ⟨ds, u, hds, hr.spaces_of_rewrite (he ▸ hw), hu⟩
  · rintro ⟨ds, w, hds, hw, x, rfl⟩
    have hclose : ']' ∉ 'S' :: (ds ++ w) := by
      have := close_notMem_incompleteOf hds
      simp only [incompleteOf, List.mem_cons, not_or] at this
      simp [this.2.2, notMem_of_isSpace hw (c := ']') (by decide)]
    obtain ⟨y, hy⟩ : ∃ y, rewrite rule (x ++ '[' :: 'S' :: (ds ++ w)) =
        y ++ rewrite rule ('[' :: 'S' :: (ds ++ w)) :=
      rewrite_append fun y r n _ hne h => hr.stops y _ r n hclose hne h
    refine ⟨ds, rewrite rule w, hds, hr.spaces_rewrite hw, y, ?_⟩
    rw [← hr.rewrite_incompleteOf hds hw]
    exact hy.symm

/-! ## Adjacent duplicates -/

theorem not_repeats_duplicateRule (s : Text) : ¬Repeats (rewrite duplicateRule s) := by
  rintro ⟨ds, w, hc, hw, x, t, h⟩
  have hds := (digits_of_canonical hc).2
  have hk := keepsMarkers_duplicateRule
  have hwo : '[' ∉ w := notMem_of_isSpace hw (by decide)
  have hhead : ∀ {l : Text}, '[' ∉ l → ∀ s r n, duplicateRule s = some (r, n) → ∃ d r', r = d :: r' ∧ d ∉ l := by
    intro l hl s r n hs
    obtain ⟨ds', q, u, -, rfl, -⟩ := duplicateRule_cases hs
    exact ⟨'[', _, rfl, hl⟩
  obtain ⟨y, -, he⟩ := hk.suffix (s := s) (x := x) (t := 'S' :: (ds ++ ']' :: (w ++ (markerOf ds ++ t))))
    (by simp [← h, markerOf])
  cases y with
  | nil => cases he
  | cons c y =>
      cases hrule : duplicateRule (c :: y) with
      | none =>
          rw [rewrite_keep hrule] at he
          obtain ⟨u, rfl, hu⟩ := rewrite_prefix (hhead (l := 'S' :: (ds ++ ']' :: w))
            (by simp [Digits.notMem hds (c := '[') (by decide), hwo])) (t := markerOf ds ++ t)
            (by simpa using (List.cons.inj he).2)
          obtain ⟨v, rfl⟩ := hk.head hds hu
          refine duplicateRule_isSome hc hw (t := v) ?_
          rw [(List.cons.inj he).1] at hrule
          simpa [markerOf] using hrule
      | some rn =>
          obtain ⟨r, n⟩ := rn
          obtain ⟨ds', q, u, hc', rfl, hs, rfl, -, hgreedy⟩ := duplicateRule_cases hrule
          have hs' : c :: y = (markerOf ds' ++ (q ++ markerOf ds')) ++ u := by rw [hs]; simp
          rw [hs'] at hrule he
          rw [rewrite_match (by simp [markerOf]) hrule] at he
          have he' : markerOf ds' ++ rewrite duplicateRule u = markerOf ds ++ (w ++ (markerOf ds ++ t)) := by
            rw [he]; simp [markerOf]
          obtain ⟨rfl, hu⟩ := markerOf_inj (digits_of_canonical hc').2 hds he'
          obtain ⟨u', rfl, hu'⟩ := rewrite_prefix (hhead hwo) hu
          obtain ⟨v, rfl⟩ := hk.head hds hu'
          exact hgreedy w v hw rfl

/-- A rule that replaces every match by a character that no marker has. -/
def ReplacesByOther (rule : Rule Char) : Prop := ∀ s r n, rule s = some (r, n) →
  ∃ d, r = [d] ∧ d ∉ ['[', 'S', ']'] ∧ isDigit d = false

theorem Tidies.spaces_prefix (hr : Tidies rule) (ho : ReplacesByOther rule) (hw : Spaces w)
    (h : rewrite rule u = w ++ t) : ∃ w' u', u = w' ++ u' ∧ Spaces w' ∧ rewrite rule u' = t := by
  induction w generalizing u with
  | nil => exact ⟨[], u, rfl, hw, h⟩
  | cons c w ih =>
      obtain ⟨hc, hw⟩ := spaces_cons.mp hw
      cases u with
      | nil => cases h
      | cons d u =>
          cases hrule : rule (d :: u) with
          | none =>
              rw [rewrite_keep hrule] at h
              obtain ⟨w', u', rfl, hw', hu'⟩ := ih hw (List.cons.inj h).2
              rw [(List.cons.inj h).1]
              exact ⟨c :: w', u', rfl, spaces_cons.mpr ⟨hc, hw'⟩, hu'⟩
          | some rn =>
              obtain ⟨r, n⟩ := rn
              obtain ⟨e, rfl, -⟩ := ho _ r n hrule
              rw [rewrite_hit hrule] at h
              obtain ⟨w', u', hu, hw', hu'⟩ := ih hw (List.cons.inj h).2
              have he : Spaces [e] := spaces_cons.mpr ⟨by rw [(List.cons.inj h).1]; exact hc, by simp [Spaces]⟩
              refine ⟨d :: u.take (n - 1) ++ w', u', ?_,
                spaces_append.mpr ⟨hr.behind d u _ n hrule he, hw'⟩, hu'⟩
              rw [List.append_assoc, ← hu, List.cons_append, List.take_append_drop]

theorem Tidies.repeats (hr : Tidies rule) (ho : ReplacesByOther rule) (h : Repeats (rewrite rule s)) :
    Repeats s := by
  obtain ⟨ds, w, hc, hw, x, t, h⟩ := h
  have hds := (digits_of_canonical hc).2
  obtain ⟨y, hy, he⟩ := hr.keeps.suffix (s := s) (x := x) (t := 'S' :: (ds ++ ']' :: (w ++ (markerOf ds ++ t))))
    (by simp [← h, markerOf])
  have hl : ∀ s r n, rule s = some (r, n) → ∃ d r', r = d :: r' ∧ d ∉ markerOf ds := by
    intro s r n hs
    obtain ⟨d, rfl, hd, hd'⟩ := ho s r n hs
    refine ⟨d, [], rfl, ?_⟩
    simp only [List.mem_cons, not_or] at hd
    simp [markerOf, hd.1, hd.2.1, hd.2.2.1, Digits.notMem hds hd']
  obtain ⟨u, rfl, hu⟩ := rewrite_prefix hl (t := w ++ (markerOf ds ++ t)) (by rw [he]; simp [markerOf])
  obtain ⟨w', u', rfl, hw', hu'⟩ := hr.spaces_prefix ho hw hu
  obtain ⟨v, rfl⟩ := hr.keeps.head hds hu'
  exact ⟨ds, w', hc, hw', List.IsInfix.trans ⟨[], v, by simp⟩ hy.isInfix⟩

theorem replacesByOther_punctuationRule : ReplacesByOther punctuationRule := fun s r n h => by
  obtain ⟨b, p, t, -, -, hp, -, hr, -⟩ := punctuationRule_eq_some.mp h
  obtain ⟨-, -, hd, hm⟩ := isPunctuation_other hp
  exact ⟨p, hr, hm, hd⟩

theorem replacesByOther_blanksRule : ReplacesByOther blanksRule := fun s r n h => by
  obtain ⟨b, t, -, -, -, -, hr, -⟩ := blanksRule_eq_some.mp h
  exact ⟨' ', hr, by decide, by decide⟩

/-! ## Blanks -/

theorem not_blankBeforePunctuation (s : Text) : ¬BlankBeforePunctuation (rewrite punctuationRule s) := by
  rintro ⟨b, p, hb, hp, x, t, h⟩
  obtain ⟨hpb, -, -, -⟩ := isPunctuation_other hp
  have h' : rewrite punctuationRule s = x ++ b :: p :: t := by simp [← h]
  obtain ⟨y, -, he⟩ := rewrite_suffix (fun s d r n hs => by
    obtain ⟨e, he, -⟩ := replacesByOther_punctuationRule s _ n hs
    rw [(List.cons.inj he).2]; simp) h'
  cases y with
  | nil => cases he
  | cons c y =>
      cases hrule : punctuationRule (c :: y) with
      | none =>
          rw [rewrite_keep hrule] at he
          obtain ⟨hcb, he⟩ := List.cons.inj he
          have hsome : ∀ b' p' u, Blanks b' → isPunctuation p' → y ≠ b' ++ p' :: u := by
            intro b' p' u hb' hp' hy
            have hblanks : Blanks (c :: b') := List.forall_mem_cons.mpr ⟨hcb ▸ hb, hb'⟩
            rw [punctuationRule_eq_some.mpr ⟨c :: b', p', u, by simp, hblanks, hp', by rw [hy]; rfl, rfl, rfl⟩] at hrule
            cases hrule
          cases y with
          | nil => cases he
          | cons d y =>
              cases hrule' : punctuationRule (d :: y) with
              | none =>
                  rw [rewrite_keep hrule'] at he
                  exact hsome [] d y (by simp [Blanks]) ((List.cons.inj he).1.symm ▸ hp) rfl
              | some rn =>
                  obtain ⟨b', p', u, -, hb', hp', hs, -⟩ := punctuationRule_eq_some.mp hrule'
                  exact hsome b' p' u hb' hp' hs
      | some rn =>
          obtain ⟨r, n⟩ := rn
          rw [rewrite_hit hrule] at he
          obtain ⟨b', p', u, -, -, hp', -, rfl, -⟩ := punctuationRule_eq_some.mp hrule
          rw [← (List.cons.inj he).1, (isPunctuation_other hp').1] at hb
          cases hb

theorem blank_head (hb : isBlank b) (h : rewrite blanksRule s = b :: t) : ∃ d u, s = d :: u ∧ isBlank d := by
  cases s with
  | nil => cases h
  | cons d s =>
      refine ⟨d, s, rfl, ?_⟩
      cases hrule : blanksRule (d :: s) with
      | none => rw [rewrite_keep hrule] at h; rw [(List.cons.inj h).1]; exact hb
      | some rn =>
          obtain ⟨r, n⟩ := rn
          obtain ⟨b', u, hl, hb', -, hs, -⟩ := blanksRule_eq_some.mp hrule
          cases b' with
          | nil => simp at hl
          | cons e b' => rw [(List.cons.inj hs).1]; exact hb' e List.mem_cons_self

theorem blanks_suffix (h : rewrite blanksRule s = x ++ b :: t) : ∃ y, y <:+ s ∧ rewrite blanksRule y = b :: t :=
  rewrite_suffix (fun s d r n hs => by
    obtain ⟨e, he, -⟩ := replacesByOther_blanksRule s _ n hs
    rw [(List.cons.inj he).2]; simp) h

theorem blanks_cases (h : rewrite blanksRule s = b :: t) :
    (∃ u, s = b :: u ∧ blanksRule s = none ∧ rewrite blanksRule u = t) ∨
      ∃ r d u, s = r ++ d :: u ∧ isBlank d ∧ (∀ c u', u = c :: u' → isBlank c = false) ∧ rewrite blanksRule u = t := by
  cases s with
  | nil => cases h
  | cons c s =>
      cases hrule : blanksRule (c :: s) with
      | none =>
          rw [rewrite_keep hrule] at h
          obtain ⟨hcb, h⟩ := List.cons.inj h
          exact Or.inl ⟨s, by rw [hcb], rfl, h⟩
      | some rn =>
          obtain ⟨r, n⟩ := rn
          obtain ⟨b', u, hl, hb', hu, hs, rfl, rfl⟩ := blanksRule_eq_some.mp hrule
          rw [hs] at hrule h ⊢
          rw [rewrite_match (by rintro rfl; simp at hl) hrule] at h
          rcases List.eq_nil_or_concat b' with rfl | ⟨r, d, rfl⟩
          · simp at hl
          · exact Or.inr ⟨r, d, u, by simp, hb' d (by simp), hu, (List.cons.inj h).2⟩

theorem not_doubleBlank (s : Text) : ¬DoubleBlank (rewrite blanksRule s) := by
  rintro ⟨b, b', hb, hb', x, t, h⟩
  obtain ⟨y, -, he⟩ := blanks_suffix (s := s) (x := x) (b := b) (t := b' :: t) (by simp [← h])
  rcases blanks_cases he with ⟨u, rfl, hnone, hu⟩ | ⟨r, d, u, -, -, hstop, hu⟩
  · obtain ⟨d, u', rfl, hd⟩ := blank_head hb' hu
    simp [blanksRule, hb, hd] at hnone
  · obtain ⟨d', u', rfl, hd'⟩ := blank_head hb' hu
    rw [hstop d' u' rfl] at hd'; cases hd'

theorem blankBeforePunctuation_of_rewrite (h : BlankBeforePunctuation (rewrite blanksRule s)) :
    BlankBeforePunctuation s := by
  obtain ⟨b, p, hb, hp, x, t, h⟩ := h
  obtain ⟨hpb, -⟩ := isPunctuation_other hp
  have hl : ∀ s r n, blanksRule s = some (r, n) → ∃ d r', r = d :: r' ∧ d ∉ [p] := by
    intro s r n hs
    obtain ⟨b', u, -, -, -, -, rfl, -⟩ := blanksRule_eq_some.mp hs
    exact ⟨' ', [], rfl, by simp; rintro rfl; simp [isBlank] at hpb⟩
  obtain ⟨y, hy, he⟩ := blanks_suffix (s := s) (x := x) (b := b) (t := p :: t) (by simp [← h])
  rcases blanks_cases he with ⟨u, rfl, -, hu⟩ | ⟨r, d, u, rfl, hd, -, hu⟩
  · obtain ⟨v, rfl, -⟩ := rewrite_prefix hl (l := [p]) hu
    exact ⟨b, p, hb, hp, List.IsInfix.trans ⟨[], v, rfl⟩ hy.isInfix⟩
  · obtain ⟨v, rfl, -⟩ := rewrite_prefix hl (l := [p]) hu
    exact ⟨d, p, hd, hp, List.IsInfix.trans ⟨r, v, by simp⟩ hy.isInfix⟩

/-! ## The ends of the text -/

theorem rdropWhile_spaces (hw : Spaces w) : (t ++ w).rdropWhile isSpace = t.rdropWhile isSpace := by
  have hw' : ∀ c ∈ w.reverse, isSpace c := fun c hc => hw c (List.mem_reverse.mp hc)
  rw [List.rdropWhile, List.reverse_append, List.dropWhile_append_of_pos hw', List.rdropWhile]

theorem incompleteOf_concat (h : ∀ c ∈ ds, isDigit c) : ∃ t c, incompleteOf ds = t ++ [c] ∧ isSpace c = false := by
  rcases List.eq_nil_or_concat (incompleteOf ds) with h0 | ⟨t, c, ht⟩
  · cases h0
  · rw [List.concat_eq_append] at ht
    exact ⟨t, c, ht, isSpace_of_mem_incompleteOf h (by rw [ht]; simp)⟩

theorem trails_strip_iff : (∃ ds, (∀ c ∈ ds, isDigit c) ∧ incompleteOf ds <:+ strip s) ↔ Trails s := by
  constructor
  · rintro ⟨ds, hds, x, h⟩
    have hs : strip s ++ (s.dropWhile isSpace).rtakeWhile isSpace = s.dropWhile isSpace :=
      List.rdropWhile_append_rtakeWhile
    refine ⟨ds, (s.dropWhile isSpace).rtakeWhile isSpace, hds, fun c hc => List.mem_rtakeWhile_imp hc, ?_⟩
    rw [← h, List.append_assoc] at hs
    exact List.IsSuffix.trans ⟨x, hs⟩ (List.dropWhile_suffix _)
  · rintro ⟨ds, w, hds, hw, x, rfl⟩
    refine ⟨ds, hds, ?_⟩
    obtain ⟨y, hy⟩ : ∃ y, (x ++ (incompleteOf ds ++ w)).dropWhile isSpace = y ++ (incompleteOf ds ++ w) := by
      rw [List.dropWhile_append]
      split
      · exact ⟨[], by simp [incompleteOf, isSpace]⟩
      · exact ⟨_, rfl⟩
    obtain ⟨t, c, ht, hc⟩ := incompleteOf_concat hds
    rw [strip, hy, ← List.append_assoc, rdropWhile_spaces hw, ht, ← List.append_assoc,
      List.rdropWhile_concat_neg _ _ _ (by simp [hc]), List.append_assoc]
    exact List.suffix_append _ _

/-! ## All passes -/

def polish (s : Text) : Text :=
  strip (rewrite blanksRule (rewrite punctuationRule (rewrite duplicateRule (rewrite incompleteRule s))))

theorem repairCompleteAnswer_eq (s : Text) (allowed : List SourceId) :
    repairCompleteAnswer s allowed = polish (weed allowed s) := rfl

theorem infix_polish (hds : ∀ c ∈ ds, isDigit c) (h : markerOf ds <:+: polish s) : markerOf ds <:+: s := by
  have h := h.trans (strip_inside _)
  have h := keepsMarkers_blanksRule.inside hds h
  have h := keepsMarkers_punctuationRule.inside hds h
  exact marker_infix_incompleteRule (keepsMarkers_duplicateRule.inside hds h)

theorem incomplete_polish_iff : (∃ ds, (∀ c ∈ ds, isDigit c) ∧ incompleteOf ds <:+ polish s) ↔
    ∃ t, t <:+ s ∧ IncompleteEnd t := by
  rw [polish, trails_strip_iff, tidies_blanksRule.trails_iff, tidies_punctuationRule.trails_iff,
    tidies_duplicateRule.trails_iff, trails_incompleteRule_iff]

theorem not_repeats_polish (s : Text) : ¬Repeats (polish s) := by
  rintro ⟨ds, w, hc, hw, h⟩
  have hr : Repeats (rewrite blanksRule _) := ⟨ds, w, hc, hw, h.trans (strip_inside _)⟩
  have hr := tidies_blanksRule.repeats replacesByOther_blanksRule hr
  exact not_repeats_duplicateRule _ (tidies_punctuationRule.repeats replacesByOther_punctuationRule hr)

theorem not_blankBeforePunctuation_polish (s : Text) : ¬BlankBeforePunctuation (polish s) := by
  rintro ⟨b, p, hb, hp, h⟩
  exact not_blankBeforePunctuation _
    (blankBeforePunctuation_of_rewrite ⟨b, p, hb, hp, h.trans (strip_inside _)⟩)

theorem not_doubleBlank_polish (s : Text) : ¬DoubleBlank (polish s) := by
  rintro ⟨b, b', hb, hb', h⟩
  exact not_doubleBlank _ ⟨b, b', hb, hb', h.trans (strip_inside _)⟩

theorem rewrite_duplicateRule_eq_self (h : ¬Repeats s) : rewrite duplicateRule s = s := by
  refine rewrite_eq_self fun t ht => ?_
  cases hrule : duplicateRule t with
  | none => rfl
  | some rn =>
      obtain ⟨ds, q, u, -, -, -, -, ⟨ds', w, hc, hw, hi⟩, -⟩ := duplicateRule_cases (r := rn.1) (n := rn.2) hrule
      exact absurd ⟨ds', w, hc, hw, hi.trans ht.isInfix⟩ h

theorem rewrite_punctuationRule_eq_self (h : ¬BlankBeforePunctuation s) : rewrite punctuationRule s = s := by
  refine rewrite_eq_self fun t ht => ?_
  cases hrule : punctuationRule t with
  | none => rfl
  | some rn =>
      obtain ⟨r, n⟩ := rn
      obtain ⟨b, p, u, hne, hb, hp, rfl, -⟩ := punctuationRule_eq_some.mp hrule
      rcases List.eq_nil_or_concat b with rfl | ⟨b', d, rfl⟩
      · exact absurd rfl hne
      · exact absurd ⟨d, p, hb d (by simp), hp, List.IsInfix.trans ⟨b', u, by simp⟩ ht.isInfix⟩ h

theorem rewrite_blanksRule_eq_self (h : ¬DoubleBlank s) : rewrite blanksRule s = s := by
  refine rewrite_eq_self fun t ht => ?_
  cases hrule : blanksRule t with
  | none => rfl
  | some rn =>
      obtain ⟨r, n⟩ := rn
      obtain ⟨b, u, hl, hb, -, rfl, -⟩ := blanksRule_eq_some.mp hrule
      match b, hl with
      | d :: d' :: b, _ =>
          exact absurd ⟨d, d', hb d (by simp), hb d' (by simp),
            List.IsInfix.trans ⟨[], b ++ u, by simp⟩ ht.isInfix⟩ h

/-- A text without the patterns of the passes, and without whitespace at its ends, is left as it is. -/
theorem polish_eq_self (hi : ∀ ds, (∀ c ∈ ds, isDigit c) → ¬incompleteOf ds <:+ s) (hr : ¬Repeats s)
    (hp : ¬BlankBeforePunctuation s) (hb : ¬DoubleBlank s) (hs : strip s = s) : polish s = s := by
  have h : rewrite incompleteRule s = s := by
    rcases rewrite_incompleteRule s with ⟨y, ds, e, hds, rfl | rfl, he, -⟩ | ⟨h, -⟩
    · exact absurd ⟨y, by simp [he]⟩ (hi ds hds)
    · have := strip_last (s := s) (t := y ++ incompleteOf ds) (c := '\n') (by rw [hs, he]; simp)
      simp [isSpace] at this
    · exact h
  rw [polish, h, rewrite_duplicateRule_eq_self hr, rewrite_punctuationRule_eq_self hp,
    rewrite_blanksRule_eq_self hb, hs]

theorem strip_polish (s : Text) : strip (polish s) = polish s :=
  strip_eq_self (fun _ _ h => strip_head h) (fun _ _ h => strip_last h)

end Etoeragcb.Chat
