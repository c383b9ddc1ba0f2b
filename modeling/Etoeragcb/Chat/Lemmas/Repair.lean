import Etoeragcb.Chat.Lemmas.Markers

/-!
# The passes that follow the removal

What each pass of the repair rewrites, and what it leaves behind.
-/

namespace Etoeragcb.Chat

open Lib

def Spaces (w : Text) : Prop := ∀ c ∈ w, isSpace c

def Blanks (w : Text) : Prop := ∀ c ∈ w, isBlank c

/-- Where `$` matches: at the end, and before a line break there. -/
def LineEnd (e : Text) : Prop := e = [] ∨ e = ['\n']

/-- Two copies of a marker with nothing but whitespace between them. -/
def Repeats (s : Text) : Prop :=
  ∃ ds w, isCanonical ds ∧ Spaces w ∧ markerOf ds ++ (w ++ markerOf ds) <:+: s

def BlankBeforePunctuation (s : Text) : Prop := ∃ b p, isBlank b ∧ isPunctuation p ∧ [b, p] <:+: s

def DoubleBlank (s : Text) : Prop := ∃ b b', isBlank b ∧ isBlank b' ∧ [b, b'] <:+: s

/-- An incomplete marker with nothing but whitespace behind it. -/
def Trails (s : Text) : Prop := ∃ ds w, (∀ c ∈ ds, isDigit c) ∧ Spaces w ∧ incompleteOf ds ++ w <:+ s

variable {s t x y w r ds e : Text} {c b p : Char} {n : Nat}

/-! ## Characters -/

theorem isSpace_of_isBlank (h : isBlank b) : isSpace b := by
  simp only [isBlank, Bool.or_eq_true, beq_iff_eq] at h
  rcases h with rfl | rfl <;> decide

theorem isSpace_of_isDigit (h : isDigit c) : isSpace c = false := by
  simp only [isDigit, Bool.and_eq_true, decide_eq_true_eq] at h
  have h1 : 48 ≤ c.toNat := h.1
  have h2 : c.toNat ≤ 57 := h.2
  simp only [isSpace, Bool.or_eq_false_iff, Bool.and_eq_false_iff, decide_eq_false_iff_not, beq_eq_false_iff_ne]
  omega

theorem isPunctuation_other (h : isPunctuation p) :
    isBlank p = false ∧ isSpace p = false ∧ isDigit p = false ∧ p ∉ ['[', 'S', ']'] := by
  have hp : p ∈ [',', '.', ';', ':', '!', '?'] := by simpa [isPunctuation] using h
  simp only [List.mem_cons, List.not_mem_nil, or_false] at hp
  rcases hp with rfl | rfl | rfl | rfl | rfl | rfl <;> decide

theorem isSpace_of_mem_incompleteOf (h : ∀ c ∈ ds, isDigit c) (hc : c ∈ incompleteOf ds) :
    isSpace c = false := by
  simp only [incompleteOf, List.mem_cons] at hc
  rcases hc with rfl | rfl | hc
  · decide
  · decide
  · exact isSpace_of_isDigit (h c hc)

theorem isSpace_of_mem_markerOf (h : ∀ c ∈ ds, isDigit c) (hc : c ∈ markerOf ds) : isSpace c = false := by
  rw [markerOf_eq, List.mem_append, List.mem_singleton] at hc
  rcases hc with hc | rfl
  · exact isSpace_of_mem_incompleteOf h hc
  · decide

theorem notMem_of_isSpace (hw : Spaces w) (hc : isSpace c = false) : c ∉ w := fun hm => by
  rw [hw c hm] at hc; cases hc

theorem span_unique {q : Char → Bool} {a a' : Text} (ha : ∀ c ∈ a, q c) (ha' : ∀ c ∈ a', q c)
    (hs : ∀ c s', s = c :: s' → q c = false) (ht : ∀ c t', t = c :: t' → q c = false)
    (h : a ++ s = a' ++ t) : a = a' ∧ s = t := by
  have hd : ∀ {u : Text}, (∀ c s', u = c :: s' → q c = false) → u.takeWhile q = [] := by
    intro u hu
    cases u with
    | nil => rfl
    | cons c u => simp [hu c u rfl]
  have he := congrArg (List.takeWhile q) h
  rw [List.takeWhile_append_of_pos ha, List.takeWhile_append_of_pos ha', hd hs, hd ht] at he
  simp only [List.append_nil] at he
  exact ⟨he, by simpa [he] using h⟩

/-! ## The rules -/

theorem incompleteRule_eq_some : incompleteRule s = some (r, n) ↔
    ∃ ds e, (∀ c ∈ ds, isDigit c) ∧ LineEnd e ∧ s = incompleteOf ds ++ e ∧ r = [] ∧ n = (incompleteOf ds).length := by
  constructor
  · intro h
    unfold incompleteRule at h
    split at h
    · rename_i ds ho
      cases h
      obtain ⟨hds, -, rfl⟩ := opening?_eq_some.mp ho
      exact ⟨ds, [], hds, Or.inl rfl, rfl, rfl, rfl⟩
    · rename_i ds ho
      cases h
      obtain ⟨hds, -, rfl⟩ := opening?_eq_some.mp ho
      exact ⟨ds, ['\n'], hds, Or.inr rfl, rfl, rfl, rfl⟩
    · cases h
  · rintro ⟨ds, e, hds, rfl | rfl, rfl, rfl, rfl⟩
    · have ho : opening? (incompleteOf ds ++ []) = some (ds, []) :=
        opening?_eq_some.mpr ⟨hds, by simp, rfl⟩
      simp only [incompleteRule, ho]; rfl
    · have ho : opening? (incompleteOf ds ++ ['\n']) = some (ds, ['\n']) :=
        opening?_eq_some.mpr ⟨hds, fun c t' h => by cases h; decide, rfl⟩
      simp only [incompleteRule, ho]; rfl

theorem punctuationRule_eq_some : punctuationRule s = some (r, n) ↔
    ∃ b p t, b ≠ [] ∧ Blanks b ∧ isPunctuation p ∧ s = b ++ p :: t ∧ r = [p] ∧ n = b.length + 1 := by
  constructor
  · intro h
    unfold punctuationRule at h
    split at h
    · rename_i b bs p t hb hp
      split at h
      · rename_i hpu
        cases h
        refine ⟨b :: bs, p, t, by simp, fun c hc => ?_, hpu, ?_, rfl, rfl⟩
        · exact List.mem_takeWhile_imp (hb ▸ hc)
        · rw [← hb, ← hp, List.takeWhile_append_dropWhile]
      · cases h
    · cases h
  · rintro ⟨b, p, t, hne, hb, hp, rfl, rfl, rfl⟩
    have hp' := (isPunctuation_other hp).1
    have ht : (b ++ p :: t).takeWhile isBlank = b := by simp [List.takeWhile_append_of_pos hb, hp']
    have hd : (b ++ p :: t).dropWhile isBlank = p :: t := by simp [List.dropWhile_append_of_pos hb, hp']
    cases b with
    | nil => exact absurd rfl hne
    | cons b bs => simp only [punctuationRule, ht, hd, hp, if_true]

theorem blanksRule_eq_some : blanksRule s = some (r, n) ↔
    ∃ b t, 2 ≤ b.length ∧ Blanks b ∧ (∀ c t', t = c :: t' → isBlank c = false) ∧ s = b ++ t ∧
      r = [' '] ∧ n = b.length := by
  constructor
  · intro h
    simp only [blanksRule] at h
    split at h
    · rename_i hl
      cases h
      refine ⟨_, s.dropWhile isBlank, hl, fun c hc => List.mem_takeWhile_imp hc, fun c t' ht => ?_,
        List.takeWhile_append_dropWhile.symm, rfl, rfl⟩
      have hne : s.dropWhile isBlank ≠ [] := by simp [ht]
      simpa [ht] using List.head_dropWhile_not isBlank hne
    · cases h
  · rintro ⟨b, t, hl, hb, ht, rfl, rfl, rfl⟩
    have hd : t.takeWhile isBlank = [] := by
      cases t with
      | nil => rfl
      | cons c t => simp [ht c t rfl]
    simp [blanksRule, List.takeWhile_append_of_pos hb, hd, hl]

theorem dropWhile_spaces (hw : Spaces w) (hc : isSpace c = false) :
    (w ++ c :: t).dropWhile isSpace = c :: t := by
  simp [List.dropWhile_append_of_pos hw, hc]

variable {m q : Text}

theorem repeatsLength_greedy (hm : m ≠ []) (hsp : ∀ c ∈ m, isSpace c = false) (hn : s.length ≤ n)
    (hw : Spaces w) : s.drop (repeatsLength m n s) ≠ w ++ (m ++ t) := by
  have hskip : ∀ {u}, u = w ++ (m ++ t) → m.isPrefixOf (u.dropWhile isSpace) := by
    rintro u rfl
    cases m with
    | nil => exact absurd rfl hm
    | cons c m => simp [dropWhile_spaces hw (hsp c List.mem_cons_self)]
  induction n generalizing s with
  | zero =>
      rw [List.length_eq_zero_iff.mp (Nat.le_zero.mp hn)]
      simpa using fun _ h => absurd h hm
  | succ n ih =>
      unfold repeatsLength
      split
      · rename_i hp
        obtain ⟨u, hu⟩ := List.isPrefixOf_iff_prefix.mp hp
        have hs : s = s.takeWhile isSpace ++ (m ++ u) := by rw [hu, List.takeWhile_append_dropWhile]
        have hdrop : (s.dropWhile isSpace).drop m.length = u := by rw [← hu, List.drop_left]
        rw [hdrop]
        generalize s.takeWhile isSpace = a at hs ⊢
        subst hs
        have hlen : u.length ≤ n := by
          have : 0 < m.length := List.length_pos_iff.mpr hm
          simp only [List.length_append] at hn
          omega
        rw [← List.drop_drop, ← List.drop_drop, List.drop_left, List.drop_left]
        exact ih hlen
      · rename_i hp
        exact fun h => hp (hskip (by simpa using h))

/-- The repetitions of a marker are a stretch that ends with it. -/
theorem repeatsLength_cases (hk : repeatsLength m n s ≠ 0) :
    ∃ q u, s = q ++ (m ++ u) ∧ repeatsLength m n s = (q ++ m).length ∧
      ∃ w u', Spaces w ∧ s = w ++ (m ++ u') := by
  induction n generalizing s with
  | zero => exact absurd rfl hk
  | succ n ih =>
      unfold repeatsLength at hk ⊢
      split at hk
      · rename_i hp
        obtain ⟨u, hu⟩ := List.isPrefixOf_iff_prefix.mp hp
        have hs : s = s.takeWhile isSpace ++ (m ++ u) := by rw [hu, List.takeWhile_append_dropWhile]
        have hdrop : (s.dropWhile isSpace).drop m.length = u := by rw [← hu, List.drop_left]
        have hsp : Spaces (s.takeWhile isSpace) := fun c hc => List.mem_takeWhile_imp hc
        rw [if_pos hp, hdrop]
        by_cases hk' : repeatsLength m n u = 0
        · exact ⟨_, u, hs, by simp [hk'], _, u, hsp, hs⟩
        · obtain ⟨q, v, rfl, hq, -⟩ := ih hk'
          refine ⟨s.takeWhile isSpace ++ (m ++ q), v, by rw [hs]; simp [← hs], ?_, _, _, hsp, hs⟩
          simp [hq]; omega
      · exact absurd rfl hk

theorem duplicateRule_cases (h : duplicateRule s = some (r, n)) :
    ∃ ds q t, isCanonical ds ∧ r = markerOf ds ∧ s = markerOf ds ++ (q ++ (markerOf ds ++ t)) ∧
      n = (markerOf ds ++ (q ++ markerOf ds)).length ∧ Repeats s ∧
      ∀ w t', Spaces w → t ≠ w ++ (markerOf ds ++ t') := by
  unfold duplicateRule at h
  split at h
  · rename_i ds hds
    obtain ⟨hc, u, rfl⟩ := marker?_eq_some.mp hds
    have hd := digits_of_canonical hc
    simp only [List.drop_left] at h
    split at h
    · cases h
    · rename_i hk
      cases h
      obtain ⟨q, t, hu, hl, w, u', hw, hu'⟩ := repeatsLength_cases hk
      refine ⟨ds, q, t, hc, rfl, by rw [hu], by rw [hl]; simp, ⟨ds, w, hc, hw, [], u', by rw [hu']; simp⟩,
        fun w t' hw ht => ?_⟩
      refine repeatsLength_greedy (by simp [markerOf]) (fun c => isSpace_of_mem_markerOf hd.2) ?_ hw (t := t')
        (s := u) (n := (markerOf ds ++ u).length) ?_
      · simp
      · rw [hl, hu, ← List.append_assoc, List.drop_left, ht]
  · cases h

theorem duplicateRule_isSome (hc : isCanonical ds) (hw : Spaces w) :
    duplicateRule (markerOf ds ++ (w ++ (markerOf ds ++ t))) ≠ none := by
  intro h
  have hd := digits_of_canonical hc
  simp only [duplicateRule, marker?_eq_some.mpr ⟨hc, _, rfl⟩, List.drop_left] at h
  split at h
  · rename_i hk
    refine repeatsLength_greedy (by simp [markerOf]) (fun c => isSpace_of_mem_markerOf hd.2) ?_ hw (t := t)
      (n := (markerOf ds ++ (w ++ (markerOf ds ++ t))).length) (by rw [hk]; rfl)
    simp
  · cases h

/-! ## Markers survive the passes -/

/-- A rule replaces markers by themselves, and anything else by a character that no marker has. -/
def KeepsMarkers (rule : Rule Char) : Prop := ∀ s r n, rule s = some (r, n) →
  (∃ d, r = [d] ∧ d ∉ ['[', 'S', ']'] ∧ isDigit d = false) ∨
    ∃ ds t, (∀ c ∈ ds, isDigit c) ∧ r = markerOf ds ∧ s = markerOf ds ++ t

variable {rule : Rule Char}

theorem keepsMarkers_duplicateRule : KeepsMarkers duplicateRule := by
  intro s r n h
  obtain ⟨ds, q, t, hc, hr, hs, -⟩ := duplicateRule_cases h
  exact Or.inr ⟨ds, _, (digits_of_canonical hc).2, hr, hs⟩

theorem keepsMarkers_punctuationRule : KeepsMarkers punctuationRule := by
  intro s r n h
  obtain ⟨b, p, t, -, -, hp, -, hr, -⟩ := punctuationRule_eq_some.mp h
  obtain ⟨-, -, hd, hm⟩ := isPunctuation_other hp
  exact Or.inl ⟨p, hr, hm, hd⟩

theorem keepsMarkers_blanksRule : KeepsMarkers blanksRule := by
  intro s r n h
  obtain ⟨b, t, -, -, -, -, hr, -⟩ := blanksRule_eq_some.mp h
  exact Or.inl ⟨' ', hr, by decide, by decide⟩

/-- A `[` of the result is one of the input. -/
theorem KeepsMarkers.suffix (hr : KeepsMarkers rule) (h : rewrite rule s = x ++ '[' :: t) :
    ∃ y, y <:+ s ∧ rewrite rule y = '[' :: t := by
  refine rewrite_suffix (fun s d r n hrule => ?_) h
  rcases hr s _ n hrule with ⟨e, he, -⟩ | ⟨ds, u, hds, he, -⟩
  · rw [(List.cons.inj he).2]; simp
  · rw [(List.cons.inj he).2]; exact open_notMem_markerOf_tail hds

theorem KeepsMarkers.head (hr : KeepsMarkers rule) (hds : ∀ c ∈ ds, isDigit c)
    (h : rewrite rule s = markerOf ds ++ t) : markerOf ds <+: s := by
  cases s with
  | nil => cases h
  | cons c s =>
      cases hrule : rule (c :: s) with
      | none =>
          rw [rewrite_keep hrule] at h
          have h' : rewrite rule s = 'S' :: (ds ++ [']']) ++ t := (List.cons.inj h).2
          rw [(List.cons.inj h).1]
          have hl : ∀ s r n, rule s = some (r, n) → ∃ d r', r = d :: r' ∧ d ∉ 'S' :: (ds ++ [']']) := by
            intro s r n hs
            rcases hr s r n hs with ⟨d, rfl, hd, hd'⟩ | ⟨ds', u, -, rfl, -⟩
            · refine ⟨d, [], rfl, ?_⟩
              simp only [List.mem_cons, not_or] at hd
              simp [hd.2.1, hd.2.2.1, Digits.notMem hds hd']
            · exact ⟨'[', _, rfl, open_notMem_markerOf_tail hds⟩
          obtain ⟨u, rfl, -⟩ := rewrite_prefix hl h'
          exact ⟨u, rfl⟩
      | some rn =>
          obtain ⟨r, n⟩ := rn
          rw [rewrite_hit hrule] at h
          rcases hr _ r n hrule with ⟨d, rfl, hd, -⟩ | ⟨ds', u, hds', rfl, hu⟩
          · rw [(List.cons.inj h).1] at hd
            simp at hd
          · rw [← (markerOf_inj hds' hds h).1, hu]
            exact List.prefix_append _ _

theorem KeepsMarkers.inside (hr : KeepsMarkers rule) (hds : ∀ c ∈ ds, isDigit c)
    (h : markerOf ds <:+: rewrite rule s) : markerOf ds <:+: s := by
  obtain ⟨x, t, h⟩ := h
  obtain ⟨y, hy, he⟩ := hr.suffix (s := s) (x := x) (t := 'S' :: (ds ++ [']']) ++ t) (by simp [← h, markerOf])
  exact (hr.head hds he).isInfix.trans hy.isInfix

/-! ## Incomplete markers -/

theorem incompleteOf_inj {ds' w' : Text} (h : ∀ c ∈ ds, isDigit c) (h' : ∀ c ∈ ds', isDigit c)
    (hw : Spaces w) (hw' : Spaces w') (he : incompleteOf ds ++ w = incompleteOf ds' ++ w') : w = w' := by
  have hsp : ∀ {v : Text}, Spaces v → ∀ c s', v = c :: s' → isDigit c = false := by
    rintro v hv c s' rfl
    by_contra hc
    have := hv c List.mem_cons_self
    rw [isSpace_of_isDigit (by simpa using hc)] at this
    cases this
  simp only [incompleteOf, List.cons_append, List.cons.injEq, true_and] at he
  exact (span_unique h h' (hsp hw) (hsp hw') he).2

theorem LineEnd.spaces (h : LineEnd e) : Spaces e := by
  rcases h with rfl | rfl
  · simp [Spaces]
  · simp [Spaces, isSpace]

theorem eq_of_append_open {a b : Text} (ha : '[' ∉ a) (hb : '[' ∉ b) (h : x ++ '[' :: a = y ++ '[' :: b) :
    x = y ∧ a = b := by
  have h' := congrArg List.reverse h
  simp only [List.reverse_append, List.reverse_cons, List.append_assoc, List.singleton_append] at h'
  obtain ⟨hab, hxy⟩ := eq_of_append_cons (by simpa using ha) (by simpa using hb) h'
  exact ⟨List.reverse_inj.mp hxy, List.reverse_inj.mp hab⟩

theorem open_notMem_incomplete_tail (h : ∀ c ∈ ds, isDigit c) (hw : Spaces w) : '[' ∉ 'S' :: (ds ++ w) := by
  simp [Digits.notMem h (c := '[') (by decide), notMem_of_isSpace hw (c := '[') (by decide)]

theorem incomplete_unique {ds' w' : Text} (h : ∀ c ∈ ds, isDigit c) (h' : ∀ c ∈ ds', isDigit c)
    (hw : Spaces w) (hw' : Spaces w') (he : x ++ (incompleteOf ds ++ w) = y ++ (incompleteOf ds' ++ w')) :
    x = y ∧ w = w' := by
  obtain ⟨rfl, hdw⟩ := eq_of_append_open (open_notMem_incomplete_tail h hw) (open_notMem_incomplete_tail h' hw') he
  exact ⟨rfl, incompleteOf_inj h h' hw hw' (List.append_cancel_left he)⟩

theorem rewrite_incompleteRule (s : Text) :
    (∃ y ds e, (∀ c ∈ ds, isDigit c) ∧ LineEnd e ∧ s = y ++ (incompleteOf ds ++ e) ∧
      rewrite incompleteRule s = y ++ e) ∨
    (rewrite incompleteRule s = s ∧ ∀ ds e, (∀ c ∈ ds, isDigit c) → LineEnd e → ¬incompleteOf ds ++ e <:+ s) := by
  refine rewrite_induction (p := fun s o => (∃ y ds e, (∀ c ∈ ds, isDigit c) ∧ LineEnd e ∧
      s = y ++ (incompleteOf ds ++ e) ∧ o = y ++ e) ∨ (o = s ∧ ∀ ds e, (∀ c ∈ ds, isDigit c) → LineEnd e →
      ¬incompleteOf ds ++ e <:+ s)) ?_ (fun c s h ih => ?_) (fun c s r n h _ => ?_) s
  · exact Or.inr ⟨rfl, fun ds e _ _ hs => by simp [incompleteOf] at hs⟩
  · rcases ih with ⟨y, ds, e, hds, he, rfl, ho⟩ | ⟨ho, hno⟩
    · exact Or.inl ⟨c :: y, ds, e, hds, he, rfl, by rw [ho]; rfl⟩
    · refine Or.inr ⟨by rw [ho], fun ds e hds he hs => ?_⟩
      rcases List.suffix_cons_iff.mp hs with hs | hs
      · rw [← hs, incompleteRule_eq_some.mpr ⟨ds, e, hds, he, rfl, rfl, rfl⟩] at h
        cases h
      · exact hno ds e hds he hs
  · obtain ⟨ds, e, hds, he, hs, rfl, rfl⟩ := incompleteRule_eq_some.mp h
    have hdrop : s.drop ((incompleteOf ds).length - 1) = e := by
      rw [(List.cons.inj hs).2]
      simp [incompleteOf]
    refine Or.inl ⟨[], ds, e, hds, he, hs, ?_⟩
    rw [hdrop]
    rcases he with rfl | rfl <;> rfl

/-- What the pass over incomplete markers and the final `strip` turn into an incomplete marker at the end:
whitespace behind one, or a second one behind it. -/
def IncompleteEnd (t : Text) : Prop :=
  ∃ ds w, (∀ c ∈ ds, isDigit c) ∧ Spaces w ∧ ((t = incompleteOf ds ++ w ∧ ¬LineEnd w) ∨
    ∃ ds' e, (∀ c ∈ ds', isDigit c) ∧ LineEnd e ∧ t = incompleteOf ds ++ (w ++ (incompleteOf ds' ++ e)))

theorem spaces_append : Spaces (x ++ y) ↔ Spaces x ∧ Spaces y := List.forall_mem_append

theorem spaces_cons : Spaces (c :: x) ↔ isSpace c ∧ Spaces x := List.forall_mem_cons

theorem suffix_of_incomplete_suffix (he : LineEnd e) (hds : ∀ c ∈ ds, isDigit c) (hw : Spaces w)
    (h : incompleteOf ds ++ w <:+ y ++ e) : ∃ w', Spaces w' ∧ incompleteOf ds ++ w' <:+ y := by
  rcases he with rfl | rfl
  · exact ⟨w, hw, by simpa using h⟩
  · rcases List.suffix_concat_iff.mp h with hnil | ⟨t, ht, hy⟩
    · simp [incompleteOf] at hnil
    · rcases List.eq_nil_or_concat w with rfl | ⟨w', d, rfl⟩
      · have hm : '\n' ∈ incompleteOf ds := by rw [List.append_nil] at ht; simp [ht]
        have := isSpace_of_mem_incompleteOf hds hm
        simp [isSpace] at this
      · rw [List.concat_eq_append, ← List.append_assoc] at ht
        obtain ⟨rfl, -⟩ := List.append_inj' ht rfl
        rw [List.concat_eq_append, spaces_append] at hw
        exact ⟨w', hw.1, hy⟩

theorem trails_incompleteRule_iff :
    Trails (rewrite incompleteRule s) ↔ ∃ t, t <:+ s ∧ IncompleteEnd t := by
  rcases rewrite_incompleteRule s with ⟨y, ds', e, hds', he, rfl, ho⟩ | ⟨ho, hno⟩
  · rw [ho]
    constructor
    · rintro ⟨ds, w, hds, hw, h⟩
      obtain ⟨w', hw', x, rfl⟩ := suffix_of_incomplete_suffix he hds hw h
      exact ⟨_, ⟨x, by simp⟩, ds, w', hds, hw', Or.inr ⟨ds', e, hds', he, rfl⟩⟩
    · rintro ⟨t, ⟨x, hx⟩, ds, w, hds, hw, ⟨rfl, hle⟩ | ⟨ds'', e', hds'', he', rfl⟩⟩
      · exact absurd ((incomplete_unique hds hds' hw he.spaces hx).2 ▸ he) hle
      · obtain ⟨rfl, rfl⟩ := incomplete_unique (x := x ++ (incompleteOf ds ++ w)) hds'' hds' he'.spaces he.spaces
          (by rw [← hx]; simp only [List.append_assoc])
        exact ⟨ds, w ++ e', hds, spaces_append.mpr ⟨hw, he.spaces⟩, x, by simp only [List.append_assoc]⟩
  · rw [ho]
    constructor
    · rintro ⟨ds, w, hds, hw, h⟩
      exact ⟨_, h, ds, w, hds, hw, Or.inl ⟨rfl, fun hle => hno ds w hds hle h⟩⟩
    · rintro ⟨t, ⟨x, hx⟩, ds, w, hds, hw, ⟨rfl, -⟩ | ⟨ds'', e', hds'', he', rfl⟩⟩
      · exact ⟨ds, w, hds, hw, x, hx⟩
      · exact absurd ⟨x ++ (incompleteOf ds ++ w), by simp [← hx]⟩ (hno ds'' e' hds'' he')

theorem marker_infix_incompleteRule (h : markerOf ds <:+: rewrite incompleteRule s) : markerOf ds <:+: s := by
  rcases rewrite_incompleteRule s with ⟨y, ds', e, -, rfl | rfl, rfl, ho⟩ | ⟨ho, -⟩
  · rw [ho, List.append_nil] at h
    exact h.trans (List.prefix_append _ _).isInfix
  · rw [ho, List.infix_concat_iff] at h
    rcases h with h | h
    · rcases List.suffix_concat_iff.mp h with h | ⟨t, ht, -⟩
      · simp [markerOf] at h
      · rw [markerOf_eq] at ht
        exact absurd (List.append_inj' ht rfl).2 (by decide)
    · exact h.trans (List.prefix_append _ _).isInfix
  · rwa [ho] at h

end Etoeragcb.Chat
