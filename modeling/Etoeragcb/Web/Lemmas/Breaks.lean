import Etoeragcb.Web.Lemmas.Sanitize

/-!
# Line breaks and words

Between its first and its last visible character, a text is told apart by the stretches that the passes work on.
-/

namespace Etoeragcb.Web

open Lib

/-- The characters of the categories that start with `C`. -/
structure Categories where
  isOther : Char → Bool
  isOther_return : isOther '\r' = true
  isOther_space : isOther ' ' = false

def Categories.ascii : Categories := ⟨isControl, rfl, rfl⟩

variable (k : Categories)

def keeps (c : Char) : Bool := c = '\n' || c = '\t' || !k.isOther c

def kept (s : Text) : Text := s.filter (keeps k)

/-- The character survives, and it is no whitespace. -/
def isVisible (c : Char) : Bool := keeps k c && !isSpace c

/-- The character survives, and it is neither a blank nor a line feed. -/
def isSolid (c : Char) : Bool := keeps k c && !isGap c

def core (s : Text) : Text := (s.dropWhile (!isVisible k ·)).rdropWhile (!isVisible k ·)

/-- A line feed for every line break of the three conventions. -/
def unifyBreaks : Text → Text
  | '\r' :: '\n' :: s => '\n' :: unifyBreaks s
  | '\r' :: s => '\n' :: unifyBreaks s
  | c :: s => c :: unifyBreaks s
  | [] => []

def loneReturns : Text → Nat
  | '\r' :: '\n' :: s => loneReturns s
  | '\r' :: s => loneReturns s + 1
  | _ :: s => loneReturns s
  | [] => 0

variable {k} {s t g x y : Text} {c d : Char}

theorem isSpace_of_isGap (h : isGap c = true) : isSpace c = true := by
  rcases isGap_iff.mp h with rfl | rfl | rfl <;> decide

theorem isGap_of_not_isSpace (h : isSpace c = false) : isGap c = false := by
  rw [Bool.eq_false_iff] at h ⊢
  exact fun hg => h (isSpace_of_isGap hg)

theorem keeps_gap (h : isGap c = true) : keeps k c = true := by
  rcases isGap_iff.mp h with rfl | rfl | rfl
  · simp [keeps, k.isOther_space]
  · simp [keeps]
  · simp [keeps]

theorem not_keeps_return : keeps k '\r' = false := by
  simp [keeps, k.isOther_return]

theorem isVisible_iff : isVisible k c = true ↔ keeps k c = true ∧ isSpace c = false := by
  simp [isVisible]

/-! ## Outside the visible characters -/

theorem mem_kept : c ∈ kept k s ↔ c ∈ s ∧ keeps k c = true := List.mem_filter

theorem sanitizeText_eq (s : Text) : sanitizeText k.isOther s = strip (layout (kept k s)) := by
  have hreturn : ∀ c ∈ kept k s, (if c = '\r' then '\n' else c) = c := by
    intro c hc
    have hne : c ≠ '\r' := fun h => by simpa [h, not_keeps_return] using (mem_kept.mp hc).2
    rw [if_neg hne]
  change strip (layout ((kept k s).map fun c => if c = '\r' then '\n' else c)) = _
  rw [List.map_congr_left hreturn, List.map_id']

/-- A text that does not begin or end with a character of the kind. -/
structure Trimmed (p : Char → Bool) (m : Text) : Prop where
  head : ∀ c t, m = c :: t → p c = false
  last : ∀ c t, m = t ++ [c] → p c = false

theorem trim_split (p : Char → Bool) (s : Text) : ∃ x y, s = x ++ (s.dropWhile p).rdropWhile p ++ y ∧
    (∀ c ∈ x, p c = true) ∧ (∀ c ∈ y, p c = true) ∧ Trimmed p ((s.dropWhile p).rdropWhile p) := by
  refine ⟨s.takeWhile p, (s.dropWhile p).rtakeWhile p, ?_, fun c => List.mem_takeWhile_imp, fun c => List.mem_rtakeWhile_imp,
    ⟨fun c t h => ?_, fun c t h => ?_⟩⟩
  · rw [List.append_assoc, List.rdropWhile_append_rtakeWhile, List.takeWhile_append_dropWhile]
  · obtain ⟨u, hu⟩ := List.rdropWhile_prefix p (s.dropWhile p)
    rw [h, List.cons_append] at hu
    have hhead := List.head_dropWhile_not p (l := s) (by simp [← hu])
    simpa [← hu] using hhead
  · have hlast := List.rdropWhile_last_not p (s.dropWhile p) (by simp [h])
    simpa [h] using hlast

theorem trim_around {p : Char → Bool} (hx : ∀ c ∈ x, p c = true) (hy : ∀ c ∈ y, p c = true) (hm : Trimmed p t) :
    ((x ++ t ++ y).dropWhile p).rdropWhile p = t := by
  have hdrop : (x ++ t ++ y).dropWhile p = t ++ y ∨ t = [] := by
    rw [List.append_assoc, List.dropWhile_append_of_pos hx]
    cases t with
    | nil => exact Or.inr rfl
    | cons c t => exact Or.inl (List.dropWhile_cons_of_neg (by simp [hm.head c t rfl]))
  rcases hdrop with hdrop | rfl
  · rw [hdrop, List.rdropWhile, List.reverse_append, List.dropWhile_append_of_pos (by simpa using hy)]
    change t.rdropWhile p = t
    rcases List.eq_nil_or_concat t with rfl | ⟨t', c, rfl⟩
    · rfl
    · rw [List.concat_eq_append, List.rdropWhile_concat_neg]
      simp [hm.last c t' (by simp)]
  · have hall : (x ++ [] ++ y).dropWhile p = [] := by
      rw [List.dropWhile_eq_nil_iff]
      intro c hc
      rw [List.append_nil, List.mem_append] at hc
      exact hc.elim (hx c) (hy c)
    rw [hall]
    rfl

theorem layout_space (h : ∀ c ∈ t, isSpace c = true) : ∀ c ∈ layout t, isSpace c = true := by
  intro c hc
  rcases mem_layout hc with rfl | rfl | ⟨hc, -⟩
  · decide
  · decide
  · exact h c hc

theorem layout_concat (hd : isSpace d = false) (t y : Text) : layout (t ++ [d] ++ y) = layout t ++ [d] ++ layout y := by
  have hgap := isGap_of_not_isSpace hd
  rw [List.append_assoc, List.singleton_append, layout_append_solid (solid_cons hgap y), layout_cons hgap]
  simp

theorem layout_trimmed (hm : Trimmed isSpace t) (hx : ∀ c ∈ x, isSpace c = true) (hy : ∀ c ∈ y, isSpace c = true) :
    strip (layout (x ++ t ++ y)) = layout t ∧ Trimmed isSpace (layout t) := by
  rcases List.eq_nil_or_concat t with rfl | ⟨t', d, rfl⟩
  · refine ⟨?_, hm⟩
    rw [List.append_nil]
    exact strip_eq_nil.mpr (layout_space fun c hc => (List.mem_append.mp hc).elim (hx c) (hy c))
  · rw [List.concat_eq_append] at *
    have hd := hm.last d t' rfl
    have hlast : layout (t' ++ [d]) = layout t' ++ [d] := by simpa [layout, rewrite_nil] using layout_concat hd t' []
    have hsolid : Solid (t' ++ [d] ++ y) := by
      cases t' with
      | nil => exact solid_cons (isGap_of_not_isSpace hd) y
      | cons e t' => exact solid_cons (isGap_of_not_isSpace (hm.head e (t' ++ [d]) rfl)) _
    have htrim : Trimmed isSpace (layout (t' ++ [d])) := by
      constructor
      · intro c u h
        cases t' with
        | nil =>
            rw [hlast] at h
            exact (List.cons.inj h).1 ▸ hd
        | cons e t' =>
            have he := hm.head e (t' ++ [d]) rfl
            rw [List.cons_append, layout_cons (isGap_of_not_isSpace he)] at h
            exact (List.cons.inj h).1 ▸ he
      · intro c u h
        rw [hlast] at h
        exact (List.singleton_inj.mp (List.append_inj' h rfl).2) ▸ hd
    refine ⟨?_, htrim⟩
    rw [List.append_assoc, layout_append_solid hsolid, layout_concat hd, ← hlast, ← List.append_assoc]
    exact trim_around (layout_space hx) (layout_space hy) htrim

theorem isSpace_of_not_visible (hv : isVisible k c = false) (hk : keeps k c = true) : isSpace c = true := by
  simpa [isVisible, hk] using hv

theorem kept_space (h : ∀ c ∈ x, isVisible k c = false) : ∀ c ∈ kept k x, isSpace c = true := fun c hc =>
  isSpace_of_not_visible (h c (mem_kept.mp hc).1) (mem_kept.mp hc).2

theorem kept_trimmed (hm : Trimmed (!isVisible k ·) t) : Trimmed isSpace (kept k t) := by
  constructor
  · intro c u h
    cases t with
    | nil => cases h
    | cons d t =>
        have hd := isVisible_iff.mp (by simpa using hm.head d t rfl)
        rw [kept, List.filter_cons_of_pos hd.1] at h
        exact (List.cons.inj h).1 ▸ hd.2
  · intro c u h
    rcases List.eq_nil_or_concat t with rfl | ⟨t', d, rfl⟩
    · simp [kept] at h
    · have hd := isVisible_iff.mp (by simpa using hm.last d t' (by simp))
      rw [kept, List.concat_eq_append, List.filter_append, List.filter_cons_of_pos hd.1] at h
      exact (List.singleton_inj.mp (List.append_inj' h rfl).2) ▸ hd.2

/-- The result is the layout of what is left between the first and the last visible character. -/
theorem sanitizeText_around (hx : ∀ c ∈ x, isVisible k c = false) (hy : ∀ c ∈ y, isVisible k c = false)
    (hm : Trimmed (!isVisible k ·) t) : sanitizeText k.isOther (x ++ t ++ y) = layout (kept k t) ∧
      Trimmed isSpace (layout (kept k t)) := by
  rw [sanitizeText_eq, kept, List.filter_append, List.filter_append]
  exact layout_trimmed (kept_trimmed hm) (kept_space hx) (kept_space hy)

theorem core_split (k : Categories) (s : Text) : ∃ x y, s = x ++ core k s ++ y ∧ (∀ c ∈ x, isVisible k c = false) ∧
    (∀ c ∈ y, isVisible k c = false) ∧ Trimmed (!isVisible k ·) (core k s) := by
  obtain ⟨x, y, hs, hx, hy, hm⟩ := trim_split (!isVisible k ·) s
  exact ⟨x, y, hs, fun c hc => by simpa using hx c hc, fun c hc => by simpa using hy c hc, hm⟩

theorem sanitizeText_core (k : Categories) (s : Text) : sanitizeText k.isOther s = layout (kept k (core k s)) := by
  obtain ⟨x, y, hs, hx, hy, hm⟩ := core_split k s
  rw [congrArg (sanitizeText k.isOther) hs]
  exact (sanitizeText_around hx hy hm).1

/-! ## Once is enough -/

theorem kept_layout (t : Text) : kept k (layout (kept k t)) = layout (kept k t) := by
  refine List.filter_eq_self.mpr fun c hc => ?_
  rcases mem_layout hc with rfl | rfl | ⟨hc, -⟩
  · exact keeps_gap rfl
  · exact keeps_gap rfl
  · exact (mem_kept.mp hc).2

theorem sanitizeText_sanitizeText (k : Categories) (s : Text) :
    sanitizeText k.isOther (sanitizeText k.isOther s) = sanitizeText k.isOther s := by
  obtain ⟨x, y, hs, hx, hy, hm⟩ := core_split k s
  obtain ⟨he, htrim⟩ := sanitizeText_around hx hy hm
  rw [congrArg (sanitizeText k.isOther) hs, he, sanitizeText_eq, kept_layout, layout_layout, strip]
  have hno : ∀ c ∈ ([] : Text), isSpace c = true := fun _ hc => absurd hc List.not_mem_nil
  simpa using trim_around hno hno htrim

theorem mem_sanitizeText (h : c ∈ sanitizeText k.isOther s) (hc : c ≠ '\n') : k.isOther c = false := by
  rw [sanitizeText_core] at h
  rcases mem_layout h with rfl | rfl | ⟨h, hgap⟩
  · exact absurd rfl hc
  · exact k.isOther_space
  · have hk := (mem_kept.mp h).2
    have htab : c ≠ '\t' := fun h => absurd hgap (by rw [h]; decide)
    simpa [keeps, hc, htab] using hk

/-! ## Line breaks -/

theorem unifyBreaks_return (h : s.head? ≠ some '\n') : unifyBreaks ('\r' :: s) = '\n' :: unifyBreaks s :=
  unifyBreaks.eq_2 s fun t ht => h (by rw [ht]; rfl)

theorem unifyBreaks_cons (h : c ≠ '\r') (s : Text) : unifyBreaks (c :: s) = c :: unifyBreaks s :=
  unifyBreaks.eq_3 c s (fun _ hc => absurd hc h) h

theorem loneReturns_return (h : s.head? ≠ some '\n') : loneReturns ('\r' :: s) = loneReturns s + 1 :=
  loneReturns.eq_2 s fun t ht => h (by rw [ht]; rfl)

theorem loneReturns_cons (h : c ≠ '\r') (s : Text) : loneReturns (c :: s) = loneReturns s :=
  loneReturns.eq_3 c s (fun _ hc => absurd hc h) h

/-- Reasoning along a text: over a carriage return and the line feed behind it at once. -/
theorem break_induction {p : Text → Prop} (nil : p []) (both : ∀ s, p s → p ('\r' :: '\n' :: s))
    (lone : ∀ s, s.head? ≠ some '\n' → p s → p ('\r' :: s)) (cons : ∀ c s, c ≠ '\r' → p s → p (c :: s)) (s : Text) : p s := by
  fun_induction unifyBreaks s with
  | case1 s ih => exact both s ih
  | case2 s hs ih =>
      refine lone s (fun h => ?_) ih
      cases s with
      | nil => cases h
      | cons d s =>
          cases h
          exact hs s rfl
  | case3 c s _ hc ih => exact cons c s (fun h => hc h) ih
  | case4 => exact nil

theorem unifyBreaks_append (ht : t.head? ≠ some '\n') (x : Text) :
    unifyBreaks (x ++ t) = unifyBreaks x ++ unifyBreaks t := by
  induction x using break_induction with
  | nil => rfl
  | both x ih => simp only [List.cons_append, unifyBreaks, ih]
  | lone x hx ih =>
      have hxt : (x ++ t).head? ≠ some '\n' := by
        cases x with
        | nil => exact ht
        | cons d x => exact hx
      rw [List.cons_append, unifyBreaks_return hxt, unifyBreaks_return hx, ih, List.cons_append]
  | cons c x hc ih => rw [List.cons_append, unifyBreaks_cons hc, unifyBreaks_cons hc, ih, List.cons_append]

theorem mem_unifyBreaks (h : c ∈ unifyBreaks s) : c = '\n' ∨ c ∈ s := by
  induction s using break_induction with
  | nil => cases h
  | both s ih =>
      rcases List.mem_cons.mp h with rfl | h
      · exact Or.inl rfl
      · exact (ih h).imp_right fun h => List.mem_cons_of_mem _ (List.mem_cons_of_mem _ h)
  | lone s hs ih =>
      rw [unifyBreaks_return hs, List.mem_cons] at h
      rcases h with rfl | h
      · exact Or.inl rfl
      · exact (ih h).imp_right fun h => List.mem_cons_of_mem _ h
  | cons d s hd ih =>
      rw [unifyBreaks_cons hd, List.mem_cons] at h
      rcases h with rfl | h
      · exact Or.inr List.mem_cons_self
      · exact (ih h).imp_right fun h => List.mem_cons_of_mem _ h

theorem count_unifyBreaks (s : Text) : (unifyBreaks s).count '\n' = s.count '\n' + loneReturns s := by
  induction s using break_induction with
  | nil => rfl
  | both s ih =>
      rw [unifyBreaks, loneReturns, List.count_cons_self, List.count_cons_of_ne (by decide), List.count_cons_self, ih]
      omega
  | lone s hs ih =>
      rw [unifyBreaks_return hs, loneReturns_return hs, List.count_cons_self, List.count_cons_of_ne (by decide), ih]
      omega
  | cons c s hc ih =>
      rw [unifyBreaks_cons hc, loneReturns_cons hc, List.count_cons, List.count_cons, ih]
      omega

theorem kept_cons (c : Char) (s : Text) : kept k (c :: s) = if keeps k c then c :: kept k s else kept k s := by
  rw [kept, List.filter_cons]
  rfl

theorem count_kept (s : Text) : (kept k s).count '\n' = s.count '\n' :=
  List.count_filter (by simp [keeps])

theorem kept_unifyBreaks (h : loneReturns s = 0) : kept k (unifyBreaks s) = kept k s := by
  induction s using break_induction with
  | nil => rfl
  | both s ih =>
      rw [unifyBreaks, kept_cons, kept_cons, kept_cons, ih h]
      simp [not_keeps_return]
  | lone s hs ih =>
      rw [loneReturns_return hs] at h
      exact absurd h (Nat.succ_ne_zero _)
  | cons c s hc ih =>
      rw [loneReturns_cons hc] at h
      rw [unifyBreaks_cons hc, kept_cons, kept_cons, ih h]

theorem count_gapText (run : Text) : (gapText run).count '\n' = min 2 (run.count '\n') := by
  rw [gapText]
  split
  · rename_i h
    rw [h]
    rfl
  · split
    · exact List.count_replicate_self
    · rename_i h
      rw [List.count_eq_zero.mpr h]
      rfl

theorem gapText_of_two (h : 2 ≤ run.count '\n') : gapText run = ['\n', '\n'] := by
  have hm : '\n' ∈ run := List.count_pos_iff.mp (by omega)
  rw [gapText, if_neg (List.ne_nil_of_mem hm), if_pos hm, Nat.min_eq_left h]
  rfl

/-- A lone carriage return does not count in a stretch with two line feeds, and it does in any other. -/
theorem gapText_unify (g : Text) : gapText (kept k g) = gapText (kept k (unifyBreaks g)) ↔
    loneReturns g = 0 ∨ 2 ≤ g.count '\n' := by
  constructor
  · intro h
    have hcount := congrArg (List.count '\n') h
    rw [count_gapText, count_gapText, count_kept, count_kept, count_unifyBreaks] at hcount
    omega
  · rintro (h | h)
    · rw [kept_unifyBreaks h]
    · rw [gapText_of_two (by rwa [count_kept]), gapText_of_two (by rw [count_kept, count_unifyBreaks]; omega)]

/-! ## Stretch by stretch -/

/-- Reasoning along a text that is cut at the characters of a kind. -/
theorem cut_induction (p : Char → Bool) {q : Text → Prop} (single : ∀ g, (∀ c ∈ g, p c = false) → q g)
    (cut : ∀ g c t, (∀ d ∈ g, p d = false) → p c = true → q t → q (g ++ c :: t)) (s : Text) : q s := by
  induction hn : s.length using Nat.strong_induction_on generalizing s with
  | _ n ih =>
      subst hn
      have hs := List.takeWhile_append_dropWhile (p := fun c => !p c) (l := s)
      have hg : ∀ c ∈ s.takeWhile fun c => !p c, p c = false := fun c hc => by
        simpa using List.mem_takeWhile_imp hc
      cases hd : s.dropWhile fun c => !p c with
      | nil =>
          rw [hd, List.append_nil] at hs
          exact single s (hs ▸ hg)
      | cons c t =>
          have hc : p c = true := by simpa using head_dropWhile hd
          have hlen := (List.dropWhile_suffix (l := s) fun c => !p c).length_le
          rw [hd, List.length_cons] at hlen
          rw [← hs, hd]
          exact cut _ c t hg hc (ih t.length hlen t rfl)

theorem kept_append (s t : Text) : kept k (s ++ t) = kept k s ++ kept k t := List.filter_append s t

theorem isGap_kept (h : ∀ c ∈ g, isSolid k c = false) : ∀ c ∈ kept k g, isGap c = true := fun c hc => by
  obtain ⟨hg, hk⟩ := mem_kept.mp hc
  simpa [isSolid, hk] using h c hg

theorem not_solid_unifyBreaks (h : ∀ c ∈ g, isSolid k c = false) : ∀ c ∈ unifyBreaks g, isSolid k c = false := fun c hc => by
  rcases mem_unifyBreaks hc with rfl | hc
  · simp [isSolid, isGap]
  · exact h c hc

theorem layout_cut {g' t' : Text} (hg : ∀ d ∈ g, isGap d = true) (hg' : ∀ d ∈ g', isGap d = true) (hc : isGap c = false) :
    layout (g ++ c :: t) = layout (g' ++ c :: t') ↔ gapText g = gapText g' ∧ layout t = layout t' := by
  rw [layout_run hg (solid_cons hc t), layout_run hg' (solid_cons hc t'), layout_cons hc, layout_cons hc]
  have hgap : ∀ run, ∀ d ∈ gapText run, isGap d = true := fun run d hd => by
    rcases isGap_gapText hd with rfl | rfl <;> rfl
  constructor
  · intro h
    have htake := congrArg (List.takeWhile isGap) h
    rw [List.takeWhile_append_of_pos (hgap g), List.takeWhile_append_of_pos (hgap g'),
      List.takeWhile_cons_of_neg (by simp [hc]),
      List.takeWhile_cons_of_neg (by simp [hc]), List.append_nil, List.append_nil] at htake
    rw [htake, List.append_cancel_left_eq, List.cons.injEq] at h
    exact ⟨htake, h.2⟩
  · rintro ⟨hgt, hl⟩
    rw [hgt, hl]

theorem layout_unifyBreaks (t : Text) : layout (kept k t) = layout (kept k (unifyBreaks t)) ↔
    ∀ g ∈ t.splitOnP (isSolid k), loneReturns g = 0 ∨ 2 ≤ g.count '\n' := by
  induction t using cut_induction (isSolid k) with
  | single g hg =>
      rw [List.splitOnP_eq_singleton hg, List.forall_mem_singleton, ← gapText_unify (k := k),
        layout_gap (isGap_kept hg), layout_gap (isGap_kept (not_solid_unifyBreaks hg))]
  | cut g c t hg hc ih =>
      have hkeep : keeps k c = true ∧ isGap c = false := by simpa [isSolid] using hc
      have hreturn : c ≠ '\r' := fun h => by simpa [h, not_keeps_return] using hkeep.1
      have hfeed : (c :: t).head? ≠ some '\n' := fun h => by
        cases h
        exact absurd hkeep.2 (by decide)
      rw [List.splitOnP_append_cons_of_forall_mem hg c hc, List.forall_mem_cons, ← gapText_unify (k := k), ← ih,
        unifyBreaks_append hfeed, unifyBreaks_cons hreturn, kept_append, kept_append, kept_cons, kept_cons, if_pos hkeep.1,
        if_pos hkeep.1, layout_cut (isGap_kept hg) (isGap_kept (not_solid_unifyBreaks hg)) hkeep.2]

theorem visible_ne (h : isVisible k c = true) : c ≠ '\r' ∧ c ≠ '\n' := by
  rw [isVisible_iff] at h
  constructor
  · rintro rfl
    exact absurd h.2 (by decide)
  · rintro rfl
    exact absurd h.2 (by decide)

theorem not_visible_unifyBreaks (h : ∀ c ∈ x, isVisible k c = false) :
    ∀ c ∈ unifyBreaks x, isVisible k c = false := fun c hc => by
  rcases mem_unifyBreaks hc with rfl | hc
  · rw [Bool.eq_false_iff]
    exact fun h => (visible_ne h).2 rfl
  · exact h c hc

theorem unifyBreaks_concat (hd : isVisible k d = true) (t y : Text) :
    unifyBreaks (t ++ [d] ++ y) = unifyBreaks t ++ [d] ++ unifyBreaks y := by
  have hfeed : (d :: y).head? ≠ some '\n' := fun h => (visible_ne hd).2 (Option.some.inj h)
  rw [List.append_assoc, List.singleton_append, unifyBreaks_append hfeed, unifyBreaks_cons (visible_ne hd).1]
  simp

/-- The line breaks of the three conventions come to the same exactly if every stretch of blanks, line breaks and lost
characters that has a lone carriage return has two line feeds. -/
theorem sanitizeText_unifyBreaks (k : Categories) (s : Text) :
    sanitizeText k.isOther s = sanitizeText k.isOther (unifyBreaks s) ↔
      ∀ g ∈ (core k s).splitOnP (isSolid k), loneReturns g = 0 ∨ 2 ≤ g.count '\n' := by
  obtain ⟨x, y, hs, hx, hy, hm⟩ := core_split k s
  rw [← layout_unifyBreaks, sanitizeText_core]
  have hunify : sanitizeText k.isOther (unifyBreaks s) = layout (kept k (unifyBreaks (core k s))) := by
    rcases List.eq_nil_or_concat (core k s) with hnil | ⟨m, w, hm'⟩
    · rw [hnil, List.append_nil] at hs
      have hall : ∀ c ∈ s, isVisible k c = false := fun c hc => by
        rw [hs, List.mem_append] at hc
        exact hc.elim (hx c) (hy c)
      rw [hnil]
      have hempty := (sanitizeText_around (y := []) (not_visible_unifyBreaks hall) nofun (hnil ▸ hm)).1
      rwa [List.append_nil, List.append_nil] at hempty
    · rw [List.concat_eq_append] at hm'
      rw [hm'] at hs hm ⊢
      have hw : isVisible k w = true := by simpa using hm.last w m rfl
      have hlast : unifyBreaks (m ++ [w]) = unifyBreaks m ++ [w] := by simpa [unifyBreaks] using unifyBreaks_concat hw m []
      have hhead : ((m ++ [w]) ++ y).head? ≠ some '\n' ∧ ∀ c t, unifyBreaks (m ++ [w]) = c :: t →
          (!isVisible k c) = false := by
        cases m with
        | nil =>
            refine ⟨fun h => (visible_ne hw).2 (Option.some.inj h), fun c t h => ?_⟩
            rw [hlast] at h
            rw [← (List.cons.inj h).1, hw]
            rfl
        | cons v m =>
            have hv : isVisible k v = true := by simpa using hm.head v (m ++ [w]) rfl
            refine ⟨fun h => (visible_ne hv).2 (Option.some.inj h), fun c t h => ?_⟩
            rw [List.cons_append, unifyBreaks_cons (visible_ne hv).1] at h
            rw [← (List.cons.inj h).1, hv]
            rfl
      have htrim : Trimmed (!isVisible k ·) (unifyBreaks (m ++ [w])) := by
        refine ⟨hhead.2, fun c t h => ?_⟩
        rw [hlast] at h
        rw [← List.singleton_inj.mp (List.append_inj' h rfl).2, hw]
        rfl
      rw [hs, List.append_assoc, unifyBreaks_append hhead.1, unifyBreaks_concat hw, ← hlast, ← List.append_assoc]
      exact (sanitizeText_around (not_visible_unifyBreaks hx) (not_visible_unifyBreaks hy) htrim).1
  rw [hunify]

/-! ## Words -/

/-- The words of a text, without their other characters than those of a kind. -/
def wordsOf (p : Char → Bool) (s : Text) : List Text := ((s.splitOnP isSpace).map (List.filter p)).filter (· ≠ [])

def words (s : Text) : List Text := (s.splitOnP isSpace).filter (· ≠ [])

theorem wordsOf_true (s : Text) : wordsOf (fun _ => true) s = words s := by
  have hid : (s.splitOnP isSpace).map (List.filter fun _ => true) = s.splitOnP isSpace := by
    rw [List.map_congr_left fun w _ => List.filter_eq_self.mpr fun _ _ => rfl, List.map_id']
  rw [wordsOf, words, hid]

/-- A first word, unless it is empty, and others. -/
def allWords (w : Text × List Text) : List Text := if w.1 = [] then w.2 else w.1 :: w.2

/-- The word that a text begins with, which may be empty, and the ones behind it. -/
def wordsFrom (p : Char → Bool) : Text → Text × List Text
  | [] => ([], [])
  | c :: s =>
      let w := wordsFrom p s
      if isSpace c then ([], allWords w) else if p c then (c :: w.1, w.2) else w

theorem wordsOf_eq (p : Char → Bool) (s : Text) : wordsOf p s = allWords (wordsFrom p s) := by
  have hparts : ∃ w ws, (s.splitOnP isSpace).map (List.filter p) = w :: ws ∧ wordsFrom p s = (w, ws.filter (· ≠ [])) := by
    induction s with
    | nil => exact ⟨[], [], rfl, rfl⟩
    | cons c s ih =>
        obtain ⟨w, ws, hw, hfrom⟩ := ih
        obtain ⟨v, vs, hv⟩ := List.exists_cons_of_ne_nil (List.splitOnP_ne_nil isSpace s)
        rw [hv, List.map_cons, List.cons.injEq] at hw
        rw [List.splitOnP_cons_eq_if_modifyHead, wordsFrom, hfrom, hv]
        cases isSpace c with
        | true =>
            refine ⟨[], w :: ws, ?_, ?_⟩
            · simp [hw.1, hw.2]
            · by_cases hnil : w = [] <;> simp [hnil, allWords]
        | false =>
            cases hp : p c with
            | true => exact ⟨c :: w, ws, by simp [hp, hw.1, hw.2], by simp⟩
            | false => exact ⟨w, ws, by simp [hp, hw.1, hw.2], by simp⟩
  obtain ⟨w, ws, hw, hfrom⟩ := hparts
  rw [wordsOf, allWords, hw, hfrom]
  by_cases hnil : w = [] <;> simp [hnil]

variable {p : Char → Bool}

theorem wordsFrom_space (hc : isSpace c = true) (s : Text) : wordsFrom p (c :: s) = ([], allWords (wordsFrom p s)) := by
  rw [wordsFrom, if_pos hc]

theorem wordsFrom_other (hc : isSpace c = false) (s : Text) :
    wordsFrom p (c :: s) = if p c then (c :: (wordsFrom p s).1, (wordsFrom p s).2) else wordsFrom p s := by
  simp [wordsFrom, hc]

/-- Whitespace and characters that do not count divide two words if there is any whitespace. -/
theorem wordsFrom_gap (hg : ∀ c ∈ g, isSpace c = true ∨ p c = false) (s : Text) : wordsFrom p (g ++ s) =
    if g.any isSpace then ([], allWords (wordsFrom p s)) else wordsFrom p s := by
  induction g with
  | nil => rfl
  | cons c g ih =>
      rw [List.forall_mem_cons] at hg
      rw [List.cons_append, List.any_cons]
      cases hc : isSpace c with
      | true =>
          rw [wordsFrom_space hc, ih hg.2, Bool.true_or, if_pos rfl]
          by_cases hany : g.any isSpace = true
          · rw [if_pos hany]
            rfl
          · rw [if_neg hany]
      | false =>
          have hp : p c = false := hg.1.resolve_left (by simp [hc])
          rw [wordsFrom_other hc, hp, ih hg.2, Bool.false_or]
          rfl

theorem wordsFrom_blank (hg : ∀ c ∈ g, isSpace c = true) (hne : g ≠ []) (s : Text) :
    wordsFrom p (g ++ s) = ([], allWords (wordsFrom p s)) := by
  have hany : g.any isSpace = true := by
    obtain ⟨c, hc⟩ := List.exists_mem_of_ne_nil g hne
    exact List.any_eq_true.mpr ⟨c, hc, hg c hc⟩
  rw [wordsFrom_gap (fun c hc => Or.inl (hg c hc)), if_pos hany]

theorem wordsFrom_layout (t : Text) : wordsFrom p (layout t) = wordsFrom p t := by
  induction t using gap_induction with
  | nil => rfl
  | solid c t hc ih => rw [layout_cons hc, wordsFrom, wordsFrom, ih]
  | gap run t hne hrun ht ih =>
      have hgap : gapText run ≠ [] := by
        rw [gapText, if_neg hne]
        split
        · rename_i hm
          have := List.count_pos_iff.mpr hm
          simp
          omega
        · simp
      have hspace : ∀ c ∈ gapText run, isSpace c = true := fun c hc => by
        rcases isGap_gapText hc with rfl | rfl <;> decide
      rw [layout_run hrun ht, wordsFrom_blank hspace hgap, wordsFrom_blank (fun c hc => isSpace_of_isGap (hrun c hc)) hne, ih]

/-- The words of what is left are those of the text exactly if no stretch without visible characters loses all of its
whitespace. -/
theorem wordsFrom_kept (ht : ∀ c u, t = u ++ [c] → isVisible k c = true) :
    wordsFrom (fun _ => true) (kept k t) = wordsFrom (keeps k) t ↔
      ∀ g ∈ t.splitOnP (isVisible k), (∃ c ∈ g, isSpace c = true) → ∃ c ∈ g, isSpace c = true ∧ keeps k c = true := by
  induction t using cut_induction (isVisible k) with
  | single g hg =>
      have hnil : g = [] := by
        rcases List.eq_nil_or_concat g with hnil | ⟨u, c, rfl⟩
        · exact hnil
        · have hc := ht c u (by simp)
          rw [hg c (by simp)] at hc
          cases hc
      rw [List.splitOnP_eq_singleton hg, hnil]
      simp [kept, wordsFrom]
  | cut g c t hg hc ih =>
      have hlast : ∀ d u, t = u ++ [d] → isVisible k d = true := fun d u h => ht d (g ++ c :: u) (by rw [h]; simp)
      obtain ⟨hkeep, hspace⟩ := isVisible_iff.mp hc
      have hgap : ∀ d ∈ g, isSpace d = true ∨ keeps k d = false := fun d hd => by
        have hd := hg d hd
        rw [isVisible, Bool.and_eq_false_iff, Bool.not_eq_false'] at hd
        exact hd.symm
      have hany : (kept k g).any isSpace = true ↔ ∃ d ∈ g, isSpace d = true ∧ keeps k d = true := by
        simp only [List.any_eq_true, mem_kept]
        exact ⟨fun ⟨d, ⟨hd, hk⟩, hs⟩ => ⟨d, hd, hs, hk⟩, fun ⟨d, hd, hs, hk⟩ => ⟨d, ⟨hd, hk⟩, hs⟩⟩
      rw [List.splitOnP_append_cons_of_forall_mem hg c hc, List.forall_mem_cons, ← ih hlast, ← hany, ← List.any_eq_true,
        kept_append, kept_cons, if_pos hkeep, wordsFrom_gap (fun d hd => Or.inl (kept_space hg d hd)), wordsFrom_gap hgap,
        wordsFrom_other hspace, wordsFrom_other hspace, if_pos rfl, if_pos hkeep]
      by_cases hs : g.any isSpace = true
      · by_cases hk : (kept k g).any isSpace = true
        · simp [hs, hk, allWords, Prod.ext_iff]
        · simp [hs, hk]
      · have hk : ¬(kept k g).any isSpace = true := fun h => hs (by
          rw [List.any_eq_true] at h ⊢
          obtain ⟨d, hd, hd'⟩ := h
          exact ⟨d, (mem_kept.mp hd).1, hd'⟩)
        simp [hs, hk, Prod.ext_iff]

theorem wordsFrom_append (hg : ∀ c ∈ g, isSpace c = true ∨ p c = false) (s : Text) :
    wordsFrom p (s ++ g) = wordsFrom p s := by
  have hnil : wordsFrom p g = ([], []) := by
    have hgap := wordsFrom_gap hg []
    rw [List.append_nil] at hgap
    rw [hgap]
    split <;> rfl
  induction s with
  | nil => exact hnil
  | cons c s ih => rw [List.cons_append, wordsFrom, wordsFrom, ih]

theorem allWords_gap (hg : ∀ c ∈ g, isSpace c = true ∨ p c = false) (s : Text) :
    allWords (wordsFrom p (g ++ s)) = allWords (wordsFrom p s) := by
  rw [wordsFrom_gap hg]
  split <;> rfl

theorem space_or_lost (hg : ∀ c ∈ g, isVisible k c = false) : ∀ c ∈ g, isSpace c = true ∨ keeps k c = false := fun c hc => by
  have hc := hg c hc
  rw [isVisible, Bool.and_eq_false_iff, Bool.not_eq_false'] at hc
  exact hc.symm

/-- The words of the result are those of the text, without lost characters, exactly if no stretch between two visible
characters loses all of its whitespace. -/
theorem words_sanitizeText (k : Categories) (s : Text) :
    words (sanitizeText k.isOther s) = wordsOf (keeps k) s ↔
      ∀ g ∈ (core k s).splitOnP (isVisible k), (∃ c ∈ g, isSpace c = true) → ∃ c ∈ g, isSpace c = true ∧
        keeps k c = true := by
  obtain ⟨x, y, hs, hx, hy, hm⟩ := core_split k s
  have hlast : ∀ c u, core k s = u ++ [c] → isVisible k c = true := fun c u h => by simpa using hm.last c u h
  -- the whitespace around the visible characters divides no words
  have haround : wordsOf (keeps k) s = allWords (wordsFrom (keeps k) (core k s)) := by
    rw [congrArg (wordsOf (keeps k)) hs, wordsOf_eq, wordsFrom_append (space_or_lost hy), allWords_gap (space_or_lost hx)]
  rw [← wordsFrom_kept hlast, haround, sanitizeText_core, ← wordsOf_true, wordsOf_eq, wordsFrom_layout]
  refine ⟨fun h => ?_, fun h => by rw [h]⟩
  cases hcore : core k s with
  | nil => rfl
  | cons v t =>
      obtain ⟨hkeep, hspace⟩ := isVisible_iff.mp (by simpa using hm.head v t hcore)
      rw [hcore] at h
      rw [kept_cons, if_pos hkeep, wordsFrom_other hspace, wordsFrom_other hspace, if_pos rfl, if_pos hkeep] at h ⊢
      simpa [allWords, Prod.ext_iff] using h

end Etoeragcb.Web
