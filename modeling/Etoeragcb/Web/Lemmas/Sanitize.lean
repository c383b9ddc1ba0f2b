import Etoeragcb.Web.Extract
import Mathlib.Tactic.Common

/-!
# What is left of the gaps of a text

The three rewriting passes of `sanitize_text` work on each stretch of blanks and line breaks alone.
-/

namespace Etoeragcb.Web

open Lib

variable {s t run x y : Text} {c : Char}

def isGap (c : Char) : Bool := c = ' ' || c = '\t' || c = '\n'

/-- What a stretch of blanks and line feeds becomes. -/
def gapText (run : Text) : Text :=
  if run = [] then []
  else if '\n' ∈ run then List.replicate (min 2 (run.count '\n')) '\n'
  else [' ']

def layout (s : Text) : Text := rewrite breaksRun (rewrite breakRun (rewrite blankRun s))

/-! ## One pass after the other -/

theorem isGap_iff : isGap c = true ↔ c = ' ' ∨ c = '\t' ∨ c = '\n' := by
  simp [isGap, or_assoc]

/-- The text does not go on with a blank or a line feed. -/
def Solid (t : Text) : Prop := ∀ c ∈ t.head?, isGap c = false

theorem takeWhile_append_solid {p : Char → Bool} (hp : ∀ c, p c = true → isGap c = true) (ht : Solid t) (x : Text) :
    (x ++ t).takeWhile p = x.takeWhile p := by
  induction x with
  | nil =>
      cases t with
      | nil => rfl
      | cons c t =>
          have hc : ¬p c = true := fun h => by simpa [ht c rfl] using hp c h
          exact List.takeWhile_cons_of_neg hc
  | cons d x ih =>
      rw [List.cons_append, List.takeWhile_cons, List.takeWhile_cons, ih]

theorem dropWhile_append_solid {p : Char → Bool} (hp : ∀ c, p c = true → isGap c = true) (ht : Solid t) (x : Text) :
    (x ++ t).dropWhile p = x.dropWhile p ++ t := by
  induction x with
  | nil =>
      cases t with
      | nil => rfl
      | cons c t =>
          have hc : ¬p c = true := fun h => by simpa [ht c rfl] using hp c h
          exact List.dropWhile_cons_of_neg hc
  | cons d x ih =>
      rw [List.cons_append, List.dropWhile_cons, List.dropWhile_cons, ih]
      split <;> rfl

theorem blank_isGap (c : Char) (h : (decide (c = '\t') || decide (c = ' ')) = true) : isGap c = true := by
  simp only [Bool.or_eq_true, decide_eq_true_eq] at h
  rcases h with rfl | rfl <;> rfl

theorem space_isGap (c : Char) (h : decide (c = ' ') = true) : isGap c = true := by
  rw [of_decide_eq_true h]
  rfl

theorem feed_isGap (c : Char) (h : decide (c = '\n') = true) : isGap c = true := by
  rw [of_decide_eq_true h]
  rfl

theorem blankRun_append (ht : Solid t) (y : Text) : blankRun (y ++ t) = blankRun y := by
  rw [blankRun, blankRun, takeWhile_append_solid blank_isGap ht]

theorem breakRun_append (ht : Solid t) (y : Text) : breakRun (y ++ t) = breakRun y := by
  rw [breakRun, breakRun, takeWhile_append_solid space_isGap ht, dropWhile_append_solid space_isGap ht]
  cases hd : y.dropWhile fun c => decide (c = ' ') with
  | nil =>
      cases t with
      | nil => rfl
      | cons c t =>
          have hc : c ≠ '\n' := fun h => absurd (ht c rfl) (by rw [h]; decide)
          simp [hc]
  | cons c rest =>
      by_cases hc : c = '\n'
      · simp only [hc, List.cons_append, takeWhile_append_solid space_isGap ht]
      · simp [hc]

theorem breaksRun_append (ht : Solid t) (y : Text) : breaksRun (y ++ t) = breaksRun y := by
  rw [breaksRun, breaksRun, takeWhile_append_solid feed_isGap ht]

theorem blankRun_length {y r : Text} {n : Nat} (h : blankRun y = some (r, n)) : n ≤ y.length := by
  rw [blankRun] at h
  split at h
  · cases h
  · cases h
    exact (List.takeWhile_sublist _).length_le

theorem breakRun_length {y r : Text} {n : Nat} (h : breakRun y = some (r, n)) : n ≤ y.length := by
  rw [breakRun] at h
  split at h
  · rename_i rest hd
    cases h
    have hy := congrArg List.length (List.takeWhile_append_dropWhile (p := fun c => decide (c = ' ')) (l := y))
    have hrest := (List.takeWhile_sublist (l := rest) fun c => decide (c = ' ')).length_le
    rw [hd, List.length_append, List.length_cons] at hy
    omega
  · cases h

theorem breaksRun_length {y r : Text} {n : Nat} (h : breaksRun y = some (r, n)) : n ≤ y.length := by
  simp only [breaksRun, Option.ite_none_right_eq_some] at h
  cases h.2
  exact (List.takeWhile_sublist _).length_le

/-! ## All three together -/

theorem solid_cons (hc : isGap c = false) (t : Text) : Solid (c :: t) := fun d hd => by
  cases hd
  exact hc

theorem blankRun_solid (hc : isGap c = false) (t : Text) : blankRun (c :: t) = none := by
  simpa [blankRun, List.takeWhile_nil] using blankRun_append (solid_cons hc t) []

theorem breakRun_solid (hc : isGap c = false) (t : Text) : breakRun (c :: t) = none := by
  have hspace : c ≠ ' ' := fun h => absurd hc (by rw [h]; decide)
  have hfeed : c ≠ '\n' := fun h => absurd hc (by rw [h]; decide)
  simp [breakRun, hspace, hfeed]

theorem breaksRun_solid (hc : isGap c = false) (t : Text) : breaksRun (c :: t) = none := by
  simpa [breaksRun] using breaksRun_append (solid_cons hc t) []

theorem rewrite_solid {rule : Rule Char} (hrule : ∀ c t, isGap c = false → rule (c :: t) = none) (ht : Solid t) :
    Solid (rewrite rule t) := by
  cases t with
  | nil => exact ht
  | cons c t =>
      have hc := ht c rfl
      rw [rewrite_keep (hrule c t hc)]
      exact solid_cons hc _

theorem layout_cons (hc : isGap c = false) (t : Text) : layout (c :: t) = c :: layout t := by
  rw [layout, rewrite_keep (blankRun_solid hc t), rewrite_keep (breakRun_solid hc _), rewrite_keep (breaksRun_solid hc _)]
  rfl

theorem layout_append_solid (ht : Solid t) (x : Text) : layout (x ++ t) = layout x ++ layout t := by
  have h₁ := rewrite_solid (fun c t h => blankRun_solid h t) ht
  have h₂ := rewrite_solid (fun c t h => breakRun_solid h t) h₁
  rw [layout, rewrite_append_local (fun y _ _ => blankRun_append ht y) fun y r n _ h => blankRun_length h,
    rewrite_append_local (fun y _ _ => breakRun_append h₁ y) fun y r n _ h => breakRun_length h,
    rewrite_append_local (fun y _ _ => breaksRun_append h₂ y) fun y r n _ h => breaksRun_length h]
  rfl

/-! ## A stretch of blanks and line feeds -/

def Spaced (s : Text) : Prop := ∀ c ∈ s, c = ' ' ∨ c = '\n'

def isBlank (c : Char) : Bool := c = '\t' || c = ' '

theorem count_dropWhile {p : Char → Bool} (hp : p '\n' = false) (s : Text) : (s.dropWhile p).count '\n' = s.count '\n' := by
  induction s with
  | nil => rfl
  | cons c s ih =>
      rw [List.dropWhile_cons]
      split
      · rename_i hc
        have hne : c ≠ '\n' := fun h => by rw [← h, hc] at hp; cases hp
        rw [ih, List.count_cons_of_ne hne]
      · rfl

theorem rewrite_blank (hc : isBlank c = true) (s : Text) :
    rewrite blankRun (c :: s) = ' ' :: rewrite blankRun (s.dropWhile isBlank) := by
  have hs : c :: s = (c :: s.takeWhile isBlank) ++ s.dropWhile isBlank := by
    rw [List.cons_append, List.takeWhile_append_dropWhile]
  have ht : ((c :: s).takeWhile fun c => c = '\t' || c = ' ') = c :: s.takeWhile isBlank := List.takeWhile_cons_of_pos hc
  have hb : blankRun (c :: s) = some ([' '], (c :: s.takeWhile isBlank).length) := by simp only [blankRun, ht]
  exact rewrite_split hs (List.cons_ne_nil c _) hb

theorem rewrite_feed (s : Text) : rewrite blankRun ('\n' :: s) = '\n' :: rewrite blankRun s :=
  rewrite_keep (by simp [blankRun])

theorem rewrite_break {rest : Text} (h : s.dropWhile (· = ' ') = '\n' :: rest) :
    rewrite breakRun s = '\n' :: rewrite breakRun (rest.dropWhile (· = ' ')) := by
  have hs : s = (s.takeWhile (· = ' ') ++ '\n' :: rest.takeWhile (· = ' ')) ++ rest.dropWhile (· = ' ') := by
    rw [List.append_assoc, List.cons_append, List.takeWhile_append_dropWhile, ← h, List.takeWhile_append_dropWhile]
  have hb : breakRun s = some (['\n'], (s.takeWhile (· = ' ') ++ '\n' :: rest.takeWhile (· = ' ')).length) := by
    rw [breakRun, h, List.length_append, List.length_cons]
    simp only [Option.some.injEq, Prod.mk.injEq, true_and]
    omega
  exact rewrite_split hs (by simp) hb

theorem blankRun_gap (s : Text) (h : ∀ c ∈ s, isGap c = true) : Spaced (rewrite blankRun s) ∧
    (rewrite blankRun s).count '\n' = s.count '\n' ∧ ('\n' ∉ s → s ≠ [] → rewrite blankRun s = [' ']) := by
  induction hn : s.length using Nat.strong_induction_on generalizing s with
  | _ n ih =>
      subst hn
      cases s with
      | nil => exact ⟨nofun, rfl, fun _ hne => absurd rfl hne⟩
      | cons c s =>
          rw [List.forall_mem_cons] at h
          by_cases hc : isBlank c = true
          · have hne : c ≠ '\n' := fun he => by rw [he] at hc; exact absurd hc (by decide)
            have hsub := List.dropWhile_suffix (l := s) isBlank
            obtain ⟨hspaced, hcount, -⟩ := ih (s.dropWhile isBlank).length
              (Nat.lt_succ_of_le hsub.length_le) _ (fun d hd => h.2 d (hsub.subset hd)) rfl
            rw [rewrite_blank hc]
            refine ⟨List.forall_mem_cons.mpr ⟨Or.inl rfl, hspaced⟩, ?_, fun hm _ => ?_⟩
            · rw [List.count_cons_of_ne (by decide), List.count_cons_of_ne hne, hcount, count_dropWhile (by decide)]
            · have hall : s.dropWhile isBlank = [] := List.dropWhile_eq_nil_iff.mpr fun d hd => by
                rcases isGap_iff.mp (h.2 d hd) with rfl | rfl | rfl
                · rfl
                · rfl
                · exact absurd (List.mem_cons_of_mem c hd) hm
              rw [hall, rewrite_nil]
          · have hfeed : c = '\n' := by
              rcases isGap_iff.mp h.1 with rfl | rfl | rfl
              · exact absurd rfl hc
              · exact absurd rfl hc
              · rfl
            subst hfeed
            obtain ⟨hspaced, hcount, -⟩ := ih s.length (by simp) s h.2 rfl
            rw [rewrite_feed]
            exact ⟨List.forall_mem_cons.mpr ⟨Or.inr rfl, hspaced⟩, by rw [List.count_cons, List.count_cons, hcount],
              fun hm => absurd List.mem_cons_self hm⟩

theorem dropWhile_spaced (h : Spaced s) :
    s.dropWhile (· = ' ') = [] ∨ ∃ rest, s.dropWhile (· = ' ') = '\n' :: rest ∧ Spaced rest ∧ rest.length < s.length := by
  have hsub := List.dropWhile_suffix (l := s) fun c => decide (c = ' ')
  cases hd : s.dropWhile fun c => decide (c = ' ') with
  | nil => exact Or.inl rfl
  | cons c rest =>
      rw [hd] at hsub
      have hspace : ¬c = ' ' := by simpa using head_dropWhile hd
      obtain rfl := (h c (hsub.subset List.mem_cons_self)).resolve_left hspace
      exact Or.inr ⟨rest, rfl, fun d hd => h d (hsub.subset (List.mem_cons_of_mem _ hd)),
        Nat.lt_of_succ_le hsub.length_le⟩

theorem breakRun_spaced (s : Text) (h : Spaced s) (hm : '\n' ∈ s) :
    rewrite breakRun s = List.replicate (s.count '\n') '\n' := by
  induction hn : s.length using Nat.strong_induction_on generalizing s with
  | _ n ih =>
      subst hn
      have hcount := count_dropWhile (p := fun c => decide (c = ' ')) (by decide) s
      rcases dropWhile_spaced h with hd | ⟨rest, hd, hspaced, hlt⟩
      · rw [List.dropWhile_eq_nil_iff] at hd
        exact absurd (hd _ hm) (by decide)
      · have hcount' := count_dropWhile (p := fun c => decide (c = ' ')) (by decide) rest
        rw [hd, List.count_cons_self] at hcount
        rw [rewrite_break hd, ← hcount, List.replicate_succ, ← hcount']
        congr 1
        have hsub := List.dropWhile_suffix (l := rest) fun c => decide (c = ' ')
        rcases dropWhile_spaced hspaced with hnil | ⟨rest', hd', -, -⟩
        · rw [hnil]
          rfl
        · exact ih _ (Nat.lt_of_le_of_lt hsub.length_le hlt) _ (fun c hc => hspaced c (hsub.subset hc))
            (by rw [hd']; exact List.mem_cons_self) rfl

theorem breaksRun_replicate (n : Nat) :
    rewrite breaksRun (List.replicate n '\n') = List.replicate (min 2 n) '\n' := by
  match n with
  | 0 | 1 | 2 => decide
  | n + 3 =>
      have hb : breaksRun (List.replicate (n + 3) '\n') = some (['\n', '\n'], (List.replicate (n + 3) '\n').length) := by
        have hall : (List.replicate (n + 3) '\n').takeWhile (· = '\n') = List.replicate (n + 3) '\n' := by simp
        rw [breaksRun, hall, if_pos (by simp)]
      rw [rewrite_split (List.append_nil _).symm (by simp) hb]
      simp

theorem layout_gap (h : ∀ c ∈ run, isGap c = true) : layout run = gapText run := by
  obtain ⟨hspaced, hcount, hlone⟩ := blankRun_gap run h
  rw [layout, gapText]
  split
  · rename_i hnil
    rw [hnil]
    rfl
  · rename_i hne
    split
    · rename_i hm
      have hm' : '\n' ∈ rewrite blankRun run := by rwa [← List.count_pos_iff, hcount, List.count_pos_iff]
      rw [breakRun_spaced _ hspaced hm', hcount, breaksRun_replicate]
    · rename_i hm
      rw [hlone hm hne]
      decide

/-! ## Along the stretches of a text -/

/-- Reasoning along a text: character by character, and over each stretch of blanks and line feeds at once. -/
theorem gap_induction {p : Text → Prop} (nil : p []) (solid : ∀ c t, isGap c = false → p t → p (c :: t))
    (gap : ∀ run t, run ≠ [] → (∀ c ∈ run, isGap c = true) → Solid t → p t → p (run ++ t)) (s : Text) : p s := by
  induction hn : s.length using Nat.strong_induction_on generalizing s with
  | _ n ih =>
      subst hn
      cases s with
      | nil => exact nil
      | cons c s =>
          cases hc : isGap c with
          | false => exact solid c s hc (ih s.length (by simp) s rfl)
          | true =>
              have hrun := gap (c :: s.takeWhile isGap) (s.dropWhile isGap) (List.cons_ne_nil _ _)
                (List.forall_mem_cons.mpr ⟨hc, fun d hd => List.mem_takeWhile_imp hd⟩) ?_
                (ih _ (Nat.lt_succ_of_le (List.dropWhile_suffix _).length_le) _ rfl)
              · rwa [List.cons_append, List.takeWhile_append_dropWhile] at hrun
              · intro d hd
                cases hs : s.dropWhile isGap with
                | nil => simp [hs] at hd
                | cons e t =>
                    rw [hs, List.head?_cons, Option.mem_some_iff] at hd
                    rw [← hd, head_dropWhile hs]

theorem layout_run (h : ∀ c ∈ run, isGap c = true) (ht : Solid t) : layout (run ++ t) = gapText run ++ layout t := by
  rw [layout_append_solid ht, layout_gap h]

theorem layout_solid (ht : Solid t) : Solid (layout t) := by
  cases t with
  | nil => exact ht
  | cons c t =>
      rw [layout_cons (ht c rfl)]
      exact solid_cons (ht c rfl) _

theorem isGap_gapText (h : c ∈ gapText run) : c = '\n' ∨ c = ' ' := by
  rw [gapText] at h
  split at h
  · cases h
  · split at h
    · exact Or.inl (List.mem_replicate.mp h).2
    · exact Or.inr (List.mem_singleton.mp h)

theorem mem_layout (h : c ∈ layout t) : c = '\n' ∨ c = ' ' ∨ (c ∈ t ∧ isGap c = false) := by
  induction t using gap_induction with
  | nil => cases h
  | solid d t hd ih =>
      rw [layout_cons hd, List.mem_cons] at h
      rcases h with rfl | h
      · exact Or.inr (Or.inr ⟨List.mem_cons_self, hd⟩)
      · exact (ih h).imp_right fun h => h.imp_right fun h => ⟨List.mem_cons_of_mem d h.1, h.2⟩
  | gap run t _ hrun ht ih =>
      rw [layout_run hrun ht, List.mem_append] at h
      rcases h with h | h
      · exact (isGap_gapText h).imp_right Or.inl
      · exact (ih h).imp_right fun h => h.imp_right fun h => ⟨List.mem_append_right run h.1, h.2⟩

theorem gapText_gapText (run : Text) : gapText (gapText run) = gapText run := by
  rw [gapText.eq_def (gapText run)]
  by_cases hnil : run = []
  · simp [gapText, hnil]
  · by_cases hm : '\n' ∈ run
    · have hpos := List.count_pos_iff.mpr hm
      have he : gapText run = List.replicate (min 2 (run.count '\n')) '\n' := by simp [gapText, hnil, hm]
      have hne : min 2 (run.count '\n') ≠ 0 := by omega
      rw [he, if_neg (by simpa using hne), if_pos (by simp [hne]), List.count_replicate_self]
      congr 1
      omega
    · have he : gapText run = [' '] := by simp [gapText, hnil, hm]
      rw [he]
      decide

theorem layout_layout (t : Text) : layout (layout t) = layout t := by
  induction t using gap_induction with
  | nil => rfl
  | solid c t hc ih => rw [layout_cons hc, layout_cons hc, ih]
  | gap run t _ hrun ht ih =>
      have hgap : ∀ c ∈ gapText run, isGap c = true := fun c hc => by
        rcases isGap_gapText hc with rfl | rfl <;> rfl
      rw [layout_run hrun ht, layout_run hgap (layout_solid ht), gapText_gapText, ih]

end Etoeragcb.Web
