import Etoeragcb.Frontend.Lemmas.Sse
import Etoeragcb.Frontend.Markdown
import Etoeragcb.Lib.Markup

/-!
# What is rendered

The tags and entities of the renderer, and the markup that each of its steps returns.
-/

namespace Etoeragcb.Frontend

open Lib

variable {s t u w source block code url : Text} {c : Char} {safeExternalUrl : Text → Bool} {urls : Text → Prop}

/-! ## Safe HTML -/

/-- A character that is written as it is. -/
def IsPlain (c : Char) : Prop := c ∉ ['<', '>', '"', '&', '\x27']

theorem isPlain_of (h : ['<', '>', '"', '&', '\x27'].contains c = false) : IsPlain c := fun hc => by
  rw [List.contains_iff_mem.mpr hc] at h
  cases h

def entities : List Text := ["&amp;", "&lt;", "&gt;", "&quot;", "&#039;"].map String.toList

def htmlTags : List Text :=
  ["<p>", "</p>", "<br>", "<ul>", "</ul>", "<li>", "</li>", "<h1>", "</h1>", "<h2>", "</h2>", "<h3>", "</h3>", "<strong>",
    "</strong>", "<em>", "</em>", "<pre>", "</pre>", "<code>", "</code>", "</a>"].map String.toList

def IsFixed (t : Text) : Prop := t ∈ entities ++ htmlTags

/-- Escaped text, the fixed tags, and links with one of the URLs. -/
def SafeHtml (urls : Text → Prop) : Text → Prop := Markup IsPlain fun t => IsFixed t ∨ ∃ url, urls url ∧ t = linkStart url

/-- Escaped text and the fixed tags. -/
abbrev PlainHtml : Text → Prop := Markup IsPlain IsFixed

theorem PlainHtml.safe (h : PlainHtml s) : SafeHtml urls s := Markup.mono (fun _ => Or.inl) h

theorem plainHtml_fixed {t : Text} (h : (entities ++ htmlTags).contains t = true) : PlainHtml t :=
  Markup.of_token (List.contains_iff_mem.mp h)

/-- A character that stands in no tag and no entity. -/
def Separates (c : Char) : Prop := ∀ t ∈ entities ++ htmlTags, c ∉ t

theorem separates_of (h : ((entities ++ htmlTags).all fun t => !t.contains c) = true) : Separates c := fun t ht hc => by
  have hall := List.all_eq_true.mp h t ht
  rw [List.contains_iff_mem.mpr hc] at hall
  cases hall

theorem separates_star : ∀ c ∈ ['*'], Separates c := fun _ hc => List.mem_singleton.mp hc ▸ separates_of (by decide)

/-! ## Escaping -/

def escapeCharacter (c : Char) : Text :=
  if c = '&' then "&amp;".toList
  else if c = '<' then "&lt;".toList
  else if c = '>' then "&gt;".toList
  else if c = '"' then "&quot;".toList
  else if c = '\x27' then "&#039;".toList
  else [c]

theorem replaceAll_append (c : Char) (t s u : Text) : replaceAll c t (s ++ u) = replaceAll c t s ++ replaceAll c t u :=
  List.flatMap_append

theorem escapeHtml_append (s t : Text) : escapeHtml (s ++ t) = escapeHtml s ++ escapeHtml t := by
  simp only [escapeHtml, replaceAll_append]

theorem escapeHtml_singleton (c : Char) : escapeHtml [c] = escapeCharacter c := by
  unfold escapeCharacter
  split_ifs with h₁ h₂ h₃ h₄ h₅
  · subst h₁; decide
  · subst h₂; decide
  · subst h₃; decide
  · subst h₄; decide
  · subst h₅; decide
  · have hkeep : ∀ d (t : Text), c ≠ d → replaceAll d t [c] = [c] := fun d t hd => by simp [replaceAll, hd]
    rw [escapeHtml, hkeep _ _ h₁, hkeep _ _ h₂, hkeep _ _ h₃, hkeep _ _ h₄, hkeep _ _ h₅]

/-- The five replacements together are one for each character. -/
theorem escapeHtml_eq (s : Text) : escapeHtml s = s.flatMap escapeCharacter := by
  induction s with
  | nil => rfl
  | cons c s ih => rw [List.flatMap_cons, ← ih, ← escapeHtml_singleton, ← escapeHtml_append]; rfl

theorem plainHtml_escapeHtml (s : Text) : PlainHtml (escapeHtml s) := by
  rw [escapeHtml_eq]
  refine Markup.flatMap fun c _ => ?_
  unfold escapeCharacter
  split_ifs with h₁ h₂ h₃ h₄ h₅
  · exact plainHtml_fixed (by decide)
  · exact plainHtml_fixed (by decide)
  · exact plainHtml_fixed (by decide)
  · exact plainHtml_fixed (by decide)
  · exact plainHtml_fixed (by decide)
  · refine Markup.of_plain fun d hd => ?_
    rw [List.mem_singleton.mp hd]
    simp [IsPlain, h₁, h₂, h₃, h₄, h₅]

/-! ## Emphasis -/

theorem enclosed?_spec {delimiter : Text} {stop : Char} {x : Text × Nat} (h : enclosed? delimiter stop s = some x) :
    ∃ rest, s = delimiter ++ (x.1 ++ (delimiter ++ rest)) ∧ s.drop x.2 = rest := by
  rw [enclosed?] at h
  split at h
  · rename_i hopen
    simp only at h
    split at h
    · rename_i hclose
      cases h
      obtain ⟨t, ht⟩ := List.isPrefixOf_iff_prefix.mp hopen
      obtain ⟨rest, hrest⟩ := List.isPrefixOf_iff_prefix.mp hclose.2
      have hdrop : s.drop delimiter.length = t := by rw [← ht, List.drop_left]
      rw [hdrop] at hrest ⊢
      have hcut : s = delimiter ++ (t.takeWhile (fun c => decide (c ≠ stop ∧ c ≠ '\n')) ++ (delimiter ++ rest)) := by
        rw [hrest, List.takeWhile_append_dropWhile, ht]
      refine ⟨rest, hcut, ?_⟩
      conv_lhs => rw [hcut]
      rw [← List.append_assoc, ← List.append_assoc, List.drop_left']
      simp only [List.length_append]
    · cases h
  · cases h

theorem tagRule_keeps {delimiter opening closing : Text} {stop : Char} (hne : delimiter ≠ [])
    (hsep : ∀ c ∈ delimiter, Separates c) (hopening : PlainHtml opening) (hclosing : PlainHtml closing) {r : Text} {n : Nat}
    (h : tagRule delimiter stop opening closing s = some (r, n)) (hs : PlainHtml (u ++ s)) : PlainHtml (u ++ (r ++ s.drop n)) := by
  obtain ⟨x, hx, hr⟩ := Option.map_eq_some_iff.mp h
  cases hr
  obtain ⟨rest, hcut, hdrop⟩ := enclosed?_spec hx
  rw [hcut] at hs
  obtain ⟨hu, hrun⟩ := Markup.cut_delimiter hne hsep hs
  obtain ⟨hrun, hrest⟩ := Markup.cut_delimiter hne hsep hrun
  rw [hdrop]
  exact hu.append ((hopening.append (hrun.append hclosing)).append hrest)

theorem drop_pred {n : Nat} (hn : 0 < n) (c : Char) (s : Text) : (c :: s).drop n = s.drop (n - 1) := by
  obtain ⟨m, rfl⟩ : ∃ m, n = m + 1 := ⟨n - 1, by omega⟩
  rfl

theorem tagRule_pos {delimiter opening closing : Text} {stop : Char} (hne : delimiter ≠ []) {x : Text × Nat}
    (h : tagRule delimiter stop opening closing s = some x) : 0 < x.2 := by
  obtain ⟨y, hy, rfl⟩ := Option.map_eq_some_iff.mp h
  rw [enclosed?] at hy
  have hpos : 0 < delimiter.length := List.length_pos_of_ne_nil hne
  split at hy
  · simp only at hy
    split at hy
    · cases hy
      show 0 < delimiter.length + _ + delimiter.length
      omega
    · cases hy
  · cases hy

theorem plainHtml_tagRule {delimiter opening closing : Text} {stop : Char} (hne : delimiter ≠ [])
    (hsep : ∀ c ∈ delimiter, Separates c) (hopening : PlainHtml opening) (hclosing : PlainHtml closing) (hs : PlainHtml s) :
    PlainHtml (rewrite (tagRule delimiter stop opening closing) s) := by
  refine Markup.rewrite_context (p := PlainHtml) (x := []) (fun x c s r n hrule hx => ?_) s hs
  rw [← drop_pred (tagRule_pos hne hrule) c s]
  exact tagRule_keeps hne hsep hopening hclosing hrule hx

theorem plainHtml_emphasize (hs : PlainHtml s) : PlainHtml (emphasize s) := by
  have hopening : PlainHtml "<em>".toList := plainHtml_fixed (by decide)
  have hclosing : PlainHtml "</em>".toList := plainHtml_fixed (by decide)
  have hrewrite : ∀ x s, PlainHtml (x ++ s) → PlainHtml (x ++ rewrite emphasisRule s) := by
    intro x s hx
    refine Markup.rewrite_context (p := PlainHtml) (fun x c s r n hrule hx => ?_) x s hx
    rw [emphasisRule] at hrule
    split at hrule
    · cases hrule
    · obtain ⟨y, hy, hyr⟩ := Option.map_eq_some_iff.mp hrule
      cases hyr
      have hmore : PlainHtml (x ++ [c] ++ s) := by rwa [List.append_assoc]
      have hkeeps := tagRule_keeps (List.cons_ne_nil _ _) separates_star hopening hclosing hy hmore
      rwa [List.append_assoc] at hkeeps
  rw [emphasize]
  split
  · rename_i r n hstart
    exact hrewrite r _ (tagRule_keeps (u := []) (List.cons_ne_nil _ _) separates_star hopening hclosing hstart hs)
  · exact hrewrite [] s hs

/-! ## Blocks -/

theorem separates_break : Separates '\n' := separates_of (by decide)

theorem splitBlocks_ne_nil (flag : Bool) (s : Text) : splitBlocks flag s ≠ [] := by
  induction s generalizing flag with
  | nil => cases flag <;> simp [splitBlocks]
  | cons c s ih =>
      cases flag with
      | true =>
          rw [splitBlocks]
          split
          · exact ih true
          · exact List.cons_ne_nil _ _
      | false =>
          rw [splitBlocks]
          split
          · exact List.cons_ne_nil _ _
          · exact List.cons_ne_nil _ _

theorem plainHtml_splitBlocks (s : Text) : (PlainHtml s → ∀ b ∈ splitBlocks true s, PlainHtml b) ∧
    ∀ u, PlainHtml (u ++ s) → ∀ b ∈ (u ++ (splitBlocks false s).headD []) :: (splitBlocks false s).tail, PlainHtml b := by
  induction s with
  | nil =>
      refine ⟨fun _ b hb => List.mem_singleton.mp hb ▸ .nil, fun u hu b hb => ?_⟩
      rw [List.mem_singleton.mp hb]
      exact hu
  | cons c s ih =>
      refine ⟨fun hs => ?_, fun u hu => ?_⟩
      · rw [splitBlocks]
        split
        · rename_i hc
          subst hc
          exact ih.1 (Markup.cut (u := []) separates_break hs).2.2
        · exact ih.2 [c] hs
      · rw [splitBlocks]
        split
        · rename_i hc
          obtain ⟨rfl, -⟩ := hc
          obtain ⟨hu, -, hs⟩ := Markup.cut separates_break hu
          intro b hb
          rcases List.mem_cons.mp hb with rfl | hb
          · exact hu.append .nil
          · exact ih.1 hs b hb
        · have hmore : PlainHtml (u ++ [c] ++ s) := by rwa [List.append_assoc]
          intro b hb
          refine ih.2 (u ++ [c]) hmore b ?_
          rw [List.append_assoc]
          exact hb

theorem plainHtml_splitOn (hs : PlainHtml s) : ∀ l ∈ s.splitOn '\n', PlainHtml l := by
  induction s using lines_induction with
  | rest l hl =>
      rw [List.splitOn_eq_singleton hl]
      exact fun l' hl' => List.mem_singleton.mp hl' ▸ hs
  | line l t hl ih =>
      obtain ⟨hstart, -, hrest⟩ := Markup.cut separates_break hs
      rw [List.splitOn_append_cons_self, List.splitOn_eq_singleton hl]
      intro l' hl'
      rcases List.mem_append.mp hl' with hl' | hl'
      · exact List.mem_singleton.mp hl' ▸ hstart
      · exact ih hrest l' hl'

theorem separates_blank : Separates ' ' := separates_of (by decide)

theorem plainHtml_dropDash (hs : PlainHtml s) : PlainHtml (dropDash s) := by
  unfold dropDash
  split
  · exact (Markup.cut (u := ['-']) separates_blank hs).2.2
  · exact hs

theorem plainHtml_listItem (hs : PlainHtml s) : PlainHtml (listItem s) :=
  (plainHtml_fixed (by decide)).append ((plainHtml_dropDash hs).append (plainHtml_fixed (by decide)))

theorem heading?_spec {x : Nat × Text} (h : heading? block = some x) :
    (x.1 = 1 ∨ x.1 = 2 ∨ x.1 = 3) ∧ ∃ hashes, block = hashes ++ ' ' :: x.2 := by
  unfold heading? at h
  simp only at h
  split at h
  · rename_i s hs
    split at h
    · rename_i hlevel
      cases h
      refine ⟨by simp only; omega, block.takeWhile (· = '#'), ?_⟩
      rw [← hs, List.takeWhile_append_dropWhile]
    · cases h
  · cases h

theorem plainHtml_renderBlock (hs : PlainHtml block) : PlainHtml (renderBlock block) := by
  unfold renderBlock
  split
  · exact hs
  · split
    · refine (plainHtml_fixed (by decide)).append (Markup.append (Markup.flatMap fun l hl => ?_) (plainHtml_fixed (by decide)))
      exact plainHtml_listItem (plainHtml_splitOn hs l (List.mem_of_mem_filter hl))
    · split
      · rename_i level s hheading
        obtain ⟨hlevel, hashes, hcut⟩ := heading?_spec hheading
        have htext : PlainHtml s := (Markup.cut separates_blank (hcut ▸ hs)).2.2
        have htag : ∀ opening closing, PlainHtml opening → PlainHtml closing → PlainHtml (opening ++ (s ++ closing)) :=
          fun opening closing hopening hclosing => hopening.append (htext.append hclosing)
        rcases hlevel with rfl | rfl | rfl
        · exact htag "<h1>".toList "</h1>".toList (plainHtml_fixed (by decide)) (plainHtml_fixed (by decide))
        · exact htag "<h2>".toList "</h2>".toList (plainHtml_fixed (by decide)) (plainHtml_fixed (by decide))
        · exact htag "<h3>".toList "</h3>".toList (plainHtml_fixed (by decide)) (plainHtml_fixed (by decide))
      · exact (plainHtml_fixed (by decide)).append
          ((Markup.replaceAll separates_break (plainHtml_fixed (by decide)) hs).append (plainHtml_fixed (by decide)))

/-! ## Protected blocks -/

/-- A dollar sign in front of a character that a replacement or its escaping gives a meaning. -/
def hasPattern : Text → Bool
  | c :: d :: s => (c = '$' && ['$', '&', '\x60', '\x27', '<', '>', '"'].contains d) || hasPattern (d :: s)
  | _ => false

/-- An URL that its block keeps: without markers of other blocks, and without the patterns of replacements. -/
def Unmarked (url : Text) : Prop := '\x00' ∉ url ∧ hasPattern url = false

theorem expand_escaped {before matched after : Text} (hurl : hasPattern url = false) (rest : Text) :
    expand before matched after (escapeHtml url ++ '"' :: rest) = escapeHtml url ++ expand before matched after ('"' :: rest) := by
  rw [escapeHtml_eq]
  induction url with
  | nil => rfl
  | cons c url ih =>
      have htail : hasPattern url = false := by
        cases url with
        | nil => rfl
        | cons d url =>
            rw [hasPattern, Bool.or_eq_false_iff] at hurl
            exact hurl.2
      rw [List.flatMap_cons, List.append_assoc, List.append_assoc, ← ih htail]
      by_cases hc : c = '$'
      · subst hc
        have hdollar : escapeCharacter '$' = ['$'] := by decide
        rw [hdollar, List.singleton_append]
        obtain ⟨d, r, hr, hd⟩ : ∃ d r, url.flatMap escapeCharacter ++ '"' :: rest = d :: r ∧
            d ≠ '$' ∧ d ≠ '&' ∧ d ≠ '\x60' ∧ d ≠ '\x27' := by
          cases url with
          | nil => exact ⟨'"', rest, rfl, by decide⟩
          | cons d url =>
              rw [hasPattern, Bool.or_eq_false_iff] at hurl
              have hd : d ∉ ['$', '&', '\x60', '\x27', '<', '>', '"'] := by simpa using hurl.1
              simp only [List.mem_cons, List.not_mem_nil, or_false, not_or] at hd
              have hkeep : escapeCharacter d = [d] := by
                rw [escapeCharacter, if_neg hd.2.1, if_neg hd.2.2.2.2.1, if_neg hd.2.2.2.2.2.1, if_neg hd.2.2.2.2.2.2,
                  if_neg hd.2.2.2.1]
              refine ⟨d, url.flatMap escapeCharacter ++ '"' :: rest, ?_, hd.1, hd.2.1, hd.2.2.1, hd.2.2.2.1⟩
              rw [List.flatMap_cons, hkeep]
              rfl
        rw [hr, expand, if_pos rfl, if_neg hd.1, if_neg hd.2.1, if_neg hd.2.2.1, if_neg hd.2.2.2]
        rfl
      · have hescape : '$' ∉ escapeCharacter c := by
          unfold escapeCharacter
          split_ifs
          · decide
          · decide
          · decide
          · decide
          · decide
          · simpa using Ne.symm hc
        exact expand_append hescape _

def linkOpening : Text := "<a href=\"".toList

def linkClosing : Text := " target=\"_blank\" rel=\"noopener noreferrer\">".toList

theorem linkStart_eq (url : Text) : linkStart url = linkOpening ++ (escapeHtml url ++ '"' :: linkClosing) := rfl

theorem inert_linkStart (hurl : hasPattern url = false) : Markup.Inert (linkStart url) := by
  intro before matched after s
  have hopening : '$' ∉ linkOpening := by decide
  have hclosing : '$' ∉ '"' :: linkClosing := by decide
  rw [linkStart_eq, List.append_assoc, expand_append hopening, List.append_assoc, List.cons_append, expand_escaped hurl,
    ← List.cons_append, expand_append hclosing, List.append_assoc, List.append_assoc]

theorem inert_fixed (h : IsFixed t) : Markup.Inert t := by
  have hdollar : Separates '$' := separates_of (by decide)
  exact fun before matched after s => expand_append (hdollar t h) s

theorem safeHtml_expand {before matched after : Text} (hurls : ∀ url, urls url → Unmarked url) (hbefore : SafeHtml urls before)
    (hmatched : SafeHtml urls matched) (hblock : SafeHtml urls block) :
    SafeHtml urls (expand before matched after block) := by
  have hfixed : ∀ t ∈ entities ++ htmlTags, t ≠ [] ∧ t.head? ≠ some '$' ∧ t.head? ≠ some '\x60' ∧ t.head? ≠ some '\x27' := by
    have hall : ((entities ++ htmlTags).all fun t => t.head? == some '<' || t.head? == some '&') = true := by decide
    intro t ht
    have hhead := List.all_eq_true.mp hall t ht
    rw [Bool.or_eq_true, beq_iff_eq, beq_iff_eq] at hhead
    have hnil : t ≠ [] := by
      rintro rfl
      rcases hhead with h | h <;> cases h
    have hne : ∀ c, c ≠ '<' → c ≠ '&' → t.head? ≠ some c := by
      intro c h₁ h₂ hc
      rw [hc, Option.some.injEq, Option.some.injEq] at hhead
      exact hhead.elim h₁ h₂
    exact ⟨hnil, hne '$' (by decide) (by decide), hne '\x60' (by decide) (by decide), hne '\x27' (by decide) (by decide)⟩
  have hlink : ∀ url, (linkStart url).head? = some '<' := fun url => rfl
  have hampersand : ∀ t ∈ entities ++ htmlTags, t.head? = some '&' → ∀ c ∈ t.tail, IsPlain c := by
    have hall : ((entities ++ htmlTags).all fun t => t.head? != some '&' ||
        t.tail.all fun c => (['<', '>', '"', '&', '\x27'].contains c) == false) = true := by decide
    intro t ht hhead c hc hmem
    have htail := List.all_eq_true.mp hall t ht
    rw [hhead, bne_self_eq_false, Bool.false_or] at htail
    have hplain := List.all_eq_true.mp htail c hc
    rw [List.contains_iff_mem.mpr hmem] at hplain
    cases hplain
  refine Markup.expand hbefore hmatched ⟨fun h => h (by decide), fun h => h (by decide)⟩ ?_ ?_ ?_ ?_ hblock
  · rintro t (ht | ⟨url, hurl, rfl⟩)
    · exact inert_fixed ht
    · exact inert_linkStart (hurls url hurl).2
  · rintro (ht | ⟨url, -, hnil⟩)
    · exact (hfixed [] ht).1 rfl
    · have hhead := hlink url
      rw [← hnil] at hhead
      cases hhead
  · rintro t (ht | ⟨url, -, rfl⟩)
    · exact (hfixed t ht).2
    · rw [hlink]
      decide
  · rintro t (ht | ⟨url, -, hcons⟩)
    · exact hampersand _ ht rfl
    · have hhead := hlink url
      rw [← hcons] at hhead
      cases hhead

theorem notMem_decimal {n : Nat} (h : isDigit c = false) : c ∉ decimal n := fun hc => by
  rw [isDigit_of_mem_decimal hc] at h
  cases h

theorem isPlain_placeholder (index : Nat) : ∀ c ∈ placeholder index, IsPlain c := by
  intro c hc
  rw [placeholder, List.mem_cons, List.mem_cons, List.mem_append, List.mem_singleton] at hc
  rcases hc with rfl | rfl | hc | rfl
  · exact isPlain_of (by decide)
  · exact isPlain_of (by decide)
  · have hdigit := isDigit_of_mem_decimal hc
    intro hmem
    simp only [List.mem_cons, List.not_mem_nil, or_false] at hmem
    rcases hmem with rfl | rfl | rfl | rfl | rfl <;> exact absurd hdigit (by decide)
  · exact isPlain_of (by decide)

theorem safeHtml_replaceFirst (hurls : ∀ url, urls url → Unmarked url) (index : Nat) (hblock : SafeHtml urls block)
    (hs : SafeHtml urls s) : SafeHtml urls (replaceFirst (placeholder index) block s) := by
  rw [replaceFirst]
  split
  · rename_i before after hsplit
    have hcut := splitFirst_spec hsplit
    have hnull : ∀ t, (IsFixed t ∨ ∃ url, urls url ∧ t = linkStart url) → '\x00' ∉ t := by
      have hfixed : Separates '\x00' := separates_of (by decide)
      rintro t (ht | ⟨url, hurl, rfl⟩)
      · exact hfixed t ht
      · have hescape : '\x00' ∉ escapeHtml url := by
          rw [escapeHtml_eq, List.mem_flatMap]
          rintro ⟨d, hd, hmem⟩
          unfold escapeCharacter at hmem
          split_ifs at hmem
          · exact absurd hmem (by decide)
          · exact absurd hmem (by decide)
          · exact absurd hmem (by decide)
          · exact absurd hmem (by decide)
          · exact absurd hmem (by decide)
          · exact (hurls url hurl).1 (List.mem_singleton.mp hmem ▸ hd)
        have hopening : '\x00' ∉ linkOpening := by decide
        have hclosing : '\x00' ∉ '"' :: linkClosing := by decide
        rw [linkStart_eq, List.mem_append, List.mem_append, not_or, not_or]
        exact ⟨hopening, hescape, hclosing⟩
    rw [hcut, placeholder, List.cons_append] at hs
    obtain ⟨hbefore, -, hmore⟩ := Markup.cut hnull hs
    have hrest : 'P' :: (decimal index ++ ['\x00']) ++ after = ('P' :: decimal index) ++ '\x00' :: after := by simp
    rw [hrest] at hmore
    obtain ⟨-, -, hafter⟩ := Markup.cut hnull hmore
    exact hbefore.append ((safeHtml_expand hurls hbefore (.of_plain (isPlain_placeholder index)) hblock).append hafter)
  · exact hs

theorem safeHtml_restore (hurls : ∀ url, urls url → Unmarked url) {blocks : List Text}
    (hblocks : ∀ b ∈ blocks, SafeHtml urls b) (index : Nat) (hs : SafeHtml urls s) :
    SafeHtml urls (restore index blocks s) := by
  induction blocks generalizing index s with
  | nil => exact hs
  | cons b blocks ih =>
      rw [List.forall_mem_cons] at hblocks
      exact ih hblocks.2 (index + 1) (safeHtml_replaceFirst hurls index hblocks.1 hs)

end Etoeragcb.Frontend
