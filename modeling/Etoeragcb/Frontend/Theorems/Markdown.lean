import Etoeragcb.Frontend.Lemmas.Markdown

/-!
# The safety of rendered answers
-/

namespace Etoeragcb.Frontend

open Lib

variable {source s block value : Text} {values : List Text} {safeExternalUrl : Text → Bool} {urls : Text → Prop} {link : Link}

/-- The links that the renderer finds: those of the text without its fences. -/
def links (source : Text) : List Link := findAll link? 0 (withoutFences source).1

/-- An URL of the text that the browser takes for an external one. -/
def LinkedUrl (safeExternalUrl : Text → Bool) (source url : Text) : Prop :=
  safeExternalUrl url = true ∧ url <:+: source.filter (· ≠ '\x00')

/-! ## The protected blocks -/

theorem link?_spec {n : Nat} (h : link? s = some (link, n)) : '(' :: (link.url ++ [')']) <:+: s := by
  unfold link? at h
  split at h
  · rename_i s'
    simp only at h
    split at h
    · rename_i t ht
      split at h
      · rename_i rest hrest
        split at h
        · cases h
          refine ⟨'[' :: (s'.takeWhile (fun c => c ≠ ']' ∧ c ≠ '\n') ++ [']']), rest, ?_⟩
          conv_rhs => rw [← List.takeWhile_append_dropWhile (p := fun c => decide (c ≠ ']' ∧ c ≠ '\n')) (l := s'), ht]
          conv_rhs => rw [← List.takeWhile_append_dropWhile (p := fun c => decide (c ≠ ')' ∧ isBlankCharacter c = false)) (l := t),
            hrest]
          simp
        · cases h
      · cases h
    · cases h
  · cases h

/-- An URL without markers stands in the text as it was before the fences were taken out. -/
theorem url_infix (h : link ∈ links source) (hurl : '\x00' ∉ link.url) : link.url <:+: source.filter (· ≠ '\x00') := by
  obtain ⟨t, n, ht, hlink⟩ := mem_findAll h
  have hvalue : '(' :: (link.url ++ [')']) <:+: (withoutFences source).1 := (link?_spec hlink).trans ht.isInfix
  have hparen : ∀ index, '(' ∉ placeholder index := fun index => by
    rw [placeholder, List.mem_cons, List.mem_cons, List.mem_append, not_or, not_or, not_or]
    exact ⟨by decide, by decide, notMem_decimal (by decide), by decide⟩
  have hsource : '(' :: (link.url ++ [')']) <:+: source.filter (· ≠ '\x00') := by
    refine infix_of_subWith (fun values code => ⟨'\x00', _, rfl, ?_⟩) (fun values code => hparen values.length) 0 [] _ hvalue
    rw [List.mem_cons, List.mem_append, not_or, not_or]
    exact ⟨by decide, hurl, by decide⟩
  exact (List.infix_cons (List.prefix_append link.url [')']).isInfix).trans hsource

theorem plainHtml_fenceBlock (code : Text) : PlainHtml (fenceBlock code) := by
  have hopening : "<pre><code>".toList = "<pre>".toList ++ "<code>".toList := by decide
  have hclosing : "</code></pre>".toList = "</code>".toList ++ "</pre>".toList := by decide
  have hpre : PlainHtml "<pre>".toList := plainHtml_fixed (by decide)
  have hpre' : PlainHtml "</pre>".toList := plainHtml_fixed (by decide)
  have hcode : PlainHtml "<code>".toList := plainHtml_fixed (by decide)
  have hcode' : PlainHtml "</code>".toList := plainHtml_fixed (by decide)
  have hstart : PlainHtml "<pre><code>".toList := (congrArg PlainHtml hopening).mpr (hpre.append hcode)
  have hend : PlainHtml "</code></pre>".toList := (congrArg PlainHtml hclosing).mpr (hcode'.append hpre')
  exact hstart.append ((plainHtml_escapeHtml _).append hend)

theorem plainHtml_codeBlock (code : Text) : PlainHtml (codeBlock code) := by
  have hcode : PlainHtml "<code>".toList := plainHtml_fixed (by decide)
  have hcode' : PlainHtml "</code>".toList := plainHtml_fixed (by decide)
  exact hcode.append ((plainHtml_escapeHtml code).append hcode')

theorem safeHtml_linkBlock (h : urls link.url) : SafeHtml urls (linkBlock link) := by
  have hclosing : PlainHtml "</a>".toList := plainHtml_fixed (by decide)
  have hlabel : PlainHtml (escapeHtml link.label ++ "</a>".toList) := (plainHtml_escapeHtml link.label).append hclosing
  exact Markup.token (Or.inr ⟨link.url, h, rfl⟩) hlabel.safe

theorem forall_mem_token (hvalues : ∀ b ∈ values, SafeHtml urls b) (hvalue : SafeHtml urls value) :
    ∀ b ∈ (token values value).2, SafeHtml urls b :=
  List.forall_mem_append.mpr ⟨hvalues, fun _ hb => List.mem_singleton.mp hb ▸ hvalue⟩

theorem safeHtml_blocks (h : ∀ link ∈ links source, safeExternalUrl link.url = true → urls link.url) :
    ∀ b ∈ (withoutCode safeExternalUrl source).2, SafeHtml urls b := by
  have hfences : ∀ b ∈ (withoutFences source).2, SafeHtml urls b :=
    subWith_state (p := fun values => ∀ b ∈ values, SafeHtml urls b) 0 [] _
      (fun values code _ hvalues => forall_mem_token hvalues (plainHtml_fenceBlock code).safe)
      fun b hb => absurd hb List.not_mem_nil
  have hlinks : ∀ b ∈ (withoutLinks safeExternalUrl source).2, SafeHtml urls b := by
    refine subWith_state (p := fun values => ∀ b ∈ values, SafeHtml urls b) 0 _ _ (fun values link hlink hvalues => ?_) hfences
    rw [protectLink]
    split
    · rename_i hsafe
      exact forall_mem_token hvalues (safeHtml_linkBlock (h link hlink hsafe))
    · exact hvalues
  exact subWith_state (p := fun values => ∀ b ∈ values, SafeHtml urls b) 0 _ _
    (fun values code _ hvalues => forall_mem_token hvalues (plainHtml_codeBlock code).safe) hlinks

theorem plainHtml_blocks (hs : PlainHtml s) : PlainHtml ((splitBlocks false s).flatMap renderBlock) := by
  refine Markup.flatMap fun b hb => plainHtml_renderBlock ((plainHtml_splitBlocks s).2 [] hs b ?_)
  obtain ⟨b', bs, hcons⟩ := List.exists_cons_of_ne_nil (splitBlocks_ne_nil false s)
  rw [hcons] at hb ⊢
  exact hb

theorem plainHtml_strong (hs : PlainHtml s) : PlainHtml (rewrite strongRule' (rewrite strongRule s)) := by
  have hstars : ∀ c ∈ ['*', '*'], Separates c := List.forall_mem_cons.mpr ⟨separates_of (by decide), separates_star⟩
  have hunderscore : Separates '_' := separates_of (by decide)
  have hunderscores : ∀ c ∈ ['_', '_'], Separates c :=
    List.forall_mem_cons.mpr ⟨hunderscore, fun _ hc => List.mem_singleton.mp hc ▸ hunderscore⟩
  have hopening : PlainHtml "<strong>".toList := plainHtml_fixed (by decide)
  have hclosing : PlainHtml "</strong>".toList := plainHtml_fixed (by decide)
  exact plainHtml_tagRule (List.cons_ne_nil _ _) hunderscores hopening hclosing
    (plainHtml_tagRule (List.cons_ne_nil _ _) hstars hopening hclosing hs)

/-! ## The result -/

/-- Whatever is rendered, the result is made of escaped text, of the tags that the renderer knows and of links to external
URLs of the text, if no URL that is linked holds a fence or a pattern of replacements. -/
theorem renderMarkdown_safe (h : ∀ link ∈ links source, safeExternalUrl link.url = true → Unmarked link.url) :
    SafeHtml (LinkedUrl safeExternalUrl source) (renderMarkdown safeExternalUrl source) := by
  have hblocks : ∀ b ∈ (withoutCode safeExternalUrl source).2,
      SafeHtml (fun url => LinkedUrl safeExternalUrl source url ∧ Unmarked url) b :=
    safeHtml_blocks fun link hlink hsafe =>
      ⟨⟨hsafe, url_infix hlink (h link hlink hsafe).1⟩, h link hlink hsafe⟩
  have hrendered := plainHtml_blocks (plainHtml_emphasize (plainHtml_strong (plainHtml_escapeHtml
    (withoutCode safeExternalUrl source).1)))
  refine Markup.mono ?_ (safeHtml_restore (fun url hurl => hurl.2) hblocks 0 hrendered.safe)
  rintro t (ht | ⟨url, hurl, rfl⟩)
  · exact Or.inl ht
  · exact Or.inr ⟨url, hurl.1, rfl⟩

/-- A text with a fence, a link and a script. -/
def sampleMarkdown : Text := "```\n<b>\n``` [*x*](https://a.b) <script>".toList

theorem renderMarkdown_safe_script : links sampleMarkdown = [⟨"*x*".toList, "https://a.b".toList⟩] ∧
    SafeHtml (LinkedUrl (fun _ => true) sampleMarkdown) (renderMarkdown (fun _ => true) sampleMarkdown) := by
  have hlinks : links sampleMarkdown = [⟨"*x*".toList, "https://a.b".toList⟩] := by decide +kernel
  refine ⟨hlinks, renderMarkdown_safe fun link hlink _ => ?_⟩
  rw [hlinks, List.mem_singleton] at hlink
  rw [hlink]
  exact ⟨by decide, by decide⟩

/-- Behind a dollar sign, a grave accent brings the tags that precede the link into its URL. -/
example : renderMarkdown (fun _ => true) "a [x](b$\x60)".toList =
    "<p>a <a href=\"b<p>a \" target=\"_blank\" rel=\"noopener noreferrer\">x</a></p>".toList := by decide +kernel

end Etoeragcb.Frontend
