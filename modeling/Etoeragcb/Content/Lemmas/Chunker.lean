import Etoeragcb.Content.Chunker
import Etoeragcb.Lib.Result

/-!
# The chunks of a document are the windows of its blocks
-/

namespace Etoeragcb.Content

open Lib Models

variable {k : Chunker} {version : VersionId} {blocks : List SectionedBlock} {sectioned : SectionedBlock}
  {result : Cut} {text : Text} {spans window : List (Nat × Nat)} {maxTokens step skip : Nat}

/-! ## Windows -/

theorem mem_windows (hmax : 0 < maxTokens) (h : window ∈ windows maxTokens step skip spans) :
    window ≠ [] ∧ window <:+: spans := by
  induction spans generalizing skip with
  | nil => cases skip <;> cases h
  | cons span spans ih =>
      cases skip with
      | succ skip =>
          obtain ⟨hne, hin⟩ := ih h
          exact ⟨hne, hin.trans (List.suffix_cons _ _).isInfix⟩
      | zero =>
          rw [windows, List.mem_cons] at h
          rcases h with rfl | h
          · refine ⟨?_, (List.take_prefix _ _).isInfix⟩
            simp [List.take_eq_nil_iff, hmax.ne']
          · split at h
            · cases h
            · obtain ⟨hne, hin⟩ := ih h
              exact ⟨hne, hin.trans (List.suffix_cons _ _).isInfix⟩

theorem sourceSpans_spec {tokens : List TokenSpan} (h : tokens.Pairwise fun a b => a.start ≤ b.start) :
    (sourceSpans tokens text).Pairwise (fun a b => a.1 ≤ b.1) ∧
      ∀ x ∈ sourceSpans tokens text, x.1 < x.2 ∧ x.2 ≤ text.length := by
  constructor
  · rw [sourceSpans, List.pairwise_filterMap]
    refine h.imp fun hab x hx y hy => ?_
    simp only [Option.ite_none_right_eq_some, Option.some.injEq] at hx hy
    obtain ⟨-, rfl⟩ := hx
    obtain ⟨-, rfl⟩ := hy
    exact Int.toNat_le_toNat hab
  · intro x hx
    simp only [sourceSpans, List.mem_filterMap, Option.ite_none_right_eq_some, Option.some.injEq] at hx
    obtain ⟨span, -, ⟨h₀, h₁, h₂⟩, rfl⟩ := hx
    constructor <;> simp only <;> omega

/-- The tokenizer returns the spans of a text in the order of their starts. -/
def InOrder (k : Chunker) : Prop := ∀ text, (k.tokenSpans text).Pairwise fun a b => a.start ≤ b.start

theorem window_bounds (hmax : 0 < k.maxTokens) (hin : InOrder k) (h : window ∈ k.blockWindows text) :
    (window.headD (0, 0)).1 < (window.getLastD (0, 0)).2 ∧ (window.getLastD (0, 0)).2 ≤ text.length := by
  obtain ⟨hne, hsub⟩ := mem_windows hmax h
  obtain ⟨horder, hinside⟩ := sourceSpans_spec (hin text)
  have hwindow : window.Pairwise fun a b => a.1 ≤ b.1 := horder.sublist hsub.sublist
  obtain ⟨x, hx⟩ : ∃ x, window.getLast? = some x := ⟨_, List.getLast?_eq_some_getLast hne⟩
  have hlast := hinside x (hsub.subset (List.mem_of_getLast? hx))
  have hfirst : (window.headD (0, 0)).1 ≤ x.1 := by
    cases window with
    | nil => exact absurd rfl hne
    | cons y ys =>
        cases ys with
        | nil => cases hx; exact Nat.le_refl _
        | cons z zs =>
            rw [List.getLast?_cons_cons] at hx
            exact List.rel_of_pairwise_cons hwindow (List.mem_of_getLast? hx)
  rw [List.getLastD_eq_getLast?, hx]
  exact ⟨lt_of_le_of_lt hfirst hlast.1, hlast.2⟩

/-! ## Cuts -/

theorem mem_addWindows {position : Nat} {ws : List (List (Nat × Nat))} {x : Nat × BuiltChunk} :
    x ∈ ws.foldl (fun result window => result ++ [(position, newChunk k version sectioned result window)]) result →
      x ∈ result ∨ ∃ window ∈ ws, ∃ before, x = (position, newChunk k version sectioned before window) := by
  induction ws generalizing result with
  | nil => exact Or.inl
  | cons w ws ih =>
      intro hx
      rcases ih hx with hx | ⟨window, hw, before, rfl⟩
      · rcases List.mem_append.mp hx with hx | hx
        · exact Or.inl hx
        · exact Or.inr ⟨w, List.mem_cons_self, result, List.mem_singleton.mp hx⟩
      · exact Or.inr ⟨window, List.mem_cons_of_mem _ hw, before, rfl⟩

theorem mem_addWindows_of_mem {position : Nat} {ws : List (List (Nat × Nat))} {x : Nat × BuiltChunk} (hx : x ∈ result) :
    x ∈ ws.foldl (fun result window => result ++ [(position, newChunk k version sectioned result window)]) result := by
  induction ws generalizing result with
  | nil => exact hx
  | cons w ws ih => exact ih (List.mem_append_left _ hx)

theorem addWindows_mem {position : Nat} {ws : List (List (Nat × Nat))} (hw : window ∈ ws) :
    ∃ before, (position, newChunk k version sectioned before window) ∈
      ws.foldl (fun result window => result ++ [(position, newChunk k version sectioned result window)]) result := by
  induction ws generalizing result with
  | nil => cases hw
  | cons w ws ih =>
      rcases List.mem_cons.mp hw with rfl | hw
      · refine ⟨result, ?_⟩
        rw [List.foldl_cons]
        exact mem_addWindows_of_mem (List.mem_append_right _ (List.mem_singleton_self _))
      · exact ih hw

def IsWindow (k : Chunker) (version : VersionId) (blocks : List (SectionedBlock × Nat)) (x : Nat × BuiltChunk) : Prop :=
  ∃ sectioned, (sectioned, x.1) ∈ blocks ∧ strip sectioned.block.textOriginal ≠ [] ∧
    ∃ window ∈ k.blockWindows sectioned.block.textOriginal, ∃ before, x.2 = newChunk k version sectioned before window

theorem cutBlocks_spec {position : Nat} {result' : Cut} (h : cutBlocks k version position result blocks = .ok result') :
    (∀ x ∈ result, x ∈ result') ∧ (∀ x ∈ result', x ∈ result ∨ IsWindow k version (blocks.zipIdx position) x) ∧
      ∀ sectioned i, (sectioned, i) ∈ blocks.zipIdx position → strip sectioned.block.textOriginal ≠ [] →
        ∀ window ∈ k.blockWindows sectioned.block.textOriginal, ∃ before,
          (i, newChunk k version sectioned before window) ∈ result' := by
  induction blocks generalizing position result with
  | nil =>
      cases h
      exact ⟨fun _ hx => hx, fun x hx => Or.inl hx, fun _ _ h => by cases h⟩
  | cons sectioned blocks ih =>
      rw [cutBlocks, bind_eq_ok] at h
      obtain ⟨result₁, h₁, h⟩ := h
      obtain ⟨hsub, hmem, hall⟩ := ih h
      simp only [cutBlock] at h₁
      split at h₁
      · rename_i hblank
        cases h₁
        refine ⟨hsub, fun x hx => ?_, fun s i hs hne => ?_⟩
        · rcases hmem x hx with hx | ⟨s, hs, hrest⟩
          · exact Or.inl hx
          · exact Or.inr ⟨s, List.mem_cons_of_mem _ hs, hrest⟩
        · rcases List.mem_cons.mp hs with he | hs
          · cases he
            exact absurd hblank hne
          · exact hall s i hs hne
      · rename_i hblank
        split at h₁
        · cases h₁
        · cases h₁
          refine ⟨fun x hx => hsub x (mem_addWindows_of_mem hx), fun x hx => ?_, fun s i hs hne window hw => ?_⟩
          · rcases hmem x hx with hx | ⟨s, hs, hrest⟩
            · rcases mem_addWindows hx with hx | ⟨window, hw, before, rfl⟩
              · exact Or.inl hx
              · exact Or.inr ⟨sectioned, List.mem_cons_self, hblank, window, hw, before, rfl⟩
            · exact Or.inr ⟨s, List.mem_cons_of_mem _ hs, hrest⟩
          · rcases List.mem_cons.mp hs with he | hs
            · cases he
              obtain ⟨before, hb⟩ := addWindows_mem hw
              exact ⟨before, hsub _ hb⟩
            · exact hall s i hs hne window hw

theorem cut_spec (h : cut k version blocks = .ok result) : k.overlap < k.maxTokens ∧
    (∀ x ∈ result, IsWindow k version blocks.zipIdx x) ∧
      ∀ sectioned i, (sectioned, i) ∈ blocks.zipIdx → strip sectioned.block.textOriginal ≠ [] →
        ∀ window ∈ k.blockWindows sectioned.block.textOriginal, ∃ before,
          (i, newChunk k version sectioned before window) ∈ result := by
  rw [cut] at h
  split at h
  · cases h
  · rename_i hlimits
    rw [bind_eq_ok] at h
    obtain ⟨result', hcut, h⟩ := h
    split at h
    · cases h
    · cases h
      obtain ⟨-, hmem, hall⟩ := cutBlocks_spec hcut
      refine ⟨Nat.lt_of_not_le hlimits, fun x hx => ?_, hall⟩
      rcases hmem x hx with hx | hx
      · cases hx
      · exact hx

/-- A block that is not blank has a token that lies in it. -/
theorem cutBlocks_spans {position : Nat} {result' : Cut} (h : cutBlocks k version position result blocks = .ok result')
    (hs : sectioned ∈ blocks) (hne : strip sectioned.block.textOriginal ≠ []) :
    sourceSpans (k.tokenSpans sectioned.block.textOriginal) sectioned.block.textOriginal ≠ [] := by
  induction blocks generalizing position result with
  | nil => cases hs
  | cons s blocks ih =>
      rw [cutBlocks, bind_eq_ok] at h
      obtain ⟨result₁, h₁, h⟩ := h
      rcases List.mem_cons.mp hs with rfl | hs
      · simp only [cutBlock, hne, ↓reduceIte] at h₁
        split at h₁
        · cases h₁
        · assumption
      · exact ih h hs

theorem blockWindows_ne_nil (h : sourceSpans (k.tokenSpans text) text ≠ []) : k.blockWindows text ≠ [] := by
  rw [Chunker.blockWindows]
  cases hs : sourceSpans (k.tokenSpans text) text with
  | nil => exact absurd hs h
  | cons span spans => simp [windows]

theorem chunkBlocks_page {chunks : List BuiltChunk} {chunk : BuiltChunk} (h : chunkBlocks k version blocks = .ok chunks)
    (hc : chunk ∈ chunks) :
    ∃ sectioned ∈ blocks, strip sectioned.block.textOriginal ≠ [] ∧
      chunk.pageStart = sectioned.block.pageNumber ∧ chunk.pageEnd = sectioned.block.pageNumber := by
  obtain ⟨result, hcut, rfl⟩ := map_eq_ok.mp h
  obtain ⟨x, hx, rfl⟩ := List.mem_map.mp hc
  obtain ⟨sectioned, hs, hne, window, -, before, he⟩ := (cut_spec hcut).2.1 x hx
  exact ⟨sectioned, List.fst_mem_of_mem_zipIdx hs, hne, by rw [he]; rfl, by rw [he]; rfl⟩

theorem chunkBlocks_block {chunks : List BuiltChunk} (h : chunkBlocks k version blocks = .ok chunks)
    (hs : sectioned ∈ blocks) (hne : strip sectioned.block.textOriginal ≠ []) :
    ∃ chunk ∈ chunks, chunk.pageStart = sectioned.block.pageNumber := by
  obtain ⟨result, hcut, rfl⟩ := map_eq_ok.mp h
  obtain ⟨-, -, hall⟩ := cut_spec hcut
  have hspans : sourceSpans (k.tokenSpans sectioned.block.textOriginal) sectioned.block.textOriginal ≠ [] := by
    rw [cut] at hcut
    split at hcut
    · cases hcut
    · obtain ⟨result', hcut', -⟩ := bind_eq_ok.mp hcut
      exact cutBlocks_spans hcut' hs hne
  obtain ⟨window, hw⟩ := List.exists_mem_of_ne_nil _ (blockWindows_ne_nil hspans)
  obtain ⟨i, hi⟩ := List.getElem?_of_mem hs
  obtain ⟨before, hb⟩ := hall sectioned i (List.mem_zipIdx_iff_getElem?.mpr hi) hne window hw
  exact ⟨_, List.mem_map_of_mem hb, rfl⟩

end Etoeragcb.Content
