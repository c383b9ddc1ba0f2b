import Etoeragcb.Content.Lemmas.Chunker
import Mathlib.Data.List.Chain

/-!
# The windows of a block lie one behind the other
-/

namespace Etoeragcb.Content

open Lib Models

variable {k : Chunker} {version : VersionId} {blocks : List SectionedBlock} {sectioned : SectionedBlock} {result : Cut}
  {text : Text} {spans window : List (Nat × Nat)} {ranges : List (Nat × Nat)} {maxTokens overlap n : Nat}

/-! ## Ranges of spans -/

/-- The ranges cut `n` spans into windows: each holds as many as a window may hold at most, and the next one begins with
exactly `overlap` of them and goes further. -/
structure IsLayout (n maxTokens overlap : Nat) (ranges : List (Nat × Nat)) : Prop where
  first : ranges.head?.map Prod.fst = some 0
  last : ranges.getLast?.map Prod.snd = some n
  size : ∀ r ∈ ranges, r.1 < r.2 ∧ r.2 ≤ r.1 + maxTokens ∧ r.2 ≤ n
  next : ranges.IsChain fun r r' => r.1 < r'.1 ∧ r'.1 + overlap = r.2 ∧ r.2 < r'.2

theorem mem_range_of_isChain {r : Nat × Nat} {i : Nat}
    (hnext : (r :: ranges).IsChain fun r r' => r.1 < r'.1 ∧ r'.1 + overlap = r.2 ∧ r.2 < r'.2) (hstart : r.1 ≤ i)
    (hend : ∀ x ∈ (r :: ranges).getLast?, i < x.2) : ∃ x ∈ r :: ranges, x.1 ≤ i ∧ i < x.2 := by
  induction ranges generalizing r with
  | nil => exact ⟨r, List.mem_cons_self, hstart, hend r rfl⟩
  | cons r' ranges ih =>
      by_cases hi : i < r.2
      · exact ⟨r, List.mem_cons_self, hstart, hi⟩
      · obtain ⟨⟨-, hoverlap, -⟩, hrest⟩ := List.isChain_cons_cons.mp hnext
        obtain ⟨x, hx, hin⟩ := ih hrest (by omega) fun x hx => hend x (by rwa [List.getLast?_cons_cons])
        exact ⟨x, List.mem_cons_of_mem _ hx, hin⟩

theorem IsLayout.covers (h : IsLayout n maxTokens overlap ranges) {i : Nat} (hi : i < n) :
    ∃ r ∈ ranges, r.1 ≤ i ∧ i < r.2 := by
  cases ranges with
  | nil => cases h.first
  | cons r ranges =>
      have hfirst : r.1 = 0 := Option.some_inj.mp h.first
      refine mem_range_of_isChain h.next (by omega) fun x hx => ?_
      have hlast := h.last
      rw [Option.mem_def.mp hx] at hlast
      rw [Option.some_inj.mp hlast]
      exact hi

theorem windows_skip (maxTokens step skip : Nat) (spans : List (Nat × Nat)) :
    windows maxTokens step skip spans = windows maxTokens step 0 (spans.drop skip) := by
  induction skip generalizing spans with
  | zero => rw [List.drop_zero]
  | succ skip ih =>
      cases spans with
      | nil => rw [List.drop_nil, windows, windows]
      | cons span spans => rw [windows, ih, List.drop_succ_cons]

def spansIn (spans : List (Nat × Nat)) (r : Nat × Nat) : List (Nat × Nat) := (spans.drop r.1).take (r.2 - r.1)

def shift (d : Nat) (r : Nat × Nat) : Nat × Nat := (r.1 + d, r.2 + d)

/-- A layout of the spans behind the first step goes on behind a full window. -/
theorem IsLayout.cons (h : IsLayout (n - (maxTokens - overlap)) maxTokens overlap ranges)
    (hhead : ranges.head? = some (0, min maxTokens (n - (maxTokens - overlap)))) (hlimits : overlap < maxTokens)
    (hn : maxTokens < n) : IsLayout n maxTokens overlap ((0, maxTokens) :: ranges.map (shift (maxTokens - overlap))) := by
  refine ⟨rfl, ?_, ?_, ?_⟩
  · have hlast := h.last
    rw [List.getLast?_cons, List.getLast?_map]
    cases hr : ranges.getLast? with
    | none =>
        rw [hr] at hlast
        cases hlast
    | some r =>
        rw [hr] at hlast
        have hend : r.2 = n - (maxTokens - overlap) := Option.some_inj.mp hlast
        simp only [Option.map_some, Option.getD_some, shift, hend, Option.some.injEq]
        omega
  · intro r hr
    rcases List.mem_cons.mp hr with rfl | hr
    · simp only
      omega
    · obtain ⟨r', hr', rfl⟩ := List.mem_map.mp hr
      have hsize := h.size r' hr'
      simp only [shift]
      omega
  · refine List.IsChain.cons ((List.isChain_map _).mpr (h.next.imp fun r r' hnext => ?_)) fun r hr => ?_
    · simp only [shift]
      omega
    · rw [List.head?_map, hhead, Option.map_some, Option.mem_some_iff] at hr
      rw [← hr]
      simp only [shift]
      omega

theorem spansIn_drop (spans : List (Nat × Nat)) (d : Nat) (r : Nat × Nat) :
    spansIn (spans.drop d) r = spansIn spans (shift d r) := by
  rw [spansIn, spansIn, List.drop_drop, shift, Nat.add_sub_add_right, Nat.add_comm d]

/-- The windows over the spans are those of a layout. -/
theorem windows_layout (hlimits : overlap < maxTokens) (hne : spans ≠ []) : ∃ ranges,
    IsLayout spans.length maxTokens overlap ranges ∧ ranges.head? = some (0, min maxTokens spans.length) ∧
      windows maxTokens (maxTokens - overlap) 0 spans = ranges.map (spansIn spans) := by
  induction hlength : spans.length using Nat.strong_induction_on generalizing spans with
  | h n ih =>
      obtain ⟨span, rest, rfl⟩ := List.exists_cons_of_ne_nil hne
      rw [windows]
      by_cases hle : (span :: rest).length ≤ maxTokens
      · rw [hlength] at hle
        have hpos : 0 < n := hlength ▸ Nat.succ_pos _
        refine ⟨[(0, n)], ⟨rfl, rfl, fun r hr => ?_, List.isChain_singleton _⟩, ?_, ?_⟩
        · rw [List.mem_singleton.mp hr]
          simp only
          omega
        · rw [List.head?_cons, Nat.min_eq_right hle]
        · rw [hlength, if_pos hle, List.map_singleton, spansIn, List.drop_zero, Nat.sub_zero,
            List.take_of_length_le (hlength.trans_le hle), List.take_of_length_le hlength.le]
      · have hdrop : rest.drop (maxTokens - overlap - 1) = (span :: rest).drop (maxTokens - overlap) := by
          rw [show maxTokens - overlap = maxTokens - overlap - 1 + 1 by omega, List.drop_succ_cons]
          rfl
        have hrest : ((span :: rest).drop (maxTokens - overlap)).length = n - (maxTokens - overlap) := by
          rw [List.length_drop, hlength]
        rw [hlength] at hle
        obtain ⟨ranges, hlayout, hhead, hwindows⟩ := ih (n - (maxTokens - overlap)) (by omega)
          (List.ne_nil_of_length_pos (by omega)) hrest
        refine ⟨_, hlayout.cons hhead hlimits (Nat.lt_of_not_le hle), ?_, ?_⟩
        · rw [List.head?_cons, Nat.min_eq_left (Nat.le_of_not_le hle)]
        · rw [hlength, if_neg hle, windows_skip, hdrop, hwindows, List.map_cons, List.map_map, spansIn, List.drop_zero,
            Nat.sub_zero]
          exact congrArg _ (List.map_congr_left fun r _ => spansIn_drop _ _ r)

/-! ## The chunks of each block -/

/-- The chunk stands for the window of the block, whatever is cut before. -/
def StandsFor (k : Chunker) (version : VersionId) (sectioned : SectionedBlock) (window : List (Nat × Nat))
    (chunk : BuiltChunk) : Prop := ∃ before, chunk = newChunk k version sectioned before window

/-- The chunks of a block are its windows, one after the other. -/
def IsPart (k : Chunker) (version : VersionId) (sectioned : SectionedBlock) (part : List BuiltChunk) : Prop :=
  (strip sectioned.block.textOriginal = [] ∧ part = []) ∨
    (strip sectioned.block.textOriginal ≠ [] ∧
      sourceSpans (k.tokenSpans sectioned.block.textOriginal) sectioned.block.textOriginal ≠ [] ∧
      List.Forall₂ (StandsFor k version sectioned) (k.blockWindows sectioned.block.textOriginal) part)

variable (k version sectioned) in
theorem addWindows_part (position : Nat) (ws : List (List (Nat × Nat))) (result : Cut) : ∃ part,
    (ws.foldl (fun result window => result ++ [(position, newChunk k version sectioned result window)]) result).map Prod.snd =
      result.map Prod.snd ++ part ∧ List.Forall₂ (StandsFor k version sectioned) ws part := by
  induction ws generalizing result with
  | nil => exact ⟨[], by rw [List.append_nil]; rfl, .nil⟩
  | cons window ws ih =>
      obtain ⟨part, hpart, hstands⟩ := ih (result ++ [(position, newChunk k version sectioned result window)])
      refine ⟨newChunk k version sectioned result window :: part, ?_, .cons ⟨result, rfl⟩ hstands⟩
      rw [List.foldl_cons, hpart, List.map_append, List.append_assoc]
      rfl

theorem cutBlocks_parts {position : Nat} {result' : Cut} (h : cutBlocks k version position result blocks = .ok result') :
    ∃ parts, result'.map Prod.snd = result.map Prod.snd ++ parts.flatten ∧ List.Forall₂ (IsPart k version) blocks parts := by
  induction blocks generalizing position result with
  | nil =>
      cases h
      exact ⟨[], by simp, .nil⟩
  | cons sectioned blocks ih =>
      rw [cutBlocks, bind_eq_ok] at h
      obtain ⟨result₁, h₁, h⟩ := h
      obtain ⟨parts, hparts, hall⟩ := ih h
      simp only [cutBlock] at h₁
      split at h₁
      · rename_i hblank
        cases h₁
        exact ⟨[] :: parts, by rw [List.flatten_cons, List.nil_append, hparts], .cons (Or.inl ⟨hblank, rfl⟩) hall⟩
      · rename_i hne
        split at h₁
        · cases h₁
        · rename_i hspans
          cases h₁
          obtain ⟨part, hpart, hstands⟩ := addWindows_part k version sectioned position
            (k.blockWindows sectioned.block.textOriginal) result
          exact ⟨part :: parts, by rw [hparts, hpart, List.flatten_cons, List.append_assoc],
            .cons (Or.inr ⟨hne, hspans, hstands⟩) hall⟩

/-- The chunk holds the spans of the range, and the text from the first of them to the last. -/
structure ChunkAt (text : Text) (spans : List (Nat × Nat)) (r : Nat × Nat) (chunk : BuiltChunk) : Prop where
  tokenCount : chunk.tokenCount = r.2 - r.1
  charStart : spans[r.1]?.map Prod.fst = some chunk.charStart
  charEnd : spans[r.2 - 1]?.map Prod.snd = some chunk.charEnd
  textOriginal : chunk.textOriginal = slice text chunk.charStart chunk.charEnd

theorem StandsFor.chunkAt {r : Nat × Nat} {chunk : BuiltChunk} (h : StandsFor k version sectioned (spansIn spans r) chunk)
    (hlt : r.1 < r.2) (hle : r.2 ≤ spans.length) : ChunkAt sectioned.block.textOriginal spans r chunk := by
  obtain ⟨before, rfl⟩ := h
  have hfirst : (spansIn spans r).head? = spans[r.1]? := by
    rw [spansIn, List.head?_take, if_neg (by omega), List.head?_drop]
  have hlast : (spansIn spans r).getLast? = spans[r.2 - 1]? := by
    have hin : r.1 + (r.2 - r.1 - 1) = r.2 - 1 := by omega
    rw [spansIn, List.getLast?_take, if_neg (by omega), List.getElem?_drop, hin,
      List.getElem?_eq_getElem (by omega), Option.some_or]
  refine ⟨?_, ?_, ?_, rfl⟩
  · simp only [newChunk, spansIn, List.length_take, List.length_drop]
    omega
  · simp only [newChunk, List.headD_eq_head?_getD, hfirst]
    rw [List.getElem?_eq_getElem (by omega)]
    rfl
  · simp only [newChunk, List.getLastD_eq_getLast?, hlast]
    rw [List.getElem?_eq_getElem (by omega)]
    rfl

theorem exists_of_forall₂ {α β : Type} {R : α → β → Prop} {as : List α} {bs : List β} (h : List.Forall₂ R as bs) {a : α}
    (ha : a ∈ as) : ∃ b ∈ bs, R a b := by
  induction h with
  | nil => cases ha
  | cons hab _ ih =>
      rcases List.mem_cons.mp ha with rfl | ha
      · exact ⟨_, List.mem_cons_self, hab⟩
      · obtain ⟨b, hb, hR⟩ := ih ha
        exact ⟨b, List.mem_cons_of_mem _ hb, hR⟩

/-- The chunks of a block that is not blank lie where a layout has its ranges. -/
theorem IsPart.layout {part : List BuiltChunk} (h : IsPart k version sectioned part) (hlimits : k.overlap < k.maxTokens)
    (hne : strip sectioned.block.textOriginal ≠ []) : ∃ ranges,
    IsLayout (sourceSpans (k.tokenSpans sectioned.block.textOriginal) sectioned.block.textOriginal).length k.maxTokens k.overlap
      ranges ∧
    List.Forall₂ (ChunkAt sectioned.block.textOriginal
      (sourceSpans (k.tokenSpans sectioned.block.textOriginal) sectioned.block.textOriginal)) ranges part := by
  rcases h with ⟨hblank, -⟩ | ⟨-, hspans, hstands⟩
  · exact absurd hblank hne
  · obtain ⟨ranges, hlayout, -, hwindows⟩ := windows_layout hlimits hspans
    refine ⟨ranges, hlayout, ?_⟩
    rw [Chunker.blockWindows, hwindows, List.forall₂_map_left_iff] at hstands
    refine ((List.forall₂_and_left _ _).mpr ⟨hlayout.size, hstands⟩).imp fun r chunk hr => ?_
    exact hr.2.chunkAt hr.1.1 hr.1.2.2

theorem covered_of_layout {part : List BuiltChunk} (hlayout : IsLayout spans.length maxTokens overlap ranges)
    (hat : List.Forall₂ (ChunkAt text spans) ranges part) (horder : spans.Pairwise fun a b => a.1 ≤ b.1 ∧ a.2 ≤ b.2)
    {span : Nat × Nat} (hspan : span ∈ spans) : ∃ chunk ∈ part, chunk.charStart ≤ span.1 ∧ span.2 ≤ chunk.charEnd := by
  obtain ⟨i, hi, rfl⟩ := List.getElem_of_mem hspan
  obtain ⟨r, hr, hstart, hend⟩ := hlayout.covers hi
  obtain ⟨hlt, -, hle⟩ := hlayout.size r hr
  obtain ⟨chunk, hchunk, hstands⟩ := exists_of_forall₂ hat hr
  have hmono : ∀ {j l : Nat} (hj : j < spans.length) (hl : l < spans.length), j ≤ l →
      spans[j].1 ≤ spans[l].1 ∧ spans[j].2 ≤ spans[l].2 := by
    intro j l hj hl hjl
    rcases Nat.lt_or_eq_of_le hjl with hjl | rfl
    · exact List.pairwise_iff_getElem.mp horder j l hj hl hjl
    · exact ⟨Nat.le_refl _, Nat.le_refl _⟩
  have hfirst := hstands.charStart
  have hlast := hstands.charEnd
  rw [List.getElem?_eq_getElem (by omega), Option.map_some, Option.some.injEq] at hfirst hlast
  refine ⟨chunk, hchunk, ?_, ?_⟩
  · rw [← hfirst]
    exact (hmono (by omega) hi hstart).1
  · rw [← hlast]
    exact (hmono hi (by omega) (by omega)).2

/-! ## The running index -/

/-- What holds of no chunks and stays true with one more chunk holds of all chunks. -/
theorem cutBlocks_induction {P : Cut → Prop}
    (step : ∀ result position sectioned window, P result → P (result ++ [(position, newChunk k version sectioned result window)]))
    {position : Nat} {result' : Cut} (h : P result) (hcut : cutBlocks k version position result blocks = .ok result') :
    P result' := by
  have hwindows : ∀ (position : Nat) (sectioned : SectionedBlock) (ws : List (List (Nat × Nat))) (result : Cut), P result →
      P (ws.foldl (fun result window => result ++ [(position, newChunk k version sectioned result window)]) result) := by
    intro position sectioned ws
    induction ws with
    | nil => exact fun _ h => h
    | cons window ws ih => exact fun result h => ih _ (step result position sectioned window h)
  induction blocks generalizing position result with
  | nil =>
      cases hcut
      exact h
  | cons sectioned blocks ih =>
      rw [cutBlocks, bind_eq_ok] at hcut
      obtain ⟨result₁, h₁, hcut⟩ := hcut
      refine ih ?_ hcut
      simp only [cutBlock] at h₁
      split at h₁
      · cases h₁
        exact h
      · split at h₁
        · cases h₁
        · cases h₁
          exact hwindows position sectioned _ result h

theorem chunkBlocks_cutBlocks {chunks : List BuiltChunk} (h : chunkBlocks k version blocks = .ok chunks) :
    k.overlap < k.maxTokens ∧ ∃ result, cutBlocks k version 0 [] blocks = .ok result ∧ result.map Prod.snd = chunks := by
  obtain ⟨result, hcut, rfl⟩ := map_eq_ok.mp h
  rw [cut] at hcut
  split at hcut
  · cases hcut
  · rename_i hlimits
    rw [bind_eq_ok] at hcut
    obtain ⟨result', hcut, hresult⟩ := hcut
    split at hresult
    · cases hresult
    · cases hresult
      exact ⟨Nat.lt_of_not_le hlimits, result, hcut, rfl⟩

theorem chunkBlocks_chunkIndex {chunks : List BuiltChunk} (h : chunkBlocks k version blocks = .ok chunks) :
    chunks.map (·.chunkIndex) = List.range chunks.length := by
  obtain ⟨-, result, hcut, rfl⟩ := chunkBlocks_cutBlocks h
  have hnumbered : result.map (·.2.chunkIndex) = List.range result.length := by
    refine cutBlocks_induction (P := fun result => result.map (·.2.chunkIndex) = List.range result.length) ?_ rfl hcut
    intro result position sectioned window h
    rw [List.map_append, h, List.length_append, List.length_singleton, List.range_succ]
    rfl
  rw [List.map_map, List.length_map]
  exact hnumbered

theorem chunkBlocks_parts {chunks : List BuiltChunk} (h : chunkBlocks k version blocks = .ok chunks) :
    k.overlap < k.maxTokens ∧ ∃ parts, parts.flatten = chunks ∧ List.Forall₂ (IsPart k version) blocks parts := by
  obtain ⟨hlimits, result, hcut, rfl⟩ := chunkBlocks_cutBlocks h
  obtain ⟨parts, hparts, hall⟩ := cutBlocks_parts hcut
  exact ⟨hlimits, parts, hparts.symm, hall⟩

end Etoeragcb.Content
