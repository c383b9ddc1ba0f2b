import Etoeragcb.Rag.Lemmas.Postprocess

/-!
# What the packer selects and skips

One step of the loop, the runs of it, and the order in which the candidates are considered.
-/

namespace Etoeragcb.Rag

open Lib Models

variable {packer : ContextPacker} {p : Packing} {x y : RerankedEvidence} {l ranked : List RerankedEvidence}
  {selected : List RerankedEvidence}

/-! ## A step -/

/-- The reason holds of the candidate behind those that are selected. -/
def Holds (packer : ContextPacker) (selected : List RerankedEvidence) (x : RerankedEvidence) : SkipReason → Prop
  | .candidateCap => packer.maxCandidates ≤ selected.length
  | .sectionCap => packer.sectionLimit ≤ selected.countP (·.candidate.sectionKey = x.candidate.sectionKey)
  | .sourceCap => packer.sourceLimit ≤ selected.countP (·.candidate.sourceKey = x.candidate.sourceKey)
  | .domainCap => x.candidate.domain ≠ none ∧
      packer.domainLimit ≤ selected.countP (·.candidate.domain = x.candidate.domain)
  | .sourceTypeCap => x.candidate.sourceType = .web ∧
      ∃ n, packer.webLimit = some n ∧ n ≤ selected.countP (·.candidate.sourceType = .web)
  | .tokenBudget => packer.tokenBudget < packer.count (formatContext (selected ++ [x]))

/-- What is selected stays within the caps. -/
structure Capped (packer : ContextPacker) (selected : List RerankedEvidence) : Prop where
  total : selected.length ≤ packer.maxCandidates
  section_le : ∀ k, selected.countP (·.candidate.sectionKey = k) ≤ packer.sectionLimit
  source_le : ∀ k, selected.countP (·.candidate.sourceKey = k) ≤ packer.sourceLimit
  domain_le : ∀ d, selected.countP (·.candidate.domain = some d) ≤ packer.domainLimit
  web_le : ∀ n, packer.webLimit = some n → selected.countP (·.candidate.sourceType = .web) ≤ n

theorem holds_of_capReason {reason : SkipReason} (h : capReason packer selected x.candidate = some reason) :
    Holds packer selected x reason := by
  rw [capReason] at h
  split at h
  · rename_i hcap
    exact Option.some.inj h ▸ hcap
  · split at h
    · rename_i hcap
      exact Option.some.inj h ▸ hcap
    · split at h
      · rename_i hcap
        exact Option.some.inj h ▸ hcap
      · split at h
        · rename_i hcap
          exact Option.some.inj h ▸ hcap
        · split at h
          · rename_i hcap
            obtain ⟨n, hn, hle⟩ := Option.any_eq_true _ _ |>.mp hcap.2
            exact Option.some.inj h ▸ ⟨hcap.1, n, hn, of_decide_eq_true hle⟩
          · cases h

theorem countP_append_singleton {P : RerankedEvidence → Bool} {limit : ℕ} (h : selected.countP P ≤ limit)
    (hx : P x = true → selected.countP P < limit) : (selected ++ [x]).countP P ≤ limit := by
  rw [List.countP_append, List.countP_singleton]
  split
  · rename_i hp
    exact hx hp
  · exact h

theorem ite_some_eq_none {α : Type} {c : Prop} [Decidable c] {a : α} {o : Option α} :
    (if c then some a else o) = none ↔ ¬c ∧ o = none := by
  by_cases hc : c <;> simp [hc]

theorem Capped.append (h : Capped packer selected) (hx : capReason packer selected x.candidate = none) :
    Capped packer (selected ++ [x]) := by
  simp only [capReason, ite_some_eq_none, Nat.not_le, not_and, and_true] at hx
  obtain ⟨htotal, hsection, hsource, hdomain, hweb⟩ := hx
  constructor
  · rw [List.length_append]
    exact htotal
  · intro k
    refine countP_append_singleton (h.section_le k) fun hk => ?_
    rw [decide_eq_true_eq] at hk
    exact hk ▸ hsection
  · intro k
    refine countP_append_singleton (h.source_le k) fun hk => ?_
    rw [decide_eq_true_eq] at hk
    exact hk ▸ hsource
  · intro d
    refine countP_append_singleton (h.domain_le d) fun hd => ?_
    rw [decide_eq_true_eq] at hd
    exact hd ▸ hdomain (hd ▸ Option.some_ne_none d)
  · intro n hn
    refine countP_append_singleton (h.web_le n hn) fun hw => ?_
    rw [decide_eq_true_eq] at hw
    have hno := hweb hw
    rw [hn, Option.any_some, decide_eq_true_eq, Nat.not_le] at hno
    exact hno

theorem packItem_cases (packer : ContextPacker) (p : Packing) (x : RerankedEvidence) :
    (∃ reason, Holds packer p.selected x reason ∧
      packItem packer p x = { p with skipped := p.skipped ++ [⟨x.candidate.candidateId, reason⟩] }) ∨
    (capReason packer p.selected x.candidate = none ∧ packer.count (formatContext (p.selected ++ [x])) ≤ packer.tokenBudget ∧
      packItem packer p x = ⟨p.selected ++ [x], p.skipped, formatContext (p.selected ++ [x]),
        packer.count (formatContext (p.selected ++ [x]))⟩) := by
  rw [packItem]
  cases hcap : capReason packer p.selected x.candidate with
  | some reason => exact Or.inl ⟨reason, holds_of_capReason hcap, rfl⟩
  | none =>
      by_cases hbudget : packer.tokenBudget < packer.count (formatContext (p.selected ++ [x]))
      · exact Or.inl ⟨.tokenBudget, hbudget, if_pos hbudget⟩
      · exact Or.inr ⟨rfl, Nat.not_lt.mp hbudget, if_neg hbudget⟩

/-! ## A run -/

/-- The text is that of the selected candidates, within the caps and the budget. -/
structure Packed (packer : ContextPacker) (p : Packing) : Prop where
  context_eq : p.context = formatContext p.selected
  count_eq : p.selected ≠ [] → p.tokenCount = packer.count p.context
  budget : p.tokenCount ≤ packer.tokenBudget
  capped : Capped packer p.selected

theorem packed_nil (packer : ContextPacker) : Packed packer ⟨[], [], [], 0⟩ :=
  ⟨rfl, fun h => absurd rfl h, Nat.zero_le _, ⟨Nat.zero_le _, fun _ => Nat.zero_le _, fun _ => Nat.zero_le _,
    fun _ => Nat.zero_le _, fun _ _ => Nat.zero_le _⟩⟩

theorem Packed.step (h : Packed packer p) (x : RerankedEvidence) : Packed packer (packItem packer p x) := by
  rcases packItem_cases packer p x with ⟨reason, -, heq⟩ | ⟨hcap, hbudget, heq⟩
  · rw [heq]
    exact ⟨h.context_eq, h.count_eq, h.budget, h.capped⟩
  · rw [heq]
    exact ⟨rfl, fun _ => rfl, hbudget, h.capped.append hcap⟩

theorem Packed.run (h : Packed packer p) (l : List RerankedEvidence) : Packed packer (l.foldl (packItem packer) p) := by
  induction l generalizing p with
  | nil => exact h
  | cons x l ih => exact ih (h.step x)

/-- A run selects some of the candidates and skips the others, in their order. -/
theorem foldl_packItem (packer : ContextPacker) (p : Packing) (l : List RerankedEvidence) :
    ∃ sel skip, (l.foldl (packItem packer) p).selected = p.selected ++ sel ∧
      (l.foldl (packItem packer) p).skipped = p.skipped ++ skip ∧ sel.Sublist l ∧
      (skip.map (·.candidateId)).Sublist (l.map (·.candidate.candidateId)) ∧
      (sel.map (·.candidate.candidateId) ++ skip.map (·.candidateId)).Perm (l.map (·.candidate.candidateId)) := by
  induction l generalizing p with
  | nil => exact ⟨[], [], by simp, by simp, .refl _, .refl _, .refl _⟩
  | cons x l ih =>
      rw [List.foldl_cons, List.map_cons]
      obtain ⟨sel, skip, hsel, hskip, hsub, hsub', hperm⟩ := ih (packItem packer p x)
      rcases packItem_cases packer p x with ⟨reason, -, heq⟩ | ⟨-, -, heq⟩
      · refine ⟨sel, ⟨x.candidate.candidateId, reason⟩ :: skip, by rw [hsel, heq], ?_, hsub.cons x, hsub'.cons_cons _, ?_⟩
        · rw [hskip, heq, List.append_assoc]
          rfl
        · exact List.perm_middle.trans (hperm.cons _)
      · refine ⟨x :: sel, skip, ?_, by rw [hskip, heq], hsub.cons_cons x, hsub'.cons _, hperm.cons _⟩
        rw [hsel, heq, List.append_assoc]
        rfl

theorem holds_of_skip {before after : List RerankedEvidence} {reason : SkipReason}
    (hnodup : ((before ++ x :: after).map (·.candidate.candidateId)).Nodup)
    (h : ⟨x.candidate.candidateId, reason⟩ ∈ ((before ++ x :: after).foldl (packItem packer) ⟨[], [], [], 0⟩).skipped) :
    Holds packer (before.foldl (packItem packer) ⟨[], [], [], 0⟩).selected x reason := by
  rw [List.map_append, List.map_cons, List.nodup_append'] at hnodup
  obtain ⟨-, hafter, hdisjoint⟩ := hnodup
  rw [List.foldl_append, List.foldl_cons] at h
  set p := before.foldl (packItem packer) ⟨[], [], [], 0⟩ with hp
  obtain ⟨-, skip, -, hskip, -, hsub, -⟩ := foldl_packItem packer (packItem packer p x) after
  obtain ⟨-, skip', -, hskip', -, hsub', -⟩ := foldl_packItem packer ⟨[], [], [], 0⟩ before
  -- neither an earlier skip nor a later one is of this candidate
  have hlater : (⟨x.candidate.candidateId, reason⟩ : ContextSkip) ∉ skip := fun hin =>
    (List.nodup_cons.mp hafter).1 (hsub.subset (List.mem_map_of_mem hin))
  have hearlier : (⟨x.candidate.candidateId, reason⟩ : ContextSkip) ∉ p.skipped := fun hin => by
    rw [hp, hskip', List.nil_append] at hin
    exact hdisjoint (hsub'.subset (List.mem_map_of_mem hin)) List.mem_cons_self
  rw [hskip, List.mem_append, or_iff_left hlater] at h
  rcases packItem_cases packer p x with ⟨reason', hreason, heq⟩ | ⟨-, -, heq⟩
  · rw [heq, List.mem_append, or_iff_right hearlier, List.mem_singleton, ContextSkip.mk.injEq] at h
    exact h.2 ▸ hreason
  · rw [heq] at h
    exact absurd h hearlier

/-- What is selected before a candidate are the selected ones among those before it. -/
theorem selected_before {before after : List RerankedEvidence} (hnodup : (before ++ after).Nodup) :
    ((before ++ after).foldl (packItem packer) ⟨[], [], [], 0⟩).selected.filter (· ∈ before) =
      (before.foldl (packItem packer) ⟨[], [], [], 0⟩).selected := by
  rw [List.foldl_append]
  obtain ⟨sel, -, hsel, -, hsub, -⟩ := foldl_packItem packer (before.foldl (packItem packer) ⟨[], [], [], 0⟩) after
  obtain ⟨sel', -, hsel', -, hsub', -⟩ := foldl_packItem packer ⟨[], [], [], 0⟩ before
  have hin : ∀ y ∈ sel', y ∈ before := fun y hy => hsub'.subset hy
  have hout : ∀ y ∈ sel, y ∉ before := fun y hy hb => List.disjoint_of_nodup_append hnodup hb (hsub.subset hy)
  rw [hsel, hsel', List.nil_append, List.filter_append, List.filter_eq_self.mpr (by simpa using hin),
    List.filter_eq_nil_iff.mpr (by simpa using hout), List.append_nil]

/-! ## The order -/

def representativesOf (candidates : List RerankedEvidence) : List RerankedEvidence :=
  let ranked := sortBy stableRerankedKey candidates
  addRepresentative ranked (addRepresentative ranked (termRepresentatives [] ranked) .document) .web

theorem evidenceOrder_eq (l : List RerankedEvidence) : evidenceOrder l = representativesOf l ++
    (sortBy stableRerankedKey l).filter fun x =>
      x.candidate.candidateId ∉ (representativesOf l).map (·.candidate.candidateId) := rfl

theorem mem_termRepresentatives_iff {represented : List Text} : x ∈ termRepresentatives represented l ↔
    ∃ before after, l = before ++ x :: after ∧
      ∃ term ∈ x.candidate.matchedExactTerms, term ∉ represented ∧ ∀ y ∈ before, term ∉ y.candidate.matchedExactTerms := by
  induction l generalizing represented with
  | nil => simp [termRepresentatives]
  | cons z l ih =>
      -- it is the first, or one behind it
      have hcons : (∃ before after, z :: l = before ++ x :: after ∧ ∃ term ∈ x.candidate.matchedExactTerms,
          term ∉ represented ∧
            ∀ y ∈ before, term ∉ y.candidate.matchedExactTerms) ↔
          (x = z ∧ ∃ term ∈ x.candidate.matchedExactTerms, term ∉ represented) ∨
          ∃ before after, l = before ++ x :: after ∧ ∃ term ∈ x.candidate.matchedExactTerms,
            (term ∉ represented ∧ term ∉ z.candidate.matchedExactTerms) ∧
              ∀ y ∈ before, term ∉ y.candidate.matchedExactTerms := by
        constructor
        · rintro ⟨before, after, heq, term, hterm, hnew, hfirst⟩
          cases before with
          | nil =>
              obtain ⟨rfl, -⟩ := List.cons.inj heq
              exact Or.inl ⟨rfl, term, hterm, hnew⟩
          | cons y before =>
              obtain ⟨rfl, hrest⟩ := List.cons.inj heq
              obtain ⟨hy, hbefore⟩ := List.forall_mem_cons.mp hfirst
              exact Or.inr ⟨before, after, hrest, term, hterm, ⟨hnew, hy⟩, hbefore⟩
        · rintro (⟨rfl, term, hterm, hnew⟩ | ⟨before, after, rfl, term, hterm, ⟨hnew, hz⟩, hbefore⟩)
          · exact ⟨[], l, rfl, term, hterm, hnew, fun _ hy => absurd hy List.not_mem_nil⟩
          · exact ⟨z :: before, after, rfl, term, hterm, hnew, List.forall_mem_cons.mpr ⟨hz, hbefore⟩⟩
      rw [hcons, termRepresentatives]
      by_cases hz : ∃ term ∈ z.candidate.matchedExactTerms, term ∉ represented
      · rw [if_pos hz, List.mem_cons, ih]
        simp only [List.mem_append, not_or]
        refine or_congr_left ⟨fun h => ⟨h, h ▸ hz⟩, And.left⟩
      · rw [if_neg hz, ih]
        push Not at hz
        constructor
        · rintro ⟨before, after, heq, term, hterm, hnew, hbefore⟩
          exact Or.inr ⟨before, after, heq, term, hterm, ⟨hnew, fun hin => hnew (hz term hin)⟩, hbefore⟩
        · rintro (⟨rfl, term, hterm, hnew⟩ | ⟨before, after, heq, term, hterm, ⟨hnew, -⟩, hbefore⟩)
          · exact absurd (hz term hterm) hnew
          · exact ⟨before, after, heq, term, hterm, hnew, hbefore⟩

theorem termRepresentatives_sublist (represented : List Text) (l : List RerankedEvidence) :
    (termRepresentatives represented l).Sublist l := by
  induction l generalizing represented with
  | nil => exact .refl _
  | cons z l ih =>
      rw [termRepresentatives]
      split
      · exact (ih _).cons_cons z
      · exact (ih _).cons z

theorem addRepresentative_nodup {representatives : List RerankedEvidence} {sourceType : SourceType}
    (h : (representatives.map (·.candidate.candidateId)).Nodup) :
    ((addRepresentative l representatives sourceType).map (·.candidate.candidateId)).Nodup := by
  rw [addRepresentative]
  cases hfind : l.find? fun x => x.candidate.sourceType = sourceType ∧
      x.candidate.candidateId ∉ representatives.map (·.candidate.candidateId) with
  | none => simpa using h
  | some z =>
      have hz : z.candidate.candidateId ∉ representatives.map (·.candidate.candidateId) := by
        have hsome := List.find?_some hfind
        rw [decide_eq_true_eq] at hsome
        exact hsome.2
      rw [Option.toList_some, List.map_append, List.map_singleton, ← List.concat_eq_append, List.nodup_concat]
      exact ⟨hz, h⟩

variable (hnodup : (l.map (·.candidate.candidateId)).Nodup)

include hnodup in
theorem representativesOf_nodup : ((representativesOf l).map (·.candidate.candidateId)).Nodup := by
  have hranked : ((sortBy stableRerankedKey l).map (·.candidate.candidateId)).Nodup :=
    ((sortBy_perm _ _).map _).nodup_iff.mpr hnodup
  exact addRepresentative_nodup (addRepresentative_nodup
    (hranked.sublist ((termRepresentatives_sublist [] _).map _)))

theorem representativesOf_subset : ∀ x ∈ representativesOf l, x ∈ l := fun _ hx =>
  mem_sortBy.mp (mem_addRepresentative (fun _ => mem_addRepresentative fun _ => mem_termRepresentatives) hx)

include hnodup in
theorem id_mem_iff {representatives : List RerankedEvidence} (hsub : ∀ x ∈ representatives, x ∈ l) (hy : y ∈ l) :
    y.candidate.candidateId ∈ representatives.map (·.candidate.candidateId) ↔ y ∈ representatives := by
  refine ⟨fun hin => ?_, List.mem_map_of_mem⟩
  obtain ⟨z, hz, he⟩ := List.mem_map.mp hin
  exact List.inj_on_of_nodup_map hnodup (hsub z hz) hy he ▸ hz

include hnodup in
theorem evidenceOrder_perm : (evidenceOrder l).Perm l := by
  have hranked : (sortBy stableRerankedKey l).Perm l := sortBy_perm _ _
  have hfirst : ((sortBy stableRerankedKey l).filter fun x =>
      x.candidate.candidateId ∈ (representativesOf l).map (·.candidate.candidateId)).Perm (representativesOf l) := by
    refine (List.perm_ext_iff_of_nodup ?_ (representativesOf_nodup hnodup).of_map).mpr fun x => ?_
    · exact (hranked.nodup_iff.mpr hnodup.of_map).filter _
    · rw [List.mem_filter, mem_sortBy, decide_eq_true_eq]
      exact ⟨fun h => (id_mem_iff hnodup representativesOf_subset h.1).mp h.2,
        fun h => ⟨representativesOf_subset x h, List.mem_map_of_mem h⟩⟩
  have hsplit := List.filter_append_perm
    (fun x => decide (x.candidate.candidateId ∈ (representativesOf l).map (·.candidate.candidateId)))
    (sortBy stableRerankedKey l)
  rw [evidenceOrder_eq]
  refine ((hfirst.symm.append_right _).trans ?_).trans hranked
  simpa only [decide_not] using hsplit

/-! ## Who comes first -/

/-- Of the candidates that have a term, the best-ranked one. -/
def IsBestCarrier (candidates : List RerankedEvidence) (term : Text) (x : RerankedEvidence) : Prop :=
  x ∈ candidates ∧ term ∈ x.candidate.matchedExactTerms ∧
    ∀ y ∈ candidates, term ∈ y.candidate.matchedExactTerms → stableRerankedKey x ≤ stableRerankedKey y

/-- Of the candidates of a source type that are the best-ranked for no term, the best-ranked one. -/
def IsSourceRepresentative (candidates : List RerankedEvidence) (x : RerankedEvidence) : Prop :=
  x ∈ candidates ∧ (∀ term, ¬IsBestCarrier candidates term x) ∧
    ∀ y ∈ candidates, y.candidate.sourceType = x.candidate.sourceType → (∀ term, ¬IsBestCarrier candidates term y) →
      stableRerankedKey x ≤ stableRerankedKey y

/-- What comes before another one in the order of the ranks is better-ranked, and what is better-ranked comes before it. -/
theorem key_le_of_split {before after : List RerankedEvidence} (h : sortBy stableRerankedKey l = before ++ x :: after) :
    (∀ y ∈ before, stableRerankedKey y ≤ stableRerankedKey x) ∧ ∀ y ∈ after, stableRerankedKey x ≤ stableRerankedKey y := by
  have hsorted := sortBy_pairwise stableRerankedKey l
  rw [h, List.pairwise_append, List.pairwise_cons] at hsorted
  exact ⟨fun y hy => hsorted.2.2 y hy x List.mem_cons_self, hsorted.2.1.1⟩

include hnodup in
theorem mem_termRepresentatives_iff_best :
    x ∈ termRepresentatives [] (sortBy stableRerankedKey l) ↔ ∃ term, IsBestCarrier l term x := by
  rw [mem_termRepresentatives_iff]
  constructor
  · rintro ⟨before, after, hsplit, term, hterm, -, hbefore⟩
    have hmem : ∀ y, y ∈ l ↔ y ∈ before ++ x :: after := fun y => by rw [← hsplit, mem_sortBy]
    refine ⟨term, (hmem x).mpr (by simp), hterm, fun y hy hyterm => ?_⟩
    rcases List.mem_append.mp ((hmem y).mp hy) with hin | hin
    · exact absurd hyterm (hbefore y hin)
    · rcases List.mem_cons.mp hin with rfl | hin
      · exact le_refl _
      · exact (key_le_of_split hsplit).2 y hin
  · rintro ⟨term, hx, hterm, hbest⟩
    obtain ⟨before, after, hsplit⟩ := List.append_of_mem (mem_sortBy.mpr hx : x ∈ sortBy stableRerankedKey l)
    refine ⟨before, after, hsplit, term, hterm, List.not_mem_nil, fun y hy hyterm => ?_⟩
    have hyl : y ∈ l := mem_sortBy.mp (hsplit ▸ List.mem_append_left _ hy)
    obtain rfl := stableRerankedKey_inj hnodup hyl hx
      (le_antisymm ((key_le_of_split hsplit).1 y hy) (hbest y hyl hyterm))
    -- it cannot come before itself
    have hself : (before ++ y :: after).Nodup := hsplit ▸ (sortBy_perm stableRerankedKey l).nodup_iff.mpr hnodup.of_map
    exact List.disjoint_of_nodup_append hself hy List.mem_cons_self

theorem key_le_of_find? {P : RerankedEvidence → Bool} (h : (sortBy stableRerankedKey l).find? P = some x) :
    x ∈ l ∧ P x = true ∧ ∀ y ∈ l, P y = true → stableRerankedKey x ≤ stableRerankedKey y := by
  obtain ⟨hx, before, after, hsplit, hbefore⟩ := List.find?_eq_some_iff_append.mp h
  have hmem : ∀ y, y ∈ l ↔ y ∈ before ++ x :: after := fun y => by rw [← hsplit, mem_sortBy]
  refine ⟨(hmem x).mpr (by simp), hx, fun y hy hpy => ?_⟩
  rcases List.mem_append.mp ((hmem y).mp hy) with hin | hin
  · have hno := hbefore y hin
    rw [hpy] at hno
    cases hno
  · rcases List.mem_cons.mp hin with rfl | hin
    · exact le_refl _
    · exact (key_le_of_split hsplit).2 y hin

/-- What joins the representatives stands for its source type, if those of its type are best-ranked carriers. -/
theorem isSourceRepresentative_of_find? {representatives : List RerankedEvidence} {sourceType : SourceType}
    (hreps : ∀ y ∈ l, y.candidate.sourceType = sourceType →
      ((∀ term, ¬IsBestCarrier l term y) ↔ y.candidate.candidateId ∉ representatives.map (·.candidate.candidateId)))
    (h : ((sortBy stableRerankedKey l).find? fun x => x.candidate.sourceType = sourceType ∧
      x.candidate.candidateId ∉ representatives.map (·.candidate.candidateId)) = some x) :
    IsSourceRepresentative l x ∧ x.candidate.sourceType = sourceType := by
  obtain ⟨hx, hpx, hbest⟩ := key_le_of_find? h
  rw [decide_eq_true_eq] at hpx
  refine ⟨⟨hx, (hreps x hx hpx.1).mpr hpx.2, fun y hy htype hcarrier => ?_⟩, hpx.1⟩
  have hytype := htype.trans hpx.1
  exact hbest y hy (decide_eq_true ⟨hytype, (hreps y hy hytype).mp hcarrier⟩)

include hnodup in
/-- A representative is the best-ranked carrier of a term, or that of its source type among the others. -/
theorem representative_cases (hx : x ∈ representativesOf l) :
    (∃ term, IsBestCarrier l term x) ∨ IsSourceRepresentative l x := by
  have hterms : ∀ y ∈ termRepresentatives [] (sortBy stableRerankedKey l), y ∈ l := fun y hy =>
    mem_sortBy.mp (mem_termRepresentatives hy)
  have hdocument : ∀ y ∈ l, (∀ term, ¬IsBestCarrier l term y) ↔
      y.candidate.candidateId ∉ (termRepresentatives [] (sortBy stableRerankedKey l)).map (·.candidate.candidateId) :=
    fun y hy => by rw [id_mem_iff hnodup hterms hy, mem_termRepresentatives_iff_best hnodup, not_exists]
  have hfirst : ∀ z, ((sortBy stableRerankedKey l).find? fun x => x.candidate.sourceType = .document ∧
      x.candidate.candidateId ∉ (termRepresentatives [] (sortBy stableRerankedKey l)).map (·.candidate.candidateId)) = some z →
      IsSourceRepresentative l z ∧ z.candidate.sourceType = .document :=
    fun z hz => isSourceRepresentative_of_find? (fun y hy _ => hdocument y hy) hz
  rcases List.mem_append.mp hx with hx | hx
  · rcases List.mem_append.mp hx with hx | hx
    · exact Or.inl ((mem_termRepresentatives_iff_best hnodup).mp hx)
    · exact Or.inr (hfirst x (Option.mem_toList.mp hx)).1
  · refine Or.inr (isSourceRepresentative_of_find? (fun y hy htype => ?_) (Option.mem_toList.mp hx)).1
    -- a representative of the documents is no web page
    rw [hdocument y hy, addRepresentative, List.map_append, List.mem_append, not_or, iff_self_and]
    intro _ hin
    obtain ⟨z, hz, he⟩ := List.mem_map.mp hin
    obtain ⟨hz, hztype⟩ := hfirst z (Option.mem_toList.mp hz)
    rw [List.inj_on_of_nodup_map hnodup hz.1 hy he, htype] at hztype
    cases hztype

include hnodup in
theorem considered_first {term : Text} (hx : IsBestCarrier l term x) (hy : y ∈ l) (hcarrier : ∀ t, ¬IsBestCarrier l t y)
    (hsource : ¬IsSourceRepresentative l y) : [x, y].Sublist (evidenceOrder l) := by
  have hxin : x ∈ representativesOf l :=
    List.mem_append_left _ (List.mem_append_left _ ((mem_termRepresentatives_iff_best hnodup).mpr ⟨term, hx⟩))
  have hyout : y ∉ representativesOf l := fun hin =>
    (representative_cases hnodup hin).elim (fun ⟨t, ht⟩ => hcarrier t ht) hsource
  have hyin : y ∈ evidenceOrder l := (evidenceOrder_perm hnodup).mem_iff.mpr hy
  rw [evidenceOrder_eq] at hyin ⊢
  exact (List.singleton_sublist.mpr hxin).append
    (List.singleton_sublist.mpr ((List.mem_append.mp hyin).resolve_left hyout))

end Etoeragcb.Rag
