import Etoeragcb.Rag.Lemmas.Dedup
import Etoeragcb.Rag.Postprocess
import Mathlib.Tactic.Linarith

/-!
# The order that every stage keeps
-/

namespace Etoeragcb.Rag

open Lib Models

variable {x y : RerankedEvidence} {l l' : List RerankedEvidence} {f : CandidateConfidenceFilter}
  {packer : ContextPacker} {g : ConfidenceGate} {top : ℚ}

theorem inUnit_iff {q : ℚ} : inUnit q = true ↔ 0 ≤ q ∧ q ≤ 1 := by simp [inUnit]

/-! ## Ranked evidence -/

/-- The scores lie in the unit interval and do not grow with the ranks. -/
structure Ranked (l : List RerankedEvidence) : Prop where
  inUnit : ∀ x ∈ l, inUnit x.rerankScore = true
  rank_pos : ∀ x ∈ l, 1 ≤ x.rerankRank
  antitone : ∀ x ∈ l, ∀ y ∈ l, x.rerankRank ≤ y.rerankRank → y.rerankScore ≤ x.rerankScore

theorem Ranked.mono (h : Ranked l) (hsub : ∀ x ∈ l', core x ∈ l.map core) : Ranked l' := by
  have hof : ∀ x ∈ l', ∃ y ∈ l, y.rerankScore = x.rerankScore ∧ y.rerankRank = x.rerankRank := by
    intro x hx
    obtain ⟨y, hy, hcore⟩ := List.mem_map.mp (hsub x hx)
    exact ⟨y, hy, congrArg (·.rerankScore) hcore, congrArg (·.rerankRank) hcore⟩
  constructor
  · intro x hx
    obtain ⟨y, hy, hs, -⟩ := hof x hx
    exact hs ▸ h.inUnit y hy
  · intro x hx
    obtain ⟨y, hy, -, hr⟩ := hof x hx
    exact hr ▸ h.rank_pos y hy
  · intro x hx y hy hle
    obtain ⟨x', hx', hsx, hrx⟩ := hof x hx
    obtain ⟨y', hy', hsy, hry⟩ := hof y hy
    rw [← hsx, ← hsy]
    exact h.antitone x' hx' y' hy' (by rwa [hrx, hry])

theorem Ranked.subset (h : Ranked l) (hsub : ∀ x ∈ l', x ∈ l) : Ranked l' :=
  h.mono fun x hx => List.mem_map_of_mem (hsub x hx)

theorem Ranked.topScore_spec (h : Ranked l) (hsorted : l.Pairwise fun a b => stableRerankedKey a ≤ stableRerankedKey b) :
    (topScore l = none ∧ l = []) ∨ ∃ x ∈ l, topScore l = some x.rerankScore ∧ ∀ y ∈ l, y.rerankScore ≤ x.rerankScore := by
  cases l with
  | nil => exact Or.inl ⟨rfl, rfl⟩
  | cons x l =>
      refine Or.inr ⟨x, List.mem_cons_self, rfl, fun y hy => ?_⟩
      refine h.antitone x List.mem_cons_self y hy ?_
      rcases List.mem_cons.mp hy with rfl | hy
      · exact Nat.le_refl _
      · have hkey := List.rel_of_pairwise_cons hsorted hy
        rcases Prod.Lex.toLex_le_toLex.mp hkey with hlt | heq
        · exact hlt.le
        · exact heq.1.le

/-! ## Reranking -/

theorem rerank_spec {maxCandidates : Nat} {candidates : List EvidenceCandidate}
    (scores : Scores (bounded maxCandidates candidates).length) :
    ∃ reranked, rerank maxCandidates candidates scores = .ok reranked ∧ Ranked reranked := by
  set order := sortBy (fun x : EvidenceCandidate × ℚ => toLex (-x.2, stableCandidateKey x.1))
    ((bounded maxCandidates candidates).zip scores.values) with horder
  have hunit : ∀ x ∈ order.zipIdx 1, inUnit x.1.2 = true := by
    intro x hx
    have hmem : x.1 ∈ order := List.fst_mem_of_mem_zipIdx hx
    rw [horder, mem_sortBy] at hmem
    exact scores.inUnit_of_mem _ (List.of_mem_zip hmem).2
  have hrank : ∀ x ∈ order.zipIdx 1, 1 ≤ x.2 := fun x hx => (List.mem_zipIdx hx).1
  have hpairwise : order.Pairwise fun a b => b.2 ≤ a.2 := by
    refine (sortBy_pairwise _ _).imp fun {a b} hkey => ?_
    rcases Prod.Lex.toLex_le_toLex.mp hkey with hlt | heq
    · exact (neg_lt_neg_iff.mp hlt).le
    · exact (neg_injective heq.1).ge
  have hsorted : ∀ x ∈ order.zipIdx 1, ∀ y ∈ order.zipIdx 1, x.2 ≤ y.2 → y.1.2 ≤ x.1.2 := by
    intro x hx y hy hle
    obtain ⟨i, hi, hxi⟩ := List.mem_iff_getElem.mp hx
    obtain ⟨j, hj, hyj⟩ := List.mem_iff_getElem.mp hy
    rw [List.getElem_zipIdx] at hxi hyj
    rw [← hxi, ← hyj] at hle ⊢
    have hij : i ≤ j := by simpa using hle
    rcases hij.eq_or_lt with rfl | hlt
    · exact le_refl _
    · exact List.pairwise_iff_getElem.mp hpairwise i j _ _ hlt
  refine ⟨_, mapM_eq_ok (g := fun x => ⟨x.1.1, x.1.2, x.2⟩) fun x hx => ?_, ?_⟩
  · rw [RerankedEvidence.validate, if_pos (hunit x hx), if_pos (hrank x hx)]
  · refine ⟨?_, ?_, ?_⟩
    · rw [List.forall_mem_map]
      exact hunit
    · rw [List.forall_mem_map]
      exact hrank
    · simp only [List.forall_mem_map]
      exact hsorted

/-! ## The confidence filter -/

theorem filter_spec (h : Ranked l) : ∃ r, f.filter l = .ok r ∧ (∀ x ∈ r.candidates, x ∈ l) ∧
    ∀ x ∈ r.candidates, f.scoreMin ≤ x.rerankScore ∧ ∀ y ∈ l, y.rerankScore - f.topDelta ≤ x.rerankScore := by
  set ranked := sortBy stableRerankedKey l with hranked
  have hmem : ∀ x, x ∈ ranked ↔ x ∈ l := fun x => mem_sortBy
  have hr : Ranked ranked := h.subset fun x hx => (hmem x).mp hx
  have hspec := hr.topScore_spec (sortBy_pairwise _ _)
  obtain ⟨hmin, hmin'⟩ := inUnit_iff.mp f.inUnit_scoreMin
  obtain ⟨hdelta, hdelta'⟩ := inUnit_iff.mp f.inUnit_topDelta
  have hcutoff : inUnit (effectiveCutoff f ranked) = true ∧ (topScore ranked).all inUnit = true ∧
      f.scoreMin ≤ effectiveCutoff f ranked ∧ ∀ y ∈ l, y.rerankScore - f.topDelta ≤ effectiveCutoff f ranked := by
    rw [effectiveCutoff]
    rcases hspec with ⟨htop, hnil⟩ | ⟨x, hx, htop, hbest⟩
    · rw [htop]
      refine ⟨f.inUnit_scoreMin, rfl, le_refl _, fun y hy => ?_⟩
      rw [← hmem, hnil] at hy
      cases hy
    · obtain ⟨hx0, hx1⟩ := inUnit_iff.mp (hr.inUnit x hx)
      rw [htop]
      refine ⟨inUnit_iff.mpr ⟨le_max_of_le_left hmin, max_le hmin' ?_⟩, hr.inUnit x hx, le_max_left _ _,
        fun y hy => le_max_of_le_right ?_⟩
      · linarith
      · linarith [hbest y ((hmem y).mpr hy)]
  obtain ⟨hunit, htop, hscore, hdeltas⟩ := hcutoff
  refine ⟨⟨ranked.filter fun x => effectiveCutoff f ranked ≤ x.rerankScore,
    (ranked.filter fun x => x.rerankScore < effectiveCutoff f ranked).map (weakDecision f), topScore ranked,
    effectiveCutoff f ranked, f.scoreMin, f.topDelta⟩, ?_, ?_, ?_⟩
  · rw [CandidateConfidenceFilter.filter, mapM_eq_ok (g := weakDecision f)]
    · exact if_pos ⟨htop, hunit, f.inUnit_scoreMin, f.inUnit_topDelta⟩
    · intro x hx
      have hx' := List.mem_of_mem_filter hx
      exact (if_pos (hr.rank_pos x hx')).trans (if_pos (hr.inUnit x hx'))
  · intro x hx
    exact (hmem x).mp (List.mem_of_mem_filter hx)
  · intro x hx
    have hle : effectiveCutoff f ranked ≤ x.rerankScore := by simpa using (List.mem_filter.mp hx).2
    exact ⟨hscore.trans hle, fun y hy => (hdeltas y hy).trans hle⟩

/-! ## The packer -/

theorem mem_termRepresentatives {represented : List Text} (h : x ∈ termRepresentatives represented l) : x ∈ l := by
  induction l generalizing represented with
  | nil => cases h
  | cons y l ih =>
      rw [termRepresentatives] at h
      split at h
      · rcases List.mem_cons.mp h with rfl | h
        · exact List.mem_cons_self
        · exact List.mem_cons_of_mem _ (ih h)
      · exact List.mem_cons_of_mem _ (ih h)

theorem mem_addRepresentative {representatives : List RerankedEvidence} {sourceType : SourceType}
    (hsub : ∀ x ∈ representatives, x ∈ l) (h : x ∈ addRepresentative l representatives sourceType) : x ∈ l := by
  rcases List.mem_append.mp h with h | h
  · exact hsub x h
  · exact List.mem_of_find?_eq_some (Option.mem_toList.mp h)

theorem mem_evidenceOrder (h : x ∈ evidenceOrder l) : x ∈ l := by
  refine mem_sortBy.mp (?_ : x ∈ sortBy stableRerankedKey l)
  rcases List.mem_append.mp h with h | h
  · exact mem_addRepresentative (fun _ => mem_addRepresentative fun _ => mem_termRepresentatives) h
  · exact List.mem_of_mem_filter h

theorem mem_pack {p : Packing} (h : x ∈ (l.foldl (packItem packer) p).selected) : x ∈ p.selected ∨ x ∈ l := by
  induction l generalizing p with
  | nil => exact Or.inl h
  | cons y l ih =>
      rcases ih h with h | h
      · rw [packItem] at h
        split at h
        · exact Or.inl h
        · dsimp only at h
          split at h
          · exact Or.inl h
          · rcases List.mem_append.mp h with h | h
            · exact Or.inl h
            · exact Or.inr (List.mem_singleton.mp h ▸ List.mem_cons_self)
      · exact Or.inr (List.mem_cons_of_mem _ h)

theorem natStr_head {n : Nat} (hn : 0 < n) : ∃ d ds, natStr n = d :: ds ∧ d ≠ '0' := by
  induction n using Nat.strong_induction_on with
  | h n ih =>
      by_cases hlt : n < 10
      · refine ⟨_, [], Nat.toDigits_of_lt_base hlt, ?_⟩
        have : ∀ m < 10, 0 < m → Nat.digitChar m ≠ '0' := by decide
        exact this n hlt hn
      · obtain ⟨d, ds, hd, hne⟩ := ih (n / 10) (by omega) (by omega)
        rw [natStr, Nat.toDigits_of_base_le (by decide) (by omega)]
        rw [natStr] at hd
        exact ⟨d, ds ++ [_], by rw [hd]; rfl, hne⟩

theorem isSourceId_natStr {n : Nat} (hn : 0 < n) : isSourceId ('S' :: natStr n) = true := by
  obtain ⟨d, ds, hd, hne⟩ := natStr_head hn
  have hdigit : ∀ c ∈ natStr n, isDigit c = true := by
    intro c hc
    simpa [isDigit, Char.isDigit, Char.le_def] using Nat.isDigit_of_mem_toDigits (by decide) (by decide) hc
  rw [hd, List.forall_mem_cons] at hdigit
  simp [hd, isSourceId, hdigit.1, hne, List.all_eq_true.mpr hdigit.2]

def Packing.toContext (p : Packing) (tokenBudget : Nat) : PackedContext :=
  ⟨p.context, p.tokenCount, tokenBudget, (p.selected.zipIdx 1).map fun x => ⟨'S' :: natStr x.2, x.1⟩, p.skipped⟩

theorem pack_run (packer : ContextPacker) (l : List RerankedEvidence) : packer.pack l =
    .ok (((evidenceOrder l).foldl (packItem packer) ⟨[], [], [], 0⟩).toContext packer.tokenBudget) := by
  rw [ContextPacker.pack, mapM_eq_ok (g := fun x => ⟨'S' :: natStr x.2, x.1⟩)]
  · exact if_pos packer.limits_pos.1
  · intro x hx
    exact if_pos (isSourceId_natStr (List.mem_zipIdx hx).1)

theorem pack_eq (packer : ContextPacker) (l : List RerankedEvidence) :
    ∃ (c : PackedContext) (selected : List RerankedEvidence), packer.pack l = .ok c ∧
      c.sources = (selected.zipIdx 1).map (fun x => ⟨'S' :: natStr x.2, x.1⟩) ∧ ∀ x ∈ selected, x ∈ l := by
  refine ⟨_, _, pack_run packer l, rfl, fun x hx => ?_⟩
  rcases mem_pack hx with h | h
  · cases h
  · exact mem_evidenceOrder h

theorem pack_spec (packer : ContextPacker) (l : List RerankedEvidence) :
    ∃ c, packer.pack l = .ok c ∧ ∀ s ∈ c.sources, s.evidence ∈ l := by
  obtain ⟨c, selected, hc, hsources, hmem⟩ := pack_eq packer l
  refine ⟨c, hc, ?_⟩
  rw [hsources, List.forall_mem_map]
  exact fun x hx => hmem _ (List.fst_mem_of_mem_zipIdx hx)

/-! ## The gate -/

theorem decision_spec (g : ConfidenceGate) (route : Route) (reasons : List GateReason) (scores : GateScores) :
    ∃ d, g.decision route reasons scores = .ok d ∧ d.route = route ∧ d.scores = scores :=
  ⟨_, if_pos g.artifact.isSha256_sha256, rfl, rfl⟩

theorem gateScores_validate (h : Ranked l) (hsorted : l.Pairwise fun a b => stableRerankedKey a ≤ stableRerankedKey b) :
    (gateScores l).validate = .ok (gateScores l) := by
  have htop : ∀ {l : List RerankedEvidence} {q : ℚ}, Ranked l → topScore l = some q → inUnit q = true := by
    intro l q hl hq
    obtain ⟨x, hx, rfl⟩ := Option.map_eq_some_iff.mp hq
    exact hl.inUnit x (List.mem_of_mem_head? hx)
  have htail : Ranked l.tail := h.subset fun _ => List.mem_of_mem_tail
  refine if_pos ⟨?_, ?_, ?_, ?_⟩
  · rw [Option.all_eq_true]
    exact fun q hq => htop h hq
  · rw [Option.all_eq_true]
    exact fun q hq => htop htail hq
  · rw [Option.all_eq_true]
    intro q hq
    simp only [gateScores] at hq
    split at hq
    · rename_i top second hfirst hsecond
      cases hq
      obtain ⟨x, hx, rfl⟩ := Option.map_eq_some_iff.mp hfirst
      obtain ⟨y, hy, rfl⟩ := Option.map_eq_some_iff.mp hsecond
      have hle : y.rerankScore ≤ x.rerankScore := by
        rcases h.topScore_spec hsorted with ⟨hnone, -⟩ | ⟨z, -, hz, hbest⟩
        · rw [hnone] at hfirst
          cases hfirst
        · rw [Option.some.inj (hfirst.symm.trans hz)]
          exact hbest y (List.mem_of_mem_tail (List.mem_of_mem_head? hy))
      obtain ⟨h0, h1⟩ := inUnit_iff.mp (htop h hfirst)
      obtain ⟨h0', h1'⟩ := inUnit_iff.mp (htop htail hsecond)
      exact inUnit_iff.mpr ⟨by linarith, by linarith⟩
    · exact htop h hq
  · rw [Option.all_eq_true]
    intro q hq
    have hmem := List.max?_mem hq
    obtain ⟨x, hx, rfl⟩ := List.mem_map.mp hmem
    exact h.inUnit x (List.mem_of_mem_filter hx)

theorem evaluate_scores (hvalid : (gateScores (sortBy stableRerankedKey l)).validate =
      .ok (gateScores (sortBy stableRerankedKey l))) :
    ∃ d, g.evaluate l = .ok d ∧ d.scores = gateScores (sortBy stableRerankedKey l) ∧
      (sortBy stableRerankedKey l = [] → d.route = .noAnswer) := by
  have hdecide : ∀ route reasons, (sortBy stableRerankedKey l = [] → route = .noAnswer) →
      ∃ d, g.decision route reasons (gateScores (sortBy stableRerankedKey l)) = .ok d ∧
        d.scores = gateScores (sortBy stableRerankedKey l) ∧ (sortBy stableRerankedKey l = [] → d.route = .noAnswer) := by
    intro route reasons hroute
    obtain ⟨d, hd, hr, hs⟩ := decision_spec g route reasons (gateScores (sortBy stableRerankedKey l))
    exact ⟨d, hd, hs, fun hnil => hr.trans (hroute hnil)⟩
  simp only [ConfidenceGate.evaluate, hvalid, bind, Except.bind]
  split
  · exact hdecide _ _ fun _ => rfl
  · rename_i hne
    split
    · exact hdecide _ _ fun _ => rfl
    · split
      · exact hdecide _ _ fun _ => rfl
      · split
        · exact hdecide _ _ fun _ => rfl
        · split
          · exact hdecide _ _ fun h => absurd h hne
          · split
            · exact hdecide _ _ fun h => absurd h hne
            · exact hdecide _ _ fun _ => rfl

/-- The gate decides about ranked evidence. Its top score is the best one, and without evidence it does not answer. -/
theorem evaluate_spec (h : Ranked l) : ∃ d, g.evaluate l = .ok d ∧
    ((l = [] ∧ d.scores.topScore = none ∧ d.route = .noAnswer) ∨
      ∃ x ∈ l, d.scores.topScore = some x.rerankScore ∧ ∀ y ∈ l, y.rerankScore ≤ x.rerankScore) := by
  have hmem : ∀ x, x ∈ sortBy stableRerankedKey l ↔ x ∈ l := fun x => mem_sortBy
  have hr : Ranked (sortBy stableRerankedKey l) := h.subset fun x hx => (hmem x).mp hx
  have hsorted := sortBy_pairwise stableRerankedKey l
  obtain ⟨d, hd, hscores, hroute⟩ := evaluate_scores (g := g) (gateScores_validate hr hsorted)
  refine ⟨d, hd, ?_⟩
  have htop : d.scores.topScore = topScore (sortBy stableRerankedKey l) := by rw [hscores]; rfl
  rw [htop]
  rcases hr.topScore_spec hsorted with ⟨hnone, hnil⟩ | ⟨x, hx, hx', hbest⟩
  · refine Or.inl ⟨?_, hnone, hroute hnil⟩
    exact List.eq_nil_iff_forall_not_mem.mpr fun x hx => by simpa [hnil] using (hmem x).mpr hx
  · exact Or.inr ⟨x, (hmem x).mp hx, hx', fun y hy => hbest y ((hmem y).mpr hy)⟩

/-! ## Deduplication -/

theorem deduplicate_ranked (h : Ranked l) : ∃ r, deduplicate (4 / 5) (17 / 20) l = .ok r ∧ Ranked r.candidates ∧
    ∀ x ∈ l, ∃ y ∈ r.candidates, x.rerankScore ≤ y.rerankScore := by
  have ht : (0 : ℚ) ≤ 4 / 5 ∧ (4 / 5 : ℚ) ≤ 1 := by norm_num
  have hn : (0 : ℚ) ≤ 17 / 20 ∧ (17 / 20 : ℚ) ≤ 1 := by norm_num
  obtain ⟨r, hr, hsub, hhead, -⟩ := deduplicate_spec ht hn l
  have hmem : ∀ x, x ∈ sortBy stableRerankedKey l ↔ x ∈ l := fun x => mem_sortBy
  have hsorted : Ranked (sortBy stableRerankedKey l) := h.subset fun x hx => (hmem x).mp hx
  refine ⟨r, hr, hsorted.mono fun x hx => hsub.subset (List.mem_map_of_mem hx), fun x hx => ?_⟩
  rcases hsorted.topScore_spec (sortBy_pairwise _ _) with ⟨-, hnil⟩ | ⟨z, -, hz, hbest⟩
  · rw [← hmem, hnil] at hx
    cases hx
  · obtain ⟨w, hw, hwz⟩ := Option.map_eq_some_iff.mp hz
    rw [List.head?_map, List.head?_map, hw] at hhead
    obtain ⟨y, hy, hcore⟩ := Option.map_eq_some_iff.mp hhead
    refine ⟨y, List.mem_of_mem_head? hy, ?_⟩
    have hscore : y.rerankScore = w.rerankScore := congrArg (·.rerankScore) hcore
    rw [hscore, hwz]
    exact hbest x ((hmem x).mpr hx)

end Etoeragcb.Rag
