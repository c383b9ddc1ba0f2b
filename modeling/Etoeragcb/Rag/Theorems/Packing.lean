import Etoeragcb.Rag.Lemmas.Packing
import Etoeragcb.Rag.Theorems.Reranking

/-!
# Packing

What a packed context says of its candidates, whatever the counter of the tokens is.
-/

namespace Etoeragcb.Rag

open Lib Models

def PackedContext.selected (c : PackedContext) : List RerankedEvidence := c.sources.map (·.evidence)

/-- Each candidate is a source or is skipped, for a reason that held of the sources before it. -/
structure Packs (packer : ContextPacker) (candidates : List RerankedEvidence) (c : PackedContext) : Prop where
  considered : (evidenceOrder candidates).Perm candidates
  selected_sublist : c.selected.Sublist (evidenceOrder candidates)
  skipped_sublist : (c.skipped.map (·.candidateId)).Sublist ((evidenceOrder candidates).map (·.candidate.candidateId))
  once : (c.selected.map (·.candidate.candidateId) ++ c.skipped.map (·.candidateId)).Perm
    (candidates.map (·.candidate.candidateId))
  numbered : c.sources.map (·.sourceId) = (List.range' 1 c.sources.length).map fun i => 'S' :: natStr i
  text_eq : c.text = formatContext c.selected
  count_eq : c.text ≠ [] → c.tokenCount = packer.count c.text
  budget : c.tokenCount ≤ packer.tokenBudget
  budget_eq : c.tokenBudget = packer.tokenBudget
  capped : Capped packer c.selected
  reasons : ∀ before x after reason, evidenceOrder candidates = before ++ x :: after →
    ⟨x.candidate.candidateId, reason⟩ ∈ c.skipped → Holds packer (c.selected.filter (· ∈ before)) x reason
  terms_first : ∀ term x, IsBestCarrier candidates term x → ∀ y ∈ candidates, (∀ t, ¬IsBestCarrier candidates t y) →
    ¬IsSourceRepresentative candidates y → [x, y].Sublist (evidenceOrder candidates)

theorem pack_perm (packer : ContextPacker) {candidates candidates' : List RerankedEvidence}
    (hnodup : (candidates.map (·.candidate.candidateId)).Nodup) (h : candidates'.Perm candidates) :
    packer.pack candidates' = packer.pack candidates := by
  have hsort : sortBy stableRerankedKey candidates' = sortBy stableRerankedKey candidates :=
    sortBy_congr_perm h fun a ha b hb => stableRerankedKey_inj ((h.map _).nodup_iff.mpr hnodup) ha hb
  rw [ContextPacker.pack, ContextPacker.pack, evidenceOrder, evidenceOrder, hsort]

/-- Candidates with ids of their own are packed, in whatever order they come. -/
theorem pack_packs (packer : ContextPacker) {candidates : List RerankedEvidence}
    (hnodup : (candidates.map (·.candidate.candidateId)).Nodup) :
    ∃ c, packer.pack candidates = .ok c ∧ Packs packer candidates c ∧
      ∀ candidates', candidates'.Perm candidates → packer.pack candidates' = .ok c := by
  have hrun := pack_run packer candidates
  have horder := evidenceOrder_perm hnodup
  have hids : ((evidenceOrder candidates).map (·.candidate.candidateId)).Nodup := (horder.map _).nodup_iff.mpr hnodup
  have hpacked := (packed_nil packer).run (evidenceOrder candidates)
  obtain ⟨sel, skip, hsel, hskip, hsub, hsub', hperm⟩ := foldl_packItem packer ⟨[], [], [], 0⟩ (evidenceOrder candidates)
  refine ⟨_, hrun, ?_, fun candidates' h => (pack_perm packer hnodup h).trans hrun⟩
  have hreasons : ∀ before x after reason, evidenceOrder candidates = before ++ x :: after →
      ⟨x.candidate.candidateId, reason⟩ ∈
      ((evidenceOrder candidates).foldl (packItem packer) ⟨[], [], [], 0⟩).skipped →
      Holds packer (((evidenceOrder candidates).foldl (packItem packer) ⟨[], [], [], 0⟩).selected.filter (· ∈ before)) x
        reason := by
    intro before x after reason hsplit hmem
    rw [hsplit] at hids hmem ⊢
    rw [selected_before hids.of_map]
    exact holds_of_skip hids hmem
  generalize (evidenceOrder candidates).foldl (packItem packer) ⟨[], [], [], 0⟩ = p at hpacked hsel hskip hreasons ⊢
  rw [List.nil_append] at hsel hskip
  subst hsel hskip
  have hselected : (p.toContext packer.tokenBudget).selected = p.selected := by
    rw [PackedContext.selected, Packing.toContext, List.map_map]
    exact List.zipIdx_map_fst 1 p.selected
  constructor
  · exact horder
  · exact hselected ▸ hsub
  · exact hsub'
  · exact hselected ▸ hperm.trans (horder.map _)
  · rw [Packing.toContext, List.map_map, List.length_map, List.length_zipIdx, ← List.zipIdx_map_snd, List.map_map]
    rfl
  · rw [hselected]
    exact hpacked.context_eq
  · intro hne
    refine hpacked.count_eq fun hnil => hne ?_
    rw [Packing.toContext, hpacked.context_eq, hnil]
    rfl
  · exact hpacked.budget
  · rfl
  · exact hselected ▸ hpacked.capped
  · exact hselected ▸ hreasons
  · exact fun term x hx y hy hcarrier hsource => considered_first hnodup hx hy hcarrier hsource

def samplePacker : ContextPacker where
  count := List.length
  tokenBudget := 60
  maxCandidates := 2
  sectionLimit := 1
  sourceLimit := 1
  domainLimit := 1
  webLimit := none
  limits_pos := by decide
  webLimit_mem := nofun

def sampleRanked : List RerankedEvidence := (samplePool.zipIdx 1).map fun x => ⟨x.1, 1 / 2, x.2⟩

theorem pack_packs_sample : ∃ c, samplePacker.pack sampleRanked = .ok c ∧ Packs samplePacker sampleRanked c ∧
    ∀ candidates', candidates'.Perm sampleRanked → samplePacker.pack candidates' = .ok c :=
  pack_packs samplePacker (by decide)

end Etoeragcb.Rag
