import Etoeragcb.Lib.Result
import Etoeragcb.Rag.Dedup

/-!
# What deduplication keeps
-/

namespace Etoeragcb.Rag

open Lib Models

variable {overlapThreshold nearDuplicateThreshold : ℚ} {a b : Nat × Nat} {left right : EvidenceCandidate}
  {current x y : RerankedEvidence} {kept kept' rest : List RerankedEvidence} {decision : DuplicateDecision}
  {result result' : DeduplicationResult} {reason : DuplicateReason} {similarity : ℚ}

/-! ## Similarity -/

def shared (a b : Nat × Nat) : ℤ := max 0 (min (a.2 : ℤ) b.2 - max (a.1 : ℤ) b.1)

def shortest (a b : Nat × Nat) : ℤ := min ((a.2 : ℤ) - a.1) ((b.2 : ℤ) - b.1)

theorem shared_le_shortest (h : 0 < shortest a b) : shared a b ≤ shortest a b := by
  simp only [shared, shortest] at h ⊢
  omega

theorem le_rangeOverlap_iff (h : 0 < shortest a b) :
    overlapThreshold ≤ rangeOverlap a b ↔ overlapThreshold * shortest a b ≤ shared a b := by
  have hpos : (0 : ℚ) < shortest a b := by exact_mod_cast h
  have hrange : rangeOverlap a b = shared a b / shortest a b := if_pos h
  rw [hrange, le_div_iff₀ hpos]

theorem rangeOverlap_mem_unit : 0 ≤ rangeOverlap a b ∧ rangeOverlap a b ≤ 1 := by
  by_cases h : 0 < shortest a b
  · have hrange : rangeOverlap a b = shared a b / shortest a b := if_pos h
    have hpos : (0 : ℚ) < shortest a b := by exact_mod_cast h
    have hnonneg : (0 : ℚ) ≤ shared a b := by exact_mod_cast le_max_left _ _
    have hle : (shared a b : ℚ) ≤ shortest a b := by exact_mod_cast shared_le_shortest h
    rw [hrange]
    exact ⟨div_nonneg hnonneg hpos.le, div_le_one_of_le₀ hle hpos.le⟩
  · have hrange : rangeOverlap a b = 0 := if_neg h
    rw [hrange]
    exact ⟨le_refl 0, zero_le_one⟩

theorem spanOverlap_mem_unit : 0 ≤ spanOverlap left right ∧ spanOverlap left right ≤ 1 := by
  rw [spanOverlap]
  split
  · exact ⟨le_refl 0, zero_le_one⟩
  · split
    · exact rangeOverlap_mem_unit
    · exact ⟨le_refl 0, zero_le_one⟩

theorem shingleSimilarity_mem_unit (s t : Text) : 0 ≤ shingleSimilarity s t ∧ shingleSimilarity s t ≤ 1 := by
  rw [shingleSimilarity]
  split
  · exact ⟨le_refl 0, zero_le_one⟩
  · refine ⟨div_nonneg (Nat.cast_nonneg _) (Nat.cast_nonneg _), div_le_one_of_le₀ ?_ (Nat.cast_nonneg _)⟩
    exact_mod_cast Finset.card_le_card (Finset.inter_subset_left.trans Finset.subset_union_left)

theorem similarity_mem_unit
    (h : duplicateReason overlapThreshold nearDuplicateThreshold left right = some (reason, similarity)) :
    0 ≤ similarity ∧ similarity ≤ 1 := by
  simp only [duplicateReason] at h
  split at h
  · cases h; exact ⟨zero_le_one, le_refl 1⟩
  · split at h
    · cases h; exact ⟨zero_le_one, le_refl 1⟩
    · split at h
      · cases h
      · split at h
        · cases h; exact spanOverlap_mem_unit
        · split at h
          · cases h; exact shingleSimilarity_mem_unit _ _
          · cases h

theorem duplicateReason_overlapping
    (h : duplicateReason overlapThreshold nearDuplicateThreshold left right = some (.overlappingSpan, similarity)) :
    left.contentSha256 ≠ right.contentSha256 ∧ left.lexicalSha256 ≠ right.lexicalSha256 ∧
      overlapThreshold ≤ spanOverlap left right := by
  simp only [duplicateReason] at h
  split at h
  · cases h
  · rename_i hcontent
    split at h
    · cases h
    · rename_i hlexical
      split at h
      · cases h
      · split at h
        · rename_i hoverlap
          exact ⟨hcontent, hlexical, hoverlap⟩
        · split at h <;> cases h

/-! ## Survivors -/

/-- The evidence without what a merge adds to it. -/
def core (x : RerankedEvidence) : RerankedEvidence :=
  { x with candidate := { x.candidate with matchedExactTerms := [], matchedHints := [], collapsedCandidateIds := [] } }

@[simp] theorem core_merge (x y : RerankedEvidence) : core (mergeExactProvenance x y) = core x := rfl

/-- The decision says that `current` is a duplicate of `existing`. -/
structure Decides (overlapThreshold nearDuplicateThreshold : ℚ) (existing current : RerankedEvidence)
    (d : DuplicateDecision) : Prop where
  reason : duplicateReason overlapThreshold nearDuplicateThreshold existing.candidate current.candidate =
    some (d.reason, d.similarity)
  dropped : d.droppedCandidateId = current.candidate.candidateId
  kept : d.keptCandidateId = existing.candidate.candidateId

theorem absorb_cases
    (h : absorb overlapThreshold nearDuplicateThreshold current kept = some (kept', decision)) :
    ∃ front existing back, kept = front ++ existing :: back ∧
      kept' = front ++ mergeExactProvenance existing current :: back ∧
      Decides overlapThreshold nearDuplicateThreshold existing current decision := by
  induction kept generalizing kept' with
  | nil => cases h
  | cons first kept ih =>
      simp only [absorb] at h
      split at h
      · rename_i reason similarity hreason
        cases h
        exact ⟨[], first, kept, rfl, rfl, hreason, rfl, rfl⟩
      · obtain ⟨⟨kept₁, d⟩, h₁, he⟩ := Option.map_eq_some_iff.mp h
        cases he
        obtain ⟨front, existing, back, rfl, rfl, hd⟩ := ih h₁
        exact ⟨first :: front, existing, back, rfl, rfl, hd⟩

theorem absorb_spec
    (h : absorb overlapThreshold nearDuplicateThreshold current kept = some (kept', decision)) :
    kept'.map core = kept.map core ∧
      ∃ existing ∈ kept, Decides overlapThreshold nearDuplicateThreshold existing current decision := by
  obtain ⟨front, existing, back, rfl, rfl, hd⟩ := absorb_cases h
  exact ⟨by simp, existing, by simp, hd⟩

theorem validate_of_decides (h : Decides overlapThreshold nearDuplicateThreshold x y decision) :
    decision.validate = .ok decision :=
  if_pos (similarity_mem_unit h.reason)

/-- A decision that one of `rest` is a duplicate of one of the candidates. -/
def DecidesIn (overlapThreshold nearDuplicateThreshold : ℚ) (candidates rest : List RerankedEvidence)
    (d : DuplicateDecision) : Prop :=
  ∃ existing, core existing ∈ candidates.map core ∧
    ∃ current ∈ rest, Decides overlapThreshold nearDuplicateThreshold existing current d

theorem DecidesIn.mono {candidates candidates' rest' : List RerankedEvidence}
    (h : DecidesIn overlapThreshold nearDuplicateThreshold candidates rest decision)
    (hc : candidates.map core ⊆ candidates'.map core) (hr : rest ⊆ rest') :
    DecidesIn overlapThreshold nearDuplicateThreshold candidates' rest' decision := by
  obtain ⟨existing, he, current, hcur, hd⟩ := h
  exact ⟨existing, hc he, current, hr hcur, hd⟩

/-- The loop ends. What was kept stays in front, what it keeps is a part of the candidates in their order, and its
decisions are about candidates. -/
theorem dedupLoop_spec (overlapThreshold nearDuplicateThreshold : ℚ) (result : DeduplicationResult)
    (rest : List RerankedEvidence) :
    ∃ result', dedupLoop overlapThreshold nearDuplicateThreshold result rest = .ok result' ∧
      result.candidates.map core <+: result'.candidates.map core ∧
      (result'.candidates.map core).Sublist ((result.candidates ++ rest).map core) ∧
      ∀ d ∈ result'.decisions, d ∈ result.decisions ∨
        DecidesIn overlapThreshold nearDuplicateThreshold (result.candidates ++ rest) rest d := by
  induction rest generalizing result with
  | nil => exact ⟨result, rfl, List.prefix_refl _, by simp, fun d hd => Or.inl hd⟩
  | cons current rest ih =>
      have htail : rest ⊆ current :: rest := List.subset_cons_self _ _
      rw [dedupLoop]
      cases habsorb : absorb overlapThreshold nearDuplicateThreshold current result.candidates with
      | none =>
          obtain ⟨r, hr, hprefix, hsub, hd⟩ := ih { result with candidates := result.candidates ++ [current] }
          rw [List.append_assoc] at hsub hd
          exact ⟨r, hr, List.IsPrefix.trans (by simp) hprefix, hsub,
            fun d hdr => (hd d hdr).imp_right fun h => h.mono (List.Subset.refl _) htail⟩
      | some x =>
          obtain ⟨kept, decision⟩ := x
          obtain ⟨hcore, existing, he, hdecides⟩ := absorb_spec habsorb
          obtain ⟨r, hr, hprefix, hsub, hd⟩ := ih ⟨kept, result.decisions ++ [decision]⟩
          have hlist : ((kept ++ rest).map core).Sublist ((result.candidates ++ current :: rest).map core) := by
            rw [List.map_append, hcore, ← List.map_append]
            exact (List.Sublist.append_left (List.sublist_cons_self _ _) _).map _
          refine ⟨r, ?_, hcore ▸ hprefix, hsub.trans hlist, fun d hdr => ?_⟩
          · simp only [validate_of_decides hdecides]
            exact hr
          · rcases hd d hdr with hd | hd
            · rcases List.mem_append.mp hd with hd | hd
              · exact Or.inl hd
              · rw [List.mem_singleton.mp hd]
                exact Or.inr ⟨existing, List.mem_map_of_mem (List.mem_append_left _ he), current,
                  List.mem_cons_self, hdecides⟩
            · exact Or.inr (hd.mono hlist.subset htail)

/-- Deduplication by valid thresholds returns. It keeps a part of the candidates in their order, the first one
among them, and decides about candidates. -/
theorem deduplicate_spec (ht : 0 ≤ overlapThreshold ∧ overlapThreshold ≤ 1)
    (hn : 0 ≤ nearDuplicateThreshold ∧ nearDuplicateThreshold ≤ 1) (candidates : List RerankedEvidence) :
    ∃ result, deduplicate overlapThreshold nearDuplicateThreshold candidates = .ok result ∧
      (result.candidates.map core).Sublist ((sortBy stableRerankedKey candidates).map core) ∧
      (result.candidates.map core).head? = ((sortBy stableRerankedKey candidates).map core).head? ∧
      ∀ d ∈ result.decisions, DecidesIn overlapThreshold nearDuplicateThreshold candidates candidates d := by
  rw [deduplicate, if_neg (not_not.mpr ht), if_neg (not_not.mpr hn)]
  obtain ⟨r, hr, -, hsub, hd⟩ :=
    dedupLoop_spec overlapThreshold nearDuplicateThreshold ⟨[], []⟩ (sortBy stableRerankedKey candidates)
  refine ⟨r, hr, hsub, ?_, fun d hdr => ?_⟩
  · cases hsorted : sortBy stableRerankedKey candidates with
    | nil =>
        rw [hsorted] at hsub
        rw [List.sublist_nil.mp hsub]
        rfl
    | cons x rest =>
        rw [hsorted, dedupLoop] at hr
        obtain ⟨r', hr', ⟨t, ht⟩, -⟩ := dedupLoop_spec overlapThreshold nearDuplicateThreshold ⟨[x], []⟩ rest
        cases hr'.symm.trans hr
        rw [← ht]
        rfl
  · rcases hd d hdr with hd | hd
    · cases hd
    · have hperm := sortBy_perm stableRerankedKey candidates
      exact hd.mono (hperm.map core).subset hperm.subset

/-! ## What becomes of the candidates -/

theorem stableRerankedKey_inj {l : List RerankedEvidence} (hnodup : (l.map (·.candidate.candidateId)).Nodup) (hx : x ∈ l)
    (hy : y ∈ l) (h : stableRerankedKey x = stableRerankedKey y) : x = y :=
  List.inj_on_of_nodup_map hnodup hx hy (Prod.mk.inj (toLex.injective h)).2

/-- The reason is a likeness and not an equality. -/
def DuplicateReason.IsLikeness (reason : DuplicateReason) : Prop := reason = .overlappingSpan ∨ reason = .nearDuplicate

/-- A survivor carries a term after some decisions: it came with it, or took in a candidate that did. -/
def Carries (candidates : List RerankedEvidence) (decisions : List DuplicateDecision) (survivor term : Text) : Prop :=
  (∃ x ∈ candidates, x.candidate.candidateId = survivor ∧ term ∈ x.candidate.matchedExactTerms) ∨
    ∃ d ∈ decisions, d.keptCandidateId = survivor ∧
      ∃ x ∈ candidates, x.candidate.candidateId = d.droppedCandidateId ∧ term ∈ x.candidate.matchedExactTerms

/-- What the loop has made of the candidates `done`. -/
structure Accounted (candidates done : List RerankedEvidence) (result : DeduplicationResult) : Prop where
  partition : (result.candidates.map (·.candidate.candidateId) ++ result.decisions.map (·.droppedCandidateId)).Perm
    (done.map (·.candidate.candidateId))
  kept_mem : ∀ d ∈ result.decisions, d.keptCandidateId ∈ result.candidates.map (·.candidate.candidateId)
  unit : ∀ d ∈ result.decisions, 0 ≤ d.similarity ∧ d.similarity ≤ 1
  terms : ∀ s ∈ result.candidates, ∀ t,
    t ∈ s.candidate.matchedExactTerms ↔ Carries candidates result.decisions s.candidate.candidateId t
  likeness : ∀ before d after, result.decisions = before ++ d :: after → d.reason.IsLikeness →
    ∀ x ∈ candidates, x.candidate.candidateId = d.droppedCandidateId →
      ∀ t ∈ x.candidate.matchedExactTerms, Carries candidates before d.keptCandidateId t

theorem accounted_nil (candidates : List RerankedEvidence) : Accounted candidates [] ⟨[], []⟩ :=
  ⟨.refl _, nofun, nofun, nofun, fun before d after h => by simp at h⟩

@[simp] theorem mem_fromkeys {items : List Text} {t : Text} : t ∈ fromkeys items ↔ t ∈ items := by
  have hfold : ∀ (items seen : List Text),
      t ∈ items.foldl (fun seen x => if x ∈ seen then seen else seen ++ [x]) seen ↔ t ∈ seen ∨ t ∈ items := by
    intro items
    induction items with
    | nil => simp
    | cons x items ih =>
        intro seen
        rw [List.foldl_cons, ih]
        by_cases hx : x ∈ seen
        · rw [if_pos hx, List.mem_cons]
          constructor
          · exact Or.imp_right Or.inr
          · rintro (h | rfl | h)
            · exact Or.inl h
            · exact Or.inl hx
            · exact Or.inr h
        · rw [if_neg hx, List.mem_append, List.mem_singleton, List.mem_cons, or_assoc]
  rw [fromkeys, hfold]
  simp

theorem Decides.subset (h : Decides overlapThreshold nearDuplicateThreshold x y decision)
    (hreason : decision.reason.IsLikeness) : y.candidate.matchedExactTerms ⊆ x.candidate.matchedExactTerms := by
  obtain ⟨h, -, -⟩ := h
  simp only [duplicateReason] at h
  split at h
  · have hr : DuplicateReason.contentHash = decision.reason := congrArg Prod.fst (Option.some.inj h)
    rw [← hr] at hreason
    rcases hreason with h | h <;> cases h
  · split at h
    · have hr : DuplicateReason.lexicalHash = decision.reason := congrArg Prod.fst (Option.some.inj h)
      rw [← hr] at hreason
      rcases hreason with h | h <;> cases h
    · split at h
      · cases h
      · rename_i hterms
        intro t ht
        by_contra hnot
        exact hterms ⟨t, ht, hnot⟩

theorem Carries.append_iff {candidates : List RerankedEvidence} {decisions : List DuplicateDecision} {s t : Text}
    (hids : (candidates.map (·.candidate.candidateId)).Nodup) (hcurrent : current ∈ candidates)
    (hdropped : decision.droppedCandidateId = current.candidate.candidateId) :
    Carries candidates (decisions ++ [decision]) s t ↔
      Carries candidates decisions s t ∨ decision.keptCandidateId = s ∧ t ∈ current.candidate.matchedExactTerms := by
  have hlast : (∃ x ∈ candidates, x.candidate.candidateId = decision.droppedCandidateId ∧ t ∈ x.candidate.matchedExactTerms) ↔
      t ∈ current.candidate.matchedExactTerms := by
    constructor
    · rintro ⟨x, hx, he, ht⟩
      rw [← List.inj_on_of_nodup_map hids hx hcurrent (he.trans hdropped)]
      exact ht
    · exact fun ht => ⟨current, hcurrent, hdropped.symm, ht⟩
  simp only [Carries, List.mem_append, List.mem_singleton, or_and_right, exists_or, exists_eq_left, hlast, or_assoc]

theorem Accounted.keep {candidates done : List RerankedEvidence} (h : Accounted candidates done result)
    (hids : (candidates.map (·.candidate.candidateId)).Nodup) (hcurrent : current ∈ candidates)
    (hnew : current.candidate.candidateId ∉ done.map (·.candidate.candidateId)) :
    Accounted candidates (done ++ [current]) { result with candidates := result.candidates ++ [current] } := by
  refine ⟨?_, fun d hd => ?_, h.unit, fun s hs t => ?_, h.likeness⟩
  · simp only [List.map_append, List.append_assoc]
    exact (List.perm_append_comm.append_left _).trans ((List.append_assoc _ _ _) ▸ h.partition.append_right _)
  · rw [List.map_append]
    exact List.mem_append_left _ (h.kept_mem d hd)
  · rcases List.mem_append.mp hs with hs | hs
    · exact h.terms s hs t
    · rw [List.mem_singleton.mp hs]
      constructor
      · exact fun ht => Or.inl ⟨current, hcurrent, rfl, ht⟩
      · rintro (⟨x, hx, he, ht⟩ | ⟨d, hd, he, -⟩)
        · rw [← List.inj_on_of_nodup_map hids hx hcurrent he]
          exact ht
        · exact absurd (h.partition.subset (List.mem_append_left _ (he ▸ h.kept_mem d hd))) hnew

theorem Accounted.merge {candidates done front back : List RerankedEvidence}
    {existing : RerankedEvidence} (h : Accounted candidates done result)
    (hids : (candidates.map (·.candidate.candidateId)).Nodup) (hcurrent : current ∈ candidates)
    (hsplit : result.candidates = front ++ existing :: back)
    (hdecides : Decides overlapThreshold nearDuplicateThreshold existing current decision)
    (hresult : (result.candidates.map (·.candidate.candidateId)).Nodup) :
    Accounted candidates (done ++ [current])
      ⟨front ++ mergeExactProvenance existing current :: back, result.decisions ++ [decision]⟩ := by
  have hkept : (front ++ mergeExactProvenance existing current :: back).map (·.candidate.candidateId) =
      result.candidates.map (·.candidate.candidateId) := by
    rw [hsplit]
    simp [mergeExactProvenance]
  have hexisting : existing ∈ result.candidates := by simp [hsplit]
  refine ⟨?_, fun d hd => ?_, fun d hd => ?_, fun s hs t => ?_, fun before d after hlist hreason => ?_⟩
  · rw [hkept, List.map_append, List.map_append, ← List.append_assoc, List.map_singleton, List.map_singleton,
      hdecides.dropped]
    exact h.partition.append_right _
  · rw [hkept]
    rcases List.mem_append.mp hd with hd | hd
    · exact h.kept_mem d hd
    · rw [List.mem_singleton.mp hd, hdecides.kept]
      exact List.mem_map_of_mem hexisting
  · rcases List.mem_append.mp hd with hd | hd
    · exact h.unit d hd
    · rw [List.mem_singleton.mp hd]
      exact similarity_mem_unit hdecides.reason
  · have hother : ∀ y ∈ front ++ back, y ∈ result.candidates ∧ y.candidate.candidateId ≠ existing.candidate.candidateId := by
      intro y hy
      rw [hsplit, List.map_append, List.map_cons, List.nodup_middle, List.nodup_cons, ← List.map_append] at hresult
      refine ⟨?_, fun he => hresult.1 (he ▸ List.mem_map_of_mem hy)⟩
      rw [hsplit]
      exact List.perm_middle.symm.subset (List.mem_cons_of_mem _ hy)
    rw [Carries.append_iff hids hcurrent hdecides.dropped, hdecides.kept]
    rcases List.mem_cons.mp (List.perm_middle.subset hs) with rfl | hs
    · have hterms := h.terms existing hexisting t
      simp only [mergeExactProvenance, mem_fromkeys, List.mem_append, hterms, true_and]
    · obtain ⟨hs, hne⟩ := hother s hs
      rw [h.terms s hs t]
      simp [hne.symm]
  · rcases List.eq_nil_or_concat after with rfl | ⟨after, last, rfl⟩
    · obtain ⟨rfl, hd⟩ := List.append_inj' hlist rfl
      cases hd
      intro x hx he t ht
      rw [List.inj_on_of_nodup_map hids hx hcurrent (he.trans hdecides.dropped)] at ht
      rw [hdecides.kept]
      exact (h.terms existing hexisting t).mp (hdecides.subset hreason ht)
    · rw [List.concat_eq_append, ← List.cons_append, ← List.append_assoc] at hlist
      exact h.likeness before d after (List.append_inj' hlist rfl).1 hreason

theorem dedupLoop_accounted {candidates : List RerankedEvidence}
    (hids : (candidates.map (·.candidate.candidateId)).Nodup) (rest : List RerankedEvidence) :
    ∀ {done : List RerankedEvidence} {result : DeduplicationResult}, candidates = done ++ rest →
      Accounted candidates done result → dedupLoop overlapThreshold nearDuplicateThreshold result rest = .ok result' →
        Accounted candidates candidates result' := by
  induction rest with
  | nil =>
      intro done result hsplit h hloop
      cases hloop
      rw [List.append_nil] at hsplit
      exact hsplit ▸ h
  | cons current rest ih =>
      intro done result hsplit h hloop
      have hcurrent : current ∈ candidates := by simp [hsplit]
      have hsplit' : candidates = (done ++ [current]) ++ rest := by rw [hsplit, List.append_assoc]; rfl
      have hdone : (done ++ [current]).map (·.candidate.candidateId) <+: candidates.map (·.candidate.candidateId) := by
        rw [hsplit']
        exact ⟨rest.map _, List.map_append.symm⟩
      have hnodup := hids.sublist hdone.sublist
      rw [List.map_append, List.map_singleton] at hnodup
      rw [dedupLoop] at hloop
      cases habsorb : absorb overlapThreshold nearDuplicateThreshold current result.candidates with
      | none =>
          rw [habsorb] at hloop
          refine ih hsplit' (h.keep hids hcurrent fun hmem => ?_) hloop
          exact (List.nodup_append.mp hnodup).2.2 _ hmem _ (List.mem_singleton_self _) rfl
      | some x =>
          obtain ⟨kept, decision⟩ := x
          obtain ⟨front, existing, back, hfront, rfl, hdecides⟩ := absorb_cases habsorb
          rw [habsorb] at hloop
          simp only [validate_of_decides hdecides] at hloop
          have hresult : (result.candidates.map (·.candidate.candidateId)).Nodup :=
            (List.nodup_append.mp (h.partition.nodup_iff.mpr (List.nodup_append.mp hnodup).1)).1
          exact ih hsplit' (h.merge hids hcurrent hfront hdecides hresult) hloop

end Etoeragcb.Rag
