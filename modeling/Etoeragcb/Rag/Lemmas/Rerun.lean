import Etoeragcb.Rag.Lemmas.Dedup

/-!
# Deduplication of a result

Why a candidate that was no duplicate at its turn may be one in the result.
-/

namespace Etoeragcb.Rag

open Lib Models

variable {overlapThreshold nearDuplicateThreshold : ℚ} {x x₀ y y₀ z : RerankedEvidence} {kept rest : List RerankedEvidence}
  {result final : DeduplicationResult} {reason : DuplicateReason} {similarity : ℚ}

/-! ## Growing terms -/

/-- The same evidence, perhaps with more terms. -/
def Grows (x x' : RerankedEvidence) : Prop :=
  core x = core x' ∧ x.candidate.matchedExactTerms ⊆ x'.candidate.matchedExactTerms

theorem Grows.refl (x : RerankedEvidence) : Grows x x := ⟨rfl, List.Subset.refl _⟩

theorem Grows.trans (h : Grows x y) (h' : Grows y z) : Grows x z := ⟨h.1.trans h'.1, List.Subset.trans h.2 h'.2⟩

theorem grows_merge (x y : RerankedEvidence) : Grows x (mergeExactProvenance x y) :=
  ⟨rfl, fun _ ht => mem_fromkeys.mpr (List.mem_append_left _ ht)⟩

theorem Grows.candidateId_eq (h : Grows x y) : x.candidate.candidateId = y.candidate.candidateId :=
  congrArg (·.candidate.candidateId) h.1

theorem Grows.key_eq (h : Grows x y) : stableRerankedKey x = stableRerankedKey y := by
  change stableRerankedKey (core x) = stableRerankedKey (core y)
  rw [h.1]

/-- Candidates that become duplicates do so by their likeness, and by a term of the later one that reaches the
earlier one. -/
theorem duplicateReason_of_grows (hx : Grows x₀ x) (hy : Grows y₀ y)
    (hnone : duplicateReason overlapThreshold nearDuplicateThreshold x₀.candidate y₀.candidate = none)
    (hsome : duplicateReason overlapThreshold nearDuplicateThreshold x.candidate y.candidate = some (reason, similarity)) :
    reason.IsLikeness ∧ ∃ t ∈ y₀.candidate.matchedExactTerms, t ∉ x₀.candidate.matchedExactTerms ∧
      t ∈ x.candidate.matchedExactTerms := by
  have hcontent : x₀.candidate.contentSha256 = x.candidate.contentSha256 ∧
      y₀.candidate.contentSha256 = y.candidate.contentSha256 :=
    ⟨congrArg (·.candidate.contentSha256) hx.1, congrArg (·.candidate.contentSha256) hy.1⟩
  have hlexical : x₀.candidate.lexicalSha256 = x.candidate.lexicalSha256 ∧
      y₀.candidate.lexicalSha256 = y.candidate.lexicalSha256 :=
    ⟨congrArg (·.candidate.lexicalSha256) hx.1, congrArg (·.candidate.lexicalSha256) hy.1⟩
  have hspan : spanOverlap x₀.candidate y₀.candidate = spanOverlap x.candidate y.candidate := by
    change spanOverlap (core x₀).candidate (core y₀).candidate = spanOverlap (core x).candidate (core y).candidate
    rw [hx.1, hy.1]
  have htext : shingleSimilarity x₀.candidate.textLexical y₀.candidate.textLexical =
      shingleSimilarity x.candidate.textLexical y.candidate.textLexical := by
    change shingleSimilarity (core x₀).candidate.textLexical (core y₀).candidate.textLexical =
      shingleSimilarity (core x).candidate.textLexical (core y).candidate.textLexical
    rw [hx.1, hy.1]
  rw [duplicateReason, hcontent.1, hcontent.2, hlexical.1, hlexical.2, hspan, htext] at hnone
  rw [duplicateReason] at hsome
  split at hsome
  · rename_i h
    rw [if_pos h] at hnone
    cases hnone
  · rename_i h
    rw [if_neg h] at hnone
    split at hsome
    · rename_i h
      rw [if_pos h] at hnone
      cases hnone
    · rename_i h
      rw [if_neg h] at hnone
      split at hsome
      · cases hsome
      · rename_i hsub
        push Not at hsub
        split at hnone
        · rename_i hnew
          obtain ⟨t, ht, hmissing⟩ := hnew
          refine ⟨?_, t, ht, hmissing, hsub t (hy.2 ht)⟩
          split at hsome
          · cases hsome
            exact Or.inl rfl
          · split at hsome
            · cases hsome
              exact Or.inr rfl
            · cases hsome
        · rw [hnone] at hsome
          cases hsome

/-! ## The loop -/

theorem absorb_eq_none_iff {current : RerankedEvidence} :
    absorb overlapThreshold nearDuplicateThreshold current kept = none ↔
    ∀ e ∈ kept, duplicateReason overlapThreshold nearDuplicateThreshold e.candidate current.candidate = none := by
  induction kept with
  | nil => simp [absorb]
  | cons e kept ih =>
      rw [absorb, List.forall_mem_cons]
      cases h : duplicateReason overlapThreshold nearDuplicateThreshold e.candidate current.candidate with
      | none => simp [ih]
      | some d => simp

theorem dedupLoop_append (overlapThreshold nearDuplicateThreshold : ℚ) (result : DeduplicationResult)
    (done rest : List RerankedEvidence) : dedupLoop overlapThreshold nearDuplicateThreshold result (done ++ rest) =
      dedupLoop overlapThreshold nearDuplicateThreshold result done >>= fun r =>
        dedupLoop overlapThreshold nearDuplicateThreshold r rest := by
  induction done generalizing result with
  | nil => rfl
  | cons current done ih =>
      rw [List.cons_append, dedupLoop, dedupLoop]
      cases absorb overlapThreshold nearDuplicateThreshold current result.candidates with
      | none => exact ih _
      | some x =>
          obtain ⟨kept, decision⟩ := x
          cases hvalid : decision.validate with
          | error e => simp only [hvalid, bind, Except.bind]
          | ok d =>
              simp only [hvalid, bind, Except.bind]
              exact ih _

/-- What is kept stays in its place, and the decisions of the loop are about what it has still to do. -/
theorem dedupLoop_grows (h : dedupLoop overlapThreshold nearDuplicateThreshold result rest = .ok final) :
    (∀ (i : ℕ) (x : RerankedEvidence), result.candidates[i]? = some x → ∃ x', final.candidates[i]? = some x' ∧ Grows x x') ∧
      ∃ later, final.decisions = result.decisions ++ later ∧
        ∀ d ∈ later, d.droppedCandidateId ∈ rest.map (·.candidate.candidateId) := by
  induction rest generalizing result with
  | nil =>
      cases h
      exact ⟨fun i x hx => ⟨x, hx, .refl x⟩, [], by simp, nofun⟩
  | cons current rest ih =>
      rw [dedupLoop] at h
      cases habsorb : absorb overlapThreshold nearDuplicateThreshold current result.candidates with
      | none =>
          rw [habsorb] at h
          obtain ⟨hgrows, later, hlater, hmem⟩ := ih h
          refine ⟨fun i x hx => hgrows i x ?_, later, hlater, fun d hd => List.mem_cons_of_mem _ (hmem d hd)⟩
          rw [List.getElem?_append_left (List.getElem?_eq_some_iff.mp hx).1, hx]
      | some a =>
          obtain ⟨kept, decision⟩ := a
          obtain ⟨front, existing, back, hfront, rfl, hdecides⟩ := absorb_cases habsorb
          rw [habsorb] at h
          simp only [validate_of_decides hdecides] at h
          obtain ⟨hgrows, later, hlater, hmem⟩ := ih h
          refine ⟨fun i x hx => ?_, decision :: later, by rw [hlater, List.append_assoc]; rfl,
            List.forall_mem_cons.mpr ⟨?_, fun d hd => List.mem_cons_of_mem _ (hmem d hd)⟩⟩
          · rw [hfront] at hx
            -- the one that takes the duplicate in, or one of the others
            have hstep : ∃ x₁, (front ++ mergeExactProvenance existing current :: back)[i]? = some x₁ ∧ Grows x x₁ := by
              rw [List.getElem?_append, List.getElem?_cons] at hx ⊢
              split at hx
              · rename_i hi
                rw [if_pos hi]
                exact ⟨x, hx, .refl x⟩
              · rename_i hi
                rw [if_neg hi]
                split at hx
                · rename_i hi
                  rw [if_pos hi]
                  exact ⟨_, rfl, Option.some.inj hx ▸ grows_merge _ _⟩
                · rename_i hi
                  rw [if_neg hi]
                  exact ⟨x, hx, .refl x⟩
            obtain ⟨x₁, hx₁, hg₁⟩ := hstep
            obtain ⟨x₂, hx₂, hg₂⟩ := hgrows i x₁ hx₁
            exact ⟨x₂, hx₂, hg₁.trans hg₂⟩
          · rw [hdecides.dropped]
            exact List.mem_cons_self

theorem dedupLoop_eq_self_iff : dedupLoop overlapThreshold nearDuplicateThreshold result rest =
      .ok { result with candidates := result.candidates ++ rest } ↔
    (∀ x ∈ result.candidates, ∀ y ∈ rest, duplicateReason overlapThreshold nearDuplicateThreshold x.candidate y.candidate = none) ∧
      rest.Pairwise fun x y => duplicateReason overlapThreshold nearDuplicateThreshold x.candidate y.candidate = none := by
  induction rest generalizing result with
  | nil => simp [dedupLoop]
  | cons current rest ih =>
      rw [dedupLoop]
      cases habsorb : absorb overlapThreshold nearDuplicateThreshold current result.candidates with
      | none =>
          have hnone := absorb_eq_none_iff.mp habsorb
          have hstep := @ih { result with candidates := result.candidates ++ [current] }
          rw [List.append_assoc] at hstep
          refine hstep.trans ?_
          rw [List.pairwise_cons]
          constructor
          · rintro ⟨hall, hpair⟩
            refine ⟨fun x hx => List.forall_mem_cons.mpr ⟨hnone x hx, hall x (List.mem_append_left _ hx)⟩, ?_, hpair⟩
            exact hall current (List.mem_append_right _ List.mem_cons_self)
          · rintro ⟨hall, hcurrent, hpair⟩
            refine ⟨fun x hx => ?_, hpair⟩
            rcases List.mem_append.mp hx with hx | hx
            · exact (List.forall_mem_cons.mp (hall x hx)).2
            · exact List.mem_singleton.mp hx ▸ hcurrent
      | some a =>
          obtain ⟨kept, decision⟩ := a
          obtain ⟨-, existing, hexisting, hdecides⟩ := absorb_spec habsorb
          simp only [validate_of_decides hdecides]
          refine iff_of_false (fun h => ?_) fun h => ?_
          · obtain ⟨-, later, hlater, -⟩ := dedupLoop_grows h
            have hlen := congrArg List.length hlater
            simp only [List.length_append, List.length_singleton] at hlen
            omega
          · have hno := h.1 existing hexisting current List.mem_cons_self
            rw [hdecides.reason] at hno
            cases hno

/-! ## The result -/

/-- No candidate ranked before `y` that went into `x` carries the term, nor does `x` itself. -/
def Lacked (candidates : List RerankedEvidence) (result : DeduplicationResult) (x y : RerankedEvidence) (t : Text) : Prop :=
  ∀ z ∈ candidates, z.candidate.candidateId = x.candidate.candidateId ∨ (∃ d ∈ result.decisions,
      d.keptCandidateId = x.candidate.candidateId ∧ d.droppedCandidateId = z.candidate.candidateId) →
    stableRerankedKey z < stableRerankedKey y → t ∉ z.candidate.matchedExactTerms

/-- A term that `y` came with reached `x` only with a candidate ranked after `y`. -/
def Late (candidates : List RerankedEvidence) (result : DeduplicationResult) (x y : RerankedEvidence) : Prop :=
  ∃ t, Lacked candidates result x y t ∧
    (∃ y₀ ∈ candidates, y₀.candidate.candidateId = y.candidate.candidateId ∧ t ∈ y₀.candidate.matchedExactTerms) ∧
    ∃ z ∈ candidates, stableRerankedKey y < stableRerankedKey z ∧ t ∈ z.candidate.matchedExactTerms ∧
      ∃ d ∈ result.decisions, d.keptCandidateId = x.candidate.candidateId ∧ d.droppedCandidateId = z.candidate.candidateId

/-- The state of the loop when the turn of a survivor comes: it goes behind what is kept, where it stays. -/
theorem dedupLoop_survivor {done : List RerankedEvidence} (hids : ((done ++ y₀ :: rest).map (·.candidate.candidateId)).Nodup)
    (h : dedupLoop overlapThreshold nearDuplicateThreshold ⟨[], []⟩ (done ++ y₀ :: rest) = .ok final)
    (hy : y₀.candidate.candidateId ∈ final.candidates.map (·.candidate.candidateId)) :
    ∃ r, Accounted done done r ∧
      (∀ e ∈ r.candidates, duplicateReason overlapThreshold nearDuplicateThreshold e.candidate y₀.candidate = none) ∧
      dedupLoop overlapThreshold nearDuplicateThreshold { r with candidates := r.candidates ++ [y₀] } rest = .ok final := by
  have hdone : (done.map (·.candidate.candidateId)).Nodup := by
    rw [List.map_append] at hids
    exact hids.of_append_left
  have hpartition := (dedupLoop_accounted hids _ (by simp) (accounted_nil _) h).partition
  have hfinal := hpartition.nodup_iff.mpr hids
  rw [dedupLoop_append] at h
  obtain ⟨r, hr, h⟩ := bind_eq_ok.mp h
  have hacc := dedupLoop_accounted hdone done (by simp) (accounted_nil _) hr
  rw [dedupLoop] at h
  cases habsorb : absorb overlapThreshold nearDuplicateThreshold y₀ r.candidates with
  | none =>
      rw [habsorb] at h
      exact ⟨r, hacc, absorb_eq_none_iff.mp habsorb, h⟩
  | some a =>
      obtain ⟨kept, decision⟩ := a
      obtain ⟨-, existing, -, hdecides⟩ := absorb_spec habsorb
      rw [habsorb] at h
      simp only [validate_of_decides hdecides] at h
      obtain ⟨-, later, hlater, -⟩ := dedupLoop_grows h
      have hdropped : y₀.candidate.candidateId ∈ final.decisions.map (·.droppedCandidateId) := by
        rw [hlater, ← hdecides.dropped]
        exact List.mem_map_of_mem (List.mem_append_left _ (List.mem_append_right _ (List.mem_singleton_self _)))
      exact absurd hdropped fun hin => List.disjoint_of_nodup_append hfinal hy hin

/-- A term that an earlier survivor has in the end, and had not when the turn of a later one came, came after that turn. -/
theorem late_of_grows {done : List RerankedEvidence} {r : DeduplicationResult} {t : Text}
    (hids : ((done ++ y₀ :: rest).map (·.candidate.candidateId)).Nodup)
    (hsorted : (done ++ y₀ :: rest).Pairwise fun a b => stableRerankedKey a ≤ stableRerankedKey b)
    (hdone : Accounted done done r) (hfinal : Accounted (done ++ y₀ :: rest) (done ++ y₀ :: rest) final)
    (hlater : ∃ later, final.decisions = r.decisions ++ later ∧
      ∀ d ∈ later, d.droppedCandidateId ∈ rest.map (·.candidate.candidateId))
    (hx₀ : x₀ ∈ r.candidates) (hx : x ∈ final.candidates) (hgrows : Grows x₀ x) (hy : Grows y₀ y)
    (ht : t ∈ y₀.candidate.matchedExactTerms) (hmissing : t ∉ x₀.candidate.matchedExactTerms)
    (hin : t ∈ x.candidate.matchedExactTerms) : Late (done ++ y₀ :: rest) final x y := by
  obtain ⟨later, hlater, hrest⟩ := hlater
  rw [hdone.terms x₀ hx₀, hgrows.candidateId_eq] at hmissing
  rw [hfinal.terms x hx] at hin
  have hsame : ∀ z ∈ done ++ y₀ :: rest, ∀ w ∈ done ++ y₀ :: rest,
      z.candidate.candidateId = w.candidate.candidateId → z = w :=
    fun z hz w hw he => List.inj_on_of_nodup_map hids hz hw he
  have hcandidate : ∀ z ∈ done ++ y₀ :: rest, z.candidate.candidateId ∈ done.map (·.candidate.candidateId) → z ∈ done := by
    intro z hz he
    obtain ⟨w, hw, he⟩ := List.mem_map.mp he
    exact hsame w (List.mem_append_left _ hw) z hz he ▸ hw
  have hxdone : x.candidate.candidateId ∈ done.map (·.candidate.candidateId) :=
    hgrows.candidateId_eq ▸ hdone.partition.subset (List.mem_append_left _ (List.mem_map_of_mem hx₀))
  -- a candidate that is not among the first ones comes behind `y`
  have hafter : ∀ z ∈ rest, stableRerankedKey y < stableRerankedKey z := by
    intro z hz
    rw [List.pairwise_append, List.pairwise_cons] at hsorted
    refine hy.key_eq ▸ lt_of_le_of_ne (hsorted.2.1.1 z hz) fun he => ?_
    rw [List.map_append, List.map_cons] at hids
    refine (List.nodup_cons.mp hids.of_append_right).1 ?_
    rw [show y₀.candidate.candidateId = z.candidate.candidateId from (Prod.mk.inj (toLex.injective he)).2]
    exact List.mem_map_of_mem hz
  have hbefore : ∀ z ∈ done ++ y₀ :: rest, stableRerankedKey z < stableRerankedKey y → z ∈ done := by
    intro z hz hlt
    rcases List.mem_append.mp hz with hz | hz
    · exact hz
    · rcases List.mem_cons.mp hz with rfl | hz
      · exact absurd (hy.key_eq ▸ hlt) (lt_irrefl _)
      · exact absurd hlt (not_lt_of_gt (hafter z hz))
  refine ⟨t, fun z hz hfrom hlt htz => ?_, ⟨y₀, by simp, hy.candidateId_eq, ht⟩, ?_⟩
  · have hzdone := hbefore z hz hlt
    rcases hfrom with he | ⟨d, hd, hkept, hdropped⟩
    · exact hmissing (Or.inl ⟨z, hzdone, he, htz⟩)
    · rw [hlater] at hd
      rcases List.mem_append.mp hd with hd | hd
      · exact hmissing (Or.inr ⟨d, hd, hkept, z, hzdone, hdropped.symm, htz⟩)
      · obtain ⟨w, hw, he⟩ := List.mem_map.mp (hrest d hd)
        obtain rfl := hsame w (by simp [hw]) z hz (he.trans hdropped)
        exact absurd hlt (not_lt_of_gt (hafter w hw))
  · rcases hin with ⟨w, hw, he, htw⟩ | ⟨d, hd, hkept, w, hw, hdropped, htw⟩
    · exact absurd (Or.inl ⟨w, hcandidate w hw (he ▸ hxdone), he, htw⟩) hmissing
    · rw [hlater] at hd
      rcases List.mem_append.mp hd with hd | hd
      · have hmem : d.droppedCandidateId ∈ done.map (·.candidate.candidateId) :=
          hdone.partition.subset (List.mem_append_right _ (List.mem_map_of_mem hd))
        exact absurd (Or.inr ⟨d, hd, hkept, w, hcandidate w hw (hdropped ▸ hmem), hdropped, htw⟩) hmissing
      · obtain ⟨z, hz, he⟩ := List.mem_map.mp (hrest d hd)
        obtain rfl := hsame z (by simp [hz]) w hw (he.trans hdropped.symm)
        refine ⟨z, by simp [hz], hafter z hz, htw, d, by simp [hlater, hd], hkept, hdropped.symm⟩

/-- Two survivors that are duplicates as they stand in the result are so by a late term. -/
theorem dedupLoop_late (hids : (rest.map (·.candidate.candidateId)).Nodup)
    (hsorted : rest.Pairwise fun a b => stableRerankedKey a ≤ stableRerankedKey b)
    (h : dedupLoop overlapThreshold nearDuplicateThreshold ⟨[], []⟩ rest = .ok final) :
    final.candidates.Pairwise fun x y => ∀ reason similarity,
      duplicateReason overlapThreshold nearDuplicateThreshold x.candidate y.candidate = some (reason, similarity) →
        reason.IsLikeness ∧ Late rest final x y := by
  have hfinal : Accounted rest rest final :=
    dedupLoop_accounted hids rest rfl (accounted_nil _) h
  have hnodup : (final.candidates.map (·.candidate.candidateId)).Nodup :=
    (hfinal.partition.nodup_iff.mpr hids).of_append_left
  rw [List.pairwise_iff_getElem]
  intro i j hi hj hij reason similarity hsome
  set x := final.candidates[i] with hx
  set y := final.candidates[j] with hy
  have hymem : y.candidate.candidateId ∈ final.candidates.map (·.candidate.candidateId) :=
    List.mem_map_of_mem (List.getElem_mem hj)
  obtain ⟨y₀, hy₀, he⟩ := List.mem_map.mp (hfinal.partition.subset (List.mem_append_left _ hymem))
  obtain ⟨done, rest, rfl⟩ := List.append_of_mem hy₀
  obtain ⟨r, hdone, hnone, hloop⟩ := dedupLoop_survivor hids h (he ▸ hymem)
  obtain ⟨hgrows, hlater⟩ := dedupLoop_grows hloop
  obtain ⟨y', hy', hgy⟩ := hgrows r.candidates.length y₀ (by simp)
  -- the survivor stands where it was put
  have hjr : r.candidates.length = j := by
    obtain ⟨hr, hy'⟩ := List.getElem?_eq_some_iff.mp hy'
    have hid := (congrArg (·.candidate.candidateId) hy').trans (hgy.candidateId_eq.symm.trans he)
    have hr' : r.candidates.length < (final.candidates.map (·.candidate.candidateId)).length := by rwa [List.length_map]
    have hj' : j < (final.candidates.map (·.candidate.candidateId)).length := by rwa [List.length_map]
    exact (@List.Nodup.getElem_inj_iff _ _ hnodup _ hr' _ hj').mp (by simpa using hid)
  subst hjr
  obtain rfl : y' = y := Option.some.inj (hy'.symm.trans (List.getElem?_eq_getElem hj))
  obtain ⟨x', hx', hgx⟩ := hgrows i r.candidates[i] (by simp [hij, List.getElem?_append_left hij])
  obtain rfl : x' = x := Option.some.inj (hx'.symm.trans (List.getElem?_eq_getElem hi))
  obtain ⟨hlikeness, t, ht, hmissing, hin⟩ := duplicateReason_of_grows hgx hgy (hnone _ (List.getElem_mem hij)) hsome
  exact ⟨hlikeness, late_of_grows hids hsorted hdone hfinal hlater (List.getElem_mem hij) (List.getElem_mem hi) hgx hgy ht
    hmissing hin⟩

end Etoeragcb.Rag
