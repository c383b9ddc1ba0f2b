import Etoeragcb.Evaluation.Lemmas.Calibration
import Mathlib.Data.Finset.Max
import Mathlib.Tactic.FieldSimp
import Mathlib.Tactic.Push
import Mathlib.Tactic.Ring

/-!
# The grid of the sweep

Which thresholds the grid stands for, and what the sweep chooses from it.
-/

namespace Etoeragcb.Evaluation

open Lib Models Rag

variable {observations : List GateObservation} {values : List ℚ} {t t' : CalibratedThresholds} {q : ℚ}

/-! ## Rounding -/

/-- The double of a decimal number of six places. -/
def micro (n : ℕ) : ℚ := Binary64.round (n / 1000000)

theorem micro_mono {m n : ℕ} (h : m ≤ n) : micro m ≤ micro n := by
  have hle : (m : ℚ) ≤ n := by exact_mod_cast h
  exact Binary64.round_mono (by positivity) (div_le_div_of_nonneg_right hle (by norm_num))

theorem micro_zero : micro 0 = 0 := by
  rw [micro, Nat.cast_zero, zero_div, Binary64.round_zero]

theorem micro_million : micro 1000000 = 1 := by
  rw [micro, Nat.cast_ofNat, div_self (by norm_num), Binary64.round_one]

theorem micro_error {n : ℕ} (h : n ≤ 2000000) :
    (n / 1000000 : ℚ) - 1 / 2 ^ 53 ≤ micro n ∧ micro n ≤ n / 1000000 + 1 / 2 ^ 53 := by
  have hle : (n : ℚ) ≤ 2000000 := by exact_mod_cast h
  have herror := Binary64.abs_round_sub_le_of_le_two (q := n / 1000000) (by positivity)
    (by rw [div_le_iff₀ (by norm_num)]; linarith)
  obtain ⟨hlo, hhi⟩ := abs_le.mp herror
  exact ⟨by unfold micro; linarith, by unfold micro; linarith⟩

theorem round6_spec (hq : inUnit q = true) : ∃ n : ℕ, n ≤ 1000000 ∧ round6 q = micro n ∧
    2 * n - 1 ≤ 2 * (q * 1000000) ∧ 2 * (q * 1000000) ≤ 2 * n + 1 := by
  rw [inUnit_iff] at hq
  have h₀ : 0 ≤ roundEven (q * 1000000) := le_roundEven (by push_cast; linarith [hq.1])
  have h₁ : roundEven (q * 1000000) ≤ 1000000 := roundEven_le (by push_cast; linarith [hq.2])
  obtain ⟨n, hn⟩ := Int.eq_ofNat_of_zero_le h₀
  obtain ⟨hlo, hhi⟩ := roundEven_spec (q * 1000000)
  rw [hn, Int.cast_natCast] at hlo hhi
  refine ⟨n, by omega, ?_, by linarith, by linarith⟩
  rw [round6, hn, Int.cast_natCast, micro]

theorem round6_of_near {n : ℕ} (h : |q - n / 1000000| ≤ 1 / 2 ^ 50) : round6 q = micro n := by
  have hnear : 2 * |q * 1000000 - (n : ℤ)| < 1 := by
    have hscaled : q * 1000000 - (n : ℤ) = (q - n / 1000000) * 1000000 := by
      rw [Int.cast_natCast]
      ring
    rw [hscaled, abs_mul, abs_of_pos (by norm_num : (0 : ℚ) < 1000000)]
    have hbound := mul_le_mul_of_nonneg_right h (by norm_num : (0 : ℚ) ≤ 1000000)
    norm_num at hbound
    linarith
  rw [round6, roundEven_of_near hnear, Int.cast_natCast, micro]

/-- What `_score_candidates` adds for a value, whose decimal number is the `n`-th. -/
theorem round6_step {n : ℕ} (hn : n ≤ 1000000) (h : round6 q = micro n) :
    round6 (Binary64.round (round6 q + Binary64.round (1 / 1000000))) = micro (n + 1) := by
  have hunit : (n : ℚ) ≤ 1000000 := by exact_mod_cast hn
  obtain ⟨hlo, hhi⟩ := micro_error (n := n) (by omega)
  obtain ⟨hlo', hhi'⟩ := micro_error (n := 1) (by omega)
  have hstep : Binary64.round (1 / 1000000) = micro 1 := by rw [micro, Nat.cast_one]
  have hnonneg : (0 : ℚ) ≤ micro n := micro_zero ▸ micro_mono (Nat.zero_le n)
  have hnonneg' : (0 : ℚ) ≤ micro 1 := micro_zero ▸ micro_mono (Nat.zero_le 1)
  have hsmall : (n : ℚ) / 1000000 ≤ 1 := by
    rw [div_le_one (by norm_num)]
    exact hunit
  norm_num at hhi hlo hhi' hlo'
  obtain ⟨hsum, hsum'⟩ := abs_le.mp (Binary64.abs_round_sub_le_of_le_two (q := micro n + micro 1) (by linarith)
    (by linarith))
  norm_num at hsum hsum'
  rw [h, hstep]
  refine round6_of_near (abs_le.mpr ⟨?_, ?_⟩)
  · push_cast
    norm_num
    linarith
  · push_cast
    norm_num
    linarith

theorem micro_inUnit {n : ℕ} (h : n ≤ 1000000) : inUnit (micro n) = true := by
  rw [inUnit_iff]
  exact ⟨micro_zero ▸ micro_mono (Nat.zero_le n), micro_million ▸ micro_mono h⟩

/-! ## The values of a score -/

theorem mem_scoreCandidates : q ∈ scoreCandidates values ↔ q = 0 ∨ q = 1 ∨ ∃ v ∈ values, q = round6 v ∨
    q = min 1 (round6 (Binary64.round (round6 v + Binary64.round (1 / 1000000)))) := by
  simp only [scoreCandidates, mem_sortBy, List.mem_dedup, List.mem_cons, List.mem_flatMap, List.not_mem_nil, or_false]

theorem scoreCandidates_inUnit (hvalues : ∀ v ∈ values, inUnit v = true) (hq : q ∈ scoreCandidates values) :
    inUnit q = true := by
  rcases mem_scoreCandidates.mp hq with rfl | rfl | ⟨v, hv, rfl | rfl⟩
  · decide
  · decide
  · obtain ⟨n, hle, hn, -⟩ := round6_spec (hvalues v hv)
    exact hn ▸ micro_inUnit hle
  · obtain ⟨n, hle, hn, -⟩ := round6_spec (hvalues v hv)
    rw [round6_step hle hn, inUnit_iff]
    exact ⟨le_min zero_le_one (micro_zero ▸ micro_mono (Nat.zero_le (n + 1))), min_le_left _ _⟩

/-- A decimal number of six places tells the values apart as the threshold does. -/
def Resolved (values : List ℚ) (threshold : ℚ) : Prop := ∃ n : ℕ, ∀ v ∈ values, micro n ≤ v ↔ threshold ≤ v

/-- Of the values below a threshold the largest tells the values apart as the threshold does. -/
theorem exists_largest_below (values : List ℚ) (q : ℚ) :
    (∀ v ∈ values, q ≤ v) ∨ ∃ a ∈ values, a < q ∧ ∀ v ∈ values, a < v ↔ q ≤ v := by
  by_cases hbelow : ∃ a ∈ values, a < q
  · obtain ⟨a, ha, hmax⟩ := (values.filter (· < q)).toFinset.exists_max_image id (by
      obtain ⟨a, ha, hlt⟩ := hbelow
      exact ⟨a, by simp [ha, hlt]⟩)
    simp only [List.mem_toFinset, List.mem_filter, decide_eq_true_eq, id_eq, and_imp] at ha hmax
    refine Or.inr ⟨a, ha.1, ha.2, fun v hv => ⟨fun hav => ?_, ha.2.trans_le⟩⟩
    by_contra hno
    exact absurd (hmax v hv (not_le.mp hno)) (not_le.mpr hav)
  · push Not at hbelow
    exact Or.inl hbelow

/-- The grid has a value that tells the values apart as such a threshold does. -/
theorem exists_scoreCandidate (hvalues : ∀ v ∈ values, inUnit v = true) (hq : inUnit q = true) (h : Resolved values q) :
    ∃ c ∈ scoreCandidates values, ∀ v ∈ values, c ≤ v ↔ q ≤ v := by
  obtain ⟨m, hm⟩ := h
  rcases exists_largest_below values q with hall | ⟨a, ha, hlt, hsplit⟩
  · exact ⟨0, mem_scoreCandidates.mpr (Or.inl rfl), fun v hv =>
      iff_of_true (inUnit_iff.mp (hvalues v hv)).1 (hall v hv)⟩
  · have ham : a < micro m := by
      by_contra hno
      exact absurd ((hm a ha).mp (not_lt.mp hno)) (not_le.mpr hlt)
    obtain ⟨n, hle, hn, hlo, hhi⟩ := round6_spec (hvalues a ha)
    by_cases hround : a < round6 a
    · refine ⟨round6 a, mem_scoreCandidates.mpr (Or.inr (Or.inr ⟨a, ha, Or.inl rfl⟩)), fun v hv => ?_⟩
      refine ⟨fun hle => (hsplit v hv).mp (hround.trans_le hle), fun hle => ?_⟩
      have hnm : n ≤ m := by
        by_contra hno
        have hlt : (m : ℚ) + 1 ≤ n := by exact_mod_cast not_le.mp hno
        have hup := (micro_error (n := m) (by omega)).2
        norm_num at hup
        linarith
      rw [hn]
      exact (micro_mono hnm).trans ((hm v hv).mpr hle)
    · refine ⟨_, mem_scoreCandidates.mpr (Or.inr (Or.inr ⟨a, ha, Or.inr rfl⟩)), fun v hv => ?_⟩
      rw [round6_step hle hn]
      have hnext : a < micro (n + 1) := by
        have hdown := (micro_error (n := n + 1) (by omega)).1
        norm_num at hdown
        linarith
      have hone : a < 1 := hlt.trans_le (inUnit_iff.mp hq).2
      refine ⟨fun hle => (hsplit v hv).mp ((lt_min hone hnext).trans_le hle), fun hle => ?_⟩
      have hnm : n < m := by
        rw [not_lt, hn] at hround
        by_contra hno
        exact absurd (ham.trans_le (micro_mono (not_lt.mp hno))) (not_lt.mpr hround)
      exact (min_le_right _ _).trans ((micro_mono hnm).trans ((hm v hv).mpr hle))

/-- The larger one of two values of a score is a decimal number of six places, or it is more than `0.000001` above the
other. -/
def Spaced (values : List ℚ) : Prop :=
  ∀ a ∈ values, ∀ b ∈ values, a < b → (∃ n, b = micro n) ∨ a + 1 / 1000000 + 1 / 2 ^ 52 ≤ b

/-- Every threshold tells such values apart as a decimal number does. -/
theorem Spaced.resolved (h : Spaced values) (hvalues : ∀ v ∈ values, inUnit v = true) (q : ℚ) : Resolved values q := by
  rcases exists_largest_below values q with hall | ⟨a, ha, -, hsplit⟩
  · exact ⟨0, fun v hv => iff_of_true (micro_zero ▸ (inUnit_iff.mp (hvalues v hv)).1) (hall v hv)⟩
  · have hover : a < micro 1000001 := by
      have hdown := (micro_error (n := 1000001) (by omega)).1
      norm_num at hdown
      linarith [(inUnit_iff.mp (hvalues a ha)).2]
    -- the first decimal number above the largest value below the threshold
    obtain ⟨k, hk, hfirst⟩ : ∃ k, a < micro k ∧ ∀ n, a < micro n → k ≤ n := by
      classical
      have hexists : ∃ k, a < micro k := ⟨_, hover⟩
      exact ⟨Nat.find hexists, Nat.find_spec hexists, fun n hn => Nat.find_min' hexists hn⟩
    refine ⟨k, fun v hv => ?_⟩
    rw [← hsplit v hv]
    refine ⟨hk.trans_le, fun hav => ?_⟩
    rcases h a ha v hv hav with ⟨n, rfl⟩ | hgap
    · exact micro_mono (hfirst n hav)
    · cases k with
      | zero => exact micro_zero ▸ (inUnit_iff.mp (hvalues v hv)).1
      | succ j =>
          have hj : micro j ≤ a := not_lt.mp fun hno => absurd (hfirst j hno) (Nat.not_succ_le_self j)
          have hbound := hfirst _ hover
          have hdown := (micro_error (n := j) (by omega)).1
          have hup := (micro_error (n := j + 1) (by omega)).2
          push_cast at hup
          norm_num at hup hdown hgap
          linarith

/-! ## The grid -/

def topValues (observations : List GateObservation) : List ℚ := observations.filterMap (·.topScore)

def marginValues (observations : List GateObservation) : List ℚ := observations.filterMap (·.scoreMargin)

def exactValues (observations : List GateObservation) : List ℚ := observations.filterMap (·.bestExactScore)

/-- The largest evidence count that the grid has. -/
def evidenceBound (observations : List GateObservation) : ℕ :=
  max 1 (min 12 ((observations.map (·.evidenceCount)).foldl max 0))

theorem mem_thresholdGrid : t ∈ thresholdGrid observations ↔
    t.topScoreMin ∈ scoreCandidates (topValues observations) ∧
      t.scoreMarginMin ∈ scoreCandidates (marginValues observations) ∧
      t.exactScoreMin ∈ scoreCandidates (exactValues observations) ∧ 1 ≤ t.minEvidence ∧
        t.minEvidence ≤ evidenceBound observations := by
  simp only [thresholdGrid, List.mem_flatMap, List.mem_map, List.mem_range]
  constructor
  · rintro ⟨top, htop, margin, hmargin, exact, hexact, -, ⟨k, hk, rfl⟩, rfl⟩
    exact ⟨htop, hmargin, hexact, Nat.le_add_left 1 k, hk⟩
  · rintro ⟨htop, hmargin, hexact, hpos, hle⟩
    exact ⟨_, htop, _, hmargin, _, hexact, _, ⟨t.minEvidence - 1, by unfold evidenceBound at hle; omega,
      Nat.sub_add_cancel hpos⟩, rfl⟩

theorem validate_eq_ok_iff : t.validate = .ok t ↔ inUnit t.topScoreMin = true ∧ inUnit t.scoreMarginMin = true ∧
    inUnit t.exactScoreMin = true ∧ 1 ≤ t.minEvidence ∧ t.minEvidence ≤ 100 := by
  rw [CalibratedThresholds.validate]
  split
  · rename_i h
    exact iff_of_true rfl h
  · rename_i h
    exact iff_of_false nofun h

def Valid (observations : List GateObservation) : Prop := ∀ o ∈ observations, o.validate = .ok o

theorem Valid.scores (h : Valid observations) : ∀ o ∈ observations,
    o.topScore.all inUnit ∧ o.scoreMargin.all inUnit ∧ o.bestExactScore.all inUnit := by
  intro o ho
  have hv := h o ho
  rw [GateObservation.validate] at hv
  split at hv
  · rename_i hall
    exact ⟨hall.1, hall.2.2.1, hall.2.2.2⟩
  · cases hv

theorem Valid.inUnit (h : Valid observations) :
    (∀ v ∈ topValues observations, inUnit v = true) ∧ (∀ v ∈ marginValues observations, inUnit v = true) ∧
      ∀ v ∈ exactValues observations, inUnit v = true := by
  have hall : ∀ (f : GateObservation → Option ℚ), (∀ o ∈ observations, (f o).all Rag.inUnit) →
      ∀ v ∈ observations.filterMap f, Rag.inUnit v = true := by
    intro f hf v hv
    obtain ⟨o, ho, hv⟩ := List.mem_filterMap.mp hv
    have hall := hf o ho
    rw [hv] at hall
    exact hall
  exact ⟨hall _ fun o ho => (h.scores o ho).1, hall _ fun o ho => (h.scores o ho).2.1,
    hall _ fun o ho => (h.scores o ho).2.2⟩

theorem validate_of_mem_thresholdGrid (h : Valid observations) (ht : t ∈ thresholdGrid observations) :
    t.validate = .ok t := by
  obtain ⟨htop, hmargin, hexact⟩ := h.inUnit
  obtain ⟨ht₁, ht₂, ht₃, hpos, hle⟩ := mem_thresholdGrid.mp ht
  rw [validate_eq_ok_iff]
  refine ⟨scoreCandidates_inUnit htop ht₁, scoreCandidates_inUnit hmargin ht₂, scoreCandidates_inUnit hexact ht₃, hpos, ?_⟩
  unfold evidenceBound at hle
  omega

/-- Some thresholds of the grid stand for `t`. -/
structure Gridlike (observations : List GateObservation) (t : CalibratedThresholds) : Prop where
  top : Resolved (topValues observations) t.topScoreMin
  margin : Resolved (marginValues observations) t.scoreMarginMin
  exact : Resolved (exactValues observations) t.exactScoreMin
  evidence : t.minEvidence ≤ evidenceBound observations ∨
    ∀ o ∈ observations, o.evidenceCount < t.minEvidence ∧ ¬(o.topScore = some 1 ∧ o.scoreMargin = some 1)

theorem le_foldl_max {l : List ℕ} {a b : ℕ} (h : a ∈ l ∨ a ≤ b) : a ≤ l.foldl max b := by
  induction l generalizing b with
  | nil => exact h.resolve_left List.not_mem_nil
  | cons c l ih =>
      refine ih ?_
      rcases h with h | h
      · rcases List.mem_cons.mp h with rfl | h
        · exact Or.inr (le_max_right _ _)
        · exact Or.inl h
      · exact Or.inr (le_max_of_le_left h)

/-- The grid can tell the observations apart. -/
structure Separable (observations : List GateObservation) : Prop where
  top : Spaced (topValues observations)
  margin : Spaced (marginValues observations)
  exact : Spaced (exactValues observations)
  evidence : ∀ o ∈ observations, o.evidenceCount ≤ 12 ∧ ¬(o.topScore = some 1 ∧ o.scoreMargin = some 1)

/-- Then it stands for all thresholds. -/
theorem Separable.gridlike (hsep : Separable observations) (h : Valid observations) (t : CalibratedThresholds) :
    Gridlike observations t := by
  obtain ⟨htop, hmargin, hexact⟩ := h.inUnit
  refine ⟨hsep.top.resolved htop _, hsep.margin.resolved hmargin _, hsep.exact.resolved hexact _, ?_⟩
  by_cases hle : t.minEvidence ≤ evidenceBound observations
  · exact Or.inl hle
  · refine Or.inr fun o ho => ⟨?_, (hsep.evidence o ho).2⟩
    have hmax : o.evidenceCount ≤ (observations.map (·.evidenceCount)).foldl max 0 :=
      le_foldl_max (Or.inl (List.mem_map_of_mem ho))
    have hbound := (hsep.evidence o ho).1
    unfold evidenceBound at hle
    omega

theorem any_congr {f : GateObservation → Option ℚ} {c : ℚ} (h : ∀ v ∈ observations.filterMap f, c ≤ v ↔ q ≤ v)
    {o : GateObservation} (ho : o ∈ observations) : (f o).any (c ≤ ·) = (f o).any (q ≤ ·) := by
  cases hf : f o with
  | none => rfl
  | some v => exact decide_eq_decide.mpr (h v (List.mem_filterMap.mpr ⟨o, ho, hf⟩))

theorem any_one_le {o : Option ℚ} (h : o.all inUnit = true) (hone : o.any (1 ≤ ·) = true) : o = some 1 := by
  cases o with
  | none => cases hone
  | some v => exact congrArg some (le_antisymm (inUnit_iff.mp h).2 (of_decide_eq_true hone))

theorem exists_thresholdGrid (h : Valid observations) (ht : t.validate = .ok t) (hgrid : Gridlike observations t) :
    ∃ g ∈ thresholdGrid observations, ∀ o ∈ observations, gateAnswer o g = gateAnswer o t := by
  obtain ⟨hu₁, hu₂, hu₃, hpos, -⟩ := validate_eq_ok_iff.mp ht
  obtain ⟨htop, hmargin, hexact⟩ := h.inUnit
  obtain ⟨top, ht₁, htop'⟩ := exists_scoreCandidate htop hu₁ hgrid.top
  obtain ⟨margin, ht₂, hmargin'⟩ := exists_scoreCandidate hmargin hu₂ hgrid.margin
  obtain ⟨exact, ht₃, hexact'⟩ := exists_scoreCandidate hexact hu₃ hgrid.exact
  rcases hgrid.evidence with hle | hnone
  · refine ⟨⟨top, margin, exact, t.minEvidence⟩, mem_thresholdGrid.mpr ⟨ht₁, ht₂, ht₃, hpos, hle⟩, fun o ho => ?_⟩
    rw [gateAnswer_eq, gateAnswer_eq, any_congr (f := (·.topScore)) htop' ho, any_congr (f := (·.scoreMargin)) hmargin' ho,
      any_congr (f := (·.bestExactScore)) hexact' ho]
  · -- no observation has so much evidence, nor does one reach both of the highest scores
    refine ⟨⟨1, 1, exact, 1⟩, mem_thresholdGrid.mpr ⟨mem_scoreCandidates.mpr (Or.inr (Or.inl rfl)),
      mem_scoreCandidates.mpr (Or.inr (Or.inl rfl)), ht₃, le_refl 1, le_max_left _ _⟩, fun o ho => ?_⟩
    obtain ⟨hcount, hperfect⟩ := hnone o ho
    have hpath : ¬(o.topScore.any (1 ≤ ·) = true ∧ o.scoreMargin.any (1 ≤ ·) = true) := fun ⟨h₁, h₂⟩ =>
      hperfect ⟨any_one_le (h.scores o ho).1 h₁, any_one_le (h.scores o ho).2.1 h₂⟩
    rw [gateAnswer_eq, gateAnswer_eq, any_congr (f := (·.bestExactScore)) hexact' ho, decide_eq_false (not_le.mpr hcount),
      Bool.and_assoc, Bool.eq_false_iff.mpr (mt (Bool.and_eq_true _ _).mp hpath), Bool.and_false]
    rfl

theorem classificationMetrics_congr (h : ∀ o ∈ observations, gateAnswer o t = gateAnswer o t') :
    classificationMetrics observations t = classificationMetrics observations t' := by
  have hloop : observations.foldl (countObservation t) ⟨0, 0, 0, 0⟩ =
      observations.foldl (countObservation t') ⟨0, 0, 0, 0⟩ := by
    refine List.foldl_ext _ _ _ fun n o ho => ?_
    rw [countObservation, countObservation, h o ho]
  rw [classificationMetrics, classificationMetrics, hloop]

/-! ## The choice -/

variable {precisionTarget recallTarget : ℚ}

/-- What a classification is worth. -/
abbrev Quality := ℚ ×ₗ ℚ ×ₗ ℚ ×ₗ ℚ

/-- Whether the targets are met, then F1, then precision, then recall. -/
def quality (precisionTarget recallTarget : ℚ) (m : ClassificationMetrics) : Quality :=
  toLex (if targetsMet precisionTarget recallTarget m then 1 else 0, toLex (m.f1, toLex (m.precision, m.«recall»)))

/-- The sweep compares what the classifications are worth before it compares the thresholds. -/
theorem quality_le_of_sweepScore_le {m m' : ClassificationMetrics}
    (h : sweepScore precisionTarget recallTarget t m ≤ sweepScore precisionTarget recallTarget t' m') :
    quality precisionTarget recallTarget m ≤ quality precisionTarget recallTarget m' := by
  simp only [sweepScore, quality, Prod.Lex.toLex_le_toLex] at h ⊢
  refine h.imp_right (And.imp_right (Or.imp_right (And.imp_right (Or.imp_right (And.imp_right ?_)))))
  rintro (hlt | ⟨heq, -⟩)
  · exact hlt.le
  · exact heq.le

def rawMetrics (observations : List GateObservation) (t : CalibratedThresholds) : RawMetrics :=
  rawClassification observations t.topScoreMin t.scoreMarginMin t.exactScoreMin t.minEvidence

/-- The best so far is one of the thresholds, and none of them has a higher score. -/
def Leads (precisionTarget recallTarget : ℚ) (observations : List GateObservation) (seen : List CalibratedThresholds)
    (best : Best) : Prop :=
  ∃ t ∈ seen, best = some (sweepScore precisionTarget recallTarget t (rawMetrics observations t).metrics, t,
      rawMetrics observations t) ∧
    ∀ g ∈ seen, sweepScore precisionTarget recallTarget g (rawMetrics observations g).metrics ≤
      sweepScore precisionTarget recallTarget t (rawMetrics observations t).metrics

theorem Leads.step {seen : List CalibratedThresholds} {best : Best}
    (h : Leads precisionTarget recallTarget observations seen best) (g : CalibratedThresholds) :
    Leads precisionTarget recallTarget observations (seen ++ [g]) (sweepOne precisionTarget recallTarget observations best g) := by
  obtain ⟨t, ht, rfl, hmax⟩ := h
  rw [sweepOne]
  split
  · rename_i hlt
    have hlt : sweepScore precisionTarget recallTarget t (rawMetrics observations t).metrics <
        sweepScore precisionTarget recallTarget g (rawMetrics observations g).metrics := of_decide_eq_true hlt
    refine ⟨g, by simp, rfl, fun x hx => ?_⟩
    rcases List.mem_append.mp hx with hx | hx
    · exact (hmax x hx).trans hlt.le
    · rw [List.mem_singleton.mp hx]
  · rename_i hlt
    have hle : sweepScore precisionTarget recallTarget g (rawMetrics observations g).metrics ≤
        sweepScore precisionTarget recallTarget t (rawMetrics observations t).metrics :=
      not_lt.mp fun h => hlt (decide_eq_true h)
    refine ⟨t, List.mem_append_left _ ht, rfl, fun x hx => ?_⟩
    rcases List.mem_append.mp hx with hx | hx
    · exact hmax x hx
    · rw [List.mem_singleton.mp hx]
      exact hle

theorem Leads.run {seen : List CalibratedThresholds} {best : Best}
    (h : Leads precisionTarget recallTarget observations seen best) (grid : List CalibratedThresholds) :
    Leads precisionTarget recallTarget observations (seen ++ grid)
      (grid.foldl (sweepOne precisionTarget recallTarget observations) best) := by
  induction grid generalizing seen best with
  | nil => exact (List.append_nil seen).symm ▸ h
  | cons g grid ih =>
      have hrun := ih (h.step g)
      rw [List.append_assoc] at hrun
      exact hrun

/-- The sweep chooses from the grid, and nothing of the grid is better. -/
theorem sweepThresholds_leads (precisionTarget recallTarget : ℚ) (h : Valid observations)
    (hexpected : observations.any (·.expectedAnswer) = true) :
    ∃ e, sweepThresholds precisionTarget recallTarget observations = .ok e ∧ e.thresholds ∈ thresholdGrid observations ∧
      e.targetsMet = targetsMet precisionTarget recallTarget e.metrics ∧
      classificationMetrics observations e.thresholds = .ok e.metrics ∧
      ∀ g ∈ thresholdGrid observations, quality precisionTarget recallTarget (rawMetrics observations g).metrics ≤
        quality precisionTarget recallTarget e.metrics := by
  have hguard : ¬(observations = [] ∨ ¬observations.any (·.expectedAnswer) = true) := by
    rintro (rfl | hno)
    · cases hexpected
    · exact hno hexpected
  -- the least thresholds are in every grid
  have hmem : (⟨0, 0, 0, 1⟩ : CalibratedThresholds) ∈ thresholdGrid observations :=
    mem_thresholdGrid.mpr ⟨mem_scoreCandidates.mpr (Or.inl rfl), mem_scoreCandidates.mpr (Or.inl rfl),
      mem_scoreCandidates.mpr (Or.inl rfl), le_refl 1, le_max_left _ _⟩
  obtain ⟨first, rest, hgrid⟩ := List.exists_cons_of_ne_nil (List.ne_nil_of_mem hmem)
  have hfirst : Leads precisionTarget recallTarget observations [first]
      (sweepOne precisionTarget recallTarget observations none first) :=
    ⟨first, List.mem_singleton_self _, rfl, fun g hg => by rw [List.mem_singleton.mp hg]⟩
  obtain ⟨t, ht, hbest, hmax⟩ := hfirst.run rest
  rw [List.singleton_append, ← hgrid] at ht hmax
  have hmetrics := classificationMetrics_eq observations t
  have hvalid : (rawMetrics observations t).metrics.validate = .ok (rawMetrics observations t).metrics :=
    validate_counted _
  refine ⟨⟨t, (rawMetrics observations t).metrics, precisionTarget, recallTarget,
    targetsMet precisionTarget recallTarget (rawMetrics observations t).metrics, (thresholdGrid observations).length,
    observations⟩, ?_, ht, rfl, hmetrics, fun g hg => quality_le_of_sweepScore_le (hmax g hg)⟩
  have hfold : (thresholdGrid observations).foldl (sweepOne precisionTarget recallTarget observations) none =
      some (sweepScore precisionTarget recallTarget t (rawMetrics observations t).metrics, t,
        rawMetrics observations t) := by
    rw [hgrid]
    exact hbest
  rw [sweepThresholds, if_neg hguard]
  simp only [hfold, validate_of_mem_thresholdGrid h ht, hvalid, bind, Except.bind, pure, Except.pure]

end Etoeragcb.Evaluation
