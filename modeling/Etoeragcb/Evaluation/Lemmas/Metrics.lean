import Etoeragcb.Evaluation.Metrics
import Etoeragcb.Lib.Majorize

/-!
# The discounted gain of a ranking is at most the ideal one
-/

namespace Etoeragcb.Evaluation

open Lib Finset

variable {relevance : List (Text × ℕ)} {ranked : List Text} {grades : List ℕ} {limit n : ℕ}

/-! ## Gains and discounts -/

theorem gain_zero : gain 0 = 0 := by simp [gain]

theorem gain_strictMono : StrictMono gain := fun _ _ h =>
  sub_lt_sub_right (pow_lt_pow_right₀ one_lt_two h) 1

theorem gain_nonneg (grade : ℕ) : 0 ≤ gain grade := gain_zero ▸ gain_strictMono.monotone (Nat.zero_le grade)

theorem logb_pos (i : ℕ) : 0 < Real.logb 2 (i + 2) :=
  Real.logb_pos one_lt_two (by have := Nat.cast_nonneg (α := ℝ) i; linarith)

theorem discount_pos (i : ℕ) : 0 < discount i := one_div_pos.mpr (logb_pos i)

theorem discount_strictAnti : StrictAnti discount := by
  refine strictAnti_nat_of_succ_lt fun i => one_div_lt_one_div_of_lt (logb_pos i) ?_
  have hi := Nat.cast_nonneg (α := ℝ) i
  refine Real.logb_lt_logb one_lt_two (by linarith) ?_
  push_cast
  linarith

/-! ## The sum over positions -/

def gradeAt (grades : List ℕ) (i : ℕ) : ℕ := grades.getD i 0

theorem dcg_eq (h : grades.length ≤ n) : Metrics.dcg grades = ∑ i ∈ range n, discount i * gain (gradeAt grades i) := by
  have hsum : ∀ (grades : List ℕ) (m n : ℕ), grades.length ≤ n →
      ((grades.zipIdx (m + 1)).map fun x => discountedGain x.1 x.2).sum =
        ∑ i ∈ range n, discount (m + i) * gain (gradeAt grades i) := by
    intro grades
    induction grades with
    | nil =>
        intro m n _
        simp [gradeAt, gain_zero]
    | cons grade grades ih =>
        intro m n h
        obtain ⟨n, rfl⟩ := Nat.exists_eq_succ_of_ne_zero (Nat.ne_zero_of_lt (Nat.lt_of_lt_of_le (Nat.succ_pos _) h))
        rw [List.zipIdx_cons, List.map_cons, List.sum_cons, ih (m + 1) n (Nat.le_of_succ_le_succ h), sum_range_succ', add_comm]
        congr 1
        · refine sum_congr rfl fun i _ => ?_
          rw [Nat.add_right_comm m 1 i]
          rfl
        · simp only [discountedGain, discount, gradeAt, List.getD_cons_zero, gain, Nat.add_zero]
          push_cast
          rw [one_div_mul_eq_div, add_assoc, one_add_one_eq_two]
  simpa [Metrics.dcg] using hsum grades 0 n h

theorem sum_gain (grades : List ℕ) (j : ℕ) : ∑ i ∈ range j, gain (gradeAt grades i) = ((grades.take j).map gain).sum := by
  induction grades generalizing j with
  | nil => simp [gradeAt, gain_zero]
  | cons grade grades ih =>
      cases j with
      | zero => rfl
      | succ j =>
          rw [sum_range_succ', List.take_succ_cons, List.map_cons, List.sum_cons, add_comm, ← ih]
          rfl

/-! ## The observed grades and the ideal ones -/

/-- `relevance.get(candidate_id, 0)` -/
def gradeOf (relevance : List (Text × ℕ)) (candidateId : Text) : ℕ := (Dict.get? relevance candidateId).getD 0

def observed (relevance : List (Text × ℕ)) (ranked : List Text) (limit : ℕ) : List ℕ :=
  (ranked.take limit).map (gradeOf relevance)

def ideal (relevance : List (Text × ℕ)) (limit : ℕ) : List ℕ := (sortedDown (relevance.map Prod.snd)).take limit

theorem sortedDown_perm (values : List ℕ) : (sortedDown values).Perm values := List.perm_insertionSort _ values

theorem sortedDown_pairwise (values : List ℕ) : (sortedDown values).Pairwise (· ≥ ·) :=
  List.pairwise_insertionSort _ values

theorem sum_filter {α : Type} {f : α → ℝ} {p : α → Bool} {l : List α} (h : ∀ x ∈ l, p x = false → f x = 0) :
    (l.map f).sum = ((l.filter p).map f).sum := by
  induction l with
  | nil => rfl
  | cons x l ih =>
      have hrest := ih fun y hy => h y (List.mem_cons_of_mem x hy)
      cases hp : p x with
      | false => simp [hp, hrest, h x List.mem_cons_self hp]
      | true => simp [hp, hrest]

theorem gradeOf_eq_zero {candidateId : Text} (h : candidateId ∉ relevance.map Prod.fst) :
    gradeOf relevance candidateId = 0 := by
  have hnone : Dict.get? relevance candidateId = none := by
    rw [Dict.get?, Option.map_eq_none_iff, List.find?_eq_none]
    intro x hx he
    exact h (List.mem_map.mpr ⟨x, hx, of_decide_eq_true he⟩)
  rw [gradeOf, hnone]
  rfl

theorem map_gradeOf (hkeys : (relevance.map Prod.fst).Nodup) :
    (relevance.map Prod.fst).map (gradeOf relevance) = relevance.map Prod.snd := by
  have hdict := congrArg (List.map Prod.snd) (Dict.eq_map_keys hkeys 0)
  rw [List.map_map] at hdict
  exact hdict.symm

/-- The first grades that are observed do not gain more than as many largest ones. -/
theorem sum_observed_le (hkeys : (relevance.map Prod.fst).Nodup) (hranked : ranked.Nodup) {j : ℕ} (hj : j ≤ limit) :
    ∑ i ∈ range j, gain (gradeAt (observed relevance ranked limit) i) ≤
      ∑ i ∈ range j, gain (gradeAt (ideal relevance limit) i) := by
  have hobserved : (observed relevance ranked limit).take j = (ranked.take j).map (gradeOf relevance) := by
    rw [observed, ← List.map_take, List.take_take, Nat.min_eq_left hj]
  have hideal : (ideal relevance limit).take j = (sortedDown (relevance.map Prod.snd)).take j := by
    rw [ideal, List.take_take, Nat.min_eq_left hj]
  have hfilter := sum_filter (f := gain ∘ gradeOf relevance) (p := (· ∈ relevance.map Prod.fst)) (l := ranked.take j)
    fun x _ hx => by
      rw [Function.comp_apply, gradeOf_eq_zero (of_decide_eq_false hx), gain_zero]
  have hsub : (((ranked.take j).filter (· ∈ relevance.map Prod.fst)).map (gain ∘ gradeOf relevance)).Subperm
      ((sortedDown (relevance.map Prod.snd)).map gain) := by
    have hids : ((ranked.take j).filter (· ∈ relevance.map Prod.fst)).Subperm (relevance.map Prod.fst) :=
      List.subperm_of_subset ((hranked.sublist (List.take_sublist _ _)).filter _) fun x hx =>
        of_decide_eq_true (List.mem_filter.mp hx).2
    obtain ⟨ids, hperm, hsublist⟩ := hids
    have hvalues : (relevance.map Prod.fst).map (gain ∘ gradeOf relevance) = (relevance.map Prod.snd).map gain := by
      simp only [← map_gradeOf hkeys, List.map_map, Function.comp_def]
    have hids' : (ids.map (gain ∘ gradeOf relevance)).Subperm ((relevance.map Prod.snd).map gain) :=
      hvalues ▸ (hsublist.map _).subperm
    exact ((hperm.map _).symm.subperm.trans hids').trans ((sortedDown_perm _).map gain).symm.subperm
  rw [sum_gain, sum_gain, hobserved, hideal, List.map_map, hfilter, List.map_take]
  refine sum_le_sum_take hsub ?_ ?_ ?_
  · exact List.pairwise_map.mpr ((sortedDown_pairwise _).imp fun h => gain_strictMono.monotone h)
  · intro x hx
    obtain ⟨grade, -, rfl⟩ := List.mem_map.mp hx
    exact gain_nonneg grade
  · rw [List.length_map]
    exact (List.length_filter_le _ _).trans (List.length_take_le _ _)

/-! ## The quotient -/

theorem length_observed_le : (observed relevance ranked limit).length ≤ limit := by
  rw [observed, List.length_map]
  exact List.length_take_le _ _

theorem length_ideal_le : (ideal relevance limit).length ≤ limit := List.length_take_le _ _

theorem dcg_nonneg (grades : List ℕ) : 0 ≤ Metrics.dcg grades := by
  rw [dcg_eq (le_refl grades.length)]
  exact sum_nonneg fun i _ => mul_nonneg (discount_pos i).le (gain_nonneg _)

theorem dcg_ideal_pos (hpositive : ∃ x ∈ relevance, 0 < x.2) (hlimit : 1 ≤ limit) :
    0 < Metrics.dcg (ideal relevance limit) := by
  obtain ⟨x, hx, hpos⟩ := hpositive
  have hmem : x.2 ∈ sortedDown (relevance.map Prod.snd) := (sortedDown_perm _).mem_iff.mpr (List.mem_map_of_mem hx)
  have hfirst : 0 < gradeAt (ideal relevance limit) 0 := by
    have hsorted := sortedDown_pairwise (relevance.map Prod.snd)
    rw [ideal, gradeAt]
    obtain ⟨limit, rfl⟩ := Nat.exists_eq_succ_of_ne_zero (Nat.ne_zero_of_lt hlimit)
    cases hvalues : sortedDown (relevance.map Prod.snd) with
    | nil =>
        rw [hvalues] at hmem
        cases hmem
    | cons grade rest =>
        rw [hvalues] at hmem hsorted
        rw [List.take_succ_cons, List.getD_cons_zero]
        rcases List.mem_cons.mp hmem with rfl | hmem
        · exact hpos
        · exact lt_of_lt_of_le hpos ((List.pairwise_cons.mp hsorted).1 _ hmem)
  rw [dcg_eq length_ideal_le]
  refine sum_pos' (fun i _ => mul_nonneg (discount_pos i).le (gain_nonneg _)) ⟨0, mem_range.mpr hlimit, ?_⟩
  exact mul_pos (discount_pos 0) (gain_zero ▸ gain_strictMono hfirst)

variable (ranked) in
theorem ndcg_eq (hpositive : ∃ x ∈ relevance, 0 < x.2) (hlimit : 1 ≤ limit) : Metrics.ndcg relevance ranked limit =
    Metrics.dcg (observed relevance ranked limit) / Metrics.dcg (ideal relevance limit) :=
  if_pos (dcg_ideal_pos hpositive hlimit).ne'

/-- Padded with zeros, two lists are equal if and only if they agree at every position. -/
theorem rightpad_eq_iff {grades grades' : List ℕ} (h : grades.length ≤ n) (h' : grades'.length ≤ n) :
    grades.rightpad n 0 = grades'.rightpad n 0 ↔ ∀ i < n, gradeAt grades i = gradeAt grades' i := by
  have hget : ∀ {grades : List ℕ}, grades.length ≤ n → ∀ i < n, (grades.rightpad n 0)[i]? = some (gradeAt grades i) := by
    intro grades h i hi
    rw [List.rightpad, List.getElem?_append, gradeAt, List.getD_eq_getElem?_getD]
    split
    · rename_i hlt
      rw [List.getElem?_eq_getElem hlt]
      rfl
    · rename_i hle
      rw [List.getElem?_eq_none (Nat.le_of_not_lt hle), List.getElem?_replicate, if_pos (by omega)]
      rfl
  have hlength : ∀ {grades : List ℕ}, grades.length ≤ n → (grades.rightpad n 0).length = n := fun h => by
    rw [List.length_rightpad, Nat.max_eq_left h]
  constructor
  · intro heq i hi
    exact Option.some_inj.mp ((hget h i hi).symm.trans (heq ▸ hget h' i hi))
  · intro hall
    refine List.ext_getElem? fun i => ?_
    by_cases hi : i < n
    · rw [hget h i hi, hget h' i hi, hall i hi]
    · rw [List.getElem?_eq_none (by rw [hlength h]; omega), List.getElem?_eq_none (by rw [hlength h']; omega)]

variable (limit) in
/-- The gain of a ranking is the ideal one if and only if it shows the ideal grades. -/
theorem dcg_observed (hkeys : (relevance.map Prod.fst).Nodup) (hranked : ranked.Nodup) :
    Metrics.dcg (observed relevance ranked limit) ≤ Metrics.dcg (ideal relevance limit) ∧
      (Metrics.dcg (observed relevance ranked limit) = Metrics.dcg (ideal relevance limit) ↔
        (observed relevance ranked limit).rightpad limit 0 = (ideal relevance limit).rightpad limit 0) := by
  have hle : ∀ j ≤ limit, ∑ i ∈ range j, gain (gradeAt (observed relevance ranked limit) i) ≤
      ∑ i ∈ range j, gain (gradeAt (ideal relevance limit) i) := fun j hj => sum_observed_le hkeys hranked hj
  rw [dcg_eq length_observed_le, dcg_eq length_ideal_le]
  refine ⟨weighted_sum_le discount_strictAnti discount_pos hle, ?_⟩
  rw [weighted_sum_eq_iff discount_strictAnti discount_pos hle, rightpad_eq_iff length_observed_le length_ideal_le]
  simp only [gain_strictMono.injective.eq_iff]

/-! ## The mean -/

theorem mean_mem_unit {values : List ℝ} (h : ∀ x ∈ values, 0 ≤ x ∧ x ≤ 1) : 0 ≤ mean values ∧ mean values ≤ 1 := by
  rw [mean]
  split
  · exact ⟨le_refl 0, zero_le_one⟩
  · rename_i hne
    have hlength : (0 : ℝ) < values.length := Nat.cast_pos.mpr (List.length_pos_iff.mpr hne)
    have hsum : values.sum ≤ values.length := by
      have hbound := List.sum_le_card_nsmul values 1 fun x hx => (h x hx).2
      rwa [nsmul_eq_mul, mul_one] at hbound
    exact ⟨div_nonneg (List.sum_nonneg fun x hx => (h x hx).1) hlength.le, (div_le_one hlength).mpr hsum⟩

theorem mem_of_rankingByQuery {rankings : List QueryRanking} {queryId : Text} {ranking : QueryRanking}
    (h : Dict.get? (rankingByQuery rankings) queryId = some ranking) : ranking ∈ rankings := by
  have hall : ∀ (items : List QueryRanking) (d : List (Text × QueryRanking)),
      Dict.get? (items.foldl (fun d item => Dict.set d item.queryId item) d) queryId = some ranking →
        ranking ∈ items ∨ Dict.get? d queryId = some ranking := by
    intro items
    induction items with
    | nil => exact fun _ => Or.inr
    | cons item items ih =>
        intro d hd
        rcases ih _ hd with hitem | hd
        · exact Or.inl (List.mem_cons_of_mem _ hitem)
        · by_cases hid : queryId = item.queryId
          · subst hid
            rw [Dict.get?_set_self] at hd
            exact Or.inl (Option.some_inj.mp hd ▸ List.mem_cons_self)
          · rw [Dict.get?_set hid] at hd
            exact Or.inr hd
  rcases hall rankings [] h with hmem | hnone
  · exact hmem
  · cases hnone

end Etoeragcb.Evaluation
