import Mathlib.Algebra.BigOperators.Module
import Mathlib.Algebra.Order.BigOperators.Group.Finset
import Mathlib.Data.List.Perm.Subperm
import Mathlib.Data.Real.Basic
import Mathlib.Tactic.Linarith
import Mathlib.Tactic.Positivity
import Mathlib.Tactic.Ring

/-!
# Weighted sums

Sequences with smaller partial sums have a smaller sum under decreasing weights, and a list of some entries of a decreasing
list has a smaller sum than its first entries.
-/

namespace Etoeragcb.Lib

open Finset

/-! ## Decreasing weights -/

section Weights

variable {d a b : ℕ → ℝ} {n : ℕ}

theorem weighted_sub (d a b : ℕ → ℝ) (n : ℕ) : ∑ i ∈ range (n + 1), d i * b i - ∑ i ∈ range (n + 1), d i * a i =
    d n * ∑ i ∈ range (n + 1), (b i - a i) + ∑ i ∈ range n, (d i - d (i + 1)) * ∑ j ∈ range (i + 1), (b j - a j) := by
  have hparts := sum_range_by_parts d (fun i => b i - a i) (n + 1)
  simp only [smul_eq_mul, Nat.add_sub_cancel] at hparts
  have hneg : ∑ i ∈ range n, (d i - d (i + 1)) * ∑ j ∈ range (i + 1), (b j - a j) =
      -∑ i ∈ range n, (d (i + 1) - d i) * ∑ j ∈ range (i + 1), (b j - a j) := by
    rw [← sum_neg_distrib]
    exact sum_congr rfl fun i _ => by ring
  rw [← sum_sub_distrib, hneg, ← sub_eq_add_neg, ← hparts]
  exact sum_congr rfl fun i _ => by ring

variable (hd : StrictAnti d) (hpos : ∀ i, 0 < d i) (hle : ∀ j ≤ n, ∑ i ∈ range j, a i ≤ ∑ i ∈ range j, b i)

include hd hpos hle

theorem weighted_sum_le : ∑ i ∈ range n, d i * a i ≤ ∑ i ∈ range n, d i * b i := by
  have hpart : ∀ j ≤ n, 0 ≤ ∑ i ∈ range j, (b i - a i) := fun j hj => by
    rw [sum_sub_distrib]
    exact sub_nonneg.mpr (hle j hj)
  cases n with
  | zero => exact le_refl _
  | succ n =>
      have hsub := weighted_sub d a b n
      have hlast : 0 ≤ d n * ∑ i ∈ range (n + 1), (b i - a i) := mul_nonneg (hpos n).le (hpart _ le_rfl)
      have hrest : 0 ≤ ∑ i ∈ range n, (d i - d (i + 1)) * ∑ j ∈ range (i + 1), (b j - a j) :=
        sum_nonneg fun i hi => mul_nonneg (sub_nonneg.mpr (hd i.lt_succ_self).le)
          (hpart _ (Nat.succ_le_succ (mem_range.mp hi).le))
      linarith

theorem weighted_sum_eq_iff : ∑ i ∈ range n, d i * a i = ∑ i ∈ range n, d i * b i ↔ ∀ i < n, a i = b i := by
  have hpart : ∀ j ≤ n, 0 ≤ ∑ i ∈ range j, (b i - a i) := fun j hj => by
    rw [sum_sub_distrib]
    exact sub_nonneg.mpr (hle j hj)
  constructor
  · intro heq
    cases n with
    | zero => exact fun i hi => absurd hi i.not_lt_zero
    | succ n =>
        have hsub := weighted_sub d a b n
        have hterm : ∀ i ∈ range n, 0 ≤ (d i - d (i + 1)) * ∑ j ∈ range (i + 1), (b j - a j) := fun i hi =>
          mul_nonneg (sub_nonneg.mpr (hd i.lt_succ_self).le) (hpart _ (Nat.succ_le_succ (mem_range.mp hi).le))
        have hlast : 0 ≤ d n * ∑ i ∈ range (n + 1), (b i - a i) := mul_nonneg (hpos n).le (hpart _ le_rfl)
        have hrest := sum_nonneg hterm
        -- Both parts of the difference are zero, and with them every partial sum.
        have hzero : ∀ j ≤ n + 1, ∑ i ∈ range j, (b i - a i) = 0 := by
          intro j hj
          rcases Nat.eq_zero_or_pos j with rfl | hj0
          · rfl
          · obtain ⟨i, rfl⟩ := Nat.exists_eq_succ_of_ne_zero hj0.ne'
            rcases Nat.lt_or_eq_of_le (Nat.le_of_succ_le_succ hj) with hi | rfl
            · have hi0 := (sum_eq_zero_iff_of_nonneg hterm).mp (by linarith) i (mem_range.mpr hi)
              exact (mul_eq_zero.mp hi0).resolve_left (sub_pos.mpr (hd i.lt_succ_self)).ne'
            · exact (mul_eq_zero.mp (by linarith : d i * ∑ j ∈ range (i + 1), (b j - a j) = 0)).resolve_left (hpos i).ne'
        intro i hi
        have hnext := hzero (i + 1) hi
        rw [sum_range_succ, hzero i hi.le, zero_add] at hnext
        linarith
  · exact fun h => sum_congr rfl fun i hi => by rw [h i (mem_range.mp hi)]

end Weights

/-! ## The first entries of a decreasing list -/

theorem sum_le_sum_take_of_sublist {l s : List ℝ} (hs : s.Sublist l) (hsorted : l.Pairwise (· ≥ ·))
    (hnonneg : ∀ x ∈ l, 0 ≤ x)
    {n : ℕ} (hn : s.length ≤ n) : s.sum ≤ (l.take n).sum := by
  induction hs generalizing n with
  | slnil => simp
  | @cons s l x _ ih =>
      obtain ⟨hhead, hsorted⟩ := List.pairwise_cons.mp hsorted
      have hrest := ih hsorted (fun y hy => hnonneg y (List.mem_cons_of_mem x hy)) hn
      cases n with
      | zero => rwa [List.take_zero] at hrest ⊢
      | succ n =>
          rw [List.take_add_one, List.sum_append] at hrest
          rw [List.take_succ_cons, List.sum_cons]
          have hlast : (l[n]?.toList).sum ≤ x := by
            cases hl : l[n]? with
            | none => exact hnonneg x List.mem_cons_self
            | some y => simpa using hhead y (List.mem_of_getElem? hl)
          linarith
  | @cons_cons s l x _ ih =>
      cases n with
      | zero => cases hn
      | succ n =>
          rw [List.take_succ_cons, List.sum_cons, List.sum_cons]
          have hrest := ih (List.pairwise_cons.mp hsorted).2 (fun y hy => hnonneg y (List.mem_cons_of_mem x hy))
            (Nat.le_of_succ_le_succ hn)
          linarith

theorem sum_le_sum_take {l s : List ℝ} (hs : s.Subperm l) (hsorted : l.Pairwise (· ≥ ·)) (hnonneg : ∀ x ∈ l, 0 ≤ x) {n : ℕ}
    (hn : s.length ≤ n) : s.sum ≤ (l.take n).sum := by
  obtain ⟨s', hperm, hsub⟩ := hs
  rw [← hperm.sum_eq]
  exact sum_le_sum_take_of_sublist hsub hsorted hnonneg (hperm.length_eq.trans_le hn)

end Etoeragcb.Lib
