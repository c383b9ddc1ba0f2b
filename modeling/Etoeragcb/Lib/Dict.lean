import Mathlib.Data.List.Nodup

/-!
# Dictionaries

A dictionary is the list of its members, in the order in which their keys were inserted.
-/

namespace Etoeragcb.Lib

universe u v

variable {κ : Type u} {ν : Type v} [DecidableEq κ]

namespace Dict

/-- `d.get(k)` -/
def get? (d : List (κ × ν)) (k : κ) : Option ν := (d.find? fun x => x.1 = k).map Prod.snd

/-- `d[k] = v` -/
def set (d : List (κ × ν)) (k : κ) (v : ν) : List (κ × ν) :=
  if k ∈ d.map Prod.fst then d.map fun x => if x.1 = k then (k, v) else x else d ++ [(k, v)]

def restrict (d : List (κ × ν)) (ks : List κ) : List (κ × ν) := d.filter fun x => x.1 ∈ ks

variable {d : List (κ × ν)} {k k' : κ} {v : ν}

theorem get?_cons (x : κ × ν) : get? (x :: d) k = if x.1 = k then some x.2 else get? d k := by
  by_cases h : x.1 = k <;> simp [get?, h]

theorem get?_set_self : get? (set d k v) k = some v := by
  unfold set
  split
  · rename_i hk
    induction d with
    | nil => cases hk
    | cons x d ih =>
        rw [List.map_cons, get?_cons]
        by_cases hx : x.1 = k
        · simp [hx]
        · rw [if_neg hx, if_neg hx]
          exact ih ((List.mem_cons.mp hk).resolve_left (Ne.symm hx))
  · rename_i hk
    induction d with
    | nil => simp [get?]
    | cons x d ih =>
        have hx : ¬x.1 = k := fun he => hk (he ▸ List.mem_cons_self)
        rw [List.cons_append, get?_cons, if_neg hx]
        exact ih fun hd => hk (List.mem_cons_of_mem _ hd)

theorem get?_replace (h : k ≠ k') : get? (d.map fun x => if x.1 = k' then (k', v) else x) k = get? d k := by
  induction d with
  | nil => rfl
  | cons x d ih =>
      rw [List.map_cons, get?_cons, get?_cons, ih]
      by_cases hx : x.1 = k'
      · simp [hx, h.symm]
      · simp [hx]

theorem get?_append_of_ne (h : k ≠ k') : get? (d ++ [(k', v)]) k = get? d k := by
  induction d with
  | nil => simp [get?, h.symm]
  | cons x d ih => rw [List.cons_append, get?_cons, get?_cons, ih]

theorem get?_set (h : k ≠ k') : get? (set d k' v) k = get? d k := by
  unfold set
  split
  · exact get?_replace h
  · exact get?_append_of_ne h

theorem restrict_replace {ks : List κ} (h : k' ∉ ks) :
    restrict (d.map fun x => if x.1 = k' then (k', v) else x) ks = restrict d ks := by
  induction d with
  | nil => rfl
  | cons x d ih =>
      simp only [restrict, List.map_cons, List.filter_cons] at ih ⊢
      rw [ih]
      by_cases hx : x.1 = k'
      · simp [hx, h]
      · simp [hx]

theorem restrict_set {ks : List κ} (h : k' ∉ ks) : restrict (set d k' v) ks = restrict d ks := by
  unfold set
  split
  · exact restrict_replace h
  · simp [restrict, List.filter_append, h]

theorem get?_restrict {ks : List κ} (h : k ∈ ks) : get? (restrict d ks) k = get? d k := by
  induction d with
  | nil => rfl
  | cons x d ih =>
      rw [get?_cons, ← ih, restrict, List.filter_cons]
      split
      · rw [get?_cons]
        rfl
      · rename_i hx
        rw [if_neg]
        · rfl
        · rintro rfl
          exact hx (decide_eq_true h)

/-- A new key stands behind the others, and a key that is there keeps its place. -/
theorem map_fst_set : (set d k v).map Prod.fst = if k ∈ d.map Prod.fst then d.map Prod.fst else d.map Prod.fst ++ [k] := by
  unfold set
  split
  · rw [List.map_map]
    refine List.map_congr_left fun x _ => ?_
    rw [Function.comp_apply]
    split
    · rename_i hx
      exact hx.symm
    · rfl
  · rw [List.map_append]
    rfl

theorem mem_keys_set : k' ∈ (set d k v).map Prod.fst ↔ k' ∈ d.map Prod.fst ∨ k' = k := by
  rw [map_fst_set]
  split
  · rename_i hk
    exact ⟨Or.inl, fun h => h.elim id fun he => he ▸ hk⟩
  · rw [List.mem_append, List.mem_singleton]

theorem nodup_keys_set (h : (d.map Prod.fst).Nodup) : ((set d k v).map Prod.fst).Nodup := by
  rw [map_fst_set]
  split
  · exact h
  · rename_i hk
    exact List.nodup_append.mpr ⟨h, List.nodup_singleton k, fun a ha b hb he => hk (List.mem_singleton.mp hb ▸ he ▸ ha)⟩

theorem eq_map_keys (h : (d.map Prod.fst).Nodup) (v : ν) : d = (d.map Prod.fst).map fun k => (k, (get? d k).getD v) := by
  rw [List.map_map]
  conv_lhs => rw [← List.map_id d]
  refine List.map_congr_left fun x hx => ?_
  have hget : get? d x.1 = some x.2 := by
    induction d with
    | nil => cases hx
    | cons y d ih =>
        rw [List.map_cons, List.nodup_cons] at h
        rw [get?_cons]
        rcases List.mem_cons.mp hx with rfl | hx
        · exact if_pos rfl
        · have hne : y.1 ≠ x.1 := fun he => h.1 (he ▸ List.mem_map_of_mem hx)
          rw [if_neg hne]
          exact ih h.2 hx
  simp [hget]

end Dict

end Etoeragcb.Lib
