import Mathlib.Data.List.Infix
import Mathlib.Data.Nat.Find

/-!
# The most recent items that fit

Items are read from the newest one on and kept in the order of time. One scan passes over what does not fit with the
items it has taken; a list that does not fit is shortened from its oldest end. What fits is closed under the removal of
the oldest items.
-/

namespace Etoeragcb.Lib

universe u

variable {α : Type u} (fits : List α → Prop) [DecidablePred fits]

/-- The items, from the newest one on, that fit with those taken before them. -/
def takeFitting : List α → List α → List α
  | [], taken => taken
  | a :: items, taken => if fits (a :: taken) then takeFitting items (a :: taken) else takeFitting items taken

/-- The length of the longest run of newest items that fits. -/
def longestFit (items : List α) : Nat := Nat.findGreatest (fun n => fits (items.take n).reverse) items.length

/-- The longest run of newest items that fits, in the order of time. -/
def recentRun (items : List α) : List α := (items.take (longestFit fits items)).reverse

/-- The oldest items are removed until the rest fits. -/
def shorten (l : List α) : Option (List α) :=
  if fits l then some l
  else
    match l with
    | [] => none
    | _ :: l => shorten l

variable {fits} {items taken l l' : List α} {a : α}

/-! ## Shortening -/

theorem shorten_of_fits (h : fits l) : shorten fits l = some l := by
  unfold shorten
  exact if_pos h

theorem shorten_cons_of_not (h : ¬fits (a :: l)) : shorten fits (a :: l) = shorten fits l := by
  rw [shorten, if_neg h]

theorem shorten_nil_of_not (h : ¬fits []) : shorten fits [] = none := by
  rw [shorten, if_neg h]

theorem shorten_eq_some_iff : shorten fits l = some l' ↔
    ∃ k ≤ l.length, l' = l.drop k ∧ fits (l.drop k) ∧ ∀ i < k, ¬fits (l.drop i) := by
  induction l with
  | nil =>
      by_cases h : fits []
      · simp [shorten_of_fits h, h, eq_comm]
      · simp [shorten_nil_of_not h, h]
  | cons a l ih =>
      by_cases h : fits (a :: l)
      · rw [shorten_of_fits h]
        refine ⟨fun he => ⟨0, by simp, (Option.some.inj he).symm, h, by simp⟩, ?_⟩
        rintro ⟨k, -, rfl, -, hk⟩
        cases k with
        | zero => rfl
        | succ k => exact absurd h (hk 0 k.succ_pos)
      · rw [shorten_cons_of_not h, ih]
        constructor
        · rintro ⟨k, hk, rfl, hfits, hbefore⟩
          refine ⟨k + 1, by simpa using hk, rfl, hfits, fun i hi => ?_⟩
          cases i with
          | zero => exact h
          | succ i => exact hbefore i (by omega)
        · rintro ⟨k, hk, rfl, hfits, hbefore⟩
          cases k with
          | zero => exact absurd hfits h
          | succ k =>
              exact ⟨k, by simpa using hk, rfl, hfits, fun i hi => hbefore (i + 1) (by omega)⟩

theorem shorten_eq_none_iff : shorten fits l = none ↔ ∀ k ≤ l.length, ¬fits (l.drop k) := by
  induction l with
  | nil =>
      by_cases h : fits []
      · simp [shorten_of_fits h, h]
      · simp [shorten_nil_of_not h, h]
  | cons a l ih =>
      by_cases h : fits (a :: l)
      · rw [shorten_of_fits h]
        exact ⟨nofun, fun hk => absurd h (hk 0 (by simp))⟩
      · rw [shorten_cons_of_not h, ih]
        refine ⟨fun hk i hi => ?_, fun hk i hi => hk (i + 1) (by simpa using hi)⟩
        cases i with
        | zero => exact h
        | succ i => exact hk i (by simpa using hi)

theorem shorten_suffix (h : shorten fits l = some l') : l' <:+ l := by
  obtain ⟨k, -, rfl, -⟩ := shorten_eq_some_iff.mp h
  exact List.drop_suffix k l

/-- Older items make no difference exactly if the newest of them does not fit. -/
theorem shorten_append_cons_iff (hclosed : ∀ {l l'}, l <:+ l' → fits l' → fits l) (older : List α) :
    shorten fits (older ++ a :: l) = shorten fits l ↔ ¬fits (a :: l) := by
  constructor
  · intro h hfits
    have hsome : ∃ l', shorten fits (older ++ a :: l) = some l' ∧ a :: l <:+ l' := by
      induction older with
      | nil => exact ⟨a :: l, shorten_of_fits hfits, List.suffix_refl _⟩
      | cons b older ih =>
          by_cases hb : fits (b :: (older ++ a :: l))
          · exact ⟨_, shorten_of_fits hb, ⟨b :: older, by simp⟩⟩
          · rw [List.cons_append, shorten_cons_of_not hb] at h ⊢
            exact ih h
    obtain ⟨l', hl', hlong⟩ := hsome
    have hshort := shorten_suffix (h ▸ hl')
    have hle := hlong.length_le.trans hshort.length_le
    simp only [List.length_cons] at hle
    omega
  · intro h
    induction older with
    | nil => exact shorten_cons_of_not h
    | cons b older ih =>
        have hb : ¬fits (b :: (older ++ a :: l)) := fun hfits => h (hclosed ⟨b :: older, by simp⟩ hfits)
        rw [List.cons_append, shorten_cons_of_not hb, ih]

/-! ## The longest run -/

theorem longestFit_le : longestFit fits items ≤ items.length := Nat.findGreatest_le _

theorem not_fits_of_longestFit_lt {n : Nat} (hn : longestFit fits items < n) (hle : n ≤ items.length) :
    ¬fits (items.take n).reverse := Nat.findGreatest_is_greatest hn hle

theorem fits_recentRun (h : longestFit fits items ≠ 0) : fits (recentRun fits items) :=
  Nat.findGreatest_of_ne_zero (P := fun n => fits (items.take n).reverse) rfl h

@[simp] theorem length_recentRun : (recentRun fits items).length = longestFit fits items := by
  rw [recentRun, List.length_reverse, List.length_take, min_eq_left longestFit_le]

theorem drop_recentRun (k : Nat) : (recentRun fits items).drop k = (items.take (longestFit fits items - k)).reverse := by
  rw [recentRun, List.drop_reverse, List.length_take, List.take_take, min_eq_left longestFit_le,
    min_eq_left (Nat.sub_le _ _)]

theorem suffix_takeFitting (items taken : List α) : taken <:+ takeFitting fits items taken := by
  induction items generalizing taken with
  | nil => exact List.suffix_refl _
  | cons a items ih =>
      rw [takeFitting]
      split
      · exact (List.suffix_cons a taken).trans (ih _)
      · exact ih _

theorem takeFitting_append (hclosed : ∀ {l l'}, l <:+ l' → fits l' → fits l) {newer older : List α}
    (h : fits (newer.reverse ++ taken)) :
    takeFitting fits (newer ++ older) taken = takeFitting fits older (newer.reverse ++ taken) := by
  induction newer generalizing taken with
  | nil => rfl
  | cons a newer ih =>
      rw [List.reverse_cons, List.append_assoc, List.singleton_append] at h ⊢
      have ha : fits (a :: taken) := hclosed (List.suffix_append _ _) h
      rw [List.cons_append, takeFitting, if_pos ha, ih h]

theorem takeFitting_eq (hclosed : ∀ {l l'}, l <:+ l' → fits l' → fits l) (items : List α) :
    takeFitting fits items [] = takeFitting fits (items.drop (longestFit fits items)) (recentRun fits items) := by
  by_cases h : longestFit fits items = 0
  · simp [recentRun, h]
  · have hrun : fits ((items.take (longestFit fits items)).reverse ++ []) := by
      rw [List.append_nil]
      exact fits_recentRun h
    calc takeFitting fits items [] =
          takeFitting fits (items.take (longestFit fits items) ++ items.drop (longestFit fits items)) [] := by
            rw [List.take_append_drop]
      _ = takeFitting fits (items.drop (longestFit fits items)) (recentRun fits items) := by
            rw [takeFitting_append hclosed hrun, List.append_nil, recentRun]

theorem takeFitting_of_find_none (h : items.find? (fun a => fits (a :: taken)) = none) :
    takeFitting fits items taken = taken := by
  induction items with
  | nil => rfl
  | cons a items ih =>
      rw [List.find?_cons] at h
      split at h
      · cases h
      · rename_i ha
        rw [takeFitting, if_neg (of_decide_eq_false ha), ih h]

theorem takeFitting_of_find_some (h : items.find? (fun a => fits (a :: taken)) = some a) :
    ∃ older, takeFitting fits items taken = older ++ a :: taken := by
  induction items with
  | nil => cases h
  | cons b items ih =>
      rw [List.find?_cons] at h
      split at h
      · rename_i hb
        obtain rfl := Option.some.inj h
        rw [takeFitting, if_pos (of_decide_eq_true hb)]
        obtain ⟨older, hold⟩ := @suffix_takeFitting _ fits _ items (b :: taken)
        exact ⟨older, hold.symm⟩
      · rename_i hb
        rw [takeFitting, if_neg (of_decide_eq_false hb)]
        exact ih h

variable {admits : List α → Prop} [DecidablePred admits]

/-- The longest run is shortened to as many of the newest items as can be kept. -/
theorem shorten_recentRun_eq_some_iff : shorten admits (recentRun fits items) = some l ↔
    ∃ n ≤ longestFit fits items, l = (items.take n).reverse ∧ admits (items.take n).reverse ∧
      ∀ m ≤ longestFit fits items, n < m → ¬admits (items.take m).reverse := by
  simp only [shorten_eq_some_iff, drop_recentRun, length_recentRun]
  constructor
  · rintro ⟨k, hk, rfl, hadmits, hbefore⟩
    refine ⟨longestFit fits items - k, by omega, rfl, hadmits, fun m hm hlt => ?_⟩
    have hm' := hbefore (longestFit fits items - m) (by omega)
    rwa [Nat.sub_sub_self hm] at hm'
  · rintro ⟨n, hn, rfl, hadmits, hmore⟩
    refine ⟨longestFit fits items - n, by omega, by rw [Nat.sub_sub_self hn], by rwa [Nat.sub_sub_self hn], fun i hi => ?_⟩
    exact hmore _ (by omega) (by omega)

theorem shorten_recentRun_eq_none_iff : shorten admits (recentRun fits items) = none ↔
    ∀ n ≤ longestFit fits items, ¬admits (items.take n).reverse := by
  simp only [shorten_eq_none_iff, drop_recentRun, length_recentRun]
  refine ⟨fun h n hn => ?_, fun h k hk => h _ (by omega)⟩
  have hn' := h (longestFit fits items - n) (by omega)
  rwa [Nat.sub_sub_self hn] at hn'

/-- To pass over what does not fit makes no difference to the shortened list exactly if the first older item that is taken
over a gap cannot be kept. -/
theorem shorten_takeFitting_iff (hfits : ∀ {l l'}, l <:+ l' → fits l' → fits l)
    (hadmits : ∀ {l l'}, l <:+ l' → admits l' → admits l) (items : List α) :
    shorten admits (takeFitting fits items []) = shorten admits (recentRun fits items) ↔
      ∀ a ∈ (items.drop (longestFit fits items)).find? (fun a => fits (a :: recentRun fits items)),
        ¬admits (a :: recentRun fits items) := by
  rw [takeFitting_eq hfits]
  cases hfind : (items.drop (longestFit fits items)).find? (fun a => fits (a :: recentRun fits items)) with
  | none => simp [takeFitting_of_find_none hfind]
  | some a =>
      obtain ⟨older, hold⟩ := takeFitting_of_find_some hfind
      rw [hold, shorten_append_cons_iff hadmits]
      simp

/-- To take nothing makes no difference to the shortened list exactly if the newest item does not fit or cannot be kept. -/
theorem shorten_nil_iff (hfits : ∀ {l l'}, l <:+ l' → fits l' → fits l)
    (hadmits : ∀ {l l'}, l <:+ l' → admits l' → admits l) (items : List α) :
    shorten admits [] = shorten admits (recentRun fits items) ↔ ∀ a ∈ items.head?, fits [a] → ¬admits [a] := by
  cases items with
  | nil => simp [recentRun]
  | cons a items =>
      by_cases hpos : longestFit fits (a :: items) = 0
      · have ha : ¬fits ((a :: items).take 1).reverse := not_fits_of_longestFit_lt (by omega) (by simp)
        have ha' : ¬fits [a] := ha
        simp [recentRun, hpos, ha']
      · obtain ⟨n, hn⟩ := Nat.exists_eq_succ_of_ne_zero hpos
        have hrun : recentRun fits (a :: items) = (items.take n).reverse ++ [a] := by simp [recentRun, hn]
        have ha : fits [a] := hfits ⟨_, hrun.symm⟩ (fits_recentRun hpos)
        rw [hrun, eq_comm, shorten_append_cons_iff hadmits]
        simp [ha]

end Etoeragcb.Lib
