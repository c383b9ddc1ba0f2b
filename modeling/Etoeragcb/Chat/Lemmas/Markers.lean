import Etoeragcb.Chat.Citations

/-!
# Markers and the removal of fabricated ones
-/

namespace Etoeragcb.Chat

open Lib

/-! ## Markers -/

def Digits (ds : Text) : Prop := ds ≠ [] ∧ ∀ c ∈ ds, isDigit c

def incompleteOf (ds : Text) : Text := '[' :: 'S' :: ds

variable {allowed : List SourceId} {s t u v x y z ds ds' : Text} {c : Char}

theorem digits_of_canonical (h : isCanonical ds) : Digits ds := by
  cases ds with
  | nil => cases h
  | cons d ds =>
      simp only [isCanonical, Bool.and_eq_true, List.all_eq_true] at h
      exact ⟨by simp, fun c hc => (List.mem_cons.mp hc).elim (fun e => e ▸ h.1.1) (h.2 c)⟩

theorem isDigit_ne {d : Char} (hd : isDigit d) (hc : isDigit c = false) : d ≠ c := fun e => by
  rw [e, hc] at hd; cases hd

theorem Digits.notMem (h : ∀ c ∈ ds, isDigit c) (hc : isDigit c = false) : c ∉ ds := fun hm =>
  isDigit_ne (h c hm) hc rfl

theorem opening?_eq_some : opening? s = some (ds, t) ↔
    (∀ c ∈ ds, isDigit c) ∧ (∀ c t', t = c :: t' → isDigit c = false) ∧ s = incompleteOf ds ++ t := by
  constructor
  · intro h
    unfold opening? at h
    split at h
    · rename_i s
      cases h
      refine ⟨fun c hc => List.mem_takeWhile_imp hc, fun c t' ht => ?_, ?_⟩
      · have hne : s.dropWhile isDigit ≠ [] := by simp [ht]
        simpa [ht] using List.head_dropWhile_not isDigit hne
      · simp [incompleteOf]
    · cases h
  · rintro ⟨hds, ht, rfl⟩
    have hd : t.takeWhile isDigit = [] ∧ t.dropWhile isDigit = t := by
      cases t with
      | nil => simp
      | cons c t => simp [ht c t rfl]
    simp [incompleteOf, opening?, List.takeWhile_append_of_pos hds, List.dropWhile_append_of_pos hds, hd]

theorem markerOf_eq (ds : Text) : markerOf ds = incompleteOf ds ++ [']'] := by
  simp [markerOf, incompleteOf]

theorem anyMarker?_eq_some : anyMarker? s = some ds ↔ Digits ds ∧ ∃ t, s = markerOf ds ++ t := by
  constructor
  · intro h
    unfold anyMarker? at h
    split at h
    · rename_i d ds' t ho
      cases h
      obtain ⟨hds, -, rfl⟩ := opening?_eq_some.mp ho
      exact ⟨⟨by simp, hds⟩, t, by simp [markerOf_eq]⟩
    · cases h
  · rintro ⟨⟨hne, hds⟩, t, rfl⟩
    have ho : opening? (markerOf ds ++ t) = some (ds, ']' :: t) :=
      opening?_eq_some.mpr ⟨hds, fun c t' h => by cases h; decide, by simp [markerOf_eq]⟩
    cases ds with
    | nil => exact absurd rfl hne
    | cons d ds => simp [anyMarker?, ho]

theorem marker?_eq_some : marker? s = some ds ↔ isCanonical ds ∧ ∃ t, s = markerOf ds ++ t := by
  simp only [marker?, Option.filter_eq_some_iff, anyMarker?_eq_some]
  exact ⟨fun ⟨⟨_, ht⟩, hc⟩ => ⟨hc, ht⟩, fun ⟨hc, ht⟩ => ⟨⟨digits_of_canonical hc, ht⟩, hc⟩⟩

theorem incompleteMarker?_iff : incompleteMarker? s ↔ ∃ ds, (∀ c ∈ ds, isDigit c) ∧ s = incompleteOf ds := by
  constructor
  · intro h
    unfold incompleteMarker? at h
    split at h
    · rename_i ds ho
      obtain ⟨hds, -, rfl⟩ := opening?_eq_some.mp ho
      exact ⟨ds, hds, by simp⟩
    · cases h
  · rintro ⟨ds, hds, rfl⟩
    have ho : opening? (incompleteOf ds) = some (ds, []) :=
      opening?_eq_some.mpr ⟨hds, by simp, by simp⟩
    simp [incompleteMarker?, ho]

theorem length_markerOf (ds : Text) : (markerOf ds).length = ds.length + 3 := by simp [markerOf]

theorem open_notMem_markerOf_tail (h : ∀ c ∈ ds, isDigit c) : '[' ∉ 'S' :: (ds ++ [']']) := by
  simp [Digits.notMem h (c := '[') (by decide)]

theorem close_notMem_incompleteOf (h : ∀ c ∈ ds, isDigit c) : ']' ∉ incompleteOf ds := by
  simp [incompleteOf, Digits.notMem h (c := ']') (by decide)]

theorem eq_of_append_cons {a b : Text} (ha : c ∉ a) (hb : c ∉ b) (h : a ++ c :: s = b ++ c :: t) :
    a = b ∧ s = t := by
  induction a generalizing b with
  | nil =>
      cases b with
      | nil => simpa using h
      | cons d b => simp only [List.nil_append, List.cons_append, List.cons.injEq] at h; simp [h.1] at hb
  | cons d a ih =>
      cases b with
      | nil => simp only [List.nil_append, List.cons_append, List.cons.injEq] at h; simp [h.1] at ha
      | cons e b =>
          simp only [List.cons_append, List.cons.injEq] at h
          obtain ⟨rfl, rfl⟩ := ih (fun hm => ha (List.mem_cons_of_mem _ hm))
            (fun hm => hb (List.mem_cons_of_mem _ hm)) h.2
          exact ⟨by rw [h.1], rfl⟩

theorem markerOf_inj (h : ∀ c ∈ ds, isDigit c) (h' : ∀ c ∈ ds', isDigit c)
    (he : markerOf ds ++ s = markerOf ds' ++ t) : ds = ds' ∧ s = t := by
  simp only [markerOf_eq, List.append_assoc, List.singleton_append] at he
  obtain ⟨hi, hst⟩ := eq_of_append_cons (close_notMem_incompleteOf h) (close_notMem_incompleteOf h') he
  simp only [incompleteOf, List.cons.injEq, true_and] at hi
  exact ⟨hi, hst⟩

theorem anyMarker?_of_ne (h : c ≠ '[') : anyMarker? (c :: s) = none := by
  cases hm : anyMarker? (c :: s) with
  | none => rfl
  | some ds =>
      obtain ⟨-, t, ht⟩ := anyMarker?_eq_some.mp hm
      exact absurd (List.cons.inj ht).1 h

theorem anyMarker?_of_notMem (h : ']' ∉ s) : anyMarker? s = none := by
  cases hm : anyMarker? s with
  | none => rfl
  | some ds =>
      obtain ⟨-, t, rfl⟩ := anyMarker?_eq_some.mp hm
      simp [markerOf] at h

/-! ## Removal of fabricated markers -/

def weed (allowed : List SourceId) (s : Text) : Text := rewrite (fabricatedRule allowed) s

theorem weed_keep (h : anyMarker? (c :: s) = none) : weed allowed (c :: s) = c :: weed allowed s :=
  rewrite_keep (by simp [fabricatedRule, h])

theorem weed_marker (h : Digits ds) :
    weed allowed (markerOf ds ++ s) = (if allows allowed ds then markerOf ds else []) ++ weed allowed s :=
  rewrite_match (by simp [markerOf]) (by simp [fabricatedRule, anyMarker?_eq_some.mpr ⟨h, s, rfl⟩])

@[simp] theorem weed_nil : weed allowed [] = [] := rfl

/-- Reasoning along the removal: item by item, or marker by marker. -/
theorem weed_induction {p : Text → Prop} (nil : p []) (keep : ∀ c s, anyMarker? (c :: s) = none → p s → p (c :: s))
    (marker : ∀ ds s, Digits ds → p s → p (markerOf ds ++ s)) (s : Text) : p s := by
  induction h : s.length using Nat.strong_induction_on generalizing s with
  | _ k ih =>
      subst h
      cases s with
      | nil => exact nil
      | cons c s =>
          cases hm : anyMarker? (c :: s) with
          | none => exact keep c s hm (ih s.length (by simp) s rfl)
          | some ds =>
              obtain ⟨hds, t, ht⟩ := anyMarker?_eq_some.mp hm
              rw [ht]
              exact marker ds t hds (ih t.length (by rw [ht, List.length_append, length_markerOf]; omega) t rfl)

/-- The first text is the second one with fabricated markers woven in. -/
inductive Woven (allowed : List SourceId) : Text → Text → Prop
  | nil : Woven allowed [] []
  | keep (c : Char) {s t : Text} : Woven allowed s t → Woven allowed (c :: s) (c :: t)
  | fabricated {ds s t : Text} : Digits ds → allows allowed ds = false → Woven allowed s t →
      Woven allowed (markerOf ds ++ s) t

theorem Woven.refl (s : Text) : Woven allowed s s := by
  induction s with
  | nil => exact .nil
  | cons c s ih => exact .keep c ih

theorem Woven.append (h : Woven allowed s t) (h' : Woven allowed u v) : Woven allowed (s ++ u) (t ++ v) := by
  induction h with
  | nil => exact h'
  | keep c _ ih => exact .keep c ih
  | fabricated hds hal _ ih => rw [List.append_assoc]; exact .fabricated hds hal ih

/-- The first text with every marker outside the allow-list taken out is the second one. -/
inductive Weeded (allowed : List SourceId) : Text → Text → Prop
  | nil : Weeded allowed [] []
  | keep {c : Char} {s t : Text} : anyMarker? (c :: s) = none → Weeded allowed s t →
      Weeded allowed (c :: s) (c :: t)
  | listed {ds s t : Text} : Digits ds → allows allowed ds → Weeded allowed s t →
      Weeded allowed (markerOf ds ++ s) (markerOf ds ++ t)
  | fabricated {ds s t : Text} : Digits ds → allows allowed ds = false → Weeded allowed s t →
      Weeded allowed (markerOf ds ++ s) t

theorem weeded_weed (s : Text) : Weeded allowed s (weed allowed s) := by
  induction s using weed_induction with
  | nil => exact .nil
  | keep c s h ih => rw [weed_keep h]; exact .keep h ih
  | marker ds s hds ih =>
      rw [weed_marker hds]
      split
      · rename_i hal
        exact .listed hds hal ih
      · rename_i hal
        exact .fabricated hds (by simpa using hal) ih

theorem Weeded.eq (h : Weeded allowed s t) : weed allowed s = t := by
  induction h with
  | nil => rfl
  | keep hm _ ih => rw [weed_keep hm, ih]
  | listed hds hal _ ih => rw [weed_marker hds, if_pos hal, ih]
  | fabricated hds hal _ ih => rw [weed_marker hds, hal, ih]; rfl

theorem woven_weed (s : Text) : Woven allowed s (weed allowed s) := by
  induction s using weed_induction with
  | nil => exact .nil
  | keep c s h ih => rw [weed_keep h]; exact .keep c ih
  | marker ds s hds ih =>
      rw [weed_marker hds]
      split
      · exact (Woven.refl _).append ih
      · rename_i hal
        exact .fabricated hds (by simpa using hal) ih

theorem Woven.cons_inv (h : Woven allowed s (c :: t)) :
    ∃ m u, s = m ++ c :: u ∧ Woven allowed m [] ∧ Woven allowed u t := by
  generalize ht : c :: t = t' at h
  induction h with
  | nil => cases ht
  | keep d h _ => cases ht; exact ⟨[], _, rfl, .nil, h⟩
  | fabricated hds hal _ ih =>
      obtain ⟨m, u, rfl, hm, hu⟩ := ih ht
      exact ⟨_, u, (List.append_assoc _ _ _).symm, .fabricated hds hal hm, hu⟩

theorem Woven.append_inv (h : Woven allowed s (t ++ v)) :
    ∃ a b, s = a ++ b ∧ Woven allowed a t ∧ Woven allowed b v := by
  induction t generalizing s with
  | nil => exact ⟨[], s, rfl, .nil, h⟩
  | cons c t ih =>
      obtain ⟨m, u, rfl, hm, hu⟩ := h.cons_inv
      obtain ⟨a, b, rfl, ha, hb⟩ := ih hu
      exact ⟨m ++ c :: a, b, by simp, hm.append (.keep c ha), hb⟩

theorem Woven.eq_or_mem (h : Woven allowed s t) : s = t ∨ ']' ∈ s := by
  induction h with
  | nil => exact Or.inl rfl
  | keep c _ ih =>
      rcases ih with rfl | hm
      · exact Or.inl rfl
      · exact Or.inr (List.mem_cons_of_mem c hm)
  | fabricated => exact Or.inr (by simp [markerOf])

/-- Every `]` that was woven in stands behind the `[` of its marker. -/
theorem Woven.open_mem (h : Woven allowed s t) (ht : ']' ∉ t) {a r : Text} (hs : s = a ++ ']' :: r) :
    '[' ∈ a := by
  induction h generalizing a with
  | nil => simp at hs
  | keep c _ ih =>
      rcases a with _ | ⟨d, a⟩
      · rw [List.nil_append, List.cons.injEq] at hs
        simp [hs.1] at ht
      · rw [List.cons_append, List.cons.injEq] at hs
        exact List.mem_cons_of_mem d (ih (fun hm => ht (List.mem_cons_of_mem c hm)) hs.2)
  | fabricated =>
      rcases a with _ | ⟨d, a⟩
      · exact absurd (List.cons.inj hs).1 (by decide)
      · rw [(List.cons.inj hs).1]; exact List.mem_cons_self

theorem Woven.head_open (h : Woven allowed s ('[' :: t)) : ∃ u, s = '[' :: u := by
  cases h with
  | keep _ _ => exact ⟨_, rfl⟩
  | fabricated _ _ _ => exact ⟨_, rfl⟩

/-- A text that `]` closes, with something woven in between, is not a marker yet. -/
theorem Woven.anyMarker?_eq_none (h : Woven allowed v t) (ht : ']' ∉ t) (hz : v ≠ t ∨ z = []) :
    anyMarker? ('[' :: (v ++ z)) = none := by
  cases hm : anyMarker? ('[' :: (v ++ z)) with
  | none => rfl
  | some ds =>
      obtain ⟨⟨-, hds⟩, r, hr⟩ := anyMarker?_eq_some.mp hm
      have hr' : v ++ z = ('S' :: ds) ++ ']' :: r := by simpa [markerOf] using hr
      have hsd : ']' ∉ 'S' :: ds := by simp [Digits.notMem hds (c := ']') (by decide)]
      have hmem : ']' ∈ v := by
        rcases hz with hne | rfl
        · exact h.eq_or_mem.resolve_left hne
        · rw [List.append_nil] at hr'; simp [hr']
      obtain ⟨a, b, hv, ha⟩ := List.eq_append_cons_of_mem hmem
      rw [hv, List.append_assoc, List.cons_append] at hr'
      have ho := h.open_mem ht hv
      rw [(eq_of_append_cons ha hsd hr').1] at ho
      simp [Digits.notMem hds (c := '[') (by decide)] at ho

/-- What is woven into a text without `]` is removed again. -/
theorem weed_woven (h : Woven allowed v t) (ht : ']' ∉ t) (hz : '[' ∈ t → z = []) :
    weed allowed (v ++ z) = t ++ weed allowed z := by
  induction h with
  | nil => rfl
  | @keep c v t h ih =>
      have ht' : ']' ∉ t := fun hm => ht (List.mem_cons_of_mem c hm)
      have hnone : anyMarker? (c :: (v ++ z)) = none := by
        by_cases hc : c = '['
        · subst hc
          exact h.anyMarker?_eq_none ht' (Or.inr (hz List.mem_cons_self))
        · exact anyMarker?_of_ne hc
      rw [List.cons_append, weed_keep hnone, ih ht' fun hm => hz (List.mem_cons_of_mem c hm)]
      rfl
  | fabricated hds hal _ ih =>
      rw [List.append_assoc, weed_marker hds, hal, ih ht hz]
      rfl

theorem length_le_of_notMem {a b : Text} (ha : c ∉ a) (h : a ++ s = b ++ c :: t) : a.length ≤ b.length := by
  rcases List.append_eq_append_iff.mp h with ⟨z, rfl, -⟩ | ⟨z, rfl, hz⟩
  · simp
  · cases z with
    | nil => simp
    | cons d z => simp [(List.cons.inj hz).1] at ha

/-- No marker reaches over a `[`. -/
theorem weed_append_open (allowed : List SourceId) (x u : Text) :
    ∃ y, weed allowed (x ++ '[' :: u) = y ++ weed allowed ('[' :: u) := by
  refine rewrite_append fun y r n _ hne h => ?_
  simp only [fabricatedRule, Option.map_eq_some_iff, Prod.mk.injEq] at h
  obtain ⟨ds, hds, -, rfl⟩ := h
  obtain ⟨⟨-, hd⟩, t, ht⟩ := anyMarker?_eq_some.mp hds
  cases y with
  | nil => exact absurd rfl hne
  | cons c y =>
      have hl := length_le_of_notMem (open_notMem_markerOf_tail hd) (List.cons.inj ht).2.symm
      simpa [markerOf] using hl

theorem weed_suffix (h : weed allowed s = x ++ '[' :: t) : ∃ y, y <:+ s ∧ weed allowed y = '[' :: t := by
  refine rewrite_suffix (fun s d r n hr => ?_) h
  simp only [fabricatedRule, Option.map_eq_some_iff, Prod.mk.injEq] at hr
  obtain ⟨ds, hds, he, -⟩ := hr
  split at he
  · obtain ⟨⟨-, hd⟩, -⟩ := anyMarker?_eq_some.mp hds
    rw [← (List.cons.inj he).2]
    exact open_notMem_markerOf_tail hd
  · cases he

/-- The removal leaves a `[` where it stands when its marker is allowed or there is none. -/
theorem weed_head (h : weed allowed s = '[' :: t) : ∃ y u, s = y ++ '[' :: u ∧
    weed allowed ('[' :: u) = '[' :: t ∧ ∀ ds, anyMarker? ('[' :: u) = some ds → allows allowed ds := by
  induction s using weed_induction with
  | nil => cases h
  | keep c s hm ih =>
      have h' := h
      rw [weed_keep hm, List.cons.injEq] at h'
      obtain ⟨rfl, -⟩ := h'
      exact ⟨[], s, rfl, h, by simp [hm]⟩
  | marker ds s hds ih =>
      by_cases hal : allows allowed ds
      · refine ⟨[], 'S' :: (ds ++ [']'] ++ s), rfl, h, fun ds' h' => ?_⟩
        obtain ⟨⟨-, hd'⟩, u, hu⟩ := anyMarker?_eq_some.mp h'
        rw [← (markerOf_inj hds.2 hd' hu).1]
        exact hal
      · rw [weed_marker hds, if_neg hal, List.nil_append] at h
        obtain ⟨y, u, rfl, hw⟩ := ih h
        exact ⟨markerOf ds ++ y, u, (List.append_assoc _ _ _).symm, hw⟩

/-! ## What the removal leaves -/

/-- A marker outside the allow-list stands in the text. -/
def Fabricates (allowed : List SourceId) (s : Text) : Prop :=
  ∃ ds, Digits ds ∧ allows allowed ds = false ∧ markerOf ds <:+: s

/-- A `[S<digits>]` outside the allow-list comes together when the fabricated markers inside it are taken out. -/
def Splices (allowed : List SourceId) (raw : Text) : Prop :=
  ∃ x v y ds, raw = x ++ '[' :: (v ++ ']' :: y) ∧ Woven allowed v ('S' :: ds) ∧ v ≠ 'S' :: ds ∧
    Digits ds ∧ allows allowed ds = false

theorem fabricates_weed_of_splices (h : Splices allowed s) : Fabricates allowed (weed allowed s) := by
  obtain ⟨x, v, y, ds, rfl, hv, hne, hds, hal⟩ := h
  have ht : ']' ∉ 'S' :: ds := by simp [Digits.notMem hds.2 (c := ']') (by decide)]
  have ho : '[' ∉ 'S' :: ds := by simp [Digits.notMem hds.2 (c := '[') (by decide)]
  obtain ⟨x', hx⟩ := weed_append_open allowed x (v ++ ']' :: y)
  refine ⟨ds, hds, hal, x', weed allowed y, ?_⟩
  rw [hx, weed_keep (hv.anyMarker?_eq_none ht (Or.inl hne)), weed_woven hv ht fun hm => absurd hm ho,
    weed_keep (anyMarker?_of_ne (by decide))]
  simp [markerOf]

theorem splices_of_fabricates_weed (h : Fabricates allowed (weed allowed s)) : Splices allowed s := by
  obtain ⟨ds, hds, hal, x, y, he⟩ := h
  have he' : weed allowed s = x ++ '[' :: ('S' :: ds ++ ']' :: y) := by simp [← he, markerOf]
  obtain ⟨z, ⟨a, rfl⟩, hz⟩ := weed_suffix he'
  obtain ⟨b, u, rfl, hu, hall⟩ := weed_head hz
  cases hm : anyMarker? ('[' :: u) with
  | some ds' =>
      obtain ⟨hds', r, hr⟩ := anyMarker?_eq_some.mp hm
      have hu' := hu
      rw [hr, weed_marker hds', if_pos (hall ds' hm)] at hu'
      have : markerOf ds' ++ weed allowed r = markerOf ds ++ y := by rw [hu']; simp [markerOf]
      have hal' := hall ds' hm
      rw [(markerOf_inj hds'.2 hds.2 this).1, hal] at hal'
      cases hal'
  | none =>
      rw [weed_keep hm, List.cons.injEq] at hu
      have hw : Woven allowed u (weed allowed u) := woven_weed u
      rw [hu.2] at hw
      obtain ⟨v, w, rfl, hv, hw⟩ := hw.append_inv
      obtain ⟨m, w', rfl, hm', -⟩ := hw.cons_inv
      refine ⟨a ++ b, v ++ m, w', ds, by simp, by simpa using hv.append hm', fun hvm => ?_, hds, hal⟩
      rw [← List.append_assoc, hvm] at hm
      rw [anyMarker?_eq_some.mpr ⟨hds, w', by simp [markerOf]⟩] at hm
      cases hm

end Etoeragcb.Chat
