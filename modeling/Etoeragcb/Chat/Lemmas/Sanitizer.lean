import Etoeragcb.Chat.Lemmas.Polish

/-!
# The stream sanitizer

Fed with any fragments, the sanitizer has emitted the text without fabricated markers, up to what it still
holds back.
-/

namespace Etoeragcb.Chat

open Lib

variable {allowed : List SourceId} {final : Bool} {s t x y z p ds raw em : Text} {c : Char}
  {st : CitationStreamSanitizer} {fragment : Text} {fragments : List Text}

/-! ## Draining -/

theorem drainLoop_skip (n : Nat) (s : Text) : drainLoop allowed final n s = drainLoop allowed final 0 (s.drop n) := by
  induction n generalizing s with
  | zero => rfl
  | succ n ih =>
      cases s with
      | nil => simp [drainLoop]
      | cons c s => rw [drainLoop, ih]; rfl

theorem drainLoop_char (h : c ≠ '[') :
    drainLoop allowed final 0 (c :: s) = (drainLoop allowed final 0 s).emit [c] := by
  rw [drainLoop, if_pos h]

theorem drainLoop_marker (h : Digits ds) : drainLoop allowed final 0 (markerOf ds ++ s) =
    if allows allowed ds then (drainLoop allowed final 0 s).emit (markerOf ds)
    else { drainLoop allowed final 0 s with repaired := true } := by
  have hm : anyMarker? ('[' :: ('S' :: (ds ++ [']']) ++ s)) = some ds := anyMarker?_eq_some.mpr ⟨h, s, rfl⟩
  have hs : ('S' :: (ds ++ [']']) ++ s).drop ((markerOf ds).length - 1) = s := by simp [length_markerOf]
  show drainLoop allowed final 0 ('[' :: ('S' :: (ds ++ [']']) ++ s)) = _
  rw [drainLoop, if_neg (by simp), hm]
  simp only [drainLoop_skip ((markerOf ds).length - 1), hs]

/-- What may be held back: nothing, a single `[`, or an incomplete marker. -/
def Held (p : Text) : Prop := p = [] ∨ p = ['['] ∨ ∃ ds, (∀ c ∈ ds, isDigit c) ∧ p = incompleteOf ds

theorem Held.close_notMem (h : Held p) : ']' ∉ p := by
  rcases h with rfl | rfl | ⟨ds, hds, rfl⟩
  · simp
  · decide
  · exact close_notMem_incompleteOf hds

theorem Held.weed (h : Held p) : weed allowed p = p := by
  have hw : Woven allowed p p := Woven.refl p
  simpa using weed_woven (z := []) hw h.close_notMem fun _ => rfl

/-- Neither a marker nor the beginning of one: whatever follows, no marker starts here. -/
theorem anyMarker?_append (hm : anyMarker? ('[' :: s) = none) (hne : s ≠ [])
    (hi : incompleteMarker? ('[' :: s) = false) : anyMarker? ('[' :: (s ++ z)) = none := by
  cases h : anyMarker? ('[' :: (s ++ z)) with
  | none => rfl
  | some ds =>
      obtain ⟨hds, t, ht⟩ := anyMarker?_eq_some.mp h
      rw [markerOf_eq, List.append_assoc, ← List.cons_append] at ht
      rcases List.append_eq_append_iff.mp ht with ⟨a, ha, -⟩ | ⟨a, ha, ha'⟩
      · -- the text is a proper beginning of the marker
        have hpre : incompleteMarker? ('[' :: s) := by
          cases s with
          | nil => exact absurd rfl hne
          | cons d s =>
              simp only [incompleteOf, List.cons_append, List.cons.injEq, true_and] at ha
              refine incompleteMarker?_iff.mpr ⟨s, fun c hc => hds.2 c ?_, by rw [← ha.1]; rfl⟩
              rw [ha.2]
              exact List.mem_append_left a hc
        rw [hi] at hpre; cases hpre
      · cases a with
        | nil =>
            have hpre : incompleteMarker? ('[' :: s) := incompleteMarker?_iff.mpr ⟨ds, hds.2, by simpa using ha⟩
            rw [hi] at hpre; cases hpre
        | cons d a =>
            have hd : d = ']' := (List.cons.inj ha').1.symm
            rw [anyMarker?_eq_some.mpr ⟨hds, a, by rw [ha, hd, markerOf_eq]; simp⟩] at hm
            cases hm

theorem drainLoop_hold (hm : anyMarker? ('[' :: s) = none) (h : s = [] ∨ incompleteMarker? ('[' :: s)) :
    drainLoop allowed false 0 ('[' :: s) = ⟨[], '[' :: s, false⟩ := by
  rw [drainLoop, if_neg (by simp), hm]
  rcases h with rfl | h <;> simp [*]

theorem drainLoop_bracket (hm : anyMarker? ('[' :: s) = none) (hne : s ≠ []) (hi : incompleteMarker? ('[' :: s) = false) :
    drainLoop allowed false 0 ('[' :: s) = (drainLoop allowed false 0 s).emit ['['] := by
  rw [drainLoop, if_neg (by simp), hm]
  simp [hne, hi]

theorem incompleteMarker?_append (hne : s ≠ []) (hi : incompleteMarker? ('[' :: s) = false) :
    incompleteMarker? ('[' :: (s ++ z)) = false := by
  rw [Bool.eq_false_iff] at hi ⊢
  intro h
  obtain ⟨ds, hds, he⟩ := incompleteMarker?_iff.mp h
  cases s with
  | nil => exact hne rfl
  | cons d s =>
      simp only [incompleteOf, List.cons_append, List.cons.injEq, true_and] at he
      refine hi (incompleteMarker?_iff.mpr ⟨s, fun c hc => hds c ?_, by rw [he.1]; rfl⟩)
      rw [← he.2]
      exact List.mem_append_left z hc

theorem drainLoop_spec (allowed : List SourceId) (s z : Text) :
    weed allowed (s ++ z) = (drainLoop allowed false 0 s).output ++ weed allowed ((drainLoop allowed false 0 s).pending ++ z) ∧
      Held (drainLoop allowed false 0 s).pending := by
  induction s using weed_induction with
  | nil => exact ⟨rfl, Or.inl rfl⟩
  | keep c s hm ih =>
      by_cases hc : c = '['
      · subst hc
        by_cases hstop : s = [] ∨ incompleteMarker? ('[' :: s)
        · rw [drainLoop_hold hm hstop]
          refine ⟨rfl, ?_⟩
          rcases hstop with rfl | h
          · exact Or.inr (Or.inl rfl)
          · exact Or.inr (Or.inr (incompleteMarker?_iff.mp h))
        · have hi : incompleteMarker? ('[' :: s) = false := by simpa using fun h => hstop (Or.inr h)
          have hne : s ≠ [] := fun h => hstop (Or.inl h)
          rw [drainLoop_bracket hm hne hi]
          refine ⟨?_, ih.2⟩
          rw [List.cons_append, weed_keep (anyMarker?_append hm hne hi), ih.1]
          rfl
      · rw [drainLoop_char hc]
        refine ⟨?_, ih.2⟩
        rw [List.cons_append, weed_keep (anyMarker?_of_ne hc), ih.1]
        rfl
  | marker ds s hds ih =>
      rw [drainLoop_marker hds, List.append_assoc, weed_marker hds]
      split
      · exact ⟨by rw [ih.1, ← List.append_assoc]; rfl, ih.2⟩
      · exact ⟨by rw [ih.1]; rfl, ih.2⟩

/-- Draining a concatenation: what the first part leaves pending is drained with the second part. -/
theorem drainLoop_append (allowed : List SourceId) (s z : Text) :
    drainLoop allowed false 0 (s ++ z) =
      let d := drainLoop allowed false 0 s
      let e := drainLoop allowed false 0 (d.pending ++ z)
      ⟨d.output ++ e.output, e.pending, d.repaired || e.repaired⟩ := by
  induction s using weed_induction with
  | nil => simp [drainLoop]
  | keep c s hm ih =>
      by_cases hc : c = '['
      · subst hc
        by_cases hstop : s = [] ∨ incompleteMarker? ('[' :: s)
        · simp [drainLoop_hold hm hstop]
        · have hi : incompleteMarker? ('[' :: s) = false := by simpa using fun h => hstop (Or.inr h)
          have hne : s ≠ [] := fun h => hstop (Or.inl h)
          rw [List.cons_append, drainLoop_bracket (anyMarker?_append hm hne hi) (by simp [hne])
            (incompleteMarker?_append hne hi), drainLoop_bracket hm hne hi, ih]
          rfl
      · rw [List.cons_append, drainLoop_char hc, drainLoop_char hc, ih]
        rfl
  | marker ds s hds ih =>
      rw [List.append_assoc, drainLoop_marker hds, drainLoop_marker hds, ih]
      split
      · simp [Drained.emit]
      · simp

theorem getLast?_incompleteOf (h : ∀ c ∈ ds, isDigit c) : (incompleteOf ds).getLast? ≠ some '[' := by
  intro hl
  have hm := List.mem_of_getLast? (l := 'S' :: ds) (a := '[') (by simpa [incompleteOf] using hl)
  simp [Digits.notMem h (c := '[') (by decide)] at hm

theorem drainLoop_open (s : Text) :
    (drainLoop allowed false 0 s).pending = ['['] ↔ s.getLast? = some '[' := by
  induction s using weed_induction with
  | nil => simp [drainLoop]
  | keep c s hm ih =>
      have hlast : s ≠ [] → (c :: s).getLast? = s.getLast? := fun hne => List.getLast?_cons_of_ne_nil hne
      by_cases hc : c = '['
      · subst hc
        by_cases hne : s = []
        · subst hne; simp [drainLoop, hm]
        · by_cases hi : incompleteMarker? ('[' :: s)
          · obtain ⟨ds, hds, he⟩ := incompleteMarker?_iff.mp hi
            simp only [drainLoop_hold hm (Or.inr hi), List.cons.injEq, true_and, hne, false_iff]
            rw [he]
            exact getLast?_incompleteOf hds
          · rw [drainLoop_bracket hm hne (by simpa using hi), hlast hne]
            exact ih
      · rw [drainLoop_char hc]
        refine ih.trans ?_
        cases s with
        | nil => simp [hc]
        | cons d s => rw [hlast (by simp)]
  | marker ds s hds ih =>
      have hp : (drainLoop allowed false 0 (markerOf ds ++ s)).pending = (drainLoop allowed false 0 s).pending := by
        rw [drainLoop_marker hds]
        split <;> rfl
      rw [hp, ih]
      cases s with
      | nil => simp [markerOf_eq]
      | cons d s => simp [List.getLast?_append]

/-- The last drain puts out a `[` that was held back, and drops an incomplete marker. -/
theorem drainLoop_final (allowed : List SourceId) (h : Held p) :
    (drainLoop allowed true 0 p).output = (if p = ['['] then ['['] else []) ∧
    (drainLoop allowed true 0 p).pending = [] := by
  rcases h with rfl | rfl | ⟨ds, hds, rfl⟩
  · exact ⟨rfl, rfl⟩
  · exact ⟨rfl, rfl⟩
  · have hi : incompleteMarker? ('[' :: ('S' :: ds)) := incompleteMarker?_iff.mpr ⟨ds, hds, rfl⟩
    have hm : anyMarker? ('[' :: ('S' :: ds)) = none := anyMarker?_of_notMem (close_notMem_incompleteOf hds)
    have hd : drainLoop allowed true 0 (incompleteOf ds) = ⟨[], [], true⟩ := by
      show drainLoop allowed true 0 ('[' :: ('S' :: ds)) = _
      rw [drainLoop, if_neg (by simp), hm]
      simp [hi]
    rw [hd]
    exact ⟨by simp [incompleteOf], rfl⟩

/-! ## Feeding -/

/-- The sanitizer has been fed `raw` and has emitted `em`. -/
structure Fed (allowed : List SourceId) (raw em : Text) (st : CitationStreamSanitizer) : Prop where
  allowed_eq : st.allowed = allowed
  raw_eq : st.rawParts.flatten = raw
  emitted_eq : st.emittedParts.flatten = em
  held : Held st.pending
  opens : st.pending = ['['] ↔ raw.getLast? = some '['
  weeds : ∀ z, weed allowed (raw ++ z) = em ++ weed allowed (st.pending ++ z)

theorem Fed.new (allowed : List SourceId) : Fed allowed [] [] (.new allowed) :=
  ⟨rfl, rfl, rfl, Or.inl rfl, by simp [CitationStreamSanitizer.new], fun _ => rfl⟩

theorem record_emitted (st : CitationStreamSanitizer) (e : Text) :
    (st.record e).emittedParts.flatten = st.emittedParts.flatten ++ e := by
  unfold CitationStreamSanitizer.record
  split <;> simp_all

theorem record_other (st : CitationStreamSanitizer) (e : Text) : (st.record e).allowed = st.allowed ∧
    (st.record e).rawParts = st.rawParts ∧ (st.record e).pending = st.pending := by
  unfold CitationStreamSanitizer.record
  split <;> exact ⟨rfl, rfl, rfl⟩

theorem Fed.feed (h : Fed allowed raw em st) (fragment : Text) :
    Fed allowed (raw ++ fragment) (em ++ (st.feed fragment).2) (st.feed fragment).1 := by
  unfold CitationStreamSanitizer.feed
  split
  · rename_i he
    simpa [he] using h
  · obtain ⟨hw, hheld⟩ := drainLoop_spec allowed (st.pending ++ fragment) []
    simp only [CitationStreamSanitizer.drain, Bool.false_and, if_false, Bool.false_eq_true, h.allowed_eq]
    obtain ⟨ha, hr, hp⟩ := record_other (CitationStreamSanitizer.mk allowed
      (drainLoop allowed false 0 (st.pending ++ fragment)).pending (st.rawParts ++ [fragment]) st.emittedParts
      (st.repaired || (drainLoop allowed false 0 (st.pending ++ fragment)).repaired))
      (drainLoop allowed false 0 (st.pending ++ fragment)).output
    refine ⟨ha, ?_, ?_, ?_, ?_, fun z => ?_⟩
    · rw [hr]; simp [h.raw_eq]
    · rw [record_emitted]; simp [h.emitted_eq]
    · rw [hp]; exact hheld
    · rename_i hne
      rw [hp, drainLoop_open, List.getLast?_append_of_ne_nil _ hne, List.getLast?_append_of_ne_nil _ hne]
    · rw [hp, List.append_assoc, h.weeds, ← List.append_assoc st.pending, (drainLoop_spec allowed _ z).1, List.append_assoc]

theorem Fed.feedAll (h : Fed allowed raw em st) (fragments : List Text) :
    Fed allowed (raw ++ fragments.flatten) (em ++ (st.feedAll fragments).2) (st.feedAll fragments).1 := by
  induction fragments generalizing raw em st with
  | nil => simpa [CitationStreamSanitizer.feedAll] using h
  | cons f fs ih =>
      have := ih (h.feed f)
      simpa [CitationStreamSanitizer.feedAll, List.append_assoc] using this

theorem Fed.weed_eq (h : Fed allowed raw em st) : weed allowed raw = em ++ st.pending := by
  have := h.weeds []
  rwa [List.append_nil, List.append_nil, h.held.weed] at this

theorem Fed.finish (h : Fed allowed raw em st) : st.finish.2.text = repairCompleteAnswer raw allowed ∧
    st.finish.1.streamedText = em ++ (if st.pending = ['['] then ['['] else []) := by
  obtain ⟨ho, hp⟩ := drainLoop_final allowed h.held
  simp only [CitationStreamSanitizer.finish, CitationStreamSanitizer.drain, h.allowed_eq, hp, ne_eq,
    not_true_eq_false, decide_false, Bool.and_false, Bool.false_eq_true, if_false]
  obtain ⟨ha, hr, -⟩ := record_other (CitationStreamSanitizer.mk allowed [] st.rawParts st.emittedParts
    (st.repaired || (drainLoop allowed true 0 st.pending).repaired)) (drainLoop allowed true 0 st.pending).output
  refine ⟨?_, ?_⟩
  · rw [ha, hr, h.raw_eq]
  · rw [CitationStreamSanitizer.streamedText, record_emitted, ho]
    simp [h.emitted_eq]

theorem feedAll_append (st : CitationStreamSanitizer) (fs gs : List Text) :
    (st.feedAll (fs ++ gs)).2 = (st.feedAll fs).2 ++ ((st.feedAll fs).1.feedAll gs).2 := by
  induction fs generalizing st with
  | nil => rfl
  | cons f fs ih => simp [CitationStreamSanitizer.feedAll, ih]

/-! ## Fragments -/

/-- The sanitizer stands where one drain of `raw` leaves it, and has emitted `em`. -/
structure Drains (allowed : List SourceId) (raw em : Text) (st : CitationStreamSanitizer) : Prop where
  allowed_eq : st.allowed = allowed
  raw_eq : st.rawParts.flatten = raw
  emitted_eq : st.emittedParts.flatten = em
  drained : drainLoop allowed false 0 raw = ⟨em, st.pending, st.repaired⟩

theorem Drains.new (allowed : List SourceId) : Drains allowed [] [] (.new allowed) := ⟨rfl, rfl, rfl, rfl⟩

theorem record_repaired (st : CitationStreamSanitizer) (e : Text) : (st.record e).repaired = st.repaired := by
  unfold CitationStreamSanitizer.record
  split <;> rfl

theorem Drains.feed (h : Drains allowed raw em st) (fragment : Text) :
    Drains allowed (raw ++ fragment) (em ++ (st.feed fragment).2) (st.feed fragment).1 := by
  unfold CitationStreamSanitizer.feed
  split
  · rename_i he
    simpa [he] using h
  · simp only [CitationStreamSanitizer.drain, Bool.false_and, if_false, Bool.false_eq_true, h.allowed_eq]
    obtain ⟨ha, hr, hp⟩ := record_other (CitationStreamSanitizer.mk allowed
      (drainLoop allowed false 0 (st.pending ++ fragment)).pending (st.rawParts ++ [fragment]) st.emittedParts
      (st.repaired || (drainLoop allowed false 0 (st.pending ++ fragment)).repaired))
      (drainLoop allowed false 0 (st.pending ++ fragment)).output
    refine ⟨ha, ?_, ?_, ?_⟩
    · rw [hr]; simp [h.raw_eq]
    · rw [record_emitted]; simp [h.emitted_eq]
    · rw [drainLoop_append, h.drained, hp, record_repaired]

theorem Drains.feedAll (h : Drains allowed raw em st) (fragments : List Text) :
    Drains allowed (raw ++ fragments.flatten) (em ++ (st.feedAll fragments).2) (st.feedAll fragments).1 := by
  induction fragments generalizing raw em st with
  | nil => simpa [CitationStreamSanitizer.feedAll] using h
  | cons f fs ih =>
      have := ih (h.feed f)
      simpa [CitationStreamSanitizer.feedAll, List.append_assoc] using this

def lastDelta (allowed : List SourceId) (pending : Text) : Text :=
  (drainLoop allowed true 0 pending).output ++ (drainLoop allowed true 0 pending).pending

theorem drain_final (st : CitationStreamSanitizer) : st.drain true =
    ({ st with pending := [], repaired := st.repaired || (drainLoop st.allowed true 0 st.pending).repaired },
      lastDelta st.allowed st.pending) := by
  unfold CitationStreamSanitizer.drain lastDelta
  cases hp : (drainLoop st.allowed true 0 st.pending).pending <;> simp [hp]

theorem finish_streamedText (st : CitationStreamSanitizer) :
    st.finish.1.streamedText = st.emittedParts.flatten ++ lastDelta st.allowed st.pending := by
  simp only [CitationStreamSanitizer.finish, drain_final, CitationStreamSanitizer.streamedText, record_emitted]

theorem finish_answer (st : CitationStreamSanitizer) : st.finish.2 =
    let authoritative := repairCompleteAnswer st.rawParts.flatten st.allowed
    ⟨authoritative, orderedSourceIds authoritative,
      (st.repaired || (drainLoop st.allowed true 0 st.pending).repaired) ||
        decide (authoritative ≠ st.finish.1.streamedText)⟩ := by
  simp only [CitationStreamSanitizer.finish, drain_final, record_other, record_repaired]

theorem Drains.finish_congr {em' : Text} {st' : CitationStreamSanitizer} (h : Drains allowed raw em st)
    (h' : Drains allowed raw em' st') : em = em' ∧ st.finish.2 = st'.finish.2 ∧
      st.finish.1.streamedText = st'.finish.1.streamedText := by
  have he := h.drained.symm.trans h'.drained
  simp only [Drained.mk.injEq] at he
  obtain ⟨rfl, hp, hrep⟩ := he
  have hs : st.finish.1.streamedText = st'.finish.1.streamedText := by
    rw [finish_streamedText, finish_streamedText, h.emitted_eq, h'.emitted_eq, h.allowed_eq, h'.allowed_eq, hp]
  refine ⟨rfl, ?_, hs⟩
  rw [finish_answer, finish_answer, hs, h.raw_eq, h'.raw_eq, h.allowed_eq, h'.allowed_eq, hp, hrep]

theorem drainLoop_passes (allowed : List SourceId) (final : Bool) (s : Text) :
    ∃ used, s = used ++ (drainLoop allowed final 0 s).pending ∧ (drainLoop allowed final 0 s).output.Sublist used := by
  induction s using weed_induction with
  | nil => exact ⟨[], rfl, List.Sublist.slnil⟩
  | keep c s hm ih =>
      obtain ⟨used, hused, hsub⟩ := ih
      have hemit : ∃ used, c :: s = used ++ ((drainLoop allowed final 0 s).emit [c]).pending ∧
          ((drainLoop allowed final 0 s).emit [c]).output.Sublist used :=
        ⟨c :: used, congrArg (c :: ·) hused, hsub.cons_cons c⟩
      rw [drainLoop]
      split
      · exact hemit
      · rename_i hc
        rw [not_not] at hc
        subst hc
        rw [hm]
        dsimp only
        split
        · exact ⟨[], rfl, List.Sublist.slnil⟩
        · split
          · exact ⟨'[' :: s, by simp, List.nil_sublist _⟩
          · exact hemit
  | marker ds s hds ih =>
      obtain ⟨used, hused, hsub⟩ := ih
      rw [drainLoop_marker hds]
      refine ⟨markerOf ds ++ used, ?_, ?_⟩
      · split <;> simpa [Drained.emit] using hused
      · split
        · exact hsub.append_left _
        · exact hsub.trans (List.sublist_append_right _ _)

theorem lastDelta_sublist (allowed : List SourceId) (s : Text) : (lastDelta allowed s).Sublist s := by
  obtain ⟨used, hused, hsub⟩ := drainLoop_passes allowed true s
  conv_rhs => rw [hused]
  exact hsub.append_right _

theorem feed_sublist (st : CitationStreamSanitizer) (fragment : Text) :
    (st.feed fragment).2.Sublist (st.pending ++ fragment) := by
  unfold CitationStreamSanitizer.feed
  split
  · exact List.nil_sublist _
  · obtain ⟨used, hused, hsub⟩ := drainLoop_passes st.allowed false (st.pending ++ fragment)
    simp only [CitationStreamSanitizer.drain, Bool.false_and, if_false, Bool.false_eq_true]
    conv_rhs => rw [hused]
    exact hsub.trans (List.sublist_append_left _ _)

/-! ## What the answer may still contain -/

/-- Behind an incomplete marker, or around it, fabricated markers and whitespace hide another one. -/
def LeavesIncomplete (allowed : List SourceId) (raw : Text) : Prop :=
  ∃ x v t, raw = x ++ v ∧ Woven allowed v t ∧ IncompleteEnd t

theorem IncompleteEnd.shape (h : IncompleteEnd t) : (∃ u, t = '[' :: u) ∧ ']' ∉ t := by
  obtain ⟨ds, w, hds, hw, ⟨rfl, -⟩ | ⟨ds', e, hds', he, rfl⟩⟩ := h
  · refine ⟨⟨_, rfl⟩, ?_⟩
    simp [close_notMem_incompleteOf hds, notMem_of_isSpace hw (c := ']') (by decide)]
  · refine ⟨⟨_, rfl⟩, ?_⟩
    simp [close_notMem_incompleteOf hds, close_notMem_incompleteOf hds', notMem_of_isSpace hw (c := ']') (by decide),
      notMem_of_isSpace he.spaces (c := ']') (by decide)]

theorem leavesIncomplete_iff :
    LeavesIncomplete allowed raw ↔ ∃ t, t <:+ weed allowed raw ∧ IncompleteEnd t := by
  constructor
  · rintro ⟨x, v, t, rfl, hv, ht⟩
    obtain ⟨⟨u, rfl⟩, hclose⟩ := ht.shape
    obtain ⟨v, rfl⟩ := hv.head_open
    obtain ⟨y, hy⟩ := weed_append_open allowed x v
    refine ⟨_, ⟨y, ?_⟩, ht⟩
    have hw := weed_woven hv hclose (z := []) fun _ => rfl
    simp only [List.append_nil, weed_nil] at hw
    rw [hy, hw]
  · rintro ⟨t, ⟨x, hx⟩, ht⟩
    obtain ⟨⟨u, rfl⟩, -⟩ := ht.shape
    obtain ⟨y, ⟨a, rfl⟩, hy⟩ := weed_suffix hx.symm
    exact ⟨a, y, _, rfl, hy ▸ woven_weed y, ht⟩

theorem incomplete_repair_iff :
    (∃ ds, (∀ c ∈ ds, isDigit c) ∧ incompleteOf ds <:+ repairCompleteAnswer raw allowed) ↔
      LeavesIncomplete allowed raw := by
  rw [repairCompleteAnswer_eq, incomplete_polish_iff, leavesIncomplete_iff]

theorem splices_of_fabricates_repair (h : Fabricates allowed (repairCompleteAnswer raw allowed)) :
    Splices allowed raw := by
  obtain ⟨ds, hds, hal, h⟩ := h
  exact splices_of_fabricates_weed ⟨ds, hds, hal, infix_polish hds.2 h⟩

theorem weed_eq_self (h : ¬Fabricates allowed s) : weed allowed s = s := by
  induction s using weed_induction with
  | nil => rfl
  | keep c s hm ih =>
      rw [weed_keep hm, ih]
      rintro ⟨ds, hds, hal, hi⟩
      exact h ⟨ds, hds, hal, hi.trans (List.suffix_cons c s).isInfix⟩
  | marker ds s hds ih =>
      have hal : allows allowed ds := by
        by_contra hal
        exact h ⟨ds, hds, by simpa using hal, [], s, rfl⟩
      rw [weed_marker hds, if_pos hal, ih]
      rintro ⟨ds', hds', hal', hi⟩
      exact h ⟨ds', hds', hal', hi.trans (List.suffix_append _ s).isInfix⟩

theorem canonical_of_allows (h : allows allowed ds) : isCanonical ds := by
  simp only [allows, decide_eq_true_eq, List.mem_map, SourceId.text, List.cons.injEq, true_and] at h
  obtain ⟨i, -, rfl⟩ := h
  exact i.canonical

/-- A complete marker does not reach into what is held back. -/
theorem marker_infix_of_held (h : Held p) (hm : markerOf ds <:+: s ++ p) : markerOf ds <:+: s := by
  obtain ⟨x, y, hxy⟩ := hm
  have he : s ++ p = (x ++ incompleteOf ds) ++ ']' :: y := by rw [← hxy, markerOf_eq]; simp
  rcases List.append_eq_append_iff.mp he with ⟨z, -, rfl⟩ | ⟨z, rfl, hz⟩
  · exact absurd (by simp) h.close_notMem
  · cases z with
    | nil => exact absurd (by rw [List.nil_append] at hz; simp [← hz]) h.close_notMem
    | cons d z =>
        rw [← (List.cons.inj hz).1, markerOf_eq]
        exact ⟨x, z, by simp⟩

/-- An answer without fabricated and incomplete markers is not repaired any further. -/
theorem repair_repair (hf : ¬Fabricates allowed (repairCompleteAnswer raw allowed))
    (hi : ¬LeavesIncomplete allowed raw) :
    repairCompleteAnswer (repairCompleteAnswer raw allowed) allowed = repairCompleteAnswer raw allowed := by
  rw [← incomplete_repair_iff] at hi
  rw [repairCompleteAnswer_eq (repairCompleteAnswer raw allowed), weed_eq_self hf]
  rw [repairCompleteAnswer_eq] at hi ⊢
  exact polish_eq_self (fun ds hds h => hi ⟨ds, hds, h⟩) (not_repeats_polish _) (not_blankBeforePunctuation_polish _)
    (not_doubleBlank_polish _) (strip_polish _)

end Etoeragcb.Chat
