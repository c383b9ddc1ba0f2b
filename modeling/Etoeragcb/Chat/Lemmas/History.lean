import Etoeragcb.Chat.History
import Etoeragcb.Lib.Recency

/-!
# Which messages are sent

The two loops as a scan that passes over messages and a list that is shortened from its oldest end.
-/

namespace Etoeragcb.Chat

open Lib Models Rag

/-- A counter that does not count less when text or messages are added. -/
structure MonotoneCounter (limits : HistoryLimits) : Prop where
  count_le : ∀ s t, s <:+: t → limits.count s ≤ limits.count t
  countChat_le : ∀ l l' : List ChatMessage, l.Sublist l' → limits.countChat l ≤ limits.countChat l'

variable (limits : HistoryLimits) (question : Text) (context : PackedContext) (grounded : Bool)

/-- The serialized messages are within the history budget. -/
def FitsHistory (items : List ChatMessage) : Prop := limits.count (serialize items) ≤ limits.historyTokenBudget

/-- The prompt with the messages is within the prompt budget. -/
def FitsPrompt (items : List ChatMessage) : Prop :=
  limits.countChat (generationMessages question context items grounded) ≤ limits.promptTokenBudget

instance : DecidablePred (FitsHistory limits) := fun _ => inferInstanceAs (Decidable (_ ≤ _))

instance : DecidablePred (FitsPrompt limits question context grounded) := fun _ => inferInstanceAs (Decidable (_ ≤ _))

variable {limits question context grounded} {items items' : List ChatMessage}

/-! ## The budgets -/

theorem serialize_suffix_cons (item : ChatMessage) (items : List ChatMessage) :
    serialize items <:+ serialize (item :: items) := by
  cases items with
  | nil => exact List.nil_suffix
  | cons item' items => exact ⟨roleText item.role ++ ": ".toList ++ item.content ++ ['\n'], by simp [serialize]⟩

theorem serialize_suffix (h : items <:+ items') : serialize items <:+ serialize items' := by
  obtain ⟨older, rfl⟩ := h
  induction older with
  | nil => exact List.suffix_refl _
  | cons item older ih => exact ih.trans (serialize_suffix_cons item (older ++ items))

theorem FitsHistory.of_suffix (hmono : MonotoneCounter limits) (h : items <:+ items') (hfits : FitsHistory limits items') :
    FitsHistory limits items :=
  (hmono.count_le _ _ (serialize_suffix h).isInfix).trans hfits

theorem FitsPrompt.of_suffix (hmono : MonotoneCounter limits) (h : items <:+ items')
    (hfits : FitsPrompt limits question context grounded items') : FitsPrompt limits question context grounded items := by
  refine le_trans (hmono.countChat_le _ _ ?_) hfits
  exact ((List.Sublist.refl _).append h.sublist).append (List.Sublist.refl _)

/-! ## The loops -/

theorem historyLoop_eq (rows : List (MessageId × StoredMessage)) (selected : List ChatMessage) :
    historyLoop limits rows selected = takeFitting (FitsHistory limits) (rows.map historyMessage) selected := by
  induction rows generalizing selected with
  | nil => rfl
  | cons message rows ih =>
      rw [historyLoop, List.map_cons, takeFitting]
      by_cases h : FitsHistory limits (historyMessage message :: selected)
      · rw [if_neg (not_lt.mpr h), if_pos h, ih]
      · rw [if_pos (not_le.mp h), if_neg h, ih]

theorem boundedGenerationMessages_eq : boundedGenerationMessages limits question context items grounded =
    match shorten (FitsPrompt limits question context grounded) items with
    | some items => .ok (generationMessages question context items grounded)
    | none => .error ⟨"prompt_too_large", false⟩ := by
  induction items with
  | nil =>
      by_cases h : FitsPrompt limits question context grounded []
      · rw [shorten_of_fits h]
        exact if_pos h
      · rw [shorten_nil_of_not h]
        exact if_neg h
  | cons item items ih =>
      by_cases h : FitsPrompt limits question context grounded (item :: items)
      · rw [shorten_of_fits h]
        exact if_pos h
      · rw [shorten_cons_of_not h, ← ih]
        exact if_neg h

theorem generationMessages_inj (h : generationMessages question context items grounded =
    generationMessages question context items' grounded) : items = items' :=
  List.append_cancel_left (List.append_cancel_right h)

/-- Two histories lead to the same messages exactly if they are shortened to the same. -/
theorem boundedGenerationMessages_eq_iff : boundedGenerationMessages limits question context items grounded =
    boundedGenerationMessages limits question context items' grounded ↔
      shorten (FitsPrompt limits question context grounded) items =
        shorten (FitsPrompt limits question context grounded) items' := by
  rw [boundedGenerationMessages_eq, boundedGenerationMessages_eq]
  refine ⟨fun h => ?_, fun h => by rw [h]⟩
  cases hs : shorten (FitsPrompt limits question context grounded) items with
  | none =>
      cases hs' : shorten (FitsPrompt limits question context grounded) items' with
      | none => rfl
      | some sent' => rw [hs, hs'] at h; cases h
  | some sent =>
      cases hs' : shorten (FitsPrompt limits question context grounded) items' with
      | none => rw [hs, hs'] at h; cases h
      | some sent' =>
          rw [hs, hs'] at h
          rw [generationMessages_inj (Except.ok.inj h)]

end Etoeragcb.Chat
