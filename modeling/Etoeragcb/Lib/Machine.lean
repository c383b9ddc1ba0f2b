import Mathlib.Logic.Relation

/-!
# Machines and their runs

A machine is a partial step function: an action moves a state to its successor, or is refused in it.
A run takes actions one after the other, each of which may be required to meet a condition in the state
it is taken in. The rules below turn what one step preserves into what a whole run preserves.
-/

namespace Etoeragcb.Lib

universe u v

variable {σ : Type u} {α : Type v} {step : σ → α → Option σ} {ok ok' : σ → α → Prop}

/-- One step of a machine by an action that meets `ok` in the state it is taken in. -/
def Step (step : σ → α → Option σ) (ok : σ → α → Prop) (s t : σ) : Prop :=
  ∃ a, ok s a ∧ step s a = some t

/-- `t` is reached from `s` by actions that each meet `ok`. -/
abbrev Run (step : σ → α → Option σ) (ok : σ → α → Prop) : σ → σ → Prop :=
  Relation.ReflTransGen (Step step ok)

/-- The state after a list of actions, if each of them meets `ok` and none is refused. -/
def exec (step : σ → α → Option σ) (ok : σ → α → Prop) [∀ s a, Decidable (ok s a)] :
    σ → List α → Option σ
  | s, [] => some s
  | s, a :: as => if ok s a then (step s a).bind (exec step ok · as) else none

theorem Run.refl (s : σ) : Run step ok s s := Relation.ReflTransGen.refl

theorem Run.snoc {s t u : σ} {a : α} (h : Run step ok s t) (ha : ok t a) (hs : step t a = some u) :
    Run step ok s u :=
  h.tail ⟨a, ha, hs⟩

theorem Run.mono (himp : ∀ s a, ok s a → ok' s a) {s t : σ} (h : Run step ok s t) :
    Run step ok' s t := by
  induction h with
  | refl => exact Run.refl s
  | tail _ hst ih =>
      obtain ⟨a, ha, he⟩ := hst
      exact ih.tail ⟨a, himp _ a ha, he⟩

/-- What holds of the first state and is kept by every step holds of the last one. -/
theorem Run.invariant {p : σ → Prop}
    (hstep : ∀ s a t, p s → ok s a → step s a = some t → p t) {s t : σ}
    (h : Run step ok s t) (hs : p s) : p t := by
  induction h with
  | refl => exact hs
  | tail _ hst ih =>
      obtain ⟨a, ha, he⟩ := hst
      exact hstep _ a _ ih ha he

/-- A relation that is reflexive and transitive holds along a run if every step from a state with the
invariant establishes it. -/
theorem Run.relation {p : σ → Prop} {r : σ → σ → Prop} (hrefl : ∀ s, r s s)
    (htrans : ∀ s t u, r s t → r t u → r s u)
    (hinv : ∀ s a t, p s → ok s a → step s a = some t → p t)
    (hstep : ∀ s a t, p s → ok s a → step s a = some t → r s t) {s t : σ}
    (h : Run step ok s t) (hs : p s) : r s t := by
  induction h with
  | refl => exact hrefl s
  | tail hrun hst ih =>
      obtain ⟨a, ha, he⟩ := hst
      exact htrans _ _ _ ih (hstep _ a _ (Run.invariant hinv hrun hs) ha he)

theorem Run.of_exec [∀ s a, Decidable (ok s a)] {s t : σ} {as : List α} (h : exec step ok s as = some t) :
    Run step ok s t := by
  induction as generalizing s with
  | nil => cases h; exact Run.refl _
  | cons a as ih =>
      simp only [exec] at h
      split at h
      · rename_i ha
        obtain ⟨u, hu, h⟩ := Option.bind_eq_some_iff.mp h
        exact Relation.ReflTransGen.head ⟨a, ha, hu⟩ (ih h)
      · cases h

end Etoeragcb.Lib
