import Std.Tactic.Do
import Std.Do

/-!
# Programs in which one operation raises

A program over a state stops at an exception and keeps the state that it has reached. One exception may be pending: it
is raised when the program comes to its point, and is then no longer pending. The rules are those of `Std.Do`, where a
postcondition has a part for the exceptions.
-/

namespace Etoeragcb.Lib

open Std.Do

set_option mvcgen.warning false

structure Fault (π ε : Type) where
  point : π
  failure : ε

/-- A state with the exception that is still to be raised. -/
structure Faulted (π ε σ : Type) where
  state : σ
  pending : Option (Fault π ε)

abbrev FaultM (π ε σ : Type) := ExceptT ε (StateM (Faulted π ε σ))

variable {π ε σ α : Type}

def getState : FaultM π ε σ σ := do return (← get).state

def modifyState (f : σ → σ) : FaultM π ε σ Unit := modify fun w => { w with state := f w.state }

/-- The value, or the failure that is raised when there is none. -/
def orFail (o : Option α) (e : ε) : FaultM π ε σ α :=
  match o with
  | some a => pure a
  | none => throw e

def reach [DecidableEq π] (p : π) : FaultM π ε σ Unit := do
  let w ← get
  match w.pending with
  | some f =>
      if f.point = p then
        set ({ w with pending := none } : Faulted π ε σ)
        throw f.failure
  | none => pure ()

variable {P : Faulted π ε σ → Prop} {Q : α → Faulted π ε σ → Prop} {E : ε → Faulted π ε σ → Prop}

/-- What a triple says of a run. -/
theorem run_of_triple {m : FaultM π ε σ α}
    (h : ⦃fun w => ⌜P w⌝⦄ m ⦃post⟨fun a w => ⌜Q a w⌝, fun e w => ⌜E e w⌝⟩⦄) {w : Faulted π ε σ} (hp : P w) :
    (∀ a w', m w = (.ok a, w') → Q a w') ∧ ∀ e w', m w = (.error e, w') → E e w' := by
  have hw := h w hp
  constructor
  · intro a w' hm
    have hrun : (StateT.run (ExceptT.run m) w).run = (.ok a, w') := hm
    simpa [wp, hrun] using hw
  · intro e w' hm
    have hrun : (StateT.run (ExceptT.run m) w).run = (.error e, w') := hm
    simpa [wp, hrun] using hw

end Etoeragcb.Lib
