/-!
# Computations that read a changing state

A computation reads the state again and again, and other steps may change the state between two reads. A view is what
the reads of a computation depend on, and a stamp is a number that grows whenever the view changes. As long as the
stamp is the one that was read first, the computation is as good as one that reads everything now.
-/

namespace Etoeragcb.Lib

universe u v w

variable {σ : Type u} {α β : Type v} {ω : Type w}

/-- A computation that reads the state, as often as it likes, and returns. -/
inductive Reads (σ : Type u) (α : Type v)
  | done (a : α)
  | ask (next : σ → Reads σ α)

namespace Reads

/-- What a computation returns if the state stays as it is. -/
def eval (s : σ) : Reads σ α → α
  | .done a => a
  | .ask next => eval s (next s)

def bind : Reads σ α → (α → Reads σ β) → Reads σ β
  | .done a, f => f a
  | .ask next, f => .ask fun s => bind (next s) f

/-- Every state that looks like `s` answers the reads as `s` does. -/
def Steady (view : σ → ω) (s : σ) : Reads σ α → Prop
  | .done _ => True
  | .ask next => (∀ s', view s' = view s → next s' = next s) ∧ Steady view s (next s)

variable {view : σ → ω} {s s' : σ}

theorem Steady.ite {c : Prop} [Decidable c] {m m' : Reads σ α} (h : c → m.Steady view s) (h' : ¬c → m'.Steady view s) :
    (if c then m else m').Steady view s := by
  split
  · rename_i hc
    exact h hc
  · rename_i hc
    exact h' hc

theorem eval_ite (s : σ) (c : Prop) [Decidable c] (m m' : Reads σ α) :
    eval s (if c then m else m') = if c then eval s m else eval s m' := by
  split <;> rfl

/-- A steady computation does not tell apart two states that look the same. -/
theorem Steady.congr {m : Reads σ α} (h : m.Steady view s) (hv : view s' = view s) :
    m.Steady view s' ∧ eval s' m = eval s m := by
  induction m with
  | done a => exact ⟨trivial, rfl⟩
  | ask next ih =>
      obtain ⟨hnext, hrest⟩ := h
      obtain ⟨hsteady, heval⟩ := ih s hrest
      refine ⟨⟨fun s'' hv' => ?_, ?_⟩, ?_⟩
      · rw [hnext s' hv, hnext s'' (hv'.trans hv)]
      · rw [hnext s' hv]
        exact hsteady
      · simp only [eval, hnext s' hv]
        exact heval

theorem Steady.ask {next : σ → Reads σ α} (h : (Reads.ask next).Steady view s) :
    (next s).Steady view s ∧ eval s (next s) = eval s (.ask next) := ⟨h.2, rfl⟩

theorem Steady.bind {m : Reads σ α} {f : α → Reads σ β} (hm : m.Steady view s) (hf : (f (eval s m)).Steady view s) :
    (m.bind f).Steady view s := by
  induction m with
  | done a => exact hf
  | ask next ih =>
      obtain ⟨hnext, hrest⟩ := hm
      refine ⟨fun s' hv => ?_, ih s hrest hf⟩
      show (next s').bind f = (next s).bind f
      rw [hnext s' hv]

/-- Whatever the reads are answered, the computation returns a value that meets `p`. -/
def Returns (p : α → Prop) : Reads σ α → Prop
  | .done a => p a
  | .ask next => ∀ s, Returns p (next s)

end Reads

/-! ## Stamps -/

section Stamps

variable {stamp : σ → Nat} {view : σ → ω} {p q : σ → Prop} {s s' : σ} {n : Nat}

/-- The stamp does not decrease, and as long as it stays the view does. -/
def Stamped (stamp : σ → Nat) (view : σ → ω) (s s' : σ) : Prop :=
  stamp s ≤ stamp s' ∧ (stamp s' = stamp s → view s' = view s)

theorem Stamped.of_eq (hstamp : stamp s' = stamp s) (hview : view s' = view s) : Stamped stamp view s s' :=
  ⟨Nat.le_of_eq hstamp.symm, fun _ => hview⟩

/-- The stamp has come to `n`, and as long as it is `n` the state meets `p`. -/
def AsOf (stamp : σ → Nat) (n : Nat) (p : σ → Prop) (s : σ) : Prop := n ≤ stamp s ∧ (stamp s = n → p s)

theorem AsOf.now (h : p s) : AsOf stamp (stamp s) p s := ⟨Nat.le_refl _, fun _ => h⟩

theorem AsOf.imp (h : AsOf stamp n p s) (hpq : stamp s = n → p s → q s) : AsOf stamp n q s :=
  ⟨h.1, fun he => hpq he (h.2 he)⟩

theorem AsOf.step (h : AsOf stamp n p s) (hs : Stamped stamp view s s')
    (hp : ∀ s s', view s' = view s → p s → p s') : AsOf stamp n p s' := by
  refine ⟨Nat.le_trans h.1 hs.1, fun he => ?_⟩
  have hstamp : stamp s = n := Nat.le_antisymm (he ▸ hs.1) h.1
  exact hp s s' (hs.2 (he.trans hstamp.symm)) (h.2 hstamp)

end Stamps

end Etoeragcb.Lib
