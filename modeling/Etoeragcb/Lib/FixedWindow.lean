import Mathlib.Data.List.Induction
import Mathlib.Logic.Function.Basic

/-!
# Counters over fixed windows

A counter for each key, which expires a fixed span after its first hit.
-/

namespace Etoeragcb.Lib

universe u

structure Counter where
  value : Nat
  expiresAt : Nat
deriving DecidableEq

/-- The counter after a hit: a missing or expired one starts again at one. -/
def Counter.hit (span now : Nat) : Option Counter → Counter
  | none => ⟨1, now + span⟩
  | some c => if now < c.expiresAt then ⟨c.value + 1, c.expiresAt⟩ else ⟨1, now + span⟩

/-- The window after a time: a window of the span starts with a time that lies in no earlier one. -/
def nextWindow (span : Nat) (start : Option Nat) (now : Nat) : Option Nat :=
  match start with
  | none => some now
  | some s => if now < s + span then some s else some now

/-- The start of the window that the last of the times lies in. -/
def windowStart (span : Nat) (times : List Nat) : Option Nat := times.foldl (nextWindow span) none

/-- The number of the times that lie in the window of the last one. -/
def inWindow (span : Nat) (times : List Nat) : Nat :=
  match windowStart span times with
  | none => 0
  | some s => times.countP (s ≤ ·)

/-- What is left at the last time `now` of its window. -/
def windowLeft (span : Nat) (times : List Nat) (now : Nat) : Nat := ((windowStart span times).getD now + span) - now

/-- What the counter of a key should be after hits at the times. -/
def summary (span : Nat) (times : List Nat) : Option Counter :=
  (windowStart span times).map fun s => ⟨inWindow span times, s + span⟩

variable {span now : Nat} {times : List Nat}

theorem windowStart_append : windowStart span (times ++ [now]) = nextWindow span (windowStart span times) now := by
  simp [windowStart]

theorem windowStart_mem {s : Nat} (h : windowStart span times = some s) : s ∈ times := by
  induction times using List.reverseRecOn generalizing s with
  | nil => cases h
  | append_singleton times now ih =>
      rw [windowStart_append] at h
      cases hstart : windowStart span times with
      | none =>
          rw [hstart] at h
          cases h
          exact List.mem_append_right _ (List.mem_singleton_self _)
      | some s₀ =>
          rw [hstart, nextWindow] at h
          split at h
          · cases h
            exact List.mem_append_left _ (ih hstart)
          · cases h
            exact List.mem_append_right _ (List.mem_singleton_self _)

theorem windowStart_eq_none : windowStart span times = none ↔ times = [] := by
  rcases List.eq_nil_or_concat times with rfl | ⟨times, now, rfl⟩
  · simp [windowStart]
  · rw [List.concat_eq_append, windowStart_append]
    have hsome : nextWindow span (windowStart span times) now ≠ none := by
      unfold nextWindow
      split
      · simp
      · split <;> simp
    simp [hsome]

theorem lt_windowEnd {s t : Nat} (hspan : 0 < span) (horder : times.Pairwise (· ≤ ·)) (h : windowStart span times = some s)
    (ht : t ∈ times) : t < s + span := by
  induction times using List.reverseRecOn generalizing s t with
  | nil => cases ht
  | append_singleton times now ih =>
      obtain ⟨hbefore, -, hlast⟩ := List.pairwise_append.mp horder
      rw [windowStart_append] at h
      rw [List.mem_append, List.mem_singleton] at ht
      cases hstart : windowStart span times with
      | none =>
          rw [hstart] at h
          cases h
          rw [windowStart_eq_none.mp hstart] at ht
          rcases ht with ht | rfl
          · cases ht
          · omega
      | some s₀ =>
          rw [hstart, nextWindow] at h
          split at h
          · rename_i hin
            cases h
            rcases ht with ht | rfl
            · exact ih hbefore hstart ht
            · exact hin
          · cases h
            rcases ht with ht | rfl
            · have hle := hlast t ht now (List.mem_singleton_self now)
              omega
            · omega

theorem hit_summary (hspan : 0 < span) (horder : (times ++ [now]).Pairwise (· ≤ ·)) :
    summary span (times ++ [now]) = some (Counter.hit span now (summary span times)) := by
  obtain ⟨hbefore, -, hlast⟩ := List.pairwise_append.mp horder
  cases hstart : windowStart span times with
  | none =>
      rw [windowStart_eq_none.mp hstart]
      simp [summary, windowStart, nextWindow, Counter.hit, inWindow]
  | some s =>
      by_cases hin : now < s + span
      · have hnext : windowStart span (times ++ [now]) = some s := by
          rw [windowStart_append, hstart, nextWindow, if_pos hin]
        have hs : s ≤ now := hlast s (windowStart_mem hstart) now (List.mem_singleton_self now)
        simp [summary, inWindow, hnext, hstart, Counter.hit, hin, hs]
      · have hnext : windowStart span (times ++ [now]) = some now := by
          rw [windowStart_append, hstart, nextWindow, if_neg hin]
        have hnone : times.countP (now ≤ ·) = 0 := by
          rw [List.countP_eq_zero]
          intro t ht
          have hlt := lt_windowEnd hspan hbefore hstart ht
          simp only [decide_eq_true_eq]
          omega
        simp [summary, inWindow, hnext, hstart, Counter.hit, hin, hnone]

/-! ## One counter for each key -/

/-- A hit on a key, whose window has the span. -/
structure Hit (κ : Type u) where
  key : κ
  span : Nat
  now : Nat

variable {κ : Type u} [DecidableEq κ]

def hit (counters : κ → Option Counter) (x : Hit κ) : κ → Option Counter :=
  Function.update counters x.key (some (Counter.hit x.span x.now (counters x.key)))

def hitTimes (hits : List (Hit κ)) (key : κ) : List Nat := (hits.filter fun x => x.key = key).map (·.now)

theorem hits_summary {hits : List (Hit κ)} {key : κ} (hspan : 0 < span) (hsame : ∀ x ∈ hits, x.key = key → x.span = span)
    (horder : (hitTimes hits key).Pairwise (· ≤ ·)) :
    hits.foldl hit (fun _ => none) key = summary span (hitTimes hits key) := by
  induction hits using List.reverseRecOn with
  | nil => rfl
  | append_singleton hits x ih =>
      have hbefore : ∀ y ∈ hits, y.key = key → y.span = span := fun y hy => hsame y (List.mem_append_left _ hy)
      rw [List.foldl_append, List.foldl_cons, List.foldl_nil, hit]
      by_cases hx : x.key = key
      · have htimes : hitTimes (hits ++ [x]) key = hitTimes hits key ++ [x.now] := by simp [hitTimes, hx]
        rw [htimes] at horder ⊢
        rw [hx, Function.update_self, ih hbefore (List.pairwise_append.mp horder).1,
          hsame x (List.mem_append_right _ (List.mem_singleton_self x)) hx, hit_summary hspan horder]
      · have htimes : hitTimes (hits ++ [x]) key = hitTimes hits key := by simp [hitTimes, hx]
        rw [htimes] at horder ⊢
        rw [Function.update_of_ne (Ne.symm hx), ih hbefore horder]

end Etoeragcb.Lib
