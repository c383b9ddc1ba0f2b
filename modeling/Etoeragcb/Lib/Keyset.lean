import Etoeragcb.Lib.Sort

/-!
# Pages behind a position

Listings that are read page by page, each page from where the last one ended.
-/

namespace Etoeragcb.Lib

universe u v w

/-! ## Following the cursors -/

structure Page (β : Type u) (τ : Type v) where
  items : List β
  nextCursor : Option τ
deriving DecidableEq

variable {α β : Type u} {τ : Type v} {ε : Type w}

/-- The items of the pages from a cursor on, if `fuel` pages are enough to come to the last one. The first page has the limit
`limits 0`, the next one `limits 1` and so on. -/
def follow (fetch : Option τ → Nat → Except ε (Page β τ)) : (Nat → Nat) → Nat → Option τ → Option (Except ε (List β))
  | _, 0, _ => none
  | limits, fuel + 1, cursor =>
      match fetch cursor (limits 0) with
      | .error e => some (.error e)
      | .ok page =>
          match page.nextCursor with
          | none => some (.ok page.items)
          | some next => (follow fetch (fun i => limits (i + 1)) fuel (some next)).map fun r => r.map (page.items ++ ·)

/-- A page at a cursor that stands before `rest` shows what the limit admits of it, and has a cursor that stands
behind that if
there is more. -/
def Serves (fetch : Option τ → Nat → Except ε (Page β τ)) (view : α → β) (Stands : Option τ → List α → Prop) : Prop :=
  ∀ cursor rest limit, Stands cursor rest → 1 ≤ limit → ∃ next, fetch cursor limit = .ok ⟨(rest.take limit).map view, next⟩ ∧
    ((rest.length ≤ limit ∧ next = none) ∨ (limit < rest.length ∧ ∃ c, next = some c ∧ Stands (some c) (rest.drop limit)))

/-- The pages show what the cursor stands before, one after the other, and come to an end. -/
theorem Serves.follow_eq {fetch : Option τ → Nat → Except ε (Page β τ)} {view : α → β} {Stands : Option τ → List α → Prop}
    (h : Serves fetch view Stands) {limits : Nat → Nat} (hlimits : ∀ i, 1 ≤ limits i) {fuel : Nat} {cursor : Option τ}
    {rest : List α} (hstands : Stands cursor rest) (hpos : 1 ≤ fuel) (hfuel : rest.length ≤ fuel) :
    follow fetch limits fuel cursor = some (.ok (rest.map view)) := by
  induction fuel generalizing limits cursor rest with
  | zero => omega
  | succ fuel ih =>
      have hlimit := hlimits 0
      obtain ⟨next, hfetch, hnext⟩ := h cursor rest (limits 0) hstands hlimit
      rw [follow, hfetch]
      rcases hnext with ⟨hle, rfl⟩ | ⟨hlt, c, rfl, hstands⟩
      · rw [List.take_of_length_le hle]
      · have hlength : (rest.drop (limits 0)).length = rest.length - limits 0 := List.length_drop
        have hrest := ih (fun i => hlimits (i + 1)) hstands (by omega) (by omega)
        simp only [hrest, Option.map_some, Except.map]
        rw [← List.map_append, List.take_append_drop]

/-! ## Positions -/

variable {κ : Type v} [LinearOrder κ] {key : α → κ} {items done rest : List α} {last : α}

/-- Behind the key of an item stand those that follow it in the order of the keys. -/
theorem sortBy_filter_behind (hinj : ∀ a ∈ items, ∀ b ∈ items, key a = key b → a = b) (hnodup : items.Nodup)
    (h : sortBy key items = done ++ last :: rest) : sortBy key (items.filter fun x => key last < key x) = rest := by
  have hsorted := sortBy_pairwise key items
  have hperm := sortBy_perm key items
  have hmem : ∀ x ∈ done ++ last :: rest, x ∈ items := fun x hx => hperm.subset (h ▸ hx)
  have hdistinct : (done ++ last :: rest).Nodup := h ▸ hperm.nodup_iff.mpr hnodup
  rw [h, List.pairwise_append, List.pairwise_cons] at hsorted
  rw [List.nodup_append', List.nodup_cons] at hdistinct
  have hrest : ∀ x ∈ rest, key last < key x := fun x hx => by
    refine lt_of_le_of_ne (hsorted.2.1.1 x hx) fun he => hdistinct.2.1.1 ?_
    rw [hinj last (hmem last (by simp)) x (hmem x (by simp [hx])) he]
    exact hx
  have hdone : ∀ x ∈ done ++ [last], ¬key last < key x := fun x hx => by
    rcases List.mem_append.mp hx with hx | hx
    · exact not_lt.mpr (hsorted.2.2 x hx last List.mem_cons_self)
    · rw [List.mem_singleton.mp hx]
      exact lt_irrefl _
  have hfilter : (sortBy key items).filter (fun x => key last < key x) = rest := by
    rw [h, ← List.singleton_append, ← List.append_assoc, List.filter_append,
      List.filter_eq_nil_iff.mpr (by simpa using hdone), List.nil_append, List.filter_eq_self.mpr (by simpa using hrest)]
  have hself : sortBy key rest = rest := sortBy_eq_self hsorted.2.1.2
  rw [← hself]
  refine sortBy_congr_perm ?_ ?_
  · rw [← hfilter]
    exact (hperm.filter _).symm
  · intro a ha b hb he
    exact hinj a (List.mem_of_mem_filter ha) b (List.mem_of_mem_filter hb) he

end Etoeragcb.Lib
