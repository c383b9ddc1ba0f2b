import Mathlib.Data.List.Sort

/-!
# Sorting by a key

`sorted(items, key=…)`, which is stable. Items that the key tells apart have one order only, whatever order they
came in.
-/

namespace Etoeragcb.Lib

universe u v w

variable {α : Type u} {β : Type v} {γ : Type w} [LinearOrder β]

def sortBy (key : α → β) (items : List α) : List α := items.insertionSort fun a b => key a ≤ key b

variable {key : α → β} {items items' : List α}

instance instTotalKeyLe (key : α → β) : Std.Total fun a b => key a ≤ key b := ⟨fun a b => le_total (key a) (key b)⟩

instance instIsTransKeyLe (key : α → β) : IsTrans α fun a b => key a ≤ key b := ⟨fun _ _ _ => le_trans⟩

theorem sortBy_perm (key : α → β) (items : List α) : (sortBy key items).Perm items := List.perm_insertionSort _ _

@[simp] theorem mem_sortBy {a : α} : a ∈ sortBy key items ↔ a ∈ items := (sortBy_perm key items).mem_iff

@[simp] theorem length_sortBy : (sortBy key items).length = items.length := (sortBy_perm key items).length_eq

theorem sortBy_pairwise (key : α → β) (items : List α) : (sortBy key items).Pairwise fun a b => key a ≤ key b :=
  List.pairwise_insertionSort _ _

theorem sortBy_congr_perm (h : items.Perm items') (hinj : ∀ a ∈ items, ∀ b ∈ items, key a = key b → a = b) :
    sortBy key items = sortBy key items' := by
  have hp : (sortBy key items).Perm (sortBy key items') :=
    (sortBy_perm key items).trans (h.trans (sortBy_perm key items').symm)
  refine hp.eq_of_pairwise ?_ (sortBy_pairwise key items) (sortBy_pairwise key items')
  intro a b ha hb hab hba
  exact hinj a (mem_sortBy.mp ha) b (h.mem_iff.mpr (mem_sortBy.mp hb)) (le_antisymm hab hba)

theorem map_sortBy {β' : Type*} [LinearOrder β'] {key' : γ → β'} {f : α → γ}
    (h : ∀ a ∈ items, ∀ b ∈ items, key a ≤ key b ↔ key' (f a) ≤ key' (f b)) :
    (sortBy key items).map f = sortBy key' (items.map f) :=
  List.map_insertionSort _ _ f items h

theorem sortBy_getElem?_idxOf [DecidableEq γ] (key : α → β) {f : α → γ} {a : α} (hnodup : (items.map f).Nodup)
    (ha : a ∈ items) :
    (sortBy key items)[((sortBy key items).map f).idxOf (f a)]? = some a := by
  have hlt := List.idxOf_lt_length_of_mem (List.mem_map_of_mem (mem_sortBy.mpr ha : a ∈ sortBy key items) : f a ∈ _)
  have heq := List.getElem_idxOf hlt
  rw [List.getElem_map] at heq
  rw [List.length_map] at hlt
  rw [List.getElem?_eq_getElem hlt, List.inj_on_of_nodup_map hnodup (mem_sortBy.mp (List.getElem_mem hlt)) ha heq]

theorem idxOf_sortBy_lt [DecidableEq γ] {f : α → γ} {a b : α} (hnodup : (items.map f).Nodup) (ha : a ∈ items)
    (hb : b ∈ items) (h : key a < key b) :
    ((sortBy key items).map f).idxOf (f a) < ((sortBy key items).map f).idxOf (f b) := by
  have hia := sortBy_getElem?_idxOf key hnodup ha
  have hjb := sortBy_getElem?_idxOf key hnodup hb
  by_contra hnot
  rcases Nat.lt_or_eq_of_le (Nat.le_of_not_lt hnot) with hlt | heq
  · obtain ⟨hi, hia⟩ := List.getElem?_eq_some_iff.mp hia
    obtain ⟨hj, hjb⟩ := List.getElem?_eq_some_iff.mp hjb
    have hle := List.pairwise_iff_getElem.mp (sortBy_pairwise key items) _ _ hj hi hlt
    rw [hia, hjb] at hle
    exact absurd h (not_lt_of_ge hle)
  · rw [heq, hia, Option.some.injEq] at hjb
    exact absurd h (hjb ▸ lt_irrefl _)

theorem head?_sortBy {a : α} (hinj : ∀ b ∈ items, key b = key a → b = a) (ha : a ∈ items)
    (hbest : ∀ b ∈ items, key a ≤ key b) :
    (sortBy key items).head? = some a := by
  have hmem : a ∈ sortBy key items := mem_sortBy.mpr ha
  obtain ⟨first, rest, hfirst⟩ := List.exists_cons_of_ne_nil (List.ne_nil_of_mem hmem)
  have hin : first ∈ items := mem_sortBy.mp (hfirst ▸ List.mem_cons_self)
  have hsorted := sortBy_pairwise key items
  rw [hfirst] at hmem
  rw [hfirst, List.pairwise_cons] at hsorted
  have hle : key first ≤ key a := by
    rcases List.mem_cons.mp hmem with rfl | hrest
    · exact le_refl _
    · exact hsorted.1 a hrest
  rw [hfirst, hinj first hin (le_antisymm hle (hbest first hin)), List.head?_cons]

theorem sortBy_eq_self (h : items.Pairwise fun a b => key a ≤ key b) : sortBy key items = items :=
  h.insertionSort_eq

end Etoeragcb.Lib
