import Mathlib.Data.Finset.Dedup
import Mathlib.Data.List.Nodup
import Mathlib.Logic.Function.Basic

/-!
# Keyed tables

A table is a list of rows with pairwise distinct keys, in the order of their insertion. Inserting a row
under a key that is taken fails, as a violated primary key does; updates and deletions go over the rows
that a condition picks out.
-/

namespace Etoeragcb.Lib

universe u v

/-- Rows with pairwise distinct keys. -/
structure Table (κ : Type u) (ρ : Type v) where
  rows : List (κ × ρ)
  keys_nodup : (rows.map Prod.fst).Nodup

namespace Table

variable {κ : Type u} {ρ : Type v}

def empty : Table κ ρ := ⟨[], List.nodup_nil⟩

def select (p : κ → ρ → Bool) (t : Table κ ρ) : List (κ × ρ) := t.rows.filter fun x => p x.1 x.2

/-- Every row rewritten by `f`; no key changes. -/
def update (f : κ → ρ → ρ) (t : Table κ ρ) : Table κ ρ where
  rows := t.rows.map fun x => (x.1, f x.1 x.2)
  keys_nodup := by simpa [List.map_map, Function.comp_def] using t.keys_nodup

def delete (p : κ → ρ → Bool) (t : Table κ ρ) : Table κ ρ where
  rows := t.rows.filter fun x => !p x.1 x.2
  keys_nodup := (List.Sublist.map Prod.fst List.filter_sublist).nodup t.keys_nodup

variable [DecidableEq κ]

def get? (t : Table κ ρ) (k : κ) : Option ρ := (t.rows.find? fun x => decide (x.1 = k)).map Prod.snd

theorem get?_eq_some {t : Table κ ρ} {k : κ} {r : ρ} : t.get? k = some r ↔ (k, r) ∈ t.rows := by
  obtain ⟨rows, hn⟩ := t
  simp only [get?]
  induction rows with
  | nil => simp
  | cons x rows ih =>
      obtain ⟨k', r'⟩ := x
      simp only [List.map_cons, List.nodup_cons] at hn
      by_cases hk : k' = k
      · subst hk
        have hnot : (k', r) ∉ rows := fun h => hn.1 (List.mem_map_of_mem h)
        simp [hnot, eq_comm]
      · have hk' : k ≠ k' := fun e => hk e.symm
        simpa [hk, hk'] using ih hn.2

theorem get?_eq_none {t : Table κ ρ} {k : κ} : t.get? k = none ↔ k ∉ t.rows.map Prod.fst := by
  rw [Option.eq_none_iff_forall_not_mem]
  simp [get?_eq_some]

/-- The row `r` added under the key `k`, if no row is there. -/
def insert? (t : Table κ ρ) (k : κ) (r : ρ) : Option (Table κ ρ) :=
  if h : t.get? k = none then
    some ⟨t.rows ++ [(k, r)], by
      have hn : ∀ x ∈ t.rows, x.1 ≠ k := fun x hx e => get?_eq_none.mp h (e ▸ List.mem_map_of_mem hx)
      simpa [List.nodup_append, t.keys_nodup] using fun a b hb => hn (a, b) hb⟩
  else none

/-- Rows added one after the other; the first key that is taken fails the whole insertion. -/
def insertAll? : Table κ ρ → List (κ × ρ) → Option (Table κ ρ)
  | t, [] => some t
  | t, (k, r) :: rs => (t.insert? k r).bind (insertAll? · rs)

/-- The row under `k` rewritten by `f`. -/
def modify (t : Table κ ρ) (k : κ) (f : ρ → ρ) : Table κ ρ :=
  t.update fun k' r => if k' = k then f r else r

@[simp] theorem get?_empty (k : κ) : (empty : Table κ ρ).get? k = none := rfl

theorem mem_select {t : Table κ ρ} {p : κ → ρ → Bool} {k : κ} {r : ρ} :
    (k, r) ∈ t.select p ↔ t.get? k = some r ∧ p k r = true := by
  simp [select, get?_eq_some]

theorem select_length_le_one {t : Table κ ρ} {p : κ → ρ → Bool}
    (h : ∀ k k' r r', t.get? k = some r → t.get? k' = some r' → p k r = true → p k' r' = true → k = k') :
    (t.select p).length ≤ 1 := by
  have hkeys : ((t.select p).map Prod.fst).Nodup :=
    (List.Sublist.map Prod.fst List.filter_sublist).nodup t.keys_nodup
  cases hsel : t.select p with
  | nil => simp
  | cons x xs =>
      cases xs with
      | nil => simp
      | cons y ys =>
          have hx : x ∈ t.select p := by simp [hsel]
          have hy : y ∈ t.select p := by simp [hsel]
          have he := h x.1 y.1 x.2 y.2 (mem_select.mp hx).1 (mem_select.mp hy).1 (mem_select.mp hx).2
            (mem_select.mp hy).2
          simp [hsel, he] at hkeys

theorem select_key_length_le (t : Table κ ρ) (k : κ) : (t.select fun k' _ => k' = k).length ≤ 1 :=
  select_length_le_one fun _ _ _ _ _ _ h h' => by
    rw [of_decide_eq_true h, of_decide_eq_true h']

@[simp] theorem get?_update (t : Table κ ρ) (f : κ → ρ → ρ) (k : κ) :
    (t.update f).get? k = (t.get? k).map (f k) := by
  apply Option.ext
  intro r
  rw [get?_eq_some, Option.map_eq_some_iff]
  simp only [update, List.mem_map, Prod.mk.injEq, Prod.exists, get?_eq_some]
  constructor
  · rintro ⟨k', r', hm, rfl, rfl⟩; exact ⟨r', hm, rfl⟩
  · rintro ⟨r', hm, rfl⟩; exact ⟨k, r', hm, rfl, rfl⟩

@[simp] theorem get?_modify (t : Table κ ρ) (k k' : κ) (f : ρ → ρ) :
    (t.modify k f).get? k' = if k' = k then (t.get? k').map f else t.get? k' := by
  by_cases h : k' = k <;> simp [modify, h]

theorem get?_modify_update {t : Table κ ρ} {k : κ} {f : ρ → ρ} {r : ρ} (h : t.get? k = some r) :
    (t.modify k f).get? = Function.update t.get? k (some (f r)) := by
  funext k'
  by_cases he : k' = k
  · subst he; simp [h]
  · simp [he]

@[simp] theorem get?_delete (t : Table κ ρ) (p : κ → ρ → Bool) (k : κ) :
    (t.delete p).get? k = (t.get? k).filter fun r => !p k r := by
  apply Option.ext
  intro r
  rw [get?_eq_some, Option.filter_eq_some_iff]
  simp [delete, get?_eq_some]

theorem get?_insert? {t t' : Table κ ρ} {k : κ} {r : ρ} (h : t.insert? k r = some t') (k' : κ) :
    t'.get? k' = if k' = k then some r else t.get? k' := by
  simp only [insert?, Option.dite_none_right_eq_some, Option.some.injEq] at h
  obtain ⟨hn, rfl⟩ := h
  by_cases hk : k' = k
  · subst hk
    simp [get?_eq_some]
  · apply Option.ext
    intro r'
    simp [get?_eq_some, hk]

theorem insert?_fresh {t t' : Table κ ρ} {k : κ} {r : ρ} (h : t.insert? k r = some t') :
    t.get? k = none := by
  simp only [insert?, Option.dite_none_right_eq_some] at h
  exact h.1

theorem insert?_isSome {t : Table κ ρ} {k : κ} (r : ρ) (h : t.get? k = none) :
    ∃ t', t.insert? k r = some t' := by
  simp [insert?, h]

theorem get?_insertAll? {t t' : Table κ ρ} {rs : List (κ × ρ)} (h : t.insertAll? rs = some t')
    {k : κ} {r : ρ} : t'.get? k = some r ↔ (k, r) ∈ rs ∨ t.get? k = some r := by
  induction rs generalizing t with
  | nil => cases h; simp
  | cons x rs ih =>
      obtain ⟨k₁, r₁⟩ := x
      simp only [insertAll?, Option.bind_eq_some_iff] at h
      obtain ⟨t₁, h₁, h⟩ := h
      rw [ih h, get?_insert? h₁ k, List.mem_cons, Prod.mk.injEq]
      by_cases hk : k = k₁
      · subst hk
        have hn := insert?_fresh h₁
        simp only [true_and, ↓reduceIte, Option.some.injEq, hn, reduceCtorEq, or_false]
        rw [or_comm, eq_comm]
      · simp [hk]

/-- The row `r` under the key `k`, whether a row is there or not. -/
def put (t : Table κ ρ) (k : κ) (r : ρ) : Table κ ρ where
  rows := (t.delete fun k' _ => k' = k).rows ++ [(k, r)]
  keys_nodup := by
    rw [List.map_append, List.nodup_append]
    refine ⟨(t.delete fun k' _ => k' = k).keys_nodup, List.nodup_singleton k, ?_⟩
    intro a ha b hb he
    obtain ⟨x, hx, rfl⟩ := List.mem_map.mp ha
    have hne : x.1 ≠ k := by simpa using (List.mem_filter.mp hx).2
    exact hne (he.trans (List.mem_singleton.mp hb))

@[simp] theorem get?_put (t : Table κ ρ) (k : κ) (r : ρ) : (t.put k r).get? = Function.update t.get? k (some r) := by
  funext k'
  apply Option.ext
  intro r'
  rw [get?_eq_some]
  by_cases hk : k' = k
  · subst hk
    simp [put, delete, eq_comm]
  · simp [put, delete, hk, get?_eq_some]

/-! ## Rows in their order -/

/-- The row `r` under the key `k`, in the place of the row that is there or behind all rows. -/
def set (t : Table κ ρ) (k : κ) (r : ρ) : Table κ ρ := (t.insert? k r).getD (t.modify k fun _ => r)

/-- A list without its first entries, until `n` are left. -/
def evictRows {α : Type u} (n : Nat) : List α → List α
  | [] => []
  | x :: xs => if n < xs.length + 1 then evictRows n xs else x :: xs

theorem evictRows_eq_drop {α : Type u} (n : Nat) (l : List α) : evictRows n l = l.drop (l.length - n) := by
  induction l with
  | nil => simp [evictRows]
  | cons x xs ih =>
      simp only [evictRows, List.length_cons]
      split
      · rename_i hn
        rw [ih, show xs.length + 1 - n = (xs.length - n) + 1 by omega, List.drop_succ_cons]
      · rename_i hn
        rw [show xs.length + 1 - n = 0 by omega, List.drop_zero]

omit [DecidableEq κ] in
theorem evictRows_suffix (n : Nat) (l : List (κ × ρ)) : evictRows n l <:+ l := by
  rw [evictRows_eq_drop]
  exact List.drop_suffix _ _

/-- The table without its oldest rows, until `n` are left. -/
def evict (n : Nat) (t : Table κ ρ) : Table κ ρ where
  rows := evictRows n t.rows
  keys_nodup := (List.Sublist.map Prod.fst (evictRows_suffix n t.rows).sublist).nodup t.keys_nodup

/-- The row `r` stands under the key `k` in front of at most `n` other rows. -/
def Within (n : Nat) (t : Table κ ρ) (k : κ) (r : ρ) : Prop :=
  ∃ pre post, t.rows = pre ++ (k, r) :: post ∧ post.length ≤ n

theorem Within.get? {t : Table κ ρ} {k : κ} {r : ρ} {n : Nat} (h : t.Within n k r) : t.get? k = some r := by
  obtain ⟨pre, post, hrows, _⟩ := h
  rw [get?_eq_some, hrows]
  simp

omit [DecidableEq κ] in
theorem Within.delete {t : Table κ ρ} {k : κ} {r : ρ} {n : Nat} (h : t.Within n k r) {p : κ → ρ → Bool}
    (hp : p k r = false) : (t.delete p).Within n k r := by
  obtain ⟨pre, post, hrows, hpost⟩ := h
  refine ⟨pre.filter fun x => !p x.1 x.2, post.filter fun x => !p x.1 x.2, ?_, ?_⟩
  · simp [Table.delete, hrows, hp]
  · exact (List.length_filter_le _ _).trans hpost

omit [DecidableEq κ] in
theorem Within.evict {t : Table κ ρ} {k : κ} {r : ρ} {m n : Nat} (h : t.Within m k r) (hm : m < n) :
    (t.evict n).Within m k r := by
  obtain ⟨pre, post, hrows, hpost⟩ := h
  refine ⟨pre.drop (t.rows.length - n), post, ?_, hpost⟩
  have hlength : t.rows.length = pre.length + (post.length + 1) := by simp [hrows]
  show evictRows n t.rows = _
  rw [evictRows_eq_drop, hlength, hrows, List.drop_append_of_le_length]
  omega

theorem within_set_fresh {t : Table κ ρ} {k : κ} {r : ρ} (h : t.get? k = none) : (t.set k r).Within 0 k r := by
  refine ⟨t.rows, [], ?_, Nat.le_refl 0⟩
  simp [Table.set, Table.insert?, h]

theorem Within.set {t : Table κ ρ} {k k' : κ} {r : ρ} {n : Nat} (h : t.Within n k r) (hk : k ≠ k') (r' : ρ) :
    (t.set k' r').Within (n + 1) k r := by
  obtain ⟨pre, post, hrows, hpost⟩ := h
  by_cases hfresh : t.get? k' = none
  · refine ⟨pre, post ++ [(k', r')], ?_, ?_⟩
    · simp [Table.set, Table.insert?, hfresh, hrows]
    · simpa using hpost
  · refine ⟨pre.map fun x => (x.1, if x.1 = k' then r' else x.2),
      post.map fun x => (x.1, if x.1 = k' then r' else x.2), ?_, ?_⟩
    · simp [Table.set, Table.insert?, hfresh, modify, update, hrows, hk]
    · simpa using hpost.trans (Nat.le_succ n)

theorem get?_set {t : Table κ ρ} {k k' : κ} (r : ρ) (h : k' ≠ k) : (t.set k r).get? k' = t.get? k' := by
  cases hins : t.insert? k r with
  | some t' => rw [Table.set, hins, Option.getD_some, get?_insert? hins, if_neg h]
  | none => rw [Table.set, hins, Option.getD_none, get?_modify, if_neg h]

theorem get?_evict {t : Table κ ρ} {k : κ} (n : Nat) (h : t.get? k = none) : (t.evict n).get? k = none := by
  rw [get?_eq_none] at h ⊢
  exact fun hk => h ((List.Sublist.map Prod.fst (evictRows_suffix n t.rows).sublist).subset hk)

/-! ## Queries -/

def where? (p : κ → ρ → Bool) (t : Table κ ρ) (k : κ) : Option ρ := (t.get? k).filter (p k)

def keysWhere (p : κ → ρ → Bool) (t : Table κ ρ) : Finset κ := ((t.select p).map Prod.fst).toFinset

theorem where?_eq_some {p : κ → ρ → Bool} {t : Table κ ρ} {k : κ} {r : ρ} :
    t.where? p k = some r ↔ t.get? k = some r ∧ p k r = true := by
  simp [where?, Option.filter_eq_some_iff]

theorem mem_keysWhere {p : κ → ρ → Bool} {t : Table κ ρ} {k : κ} :
    k ∈ t.keysWhere p ↔ ∃ r, t.where? p k = some r := by
  simp [keysWhere, where?_eq_some, mem_select]

/-- Two tables with the same rows among those that meet `q`. -/
def Agree (q : κ → ρ → Prop) (t t' : Table κ ρ) : Prop :=
  ∀ k r, q k r → (t.get? k = some r ↔ t'.get? k = some r)

theorem agree_insert? {q : κ → ρ → Prop} {t t' : Table κ ρ} {k : κ} {r : ρ} (h : t.insert? k r = some t')
    (hr : ¬q k r) : Agree q t t' := by
  intro k' r' hr'
  rw [get?_insert? h]
  split
  · rename_i he
    subst he
    rw [insert?_fresh h]
    constructor
    · intro h
      cases h
    · intro he
      cases he
      exact absurd hr' hr
  · exact Iff.rfl

/-- A query whose condition implies `q` does not tell the tables apart. -/
theorem Agree.where? {q : κ → ρ → Prop} {t t' : Table κ ρ} (h : Agree q t t') {p : κ → ρ → Bool}
    (hp : ∀ k r, p k r = true → q k r) : t.where? p = t'.where? p := by
  funext k
  apply Option.ext
  intro r
  rw [where?_eq_some, where?_eq_some]
  exact and_congr_left fun hr => h k r (hp k r hr)

theorem Agree.keysWhere {q : κ → ρ → Prop} {t t' : Table κ ρ} (h : Agree q t t') {p : κ → ρ → Bool}
    (hp : ∀ k r, p k r = true → q k r) : t.keysWhere p = t'.keysWhere p := by
  ext k
  rw [mem_keysWhere, mem_keysWhere, h.where? hp]

theorem Agree.select_perm {q : κ → ρ → Prop} {t t' : Table κ ρ} (h : Agree q t t') {p : κ → ρ → Bool}
    (hp : ∀ k r, p k r = true → q k r) : (t.select p).Perm (t'.select p) := by
  have hnodup : ∀ t : Table κ ρ, (t.select p).Nodup := fun t => t.keys_nodup.of_map.filter _
  rw [List.perm_ext_iff_of_nodup (hnodup t) (hnodup t')]
  intro x
  rw [mem_select, mem_select]
  exact and_congr_left fun hr => h x.1 x.2 (hp x.1 x.2 hr)

theorem Agree.refl {q : κ → ρ → Prop} (t : Table κ ρ) : Agree q t t := fun _ _ _ => Iff.rfl

theorem Agree.trans {q : κ → ρ → Prop} {t₁ t₂ t₃ : Table κ ρ} (h₁ : Agree q t₁ t₂) (h₂ : Agree q t₂ t₃) :
    Agree q t₁ t₃ :=
  fun k r hr => (h₁ k r hr).trans (h₂ k r hr)

theorem agree_insertAll? {q : κ → ρ → Prop} {t t' : Table κ ρ} {rs : List (κ × ρ)} (h : t.insertAll? rs = some t')
    (hr : ∀ x ∈ rs, ¬q x.1 x.2) : Agree q t t' := by
  intro k r hq
  rw [get?_insertAll? h]
  exact ⟨Or.inr, fun h => h.resolve_left fun hmem => hr (k, r) hmem hq⟩

theorem agree_delete {q : κ → ρ → Prop} {p : κ → ρ → Bool} (t : Table κ ρ) (h : ∀ k r, q k r → p k r = false) :
    Agree q t (t.delete p) := by
  intro k r hq
  rw [get?_delete, Option.filter_eq_some_iff]
  exact ⟨fun hr => ⟨hr, by rw [h k r hq]; rfl⟩, And.left⟩

theorem agree_modify {q : κ → ρ → Prop} {k : κ} {f : ρ → ρ} (t : Table κ ρ)
    (h : ∀ r, t.get? k = some r → ¬q k r ∧ ¬q k (f r)) : Agree q t (t.modify k f) := by
  intro k' r hq
  rw [get?_modify]
  split
  · rename_i he
    subst he
    constructor
    · intro hr
      exact absurd hq (h r hr).1
    · intro hr
      obtain ⟨r', hr', rfl⟩ := Option.map_eq_some_iff.mp hr
      exact absurd hq (h r' hr').2
  · exact Iff.rfl

theorem agree_put {q : κ → ρ → Prop} {k : κ} {r : ρ} (t : Table κ ρ) (hold : ∀ r, t.get? k = some r → ¬q k r)
    (hnew : ¬q k r) : Agree q t (t.put k r) := by
  intro k' r' hq
  rw [get?_put]
  by_cases he : k' = k
  · subst he
    rw [Function.update_self]
    constructor
    · intro hr
      exact absurd hq (hold r' hr)
    · intro hr
      cases hr
      exact absurd hq hnew
  · rw [Function.update_of_ne he]

/-- The rows that meet `q`, as a set. -/
def part (q : κ → ρ → Prop) (t : Table κ ρ) : Set (κ × ρ) := {x | t.get? x.1 = some x.2 ∧ q x.1 x.2}

theorem part_eq_iff {q : κ → ρ → Prop} {t t' : Table κ ρ} : part q t = part q t' ↔ Agree q t t' := by
  constructor
  · intro h k r hq
    have hx : (k, r) ∈ part q t ↔ (k, r) ∈ part q t' := by rw [h]
    simpa [part, hq] using hx
  · intro h
    ext x
    exact and_congr_left fun hq => h x.1 x.2 hq

/-! ## What a table shows of its rows -/

universe w

variable {τ : Type w}

/-- The rows of a table as `π` shows them. -/
def view (π : ρ → τ) (t : Table κ ρ) (k : κ) : Option τ := (t.get? k).map π

theorem view_eq_some {π : ρ → τ} {t : Table κ ρ} {k : κ} {x : τ} :
    t.view π k = some x ↔ ∃ r, t.get? k = some r ∧ π r = x := by
  simp [view]

theorem view_eq_none {π : ρ → τ} {t : Table κ ρ} {k : κ} : t.view π k = none ↔ t.get? k = none := by
  simp [view]

theorem view_update {π : ρ → τ} {t : Table κ ρ} {f : κ → ρ → ρ}
    (h : ∀ k r, t.get? k = some r → π (f k r) = π r) : (t.update f).view π = t.view π := by
  funext k
  simp only [view, get?_update, Option.map_map]
  cases hr : t.get? k with
  | none => rfl
  | some r => simp [h k r hr]

theorem view_modify {π : ρ → τ} {t : Table κ ρ} {k : κ} {f : ρ → ρ}
    (h : ∀ r, t.get? k = some r → π (f r) = π r) : (t.modify k f).view π = t.view π := by
  refine view_update fun k' r hr => ?_
  split
  · rename_i he
    subst he; exact h r hr
  · rfl

theorem view_modify_update {π : ρ → τ} {t : Table κ ρ} {k : κ} {f : ρ → ρ} {r : ρ} {x : τ}
    (h : t.get? k = some r) (hx : π (f r) = x) :
    (t.modify k f).view π = Function.update (t.view π) k (some x) := by
  funext k'
  by_cases he : k' = k
  · subst he; simp [view, h, hx]
  · simp [view, he]

theorem view_insert? {π : ρ → τ} {t t' : Table κ ρ} {k : κ} {r : ρ} (h : t.insert? k r = some t') :
    t'.view π = Function.update (t.view π) k (some (π r)) := by
  funext k'
  by_cases he : k' = k
  · subst he; simp [view, get?_insert? h]
  · simp [view, get?_insert? h, he]

end Table

end Etoeragcb.Lib
