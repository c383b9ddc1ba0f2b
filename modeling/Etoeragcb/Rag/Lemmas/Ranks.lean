import Etoeragcb.Rag.Lemmas.Pool
import Mathlib.Tactic.Positivity

/-!
# What the ranks add up to
-/

namespace Etoeragcb.Rag

open Lib Models Content

variable {k : Nat}

/-! ## Reciprocal ranks -/

section Reciprocal

variable {ι : Type} [DecidableEq ι] {order : List ι} {i j : ι}

theorem rrf_nonneg (k rank : Nat) : 0 ≤ rrf k rank := by
  unfold rrf
  positivity

theorem rrf_lt {m n : Nat} (hm : 0 < m) (h : m < n) : rrf k n < rrf k m := by
  unfold rrf
  have hpos : (0 : ℚ) < k + m := by positivity
  have hlt : (k : ℚ) + m < k + n := by exact_mod_cast Nat.add_lt_add_left h k
  exact one_div_lt_one_div_of_lt hpos hlt

/-- What an order adds to the score of an item. -/
def reciprocal (k : Nat) (order : List ι) (i : ι) : ℚ := if i ∈ order then rrf k (order.idxOf i + 1) else 0

theorem reciprocal_nonneg : 0 ≤ reciprocal k order i := by
  unfold reciprocal
  split
  · exact rrf_nonneg _ _
  · exact le_refl 0

theorem reciprocal_lt (hj : j ∈ order) (h : order.idxOf i < order.idxOf j) :
    reciprocal k order j < reciprocal k order i := by
  have hi : i ∈ order := List.idxOf_lt_length_iff.mp (h.trans (List.idxOf_lt_length_of_mem hj))
  rw [reciprocal, reciprocal, if_pos hi, if_pos hj]
  exact rrf_lt (Nat.succ_pos _) (Nat.succ_lt_succ h)

theorem reciprocal_le (h : j ∈ order → order.idxOf i < order.idxOf j) :
    reciprocal k order j ≤ reciprocal k order i := by
  by_cases hj : j ∈ order
  · exact (reciprocal_lt hj (h hj)).le
  · rw [reciprocal, if_neg hj]
    exact reciprocal_nonneg

theorem reciprocal_map {ι' : Type} [DecidableEq ι'] {f : ι → ι'} (h : ∀ j ∈ order, f j = f i → j = i) :
    reciprocal k (order.map f) (f i) = reciprocal k order i := by
  have hmem : f i ∈ order.map f ↔ i ∈ order := by
    constructor
    · intro hi
      obtain ⟨j, hj, he⟩ := List.mem_map.mp hi
      exact h j hj he ▸ hj
    · exact List.mem_map_of_mem
  have hidx : (order.map f).idxOf (f i) = order.idxOf i := by
    clear hmem
    induction order with
    | nil => rfl
    | cons j order ih =>
        rw [List.map_cons]
        by_cases hj : j = i
        · subst hj
          rw [List.idxOf_cons_self, List.idxOf_cons_self]
        · rw [List.idxOf_cons_ne _ fun he => hj (h j List.mem_cons_self he), List.idxOf_cons_ne _ hj,
            ih fun j' hj' => h j' (List.mem_cons_of_mem _ hj')]
  simp only [reciprocal, hmem, hidx]

/-- A loop over different items that adds to the score of each the reciprocal of its rank. -/
theorem foldl_score {σ α : Type} {score : σ → ι → ℚ} {step : σ → α × Nat → σ} {key : α → ι}
    (hstep : ∀ s x i, score (step s x) i = score s i + if key x.1 = i then rrf k x.2 else 0) {l : List α}
    (hnodup : (l.map key).Nodup) (s : σ) (i : ι) :
    score ((l.zipIdx 1).foldl step s) i = score s i + reciprocal k (l.map key) i := by
  have hfrom : ∀ (l : List α) n s, (l.map key).Nodup → score ((l.zipIdx n).foldl step s) i =
      score s i + if i ∈ l.map key then rrf k ((l.map key).idxOf i + n) else 0 := by
    intro l
    induction l with
    | nil => simp
    | cons x l ih =>
        intro n s hnodup
        rw [List.map_cons, List.nodup_cons] at hnodup
        rw [List.zipIdx_cons, List.foldl_cons, ih (n + 1) (step s (x, n)) hnodup.2, hstep]
        by_cases hx : key x = i
        · subst hx
          simp [hnodup.1]
        · have hx' : i ≠ key x := fun h => hx h.symm
          have hidx : (key x :: l.map key).idxOf i + n = (l.map key).idxOf i + (n + 1) := by
            rw [List.idxOf_cons_ne _ hx]
            omega
          simp only [List.map_cons, List.mem_cons, hx', hx, if_false, add_zero, false_or, hidx]
  exact hfrom l 1 s hnodup

end Reciprocal

theorem rankScore_rankIn (order : List ChunkId) (id : ChunkId) :
    rankScore k (rankIn order id) = reciprocal k order id := by
  rw [rankIn, reciprocal]
  split <;> rfl

/-! ## The branches -/

def BranchResults.denseIds (branches : BranchResults) : List ChunkId := branches.dense.map (·.chunkId)

def BranchResults.sparseIds (branches : BranchResults) : List ChunkId := branches.sparse.map (·.chunkId)

def fusionScoreOf (evidence : Table ChunkId Evidence) (id : ChunkId) : ℚ := ((evidence.get? id).getD .new).fusionScore

theorem recordHit_score {evidence : Table ChunkId Evidence} {hit id : ChunkId} {f : Evidence → Evidence} {q : ℚ}
    (hf : ∀ e, (f e).fusionScore = e.fusionScore + q) :
    fusionScoreOf (recordHit evidence hit f) id = fusionScoreOf evidence id + if hit = id then q else 0 := by
  have hget : ∀ id', (((evidence.insert? hit .new).getD evidence).get? id').getD .new = (evidence.get? id').getD .new ∧
      (((evidence.insert? hit .new).getD evidence).get? hit).isSome := by
    intro id'
    cases h : evidence.get? hit with
    | none =>
        obtain ⟨t, ht⟩ := Table.insert?_isSome .new h
        rw [ht, Option.getD_some, Table.get?_insert? ht, Table.get?_insert? ht, if_pos rfl]
        refine ⟨?_, rfl⟩
        by_cases he : id' = hit
        · rw [if_pos he, he, h]
          rfl
        · rw [if_neg he]
    | some e =>
        have hinsert : evidence.insert? hit .new = none := by simp [Table.insert?, h]
        rw [hinsert, Option.getD_none]
        exact ⟨rfl, by rw [h]; rfl⟩
  obtain ⟨hsame, hsome⟩ := hget id
  simp only [fusionScoreOf, recordHit, Table.get?_modify]
  by_cases he : hit = id
  · subst he
    obtain ⟨e, hhit⟩ := Option.isSome_iff_exists.mp hsome
    rw [hhit, Option.getD_some] at hsame
    rw [if_pos rfl, if_pos rfl, hhit, ← hsame]
    exact hf e
  · rw [if_neg fun h => he h.symm, if_neg he, hsame, add_zero]

variable {branches : BranchResults}

theorem fuseBranches_score (hdense : branches.denseIds.Nodup) (hsparse : branches.sparseIds.Nodup) (id : ChunkId) :
    fusionScoreOf (fuseBranches k branches) id =
      reciprocal k branches.denseIds id + reciprocal k branches.sparseIds id := by
  have hempty : fusionScoreOf .empty id = 0 := rfl
  have hdenseStep : ∀ s x i, fusionScoreOf (fuseDense k s x) i = fusionScoreOf s i + if x.1.chunkId = i then rrf k x.2 else 0 :=
    fun _ _ _ => recordHit_score fun _ => rfl
  have hsparseStep : ∀ s x i, fusionScoreOf (fuseSparse k s x) i = fusionScoreOf s i + if x.1.chunkId = i then rrf k x.2 else 0 :=
    fun _ _ _ => recordHit_score fun _ => rfl
  rw [fuseBranches, foldl_score hsparseStep hsparse, foldl_score hdenseStep hdense, hempty, zero_add]
  rfl

/-! ## The orders -/

variable {u : Unicode} {evidence : Table ChunkId Evidence} {hydrated : List HydratedChunk} {exactTerms : List Text}
  {boosts : List HintBoost} {a b : HydratedChunk}

def baseOrder (evidence : Table ChunkId Evidence) (hydrated : List HydratedChunk) : List HydratedChunk :=
  sortBy (scoreKey (fusionScoreOf evidence)) hydrated

def exactOrder (u : Unicode) (evidence : Table ChunkId Evidence) (hydrated : List HydratedChunk) (exactTerms : List Text) :
    List ChunkId :=
  matchOrder ((baseOrder evidence hydrated).zipIdx.filterMap (exactMatch (normalizedTerms u exactTerms)))

def hintOrder (evidence : Table ChunkId Evidence) (hydrated : List HydratedChunk) (boosts : List HintBoost) : List ChunkId :=
  matchOrder ((baseOrder evidence hydrated).zipIdx.filterMap (hintMatch boosts))

def finalScore (u : Unicode) (k : Nat) (evidence : Table ChunkId Evidence) (hydrated : List HydratedChunk)
    (exactTerms : List Text) (boosts : List HintBoost) (id : ChunkId) : ℚ :=
  fusionScoreOf evidence id + reciprocal k (exactOrder u evidence hydrated exactTerms) id +
    reciprocal k (hintOrder evidence hydrated boosts) id

theorem zipIdx_map_chunkId (l : List HydratedChunk) (n : Nat) :
    (l.zipIdx n).map (fun x => x.1.chunkId) = l.map (·.chunkId) := by
  conv_rhs => rw [← List.zipIdx_map_fst n l, List.map_map]
  rfl

theorem rankHydrated_eq (u : Unicode) (k : Nat) (evidence : Table ChunkId Evidence) (hydrated : List HydratedChunk)
    (exactTerms : List Text) (boosts : List HintBoost) :
    (rankHydrated u k evidence hydrated exactTerms boosts).map (fun c => (c.chunkId, c.fusionScore)) =
      (sortBy (scoreKey (finalScore u k evidence hydrated exactTerms boosts)) hydrated).map
        fun h => (h.chunkId, finalScore u k evidence hydrated exactTerms boosts h.chunkId) := by
  have hscore : ∀ h : HydratedChunk, finalScore u k evidence hydrated exactTerms boosts h.chunkId =
      ((evidence.get? h.chunkId).getD .new).fusionScore +
        rankScore k (rankIn (exactOrder u evidence hydrated exactTerms) h.chunkId) +
        rankScore k (rankIn (hintOrder evidence hydrated boosts) h.chunkId) := fun h => by
    rw [rankScore_rankIn, rankScore_rankIn]
    rfl
  have hkey : scoreKey (finalScore u k evidence hydrated exactTerms boosts) = fun h => toLex
      (-(((evidence.get? h.chunkId).getD .new).fusionScore +
        rankScore k (rankIn (exactOrder u evidence hydrated exactTerms) h.chunkId) +
        rankScore k (rankIn (hintOrder evidence hydrated boosts) h.chunkId)), h.chunkId) :=
    funext fun h => by rw [scoreKey, hscore]
  simp only [hscore, hkey]
  conv_rhs => rw [← List.zipIdx_map_fst 1 (sortBy _ hydrated), List.map_map]
  rw [rankHydrated, List.map_map]
  rfl

def firstPosition (terms : List (Text × Text)) (chunk : Chunk) : Nat :=
  (((matchedTerms terms chunk).map fun t => findText t.2 chunk.textLexical).min?).getD 0

theorem exactMatch_eq_some {terms : List (Text × Text)} {x : HydratedChunk × Nat} {m : Match} :
    exactMatch terms x = some m ↔ matchedTerms terms x.1.chunk ≠ [] ∧
      ⟨x.1.chunkId, (matchedTerms terms x.1.chunk).length, firstPosition terms x.1.chunk, x.2⟩ = m := by
  rw [exactMatch, firstPosition]
  cases matchedTerms terms x.1.chunk <;> simp

theorem hintMatch_eq_some {x : HydratedChunk × Nat} {m : Match} :
    hintMatch boosts x = some m ↔ matchedBoosts boosts x.1.chunk ≠ [] ∧
      ⟨x.1.chunkId, (matchedBoosts boosts x.1.chunk).length, 0, x.2⟩ = m := by
  rw [hintMatch]
  cases matchedBoosts boosts x.1.chunk <;> simp

/-- A match is one of a chunk at its place in the base order. -/
def Places (f : HydratedChunk × Nat → Option Match) : Prop :=
  ∀ x m, f x = some m → m.chunkId = x.1.chunkId ∧ m.place = x.2

theorem places_exactMatch (terms : List (Text × Text)) : Places (exactMatch terms) := by
  rintro x m h
  obtain ⟨-, rfl⟩ := exactMatch_eq_some.mp h
  exact ⟨rfl, rfl⟩

theorem places_hintMatch (boosts : List HintBoost) : Places (hintMatch boosts) := by
  rintro x m h
  obtain ⟨-, rfl⟩ := hintMatch_eq_some.mp h
  exact ⟨rfl, rfl⟩

theorem mem_matchOrder {f : HydratedChunk × Nat → Option Match} (hf : Places f) {base : List HydratedChunk} {id : ChunkId} :
    id ∈ matchOrder (base.zipIdx.filterMap f) ↔ ∃ x ∈ base.zipIdx, (f x).isSome ∧ x.1.chunkId = id := by
  simp only [matchOrder, List.mem_map, mem_sortBy, List.mem_filterMap]
  constructor
  · rintro ⟨m, ⟨x, hx, hm⟩, rfl⟩
    exact ⟨x, hx, by rw [hm]; rfl, (hf x m hm).1.symm⟩
  · rintro ⟨x, hx, hsome, rfl⟩
    obtain ⟨m, hm⟩ := Option.isSome_iff_exists.mp hsome
    exact ⟨m, ⟨x, hx, hm⟩, (hf x m hm).1⟩

theorem nodup_matches {f : HydratedChunk × Nat → Option Match} (hf : Places f) {base : List HydratedChunk}
    (hnodup : (base.map (·.chunkId)).Nodup) : ((base.zipIdx.filterMap f).map (·.chunkId)).Nodup := by
  have hsub : ((base.zipIdx.filterMap f).map (·.chunkId)).Sublist (base.zipIdx.map fun x => x.1.chunkId) :=
    map_filterMap_sublist fun x _ m hm => (hf x m hm).1
  rw [zipIdx_map_chunkId] at hsub
  exact hnodup.sublist hsub

theorem nodup_matchOrder {f : HydratedChunk × Nat → Option Match} (hf : Places f) {base : List HydratedChunk}
    (hnodup : (base.map (·.chunkId)).Nodup) : (matchOrder (base.zipIdx.filterMap f)).Nodup :=
  ((sortBy_perm _ _).map _).nodup_iff.mpr (nodup_matches hf hnodup)

theorem matchOrder_lt {f : HydratedChunk × Nat → Option Match} (hf : Places f) {base : List HydratedChunk}
    (hnodup : (base.map (·.chunkId)).Nodup) {x y : HydratedChunk × Nat} (hx : x ∈ base.zipIdx) (hy : y ∈ base.zipIdx)
    {m n : Match} (hm : f x = some m) (hn : f y = some n)
    (hbetter : n.count < m.count ∨ n.count = m.count ∧ (m.position < n.position ∨ m.position = n.position ∧ x.2 < y.2)) :
    (matchOrder (base.zipIdx.filterMap f)).idxOf x.1.chunkId <
      (matchOrder (base.zipIdx.filterMap f)).idxOf y.1.chunkId := by
  rw [← (hf x m hm).1, ← (hf y n hn).1]
  refine idxOf_sortBy_lt (nodup_matches hf hnodup) (List.mem_filterMap.mpr ⟨x, hx, hm⟩) (List.mem_filterMap.mpr ⟨y, hy, hn⟩) ?_
  rw [← (hf x m hm).2, ← (hf y n hn).2] at hbetter
  simp only [Prod.Lex.toLex_lt_toLex, neg_lt_neg_iff, neg_inj, Nat.cast_lt, Nat.cast_inj]
  rcases hbetter with h | ⟨h, h' | ⟨h', h''⟩⟩
  · exact Or.inl h
  · exact Or.inr ⟨h.symm, Or.inl h'⟩
  · exact Or.inr ⟨h.symm, Or.inr ⟨h', Or.inl h''⟩⟩

/-! ## Dominance -/

theorem mem_baseOrder (evidence : Table ChunkId Evidence) (hids : (hydrated.map (·.chunkId)).Nodup) (ha : a ∈ hydrated) :
    (a, ((baseOrder evidence hydrated).map (·.chunkId)).idxOf a.chunkId) ∈ (baseOrder evidence hydrated).zipIdx :=
  List.mk_mem_zipIdx_iff_getElem?.mpr (sortBy_getElem?_idxOf _ hids ha)

theorem nodup_baseOrder (evidence : Table ChunkId Evidence) (hids : (hydrated.map (·.chunkId)).Nodup) :
    ((baseOrder evidence hydrated).map (·.chunkId)).Nodup :=
  ((sortBy_perm _ hydrated).map _).nodup_iff.mpr hids

/-- Of two chunks the one with the better score and with matches that are as good gains as much by its matches. -/
theorem reciprocal_matchOrder_le {f : HydratedChunk × Nat → Option Match} (hf : Places f)
    (hids : (hydrated.map (·.chunkId)).Nodup) (ha : a ∈ hydrated) (hb : b ∈ hydrated)
    (hbase : fusionScoreOf evidence b.chunkId < fusionScoreOf evidence a.chunkId)
    (hmatch : ∀ i j n, f (b, j) = some n → ∃ m, f (a, i) = some m ∧
      (n.count < m.count ∨ n.count = m.count ∧ m.position ≤ n.position)) :
    reciprocal k (matchOrder ((baseOrder evidence hydrated).zipIdx.filterMap f)) b.chunkId ≤
      reciprocal k (matchOrder ((baseOrder evidence hydrated).zipIdx.filterMap f)) a.chunkId := by
  refine reciprocal_le fun hmem => ?_
  have hnodup := nodup_baseOrder evidence hids
  obtain ⟨y, hy, hsome, hid⟩ := (mem_matchOrder hf).mp hmem
  have hyb : y.1 = b :=
    List.inj_on_of_nodup_map hids (mem_sortBy.mp (List.fst_mem_of_mem_zipIdx hy)) hb hid
  obtain ⟨n, hn⟩ := Option.isSome_iff_exists.mp hsome
  have hx := mem_baseOrder evidence hids ha
  obtain ⟨m, hm, hbetter⟩ := hmatch _ y.2 n (hyb ▸ hn)
  have hplace : ((baseOrder evidence hydrated).map (·.chunkId)).idxOf a.chunkId < y.2 := by
    have hlt : ((baseOrder evidence hydrated).map (·.chunkId)).idxOf a.chunkId <
        ((baseOrder evidence hydrated).map (·.chunkId)).idxOf b.chunkId :=
      idxOf_sortBy_lt hids ha hb (Prod.Lex.toLex_lt_toLex.mpr (Or.inl (neg_lt_neg hbase)))
    obtain ⟨hlength, hget⟩ := List.getElem?_eq_some_iff.mp (List.mk_mem_zipIdx_iff_getElem?.mp hy)
    have hidx := hnodup.idxOf_getElem y.2 (by rwa [List.length_map])
    rw [List.getElem_map, hget, hid] at hidx
    exact hidx ▸ hlt
  have hlt := matchOrder_lt hf hnodup hx hy hm hn ?_
  · rwa [hid] at hlt
  · rcases hbetter with h | ⟨h, h'⟩
    · exact Or.inl h
    · exact Or.inr ⟨h, (Nat.lt_or_eq_of_le h').imp_right fun he => ⟨he, hplace⟩⟩

theorem finalScore_lt (hids : (hydrated.map (·.chunkId)).Nodup) (ha : a ∈ hydrated) (hb : b ∈ hydrated)
    (hbase : fusionScoreOf evidence b.chunkId < fusionScoreOf evidence a.chunkId)
    (hexact : ∀ i j n, exactMatch (normalizedTerms u exactTerms) (b, j) = some n →
      ∃ m, exactMatch (normalizedTerms u exactTerms) (a, i) = some m ∧
        (n.count < m.count ∨ n.count = m.count ∧ m.position ≤ n.position))
    (hhint : ∀ i j n, hintMatch boosts (b, j) = some n → ∃ m, hintMatch boosts (a, i) = some m ∧
      (n.count < m.count ∨ n.count = m.count ∧ m.position ≤ n.position)) :
    finalScore u k evidence hydrated exactTerms boosts b.chunkId <
      finalScore u k evidence hydrated exactTerms boosts a.chunkId :=
  add_lt_add_of_lt_of_le (add_lt_add_of_lt_of_le hbase
    (reciprocal_matchOrder_le (places_exactMatch _) hids ha hb hbase hexact))
    (reciprocal_matchOrder_le (places_hintMatch _) hids ha hb hbase hhint)

theorem rankHydrated_lt (hids : (hydrated.map (·.chunkId)).Nodup) (ha : a ∈ hydrated) (hb : b ∈ hydrated)
    (h : finalScore u k evidence hydrated exactTerms boosts b.chunkId <
      finalScore u k evidence hydrated exactTerms boosts a.chunkId) :
    ((rankHydrated u k evidence hydrated exactTerms boosts).map (·.chunkId)).idxOf a.chunkId <
      ((rankHydrated u k evidence hydrated exactTerms boosts).map (·.chunkId)).idxOf b.chunkId := by
  have horder := congrArg (List.map Prod.fst) (rankHydrated_eq u k evidence hydrated exactTerms boosts)
  simp only [List.map_map, Function.comp_def] at horder
  rw [horder]
  exact idxOf_sortBy_lt hids ha hb (Prod.Lex.toLex_lt_toLex.mpr (Or.inl (neg_lt_neg h)))

end Etoeragcb.Rag
