import Etoeragcb.Evaluation.Engine
import Etoeragcb.Rag.Lemmas.Combined
import Etoeragcb.Rag.Lemmas.Ranks

/-!
# The evaluation ranks as the retrieval does
-/

namespace Etoeragcb.Evaluation

open Lib Models Content Rag

variable {u : Unicode} {records : List CorpusRecord} {name : ChunkId → Text} {hydrated : List HydratedChunk}
  {fusion : List (Text × ℚ)} {evidence : Table ChunkId Evidence} {score : ChunkId → ℚ}

/-! ## Scores in a dictionary -/

/-- The score of an id, which is zero for an id that is not there. -/
def scoreOf (fusion : List (Text × ℚ)) (id : Text) : ℚ := (Dict.get? fusion id).getD 0

theorem addRank_score (fusion : List (Text × ℚ)) (x : Text × Nat) (id : Text) :
    scoreOf (addRank fusion x) id = scoreOf fusion id + if x.1 = id then rrf rrfK x.2 else 0 := by
  by_cases h : x.1 = id
  · subst h
    rw [scoreOf, addRank, Dict.get?_set_self, if_pos rfl]
    rfl
  · rw [scoreOf, addRank, Dict.get?_set fun he => h he.symm, if_neg h, add_zero]
    rfl

theorem addRanks_score {ids : List Text} (h : ids.Nodup) (fusion : List (Text × ℚ)) (id : Text) :
    scoreOf (addRanks fusion ids) id = scoreOf fusion id + reciprocal rrfK ids id := by
  have hfold : scoreOf ((ids.zipIdx 1).foldl addRank fusion) id =
      scoreOf fusion id + reciprocal rrfK (ids.map fun i => i) id :=
    foldl_score addRank_score (by rwa [List.map_id']) fusion id
  rw [addRanks, hfold, List.map_id']

theorem addRanks_keys (fusion : List (Text × ℚ)) (ids : List Text) :
    ((fusion.map Prod.fst).Nodup → ((addRanks fusion ids).map Prod.fst).Nodup) ∧
      ∀ id, id ∈ (addRanks fusion ids).map Prod.fst ↔ id ∈ fusion.map Prod.fst ∨ id ∈ ids := by
  have hfrom : ∀ (ids : List Text) n (fusion : List (Text × ℚ)),
      ((fusion.map Prod.fst).Nodup → (((ids.zipIdx n).foldl addRank fusion).map Prod.fst).Nodup) ∧
        ∀ id, id ∈ ((ids.zipIdx n).foldl addRank fusion).map Prod.fst ↔ id ∈ fusion.map Prod.fst ∨ id ∈ ids := by
    intro ids
    induction ids with
    | nil => simp
    | cons i ids ih =>
        intro n fusion
        rw [List.zipIdx_cons, List.foldl_cons]
        obtain ⟨hnodup, hmem⟩ := ih (n + 1) (addRank fusion (i, n))
        refine ⟨fun h => hnodup (Dict.nodup_keys_set h), fun id => ?_⟩
        rw [hmem id, addRank, Dict.mem_keys_set, List.mem_cons, or_assoc]
  exact hfrom ids 1 fusion

/-! ## Names -/

/-- The names of the chunks are in the order of their ids. -/
def Named (name : ChunkId → Text) (hydrated : List HydratedChunk) : Prop :=
  ∀ g ∈ hydrated, ∀ h ∈ hydrated, g.chunkId ≤ h.chunkId ↔ name g.chunkId ≤ name h.chunkId

theorem Named.inj (h : Named name hydrated) {a b : HydratedChunk} (ha : a ∈ hydrated) (hb : b ∈ hydrated)
    (he : name a.chunkId = name b.chunkId) : a.chunkId = b.chunkId :=
  le_antisymm ((h a ha b hb).mpr he.le) ((h b hb a ha).mpr he.ge)

theorem sortBy_scores (hname : Named name hydrated)
    (hkeys : (fusion.map Prod.fst).Perm (hydrated.map fun h => name h.chunkId))
    (hnodup : (fusion.map Prod.fst).Nodup) (hscore : ∀ h ∈ hydrated, scoreOf fusion (name h.chunkId) = score h.chunkId) :
    sortBy (fun x => toLex (-x.2, x.1)) fusion =
      (sortBy (scoreKey score) hydrated).map fun h => (name h.chunkId, score h.chunkId) := by
  have hperm : fusion.Perm (hydrated.map fun h => (name h.chunkId, score h.chunkId)) := by
    rw [Dict.eq_map_keys hnodup 0]
    refine (hkeys.map _).trans (List.Perm.of_eq ?_)
    rw [List.map_map]
    exact List.map_congr_left fun h hh => congrArg (Prod.mk _) (hscore h hh)
  refine (sortBy_congr_perm hperm fun a _ b _ h => ?_).trans (map_sortBy fun a ha b hb => ?_).symm
  · simp only [toLex_inj, Prod.mk.injEq, neg_inj] at h
    exact Prod.ext h.2 h.1
  · simp only [scoreKey, Prod.Lex.toLex_le_toLex, hname a ha b hb]

/-! ## The matches -/

variable {recordOf : HydratedChunk → CorpusRecord} {base : List HydratedChunk} {query : HybridQuery}
  {boosts : List HintBoost} {exactTerms : List Text}

theorem mapM_option {α β : Type} {f : α → Option β} {g : α → β} {l : List α} (h : ∀ a ∈ l, f a = some (g a)) :
    l.mapM f = some (l.map g) := by
  induction l with
  | nil => rfl
  | cons a l ih =>
      rw [List.mapM_cons, h a List.mem_cons_self, ih fun b hb => h b (List.mem_cons_of_mem a hb)]
      rfl

def entryOf (name : ChunkId → Text) (recordOf : HydratedChunk → CorpusRecord) (x : HydratedChunk × Nat) : BaseEntry :=
  ⟨name x.1.chunkId, recordOf x.1, x.2 + 1⟩

theorem baseEntries_eq (h : ∀ x ∈ base, recordById records (name x.chunkId) = some (recordOf x)) :
    baseEntries records (base.map fun h => name h.chunkId) = some (base.zipIdx.map (entryOf name recordOf)) := by
  have hzip : (base.map fun h => name h.chunkId).zipIdx 1 = base.zipIdx.map fun x => (name x.1.chunkId, x.2 + 1) := by
    rw [List.zipIdx_map, List.zipIdx_succ, List.map_map]
    rfl
  rw [baseEntries, hzip, List.mapM_map]
  refine mapM_option fun x hx => ?_
  rw [Function.comp_apply, h x.1 (List.fst_mem_of_mem_zipIdx hx)]
  rfl

theorem exactEntry_entryOf {terms : List (Text × Text)} {x : HydratedChunk × Nat}
    (h : normalizeLexical u (recordOf x.1).text = x.1.chunk.textLexical) :
    exactEntry u terms (entryOf name recordOf x) =
      (exactMatch terms x).map fun m => (m.count, m.position, m.place + 1, name m.chunkId) := by
  simp only [exactEntry, exactMatch, entryOf, h, matchedTerms]
  cases terms.filter fun t => decide (t.2 <:+: x.1.chunk.textLexical) <;> rfl

theorem hintEntry_entryOf {hint : Text} {x : HydratedChunk × Nat}
    (h : matchedBoosts boosts x.1.chunk = if (recordOf x.1).documentId ∈ query.boostDocumentIds then [hint] else []) :
    hintEntry query.boostDocumentIds (entryOf name recordOf x) =
      (hintMatch boosts x).map fun m => (m.place + 1, name m.chunkId) := by
  have hentry : hintEntry query.boostDocumentIds (entryOf name recordOf x) =
      if (recordOf x.1).documentId ∈ query.boostDocumentIds then some (x.2 + 1, name x.1.chunkId) else none := rfl
  rw [hentry, hintMatch, h]
  split <;> rfl

/-- What the evaluation reads of the chunks is what is stored of them. -/
structure Reads (u : Unicode) (records : List CorpusRecord) (query : HybridQuery) (boosts : List HintBoost)
    (name : ChunkId → Text) (recordOf : HydratedChunk → CorpusRecord) (hydrated : List HydratedChunk) : Prop where
  named : Named name hydrated
  ids : (hydrated.map (·.chunkId)).Nodup
  record : ∀ h ∈ hydrated, recordById records (name h.chunkId) = some (recordOf h)
  text : ∀ h ∈ hydrated, normalizeLexical u (recordOf h).text = h.chunk.textLexical
  boost : ∃ hint, ∀ h ∈ hydrated,
    matchedBoosts boosts h.chunk = if (recordOf h).documentId ∈ query.boostDocumentIds then [hint] else []

theorem mem_baseMatches {f : HydratedChunk × Nat → Option Match}
    (hf : Places f) {m : Match} (hm : m ∈ (baseOrder evidence hydrated).zipIdx.filterMap f) :
    ∃ x ∈ hydrated, m.chunkId = x.chunkId := by
  obtain ⟨x, hx, hxm⟩ := List.mem_filterMap.mp hm
  exact ⟨x.1, mem_sortBy.mp (List.fst_mem_of_mem_zipIdx hx), (hf x m hxm).1⟩

theorem exactIds_eq (h : Reads u records query boosts name recordOf hydrated) (evidence : Table ChunkId Evidence)
    (terms : List (Text × Text)) :
    (sortBy (fun x => toLex (-(x.1 : ℤ), toLex (x.2.1, toLex (x.2.2.1, x.2.2.2))))
        (((baseOrder evidence hydrated).zipIdx.map (entryOf name recordOf)).filterMap (exactEntry u terms))).map
          (fun x => x.2.2.2) =
      (matchOrder ((baseOrder evidence hydrated).zipIdx.filterMap (exactMatch terms))).map name := by
  have hentries : ((baseOrder evidence hydrated).zipIdx.map (entryOf name recordOf)).filterMap (exactEntry u terms) =
      ((baseOrder evidence hydrated).zipIdx.filterMap (exactMatch terms)).map
        fun m => (m.count, m.position, m.place + 1, name m.chunkId) := by
    rw [List.filterMap_map, List.map_filterMap]
    exact List.filterMap_congr fun x hx =>
      exactEntry_entryOf (h.text x.1 (mem_sortBy.mp (List.fst_mem_of_mem_zipIdx hx)))
  have hsort : sortBy (fun x : Nat × Nat × Nat × Text => toLex (-(x.1 : ℤ), toLex (x.2.1, toLex (x.2.2.1, x.2.2.2))))
      (((baseOrder evidence hydrated).zipIdx.filterMap (exactMatch terms)).map
        fun m => (m.count, m.position, m.place + 1, name m.chunkId)) =
      (sortBy (fun m : Match => toLex (-(m.count : ℤ), toLex (m.position, toLex (m.place, m.chunkId))))
        ((baseOrder evidence hydrated).zipIdx.filterMap (exactMatch terms))).map
          fun m => (m.count, m.position, m.place + 1, name m.chunkId) := by
    refine (map_sortBy fun a ha b hb => ?_).symm
    obtain ⟨x, hx, hxa⟩ := mem_baseMatches (places_exactMatch terms) ha
    obtain ⟨y, hy, hyb⟩ := mem_baseMatches (places_exactMatch terms) hb
    rw [hxa, hyb]
    simp only [Prod.Lex.toLex_le_toLex, h.named x hx y hy, Nat.add_lt_add_iff_right, Nat.add_right_cancel_iff]
  rw [hentries, hsort, matchOrder, List.map_map, List.map_map]
  rfl

theorem hintIds_eq (h : Reads u records query boosts name recordOf hydrated) (evidence : Table ChunkId Evidence) :
    (sortBy (fun x => toLex (x.1, x.2))
        (((baseOrder evidence hydrated).zipIdx.map (entryOf name recordOf)).filterMap
          (hintEntry query.boostDocumentIds))).map Prod.snd =
      (matchOrder ((baseOrder evidence hydrated).zipIdx.filterMap (hintMatch boosts))).map name := by
  obtain ⟨hint, hboost⟩ := h.boost
  have hentries : ((baseOrder evidence hydrated).zipIdx.map (entryOf name recordOf)).filterMap
      (hintEntry query.boostDocumentIds) =
      ((baseOrder evidence hydrated).zipIdx.filterMap (hintMatch boosts)).map fun m => (m.place + 1, name m.chunkId) := by
    rw [List.filterMap_map, List.map_filterMap]
    exact List.filterMap_congr fun x hx =>
      hintEntry_entryOf (hboost x.1 (mem_sortBy.mp (List.fst_mem_of_mem_zipIdx hx)))
  have hone : ∀ m ∈ (baseOrder evidence hydrated).zipIdx.filterMap (hintMatch boosts), m.count = 1 ∧ m.position = 0 := by
    intro m hm
    obtain ⟨x, hx, hxm⟩ := List.mem_filterMap.mp hm
    obtain ⟨hne, rfl⟩ := hintMatch_eq_some.mp hxm
    have hmatched := hboost x.1 (mem_sortBy.mp (List.fst_mem_of_mem_zipIdx hx))
    split at hmatched
    · rw [hmatched]
      exact ⟨rfl, rfl⟩
    · exact absurd hmatched hne
  have hsort : sortBy (fun x : Nat × Text => toLex (x.1, x.2))
      (((baseOrder evidence hydrated).zipIdx.filterMap (hintMatch boosts)).map fun m => (m.place + 1, name m.chunkId)) =
      (sortBy (fun m : Match => toLex (-(m.count : ℤ), toLex (m.position, toLex (m.place, m.chunkId))))
        ((baseOrder evidence hydrated).zipIdx.filterMap (hintMatch boosts))).map fun m => (m.place + 1, name m.chunkId) := by
    refine (map_sortBy fun a ha b hb => ?_).symm
    obtain ⟨x, hx, hxa⟩ := mem_baseMatches (places_hintMatch boosts) ha
    obtain ⟨y, hy, hyb⟩ := mem_baseMatches (places_hintMatch boosts) hb
    obtain ⟨hacount, hapos⟩ := hone a ha
    obtain ⟨hbcount, hbpos⟩ := hone b hb
    rw [hxa, hyb, hacount, hbcount, hapos, hbpos]
    simp only [Prod.Lex.toLex_le_toLex, h.named x hx y hy, Nat.add_lt_add_iff_right, Nat.add_right_cancel_iff, lt_irrefl,
      false_or, true_and]
  rw [hentries, hsort, matchOrder, List.map_map, List.map_map]
  rfl

/-! ## The ranking -/

variable {branches : BranchResults}

theorem Reads.inj (h : Reads u records query boosts name recordOf hydrated) {i j : ChunkId}
    (hi : i ∈ hydrated.map (·.chunkId)) (hj : j ∈ hydrated.map (·.chunkId)) (he : name i = name j) : i = j := by
  obtain ⟨a, ha, rfl⟩ := List.mem_map.mp hi
  obtain ⟨b, hb, rfl⟩ := List.mem_map.mp hj
  exact h.named.inj ha hb he

theorem Reads.nodup_map (h : Reads u records query boosts name recordOf hydrated) {ids : List ChunkId} (hids : ids.Nodup)
    (hsub : ids ⊆ hydrated.map (·.chunkId)) : (ids.map name).Nodup :=
  hids.map_on fun _ hi _ hj he => h.inj (hsub hi) (hsub hj) he

/-- Ids that are ranked behind the others add to the scores of the chunks what they add to the scores of the ids. -/
theorem Reads.addRanks_score (h : Reads u records query boosts name recordOf hydrated) {ids : List ChunkId}
    (hids : ids.Nodup)
    (hsub : ids ⊆ hydrated.map (·.chunkId)) {i : ChunkId} (hi : i ∈ hydrated.map (·.chunkId)) :
    scoreOf (addRanks fusion (ids.map name)) (name i) = scoreOf fusion (name i) + reciprocal rrfK ids i := by
  rw [Evaluation.addRanks_score (h.nodup_map hids hsub), reciprocal_map fun j hj he => h.inj (hsub hj) hi he]

theorem Reads.nodup_names (h : Reads u records query boosts name recordOf hydrated) :
    (hydrated.map fun x => name x.chunkId).Nodup := by
  have hnames := h.nodup_map h.ids (List.Subset.refl _)
  rwa [List.map_map] at hnames

theorem Reads.addRanks_keys (h : Reads u records query boosts name recordOf hydrated) {ids : List ChunkId}
    (hsub : ids ⊆ hydrated.map (·.chunkId)) (hkeys : (fusion.map Prod.fst).Perm (hydrated.map fun h => name h.chunkId)) :
    ((addRanks fusion (ids.map name)).map Prod.fst).Perm (hydrated.map fun h => name h.chunkId) := by
  obtain ⟨hnodup, hmem⟩ := Evaluation.addRanks_keys fusion (ids.map name)
  refine (List.perm_ext_iff_of_nodup (hnodup (hkeys.nodup_iff.mpr h.nodup_names)) h.nodup_names).mpr fun id => ?_
  rw [hmem, hkeys.mem_iff]
  refine or_iff_left_of_imp fun hid => ?_
  obtain ⟨i, hi, rfl⟩ := List.mem_map.mp hid
  obtain ⟨x, hx, rfl⟩ := List.mem_map.mp (hsub hi)
  exact List.mem_map_of_mem hx

theorem matchOrder_subset {f : HydratedChunk × Nat → Option Match} (hf : Places f) :
    matchOrder ((baseOrder evidence hydrated).zipIdx.filterMap f) ⊆ hydrated.map (·.chunkId) := by
  intro id hid
  obtain ⟨x, hx, -, rfl⟩ := (mem_matchOrder hf).mp hid
  exact List.mem_map_of_mem (mem_sortBy.mp (List.fst_mem_of_mem_zipIdx hx))

def fusionOf (name : ChunkId → Text) (branches : BranchResults) : List (Text × ℚ) :=
  addRanks (addRanks [] (branches.denseIds.map name)) (branches.sparseIds.map name)

section Branches

variable (hdense : branches.denseIds.Nodup) (hsparse : branches.sparseIds.Nodup)
  (hfound : ∀ id, id ∈ hydrated.map (·.chunkId) ↔ id ∈ branches.denseIds ++ branches.sparseIds)

include hfound

theorem Reads.fusion_keys (h : Reads u records query boosts name recordOf hydrated) :
    ((fusionOf name branches).map Prod.fst).Perm (hydrated.map fun h => name h.chunkId) := by
  obtain ⟨hnodupDense, hmemDense⟩ := Evaluation.addRanks_keys [] (branches.denseIds.map name)
  obtain ⟨hnodupSparse, hmemSparse⟩ := Evaluation.addRanks_keys (addRanks [] (branches.denseIds.map name)) (branches.sparseIds.map name)
  refine (List.perm_ext_iff_of_nodup (hnodupSparse (hnodupDense List.nodup_nil)) h.nodup_names).mpr fun id => ?_
  have hnames : (hydrated.map fun x => name x.chunkId) = (hydrated.map (·.chunkId)).map name := by rw [List.map_map]; rfl
  have hall : id ∈ (hydrated.map (·.chunkId)).map name ↔ id ∈ (branches.denseIds ++ branches.sparseIds).map name := by
    simp only [List.mem_map (f := name), hfound]
  rw [hmemSparse, hmemDense, hnames, hall, List.map_append, List.mem_append, List.map_nil]
  simp only [List.not_mem_nil, false_or]

include hdense hsparse

theorem Reads.fusion_score (h : Reads u records query boosts name recordOf hydrated) {x : HydratedChunk}
    (hx : x ∈ hydrated) :
    scoreOf (fusionOf name branches) (name x.chunkId) = fusionScoreOf (fuseBranches rrfK branches) x.chunkId := by
  have hi := List.mem_map_of_mem (f := fun h : HydratedChunk => h.chunkId) hx
  have hdenseSub : branches.denseIds ⊆ hydrated.map (·.chunkId) := fun i hi => (hfound i).mpr (List.mem_append_left _ hi)
  have hsparseSub : branches.sparseIds ⊆ hydrated.map (·.chunkId) := fun i hi => (hfound i).mpr (List.mem_append_right _ hi)
  rw [fusionOf, h.addRanks_score hsparse hsparseSub hi, h.addRanks_score hdense hdenseSub hi,
    fuseBranches_score hdense hsparse]
  exact congrArg (· + _) (zero_add _)

theorem Reads.base_order (h : Reads u records query boosts name recordOf hydrated) :
    (sortBy (fun x : Text × ℚ => toLex (-x.2, x.1)) (fusionOf name branches)).map Prod.fst =
      (baseOrder (fuseBranches rrfK branches) hydrated).map fun h => name h.chunkId := by
  have hkeys := h.fusion_keys hfound
  rw [sortBy_scores h.named hkeys (hkeys.nodup_iff.mpr h.nodup_names) fun x hx => h.fusion_score hdense hsparse hfound hx,
    List.map_map]
  rfl

/-- The evaluation adds the ranks of the exact matches and of the boosted chunks to the fused scores. -/
theorem Reads.run_eq (h : Reads u records query boosts name recordOf hydrated) (denseScores sparseScores : List ℚ)
    (limit : Nat) :
    hybridRanking u records query ⟨branches.denseIds.map name, denseScores⟩ ⟨branches.sparseIds.map name,
      sparseScores⟩ limit =
      some (rankScores (addRanks (addRanks (fusionOf name branches)
          ((exactOrder u (fuseBranches rrfK branches) hydrated query.exactTerms).map name))
        ((hintOrder (fuseBranches rrfK branches) hydrated boosts).map name)) limit) := by
  have hbase := h.base_order hdense hsparse hfound
  rw [fusionOf] at hbase
  have hexact := exactIds_eq h (fuseBranches rrfK branches) (normalizedTerms u query.exactTerms)
  have hhint := hintIds_eq h (fuseBranches rrfK branches)
  have hentries : baseEntries records ((baseOrder (fuseBranches rrfK branches) hydrated).map fun h => name h.chunkId) =
      some ((baseOrder (fuseBranches rrfK branches) hydrated).zipIdx.map (entryOf name recordOf)) :=
    baseEntries_eq fun x hx => h.record x (mem_sortBy.mp hx)
  simp only [hybridRanking, hbase]
  rw [hentries]
  simp only [Option.bind_eq_bind, Option.bind_some, Option.pure_def]
  exact congrArg some (by rw [exactOrder, hintOrder, ← hexact, ← hhint]; rfl)

theorem hybridRanking_eq (h : Reads u records query boosts name recordOf hydrated) (denseScores sparseScores : List ℚ)
    (limit : Nat) :
    hybridRanking u records query ⟨branches.denseIds.map name, denseScores⟩ ⟨branches.sparseIds.map name,
      sparseScores⟩ limit =
      some ⟨((rankHydrated u rrfK (fuseBranches rrfK branches) hydrated query.exactTerms boosts).map
          fun c => name c.chunkId).take limit,
        ((rankHydrated u rrfK (fuseBranches rrfK branches) hydrated query.exactTerms boosts).map (·.fusionScore)).take limit⟩ := by
  set evidence := fuseBranches rrfK branches with hevidence
  have hrun := h.run_eq hdense hsparse hfound denseScores sparseScores limit
  rw [← hevidence] at hrun
  have hexactSub : exactOrder u evidence hydrated query.exactTerms ⊆ hydrated.map (·.chunkId) :=
    matchOrder_subset (places_exactMatch _)
  have hhintSub : hintOrder evidence hydrated boosts ⊆ hydrated.map (·.chunkId) := matchOrder_subset (places_hintMatch _)
  have hexactNodup : (exactOrder u evidence hydrated query.exactTerms).Nodup :=
    nodup_matchOrder (places_exactMatch _) (nodup_baseOrder evidence h.ids)
  have hhintNodup : (hintOrder evidence hydrated boosts).Nodup :=
    nodup_matchOrder (places_hintMatch _) (nodup_baseOrder evidence h.ids)
  have hkeys := h.addRanks_keys hhintSub (h.addRanks_keys hexactSub (h.fusion_keys hfound))
  have hscore : ∀ x ∈ hydrated, scoreOf (addRanks (addRanks (fusionOf name branches)
      ((exactOrder u evidence hydrated query.exactTerms).map name)) ((hintOrder evidence hydrated boosts).map name))
        (name x.chunkId) = finalScore u rrfK evidence hydrated query.exactTerms boosts x.chunkId := fun x hx => by
    have hi := List.mem_map_of_mem (f := fun h : HydratedChunk => h.chunkId) hx
    rw [h.addRanks_score hhintNodup hhintSub hi, h.addRanks_score hexactNodup hexactSub hi,
      h.fusion_score hdense hsparse hfound hx]
    rfl
  have hranked := rankHydrated_eq u rrfK evidence hydrated query.exactTerms boosts
  have hids := congrArg (List.map fun x => name x.1) hranked
  have hscores := congrArg (List.map Prod.snd) hranked
  simp only [List.map_map, Function.comp_def] at hids hscores
  rw [hrun, rankScores, sortBy_scores h.named hkeys (hkeys.nodup_iff.mpr h.nodup_names) hscore, hids, hscores]
  simp only [List.map_take, List.map_map, Function.comp_def]

end Branches

/-! ## The corpus -/

/-- A record of the corpus and the chunk that is stored of it. -/
structure StoredAs (u : Unicode) (query : HybridQuery) (targets : List DocumentId) (record : CorpusRecord)
    (stored : HydratedChunk) : Prop where
  isUuid : stored.chunkId < 2 ^ 128
  id : record.id = uuidStr stored.chunkId
  text : stored.chunk.textLexical = normalizeLexical u record.text
  document : record.documentId ∈ query.boostDocumentIds ↔ stored.chunk.documentId ∈ targets

/-- One boost of the documents, or none if there are no documents. -/
def documentBoosts (hint : Text) (targets : List DocumentId) : List HintBoost :=
  if targets = [] then [] else [⟨hint, .inDocument, targets⟩]

variable {targets : List DocumentId} {corpus : List (CorpusRecord × HydratedChunk)}

theorem matchedBoosts_documentBoosts (hint : Text) (targets : List DocumentId) (chunk : Chunk) :
    matchedBoosts (documentBoosts hint targets) chunk = if chunk.documentId ∈ targets then [hint] else [] := by
  unfold documentBoosts
  split
  · rename_i hnone
    simp [hnone, matchedBoosts]
  · by_cases h : chunk.documentId ∈ targets <;> simp [matchedBoosts, h]

theorem recordById_stored (hstored : ∀ x ∈ corpus, StoredAs u query targets x.1 x.2)
    (hids : (corpus.map (·.2.chunkId)).Nodup) {record : CorpusRecord} {stored : HydratedChunk}
    (h : (record, stored) ∈ corpus) : recordById (corpus.map Prod.fst) (uuidStr stored.chunkId) = some record := by
  have hmem : record ∈ (corpus.map Prod.fst).reverse := List.mem_reverse.mpr (List.mem_map_of_mem h)
  have hid : record.id = uuidStr stored.chunkId := (hstored _ h).id
  cases hfind : recordById (corpus.map Prod.fst) (uuidStr stored.chunkId) with
  | none => exact absurd (List.find?_eq_none.mp hfind record hmem) (by simp [hid])
  | some found =>
      obtain ⟨x, hx, rfl⟩ := List.mem_map.mp (List.mem_reverse.mp (List.mem_of_find?_eq_some hfind))
      have hfound : x.1.id = uuidStr stored.chunkId := by simpa using List.find?_some hfind
      have hsame := (hstored x hx).id.symm.trans hfound
      have hchunk : x.2.chunkId = stored.chunkId :=
        le_antisymm ((uuidStr_le_iff (hstored x hx).isUuid (hstored _ h).isUuid).mp hsame.le)
          ((uuidStr_le_iff (hstored _ h).isUuid (hstored x hx).isUuid).mp hsame.ge)
      rw [List.inj_on_of_nodup_map hids hx h hchunk]

end Etoeragcb.Evaluation
