import Etoeragcb.Web.Lemmas.Retriever

/-!
# The hits of a result

What the entries say of a result, and how they change with one of the fetches.
-/

namespace Etoeragcb.Web

open Lib Rag

variable {u : Unicode} {sha256 : Sha256} {fetch fetch' : ℕ → Except ServiceError FetchedPage} {hits : List SearchHit}
  {items : List (SearchHit × ℕ)} {seen seen' : List Text}

def order (hits : List SearchHit) : List (SearchHit × ℕ) := sortBy (fun x => x.1.rank) hits.zipIdx

theorem mem_order {x : SearchHit × ℕ} : x ∈ order hits ↔ hits[x.2]? = some x.1 := by
  rw [order, mem_sortBy, List.mem_zipIdx_iff_getElem?]

/-! ## Returning -/

theorem sortBy_fetched : sortBy (fun item : SearchHit × (FetchedPage ⊕ WebFailure) => item.1.rank)
    (hits.zipIdx.map fun x => (x.1, outcome fetch x)) = (order hits).map fun x => (x.1, outcome fetch x) := by
  let key' : SearchHit × (FetchedPage ⊕ WebFailure) → ℕ := fun item => item.1.rank
  let f : SearchHit × ℕ → SearchHit × (FetchedPage ⊕ WebFailure) := fun x => (x.1, outcome fetch x)
  exact (@map_sortBy _ _ _ _ (fun x => x.1.rank) hits.zipIdx _ _ key' f fun _ _ _ _ => Iff.rfl).symm

theorem mapM_fetchHit (h : CodesFit hits fetch) :
    (hits.zipIdx.mapM fun x => (fetchHit x.1 (fetch x.2)).map fun result => (x.1, result)) =
      .ok (hits.zipIdx.map fun x => (x.1, outcome fetch x)) := by
  refine mapM_eq_ok fun x hx => ?_
  have hlt : x.2 < hits.length := by
    have := List.mem_zipIdx_iff_getElem?.mp hx
    exact (List.getElem?_eq_some_iff.mp this).1
  rw [fetchHit_eq (h x.2 hlt)]
  rfl

theorem codesFit_of_mapM {fetched : List (SearchHit × (FetchedPage ⊕ WebFailure))}
    (h : (hits.zipIdx.mapM fun x => (fetchHit x.1 (fetch x.2)).map fun result => (x.1, result)) = .ok fetched) :
    CodesFit hits fetch := by
  intro i hi code hcode
  have hmem : (hits[i], i) ∈ hits.zipIdx := List.mem_zipIdx_iff_getElem?.mpr (List.getElem?_eq_getElem hi)
  have hin := List.mem_map_of_mem (f := fun x => (fetchHit x.1 (fetch x.2)).map fun result => (x.1, result)) hmem
  rw [mapM_eq_ok_iff.mp h] at hin
  obtain ⟨y, -, hy⟩ := List.mem_map.mp hin
  obtain ⟨result, hresult, -⟩ := map_eq_ok.mp hy.symm
  rw [hcode] at hresult
  exact codeFits_of_fetchHit hresult

theorem retrieve_eq_ok {r : WebRetrievalResult} (h : retrieve u sha256 (.ok hits) fetch = .ok r) :
    CodesFit hits fetch ∧ PagesFit u fetch [] (order hits) ∧
      r.candidates = candidatesOf (entries u sha256 fetch [] (order hits)) ∧
      r.failures = failuresOf (entries u sha256 fetch [] (order hits)) := by
  cases hits with
  | nil =>
      cases h
      exact ⟨fun _ hi => absurd hi (Nat.not_lt_zero _), trivial, rfl, rfl⟩
  | cons hit hits =>
      rw [retrieve, bind_eq_ok] at h
      · obtain ⟨fetched, hfetched, hloop⟩ := h
        have hcodes := codesFit_of_mapM hfetched
        rw [mapM_fetchHit hcodes] at hfetched
        obtain rfl := Except.ok.inj hfetched
        obtain ⟨state, hstate, hr⟩ := bind_eq_ok.mp hloop
        rw [sortBy_fetched] at hstate
        obtain ⟨hpages, hcandidates, hfailures⟩ := foldlM_collect hstate
        obtain rfl := pure_eq_ok.mp hr
        exact ⟨hcodes, hpages, hcandidates, hfailures⟩
      · exact List.cons_ne_nil _ _

theorem retrieve_of_fit (sha256 : Sha256) (hcodes : CodesFit hits fetch) (hpages : PagesFit u fetch [] (order hits)) :
    ∃ r, retrieve u sha256 (.ok hits) fetch = .ok r := by
  cases hits with
  | nil => exact ⟨_, rfl⟩
  | cons hit hits =>
      obtain ⟨state, hstate⟩ := foldlM_collect_of_fit sha256 ⟨[], [], []⟩ hpages
      refine ⟨⟨resultStatus state.candidates state.failures, state.candidates, state.failures⟩, ?_⟩
      rw [retrieve, mapM_fetchHit hcodes]
      · simp only [bind, Except.bind, sortBy_fetched, hstate]
        rfl
      · exact List.cons_ne_nil _ _

theorem pagesFit_iff : PagesFit u fetch seen items ↔
    ∀ before x after page, items = before ++ x :: after → fetch x.2 = .ok page → page.finalUrl ∉ seen →
      (∀ y ∈ before, ∀ p, fetch y.2 = .ok p → p.finalUrl ≠ page.finalUrl) → Fits u page := by
  induction items generalizing seen with
  | nil => simp [PagesFit]
  | cons x₀ items ih =>
      -- the first item is the one in question, or it stands before it
      have hcons : (∀ before x after page, x₀ :: items = before ++ x :: after → fetch x.2 = .ok page → page.finalUrl ∉ seen →
          (∀ y ∈ before, ∀ p, fetch y.2 = .ok p → p.finalUrl ≠ page.finalUrl) → Fits u page) ↔
          (∀ page, fetch x₀.2 = .ok page → page.finalUrl ∉ seen → Fits u page) ∧
          ∀ before x after page, items = before ++ x :: after → fetch x.2 = .ok page → page.finalUrl ∉ seen →
            (∀ p, fetch x₀.2 = .ok p → p.finalUrl ≠ page.finalUrl) →
            (∀ y ∈ before, ∀ p, fetch y.2 = .ok p → p.finalUrl ≠ page.finalUrl) → Fits u page := by
        constructor
        · intro h
          refine ⟨fun page hpage hnew => h [] x₀ items page rfl hpage hnew (fun _ hy => absurd hy List.not_mem_nil), ?_⟩
          intro before x after page heq hpage hnew hfirst hbefore
          exact h (x₀ :: before) x after page (by rw [heq]; rfl) hpage hnew (List.forall_mem_cons.mpr ⟨hfirst, hbefore⟩)
        · rintro ⟨hhead, htail⟩ before x after page heq hpage hnew hbefore
          cases before with
          | nil =>
              obtain ⟨rfl, -⟩ := List.cons.inj heq
              exact hhead page hpage hnew
          | cons y before =>
              obtain ⟨rfl, hrest⟩ := List.cons.inj heq
              obtain ⟨hfirst, hbefore⟩ := List.forall_mem_cons.mp hbefore
              exact htail before x after page hrest hpage hnew hfirst hbefore
      rw [hcons, PagesFit]
      cases hx : outcome fetch x₀ with
      | inr failure =>
          have hno : ∀ page, fetch x₀.2 ≠ .ok page := fun page hpage => by
            rw [outcome_page hpage] at hx
            cases hx
          simp [hno, ih]
      | inl page₀ =>
          have hpage₀ := fetch_of_outcome hx
          simp only [hpage₀, Except.ok.injEq, forall_eq']
          by_cases hseen : page₀.finalUrl ∈ seen
          · rw [if_pos hseen, ih]
            refine ⟨fun h => ⟨fun hnew => absurd hseen hnew, fun b x a page he hp hnew _ hb => h b x a page he hp hnew hb⟩, ?_⟩
            rintro ⟨-, h⟩ before x after page heq hpage hnew hbefore
            exact h before x after page heq hpage hnew (fun he => hnew (he ▸ hseen)) hbefore
          · rw [if_neg hseen, ih]
            simp only [List.mem_cons, not_or, hseen, not_false_eq_true, true_imp_iff]
            refine and_congr_right fun _ => ⟨?_, ?_⟩
            · exact fun h before x after page heq hpage hnew hfirst hbefore =>
                h before x after page heq hpage ⟨Ne.symm hfirst, hnew⟩ hbefore
            · exact fun h before x after page heq hpage hnew hbefore =>
                h before x after page heq hpage hnew.2 (Ne.symm hnew.1) hbefore

/-! ## Entries -/

theorem map_fst_entries : (entries u sha256 fetch seen items).map Prod.fst = items.map Prod.snd := by
  induction items generalizing seen with
  | nil => rfl
  | cons x items ih =>
      rw [entries]
      split
      · rw [List.map_cons, ih, List.map_cons]
      · split <;> rw [List.map_cons, ih, List.map_cons]

theorem mem_candidatesOf {c : EvidenceCandidate} {es : List Entry} : c ∈ candidatesOf es ↔ ∃ i, (i, .inl c) ∈ es := by
  simp [candidatesOf, List.mem_filterMap, Sum.getLeft?_eq_some_iff]

theorem mem_failuresOf {f : WebFailure} {es : List Entry} : f ∈ failuresOf es ↔ ∃ i, (i, .inr f) ∈ es := by
  simp [failuresOf, List.mem_filterMap, Sum.getRight?_eq_some_iff]

theorem candidate_of_mem {i : ℕ} {c : EvidenceCandidate} (h : (i, .inl c) ∈ entries u sha256 fetch seen items) :
    ∃ hit page, (hit, i) ∈ items ∧ fetch i = .ok page ∧ c = webEvidenceOf u sha256 hit page ∧ page.finalUrl ∉ seen := by
  induction items generalizing seen with
  | nil => cases h
  | cons x items ih =>
      have hlater : ∀ {seen'}, seen ⊆ seen' → (i, .inl c) ∈ entries u sha256 fetch seen' items →
          ∃ hit page, (hit, i) ∈ x :: items ∧ fetch i = .ok page ∧ c = webEvidenceOf u sha256 hit page ∧
            page.finalUrl ∉ seen := fun hsub hin => by
        obtain ⟨hit, page, hmem, hpage, hc, hnew⟩ := ih hin
        exact ⟨hit, page, List.mem_cons_of_mem _ hmem, hpage, hc, fun hs => hnew (hsub hs)⟩
      rw [entries] at h
      cases hx : outcome fetch x with
      | inr failure =>
          rw [hx] at h
          exact hlater (List.Subset.refl _) (by simpa using h)
      | inl page =>
          rw [hx] at h
          by_cases hseen : page.finalUrl ∈ seen
          · simp only [if_pos hseen, List.mem_cons, Prod.mk.injEq, reduceCtorEq, and_false, false_or] at h
            exact hlater (List.Subset.refl _) h
          · simp only [if_neg hseen, List.mem_cons, Prod.mk.injEq, Sum.inl.injEq] at h
            rcases h with ⟨rfl, rfl⟩ | h
            · exact ⟨x.1, page, List.mem_cons_self, fetch_of_outcome hx, rfl, hseen⟩
            · exact hlater (List.subset_cons_self _ _) h

theorem failure_of_mem {i : ℕ} {f : WebFailure} (h : (i, .inr f) ∈ entries u sha256 fetch seen items) :
    ∃ hit, (hit, i) ∈ items ∧ f.searchRank = some hit.rank := by
  induction items generalizing seen with
  | nil => cases h
  | cons x items ih =>
      have hlater : ∀ {seen'}, (i, .inr f) ∈ entries u sha256 fetch seen' items →
          ∃ hit, (hit, i) ∈ x :: items ∧ f.searchRank = some hit.rank := fun hin => by
        obtain ⟨hit, hmem, hf⟩ := ih hin
        exact ⟨hit, List.mem_cons_of_mem _ hmem, hf⟩
      rw [entries] at h
      cases hx : outcome fetch x with
      | inr failure =>
          rw [hx] at h
          rcases List.mem_cons.mp h with h | h
          · obtain ⟨rfl, hf⟩ := Prod.mk.inj h
            exact ⟨x.1, List.mem_cons_self, Sum.inr.inj hf ▸ searchRank_of_outcome hx⟩
          · exact hlater h
      | inl page =>
          rw [hx] at h
          by_cases hseen : page.finalUrl ∈ seen
          · simp only [if_pos hseen] at h
            rcases List.mem_cons.mp h with h | h
            · obtain ⟨rfl, hf⟩ := Prod.mk.inj h
              exact ⟨x.1, List.mem_cons_self, Sum.inr.inj hf ▸ rfl⟩
            · exact hlater h
          · simp only [if_neg hseen, List.mem_cons, Prod.mk.injEq, reduceCtorEq, and_false, false_or] at h
            exact hlater h

theorem candidates_ordered (h : items.Pairwise fun x y => x.1.rank ≤ y.1.rank) :
    (candidatesOf (entries u sha256 fetch seen items)).Pairwise fun c d => c.retrievalRank ≤ d.retrievalRank := by
  induction items generalizing seen with
  | nil => exact .nil
  | cons x items ih =>
      obtain ⟨hx, hrest⟩ := List.pairwise_cons.mp h
      rw [entries]
      split
      · exact ih hrest
      · split
        · exact ih hrest
        · refine .cons (fun d hd => ?_) (ih hrest)
          obtain ⟨i, hin⟩ := mem_candidatesOf.mp hd
          obtain ⟨hit, page, hmem, -, rfl, -⟩ := candidate_of_mem hin
          exact hx _ hmem

theorem failures_ordered (h : items.Pairwise fun x y => x.1.rank ≤ y.1.rank) :
    (failuresOf (entries u sha256 fetch seen items)).Pairwise fun f g => f.searchRank.getD 0 ≤ g.searchRank.getD 0 := by
  induction items generalizing seen with
  | nil => exact .nil
  | cons x items ih =>
      obtain ⟨hx, hrest⟩ := List.pairwise_cons.mp h
      have hcons : ∀ {f : WebFailure} {seen}, f.searchRank = some x.1.rank →
          (f :: failuresOf (entries u sha256 fetch seen items)).Pairwise
            fun f g => f.searchRank.getD 0 ≤ g.searchRank.getD 0 := fun hf => by
        refine .cons (fun g hg => ?_) (ih hrest)
        obtain ⟨i, hin⟩ := mem_failuresOf.mp hg
        obtain ⟨hit, hmem, hrank⟩ := failure_of_mem hin
        rw [hf, hrank]
        exact hx _ hmem
      rw [entries]
      cases hresult : outcome fetch x with
      | inr failure => exact hcons (searchRank_of_outcome hresult)
      | inl page =>
          by_cases hseen : page.finalUrl ∈ seen
          · simp only [if_pos hseen]
            exact hcons rfl
          · simp only [if_neg hseen]
            exact ih hrest

theorem candidates_nodup : ((candidatesOf (entries u sha256 fetch seen items)).map (·.uri)).Nodup := by
  induction items generalizing seen with
  | nil => exact .nil
  | cons x items ih =>
      rw [entries]
      split
      · exact ih
      · split
        · exact ih
        · rename_i page _ _
          refine .cons (fun hurl => ?_) ih
          obtain ⟨c, hc, he⟩ := List.mem_map.mp hurl
          obtain ⟨i, hin⟩ := mem_candidatesOf.mp hc
          obtain ⟨hit, page', -, -, rfl, hnew⟩ := candidate_of_mem hin
          obtain he : page'.finalUrl = page.finalUrl := Option.some.inj he
          exact hnew (he ▸ List.mem_cons_self)

/-! ## Another outcome for one of the hits -/

def others (i : ℕ) (es : List Entry) : List Entry := es.filter fun e => e.1 ≠ i

theorem outcome_congr {x : SearchHit × ℕ} (h : fetch' x.2 = fetch x.2) : outcome fetch' x = outcome fetch x := by
  rw [outcome, outcome, h]

theorem entries_cons (u : Unicode) (sha256 : Sha256) (fetch : ℕ → Except ServiceError FetchedPage) (seen : List Text)
    (x : SearchHit × ℕ) (items : List (SearchHit × ℕ)) : ∃ e new, entries u sha256 fetch seen (x :: items) =
    (x.2, e) :: entries u sha256 fetch (new ++ seen) items ∧ ∀ w ∈ new, ∃ page, fetch x.2 = .ok page ∧
      page.finalUrl = w := by
  rw [entries]
  cases hx : outcome fetch x with
  | inr failure => exact ⟨_, [], rfl, fun _ hw => absurd hw List.not_mem_nil⟩
  | inl page =>
      by_cases hseen : page.finalUrl ∈ seen
      · exact ⟨_, [], by simp only [if_pos hseen]; rfl, fun _ hw => absurd hw List.not_mem_nil⟩
      · exact ⟨_, [page.finalUrl], by simp only [if_neg hseen]; rfl,
          List.forall_mem_singleton.mpr ⟨page, fetch_of_outcome hx, rfl⟩⟩

/-- What the fetches of the other hits come to is the same, and the second loop knows none of their pages that the first does
not. -/
theorem kept_sublist {i : ℕ} (hsame : ∀ j ≠ i, fetch' j = fetch j)
    (hsub : ∀ x ∈ items, x.2 ≠ i → ∀ page, fetch x.2 = .ok page → page.finalUrl ∈ seen' → page.finalUrl ∈ seen)
    (hfresh : ∀ page', fetch' i = .ok page' → ∀ x ∈ items, x.2 ≠ i → ∀ page, fetch x.2 = .ok page →
      page.finalUrl ≠ page'.finalUrl) :
    (candidatesOf (others i (entries u sha256 fetch seen items))).Sublist
      (candidatesOf (others i (entries u sha256 fetch' seen' items))) := by
  induction items generalizing seen seen' with
  | nil => exact .refl _
  | cons x items ih =>
      have hfresh' := fun page' hp y hy => hfresh page' hp y (List.mem_cons_of_mem x hy)
      have htail := fun y hy => hsub y (List.mem_cons_of_mem x hy)
      by_cases hx : x.2 = i
      · -- the entry of the hit itself is left out on both sides
        have hskip : ∀ (e : EvidenceCandidate ⊕ WebFailure) (es : List Entry), others i ((x.2, e) :: es) = others i es :=
          fun e es => by rw [others, List.filter_cons_of_neg (by simp [hx]), others]
        obtain ⟨e, new, heq, -⟩ := entries_cons u sha256 fetch seen x items
        obtain ⟨e', new', heq', hnew'⟩ := entries_cons u sha256 fetch' seen' x items
        rw [heq, heq', hskip, hskip]
        refine ih (fun y hy hne page hpage hmem => ?_) hfresh'
        rcases List.mem_append.mp hmem with hmem | hmem
        · obtain ⟨page', hpage', he⟩ := hnew' _ hmem
          exact absurd he.symm (hfresh' page' (hx ▸ hpage') y hy hne page hpage)
        · exact List.mem_append_right _ (htail y hy hne page hpage hmem)
      · have hkeep : ∀ (e : EvidenceCandidate ⊕ WebFailure) (es : List Entry),
            others i ((x.2, e) :: es) = (x.2, e) :: others i es :=
          fun e es => by rw [others, List.filter_cons_of_pos (by simpa using hx), others]
        rw [entries, entries, outcome_congr (hsame x.2 hx)]
        cases hresult : outcome fetch x with
        | inr failure =>
            simp only [hkeep, candidatesOf_inr]
            exact ih htail hfresh'
        | inl page =>
            have hpage := fetch_of_outcome hresult
            have hhead := hsub x List.mem_cons_self hx page hpage
            -- with the URL of the page on both sides, what is known of the URLs stays
            have hboth : ∀ y ∈ items, y.2 ≠ i → ∀ p, fetch y.2 = .ok p → p.finalUrl ∈ page.finalUrl :: seen' →
                p.finalUrl ∈ page.finalUrl :: seen := fun y hy hne p hp hmem => by
              rcases List.mem_cons.mp hmem with he | hmem
              · exact he ▸ List.mem_cons_self
              · exact List.mem_cons_of_mem _ (htail y hy hne p hp hmem)
            by_cases hseen : page.finalUrl ∈ seen
            · simp only [if_pos hseen, hkeep, candidatesOf_inr]
              by_cases hseen' : page.finalUrl ∈ seen'
              · simp only [if_pos hseen', hkeep, candidatesOf_inr]
                exact ih htail hfresh'
              · simp only [if_neg hseen', hkeep, candidatesOf_inl]
                refine .cons _ (ih (fun y hy hne p hp hmem => ?_) hfresh')
                rcases List.mem_cons.mp (hboth y hy hne p hp hmem) with he | hmem
                · exact he ▸ hseen
                · exact hmem
            · simp only [if_neg hseen, if_neg fun hseen' => hseen (hhead hseen'), hkeep, candidatesOf_inl]
              exact .cons_cons _ (ih hboth hfresh')

end Etoeragcb.Web
