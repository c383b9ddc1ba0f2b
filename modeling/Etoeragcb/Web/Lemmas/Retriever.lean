import Etoeragcb.Web.Retriever

/-!
# What becomes of the hits

The loop over the fetched hits returns one entry for each, a candidate or a failure.
-/

namespace Etoeragcb.Web

open Lib Rag

variable {u : Unicode} {sha256 : Sha256} {hit : SearchHit} {page : FetchedPage} {fetch : ℕ → Except ServiceError FetchedPage}

/-! ## Candidates -/

def Fits (u : Unicode) (page : FetchedPage) : Prop :=
  page.finalUrl ≠ [] ∧ page.finalUrl.length ≤ 2043 ∧ page.text ≠ [] ∧ Content.normalizeLexical u page.text ≠ []

theorem length_pos_of_ne_nil {s : Text} : 1 ≤ s.length ↔ s ≠ [] := List.length_pos_iff

theorem length_of_isSha256 {s : Text} (h : isSha256 s = true) : s.length = 64 := by
  rw [isSha256, Bool.and_eq_true, decide_eq_true_eq] at h
  exact h.1

theorem fieldChecks_webEvidenceOf (sha256 : Sha256) (hit : SearchHit) (page : FetchedPage) :
    (∀ x ∈ (webEvidenceOf u sha256 hit page).fieldChecks, x.2 = true) ↔ Fits u page := by
  have hid : 1 ≤ (webEvidenceOf u sha256 hit page).candidateId.length ∧
      (webEvidenceOf u sha256 hit page).candidateId.length ≤ 512 := by
    simp only [webEvidenceOf, List.length_append, length_of_isSha256 (sha256.isSha256_hexdigest _)]
    decide
  have hsection : (webEvidenceOf u sha256 hit page).sectionKey.length = page.finalUrl.length + 5 := List.length_append
  simp only [EvidenceCandidate.fieldChecks, List.forall_mem_cons, hid.1, hid.2, hsection, List.not_mem_nil, false_imp_iff,
    implies_true, and_true, true_and, Bool.and_eq_true, decide_eq_true_eq, Fits, ← length_pos_of_ne_nil]
  simp only [webEvidenceOf, sha256.isSha256_hexdigest, Option.all_some, Option.all_none, page.domain_length,
    page.finalUrl_length,
    hit.title_length.1, hit.title_length.2, hit.rank_pos, and_true, true_and, decide_true]
  omega

theorem webCandidate_eq_ok {c : EvidenceCandidate} :
    webCandidate u sha256 hit page = .ok c ↔ Fits u page ∧ c = webEvidenceOf u sha256 hit page := by
  have hsource : (webEvidenceOf u sha256 hit page).sourceErrors = [] :=
    by simp [EvidenceCandidate.sourceErrors, webEvidenceOf]
  rw [webCandidate, EvidenceCandidate.validate, if_pos hsource, ← fieldChecks_webEvidenceOf sha256 hit page]
  cases hfields : ((webEvidenceOf u sha256 hit page).fieldChecks.filter fun x => !x.2).map Prod.fst with
  | nil =>
      rw [List.map_eq_nil_iff, List.filter_eq_nil_iff] at hfields
      have hall : ∀ x ∈ (webEvidenceOf u sha256 hit page).fieldChecks, x.2 = true := fun x hx => by simpa using hfields x hx
      rw [and_iff_right hall]
      exact ⟨fun h => (Except.ok.inj h).symm, fun h => congrArg _ h.symm⟩
  | cons field fields =>
      simp only [reduceCtorEq, false_iff, not_and]
      intro hall
      have hnil : (webEvidenceOf u sha256 hit page).fieldChecks.filter (fun x => !x.2) = [] :=
        List.filter_eq_nil_iff.mpr fun x hx => by simp [hall x hx]
      rw [hnil] at hfields
      cases hfields

/-! ## Failures -/

def CodeFits (code : Text) : Prop := 1 ≤ code.length ∧ code.length ≤ 80

theorem validate_eq_ok {code : Text} {f : WebFailure} :
    WebFailure.validate (some hit.rank) code = .ok f ↔ CodeFits code ∧ f.searchRank = some hit.rank ∧ f.code = code := by
  have hrank : (some hit.rank).all (1 ≤ ·) = true := by simpa using hit.rank_pos
  rw [WebFailure.validate, dif_pos hrank]
  by_cases hcode : 1 ≤ code.length ∧ code.length ≤ 80
  · rw [dif_pos hcode, Except.ok.injEq]
    obtain ⟨searchRank, code', h, h'⟩ := f
    simp only [WebFailure.mk.injEq, CodeFits, hcode, true_and, eq_comm]
  · rw [dif_neg hcode]
    simp [CodeFits, hcode]

def failureOf (hit : SearchHit) (code : Text) (hcode : CodeFits code) : WebFailure :=
  ⟨some hit.rank, code, by simpa using hit.rank_pos, hcode⟩

theorem validate_of_fits {code : Text} (hcode : CodeFits code) :
    WebFailure.validate (some hit.rank) code = .ok (failureOf hit code hcode) := validate_eq_ok.mpr ⟨hcode, rfl, rfl⟩

theorem codeFits_duplicate : CodeFits "duplicate_final_url".toList := ⟨by decide, by decide⟩

theorem codeFits_unexpected : CodeFits "fetch_unexpected".toList := ⟨by decide, by decide⟩

/-- The codes that the fetches raise are within their limits. -/
def CodesFit (hits : List SearchHit) (fetch : ℕ → Except ServiceError FetchedPage) : Prop :=
  ∀ i < hits.length, ∀ code, fetch i = .error (.webRetrievalError code) → CodeFits code

/-- What the fetch of a hit comes to, if its code is within the limits. -/
def outcome (fetch : ℕ → Except ServiceError FetchedPage) (x : SearchHit × ℕ) : FetchedPage ⊕ WebFailure :=
  (fetchHit x.1 (fetch x.2)).toOption.getD (.inr (failureOf x.1 _ codeFits_unexpected))

theorem fetchHit_eq {x : SearchHit × ℕ} (h : ∀ code, fetch x.2 = .error (.webRetrievalError code) → CodeFits code) :
    fetchHit x.1 (fetch x.2) = .ok (outcome fetch x) := by
  rw [outcome]
  cases hfetch : fetch x.2 with
  | ok page => rfl
  | error e =>
      cases e with
      | webRetrievalError code =>
          rw [fetchHit, validate_of_fits (h code hfetch)]
          rfl
      | unexpected =>
          rw [fetchHit, validate_of_fits codeFits_unexpected]
          rfl

theorem codeFits_of_fetchHit {code : Text} {result : FetchedPage ⊕ WebFailure}
    (h : fetchHit hit (.error (.webRetrievalError code)) = .ok result) : CodeFits code := by
  rw [fetchHit, map_eq_ok] at h
  obtain ⟨f, hf, -⟩ := h
  exact (validate_eq_ok.mp hf).1

theorem outcome_page {x : SearchHit × ℕ} (h : fetch x.2 = .ok page) : outcome fetch x = .inl page := by
  rw [outcome, h]
  rfl

theorem fetch_of_outcome {x : SearchHit × ℕ} (h : outcome fetch x = .inl page) : fetch x.2 = .ok page := by
  rw [outcome] at h
  cases hfetch : fetch x.2 with
  | ok p =>
      rw [hfetch] at h
      exact congrArg _ (Sum.inl.inj h)
  | error e =>
      rw [hfetch] at h
      cases e with
      | webRetrievalError code =>
          rw [fetchHit] at h
          cases hv : WebFailure.validate (some x.1.rank) code <;> rw [hv] at h <;> cases h
      | unexpected =>
          rw [fetchHit, validate_of_fits codeFits_unexpected] at h
          cases h

theorem searchRank_of_outcome {x : SearchHit × ℕ} {f : WebFailure} (h : outcome fetch x = .inr f) :
    f.searchRank = some x.1.rank := by
  rw [outcome] at h
  cases hresult : fetchHit x.1 (fetch x.2) with
  | error e =>
      rw [hresult] at h
      exact Sum.inr.inj h ▸ rfl
  | ok result =>
      rw [hresult] at h
      obtain rfl : result = .inr f := h
      cases hfetch : fetch x.2 with
      | ok page =>
          rw [hfetch] at hresult
          cases hresult
      | error e =>
          rw [hfetch] at hresult
          cases e <;>
            · rw [fetchHit, map_eq_ok] at hresult
              obtain ⟨f', hf, he⟩ := hresult
              cases he
              exact (validate_eq_ok.mp hf).2.1

/-! ## The loop -/

abbrev Entry := ℕ × (EvidenceCandidate ⊕ WebFailure)

/-- What stands for the hits behind pages with the given URLs. -/
def entries (u : Unicode) (sha256 : Sha256) (fetch : ℕ → Except ServiceError FetchedPage) :
    List Text → List (SearchHit × ℕ) → List Entry
  | _, [] => []
  | seen, x :: items =>
      match outcome fetch x with
      | .inr failure => (x.2, .inr failure) :: entries u sha256 fetch seen items
      | .inl page =>
          if page.finalUrl ∈ seen then (x.2, .inr (failureOf x.1 _ codeFits_duplicate)) :: entries u sha256 fetch seen items
          else (x.2, .inl (webEvidenceOf u sha256 x.1 page)) :: entries u sha256 fetch (page.finalUrl :: seen) items

def candidatesOf (es : List Entry) : List EvidenceCandidate := es.filterMap fun e => e.2.getLeft?

def failuresOf (es : List Entry) : List WebFailure := es.filterMap fun e => e.2.getRight?

@[simp] theorem candidatesOf_inl {i : ℕ} {c : EvidenceCandidate} {es : List Entry} :
    candidatesOf ((i, .inl c) :: es) = c :: candidatesOf es := rfl

@[simp] theorem candidatesOf_inr {i : ℕ} {f : WebFailure} {es : List Entry} :
    candidatesOf ((i, .inr f) :: es) = candidatesOf es := rfl

@[simp] theorem failuresOf_inl {i : ℕ} {c : EvidenceCandidate} {es : List Entry} :
    failuresOf ((i, .inl c) :: es) = failuresOf es := rfl

@[simp] theorem failuresOf_inr {i : ℕ} {f : WebFailure} {es : List Entry} :
    failuresOf ((i, .inr f) :: es) = f :: failuresOf es := rfl

/-- The pages of which the loop makes a candidate are within the limits. -/
def PagesFit (u : Unicode) (fetch : ℕ → Except ServiceError FetchedPage) : List Text → List (SearchHit × ℕ) → Prop
  | _, [] => True
  | seen, x :: items =>
      match outcome fetch x with
      | .inr _ => PagesFit u fetch seen items
      | .inl page =>
          if page.finalUrl ∈ seen then PagesFit u fetch seen items
          else Fits u page ∧ PagesFit u fetch (page.finalUrl :: seen) items

theorem foldlM_collect {items : List (SearchHit × ℕ)} {state state' : Collected} :
    (items.map fun x => (x.1, outcome fetch x)).foldlM (collect u sha256) state = .ok state' →
      PagesFit u fetch state.finalUrls items ∧
        state'.candidates = state.candidates ++ candidatesOf (entries u sha256 fetch state.finalUrls items) ∧
        state'.failures = state.failures ++ failuresOf (entries u sha256 fetch state.finalUrls items) := by
  induction items generalizing state with
  | nil =>
      rintro ⟨⟩
      simp [PagesFit, entries, candidatesOf, failuresOf]
  | cons x items ih =>
      rw [List.map_cons, List.foldlM_cons, bind_eq_ok]
      rintro ⟨state₁, hstep, hrest⟩
      have h := ih hrest
      rw [collect] at hstep
      rw [PagesFit, entries]
      cases hx : outcome fetch x with
      | inr failure =>
          rw [hx] at hstep
          obtain rfl := Except.ok.inj hstep
          rw [List.append_assoc] at h
          exact h
      | inl page =>
          rw [hx] at hstep
          by_cases hseen : page.finalUrl ∈ state.finalUrls
          · simp only [if_pos hseen, validate_of_fits codeFits_duplicate, bind_eq_ok, Except.ok.injEq, pure_eq_ok] at hstep
            obtain ⟨_, rfl, rfl⟩ := hstep
            rw [List.append_assoc] at h
            simp only [if_pos hseen]
            exact h
          · simp only [if_neg hseen, bind_eq_ok, webCandidate_eq_ok, pure_eq_ok] at hstep
            obtain ⟨_, ⟨hfits, rfl⟩, rfl⟩ := hstep
            rw [List.append_assoc] at h
            simp only [if_neg hseen]
            exact ⟨⟨hfits, h.1⟩, h.2⟩

theorem foldlM_collect_of_fit (sha256 : Sha256) {items : List (SearchHit × ℕ)} (state : Collected)
    (h : PagesFit u fetch state.finalUrls items) : ∃ state',
      (items.map fun x => (x.1, outcome fetch x)).foldlM (collect u sha256) state = .ok state' := by
  induction items generalizing state with
  | nil => exact ⟨state, rfl⟩
  | cons x items ih =>
      rw [PagesFit] at h
      simp only [List.map_cons, List.foldlM_cons, bind_eq_ok]
      cases hx : outcome fetch x with
      | inr failure =>
          rw [hx] at h
          obtain ⟨state', hrest⟩ := ih { state with failures := state.failures ++ [failure] } h
          exact ⟨state', _, rfl, hrest⟩
      | inl page =>
          rw [hx] at h
          by_cases hseen : page.finalUrl ∈ state.finalUrls
          · simp only [if_pos hseen] at h
            obtain ⟨state', hrest⟩ :=
              ih { state with failures := state.failures ++ [failureOf x.1 _ codeFits_duplicate] } h
            refine ⟨state', _, ?_, hrest⟩
            simp only [collect, if_pos hseen, validate_of_fits codeFits_duplicate, bind, Except.bind, pure, Except.pure]
          · simp only [if_neg hseen] at h
            obtain ⟨state', hrest⟩ := ih ⟨state.candidates ++ [webEvidenceOf u sha256 x.1 page], state.failures,
              page.finalUrl :: state.finalUrls⟩ h.2
            refine ⟨state', _, ?_, hrest⟩
            simp only [collect, if_neg hseen, webCandidate_eq_ok.mpr ⟨h.1, rfl⟩, bind, Except.bind, pure, Except.pure]

end Etoeragcb.Web
