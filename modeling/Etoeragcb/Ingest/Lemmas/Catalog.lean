import Etoeragcb.Ingest.Catalog

/-!
# The catalog stays sound
-/

namespace Etoeragcb.Ingest.Catalog

open Models

variable {s : Catalog} {T : Tenant} {t : TenantId} {d d' : DocumentId} {v : VersionId}
  {g g' : GenerationId} {j : JobId} {n : Nat}

/-! ## What preparing copies -/

theorem current_eq (ht : s.tenant t = some T) : s.current t = T.activeIndexGenerationId := by
  simp [current, ht]

theorem Sound.row_tenant (h : s.Sound) (hg : s.current t = some g) {r : IndexGenerationDocument}
    (hr : s.row g d = some r) : r.tenantId = t := by
  obtain ⟨rg, hrg, hrt, _⟩ := h.current_active hg
  obtain ⟨rg', hrg', ht⟩ := h.row_generation hr
  rw [hrg] at hrg'; cases hrg'
  exact ht ▸ hrt

/-- Copying the active generation of a tenant without a document loses nothing else. -/
theorem Sound.copied_lists (h : s.Sound) (ht : s.tenant t = some T) :
    (s.copied T.activeIndexGenerationId t d d').map IndexGenerationDocument.documentVersionId =
      if d' = d then none else s.listed t d' := by
  by_cases hd : d' = d
  · simp [copied, hd]
  · simp only [copied, hd, ↓reduceIte, listed, current_eq ht, lists]
    cases hp : T.activeIndexGenerationId with
    | none => rfl
    | some p =>
        simp only [Option.bind_some]
        cases hr : s.row p d' with
        | none => rfl
        | some r => simp [h.row_tenant ((current_eq ht).trans hp) hr]

theorem Sound.built_lists (h : s.Sound) (ht : s.tenant t = some T) :
    (s.built T.activeIndexGenerationId t d v d').map IndexGenerationDocument.documentVersionId =
      if d' = d then some v else s.listed t d' := by
  by_cases hd : d' = d
  · simp [built, hd]
  · simp [built, hd, h.copied_lists ht]

theorem copied_eq_some {p : Option GenerationId} {r : IndexGenerationDocument}
    (h : s.copied p t d d' = some r) :
    d' ≠ d ∧ r.tenantId = t ∧ ∃ g r', p = some g ∧ s.row g d' = some r' ∧
      r'.documentVersionId = r.documentVersionId := by
  unfold copied at h
  by_cases hd : d' = d
  · simp [hd] at h
  · simp only [hd, ↓reduceIte, Option.bind_eq_some_iff] at h
    obtain ⟨r', ⟨g, hg, hr⟩, he⟩ := h
    split at he
    · cases he; exact ⟨hd, rfl, g, r', hg, hr, rfl⟩
    · cases he

theorem Sound.copied_version (h : s.Sound) {p : Option GenerationId} {r : IndexGenerationDocument}
    (hr : s.copied p t d d' = some r) :
    r.tenantId = t ∧ ∃ rv, s.version r.documentVersionId = some rv ∧ rv.documentId = d' := by
  obtain ⟨_, hrt, g, r', _, hr', he⟩ := copied_eq_some hr
  exact ⟨hrt, he ▸ h.row_version hr'⟩

theorem Sound.built_version (h : s.Sound) (hv : s.version v = some ⟨t, d, n⟩)
    {p : Option GenerationId} {r : IndexGenerationDocument} (hr : s.built p t d v d' = some r) :
    r.tenantId = t ∧ ∃ rv, s.version r.documentVersionId = some rv ∧ rv.documentId = d' := by
  unfold built at hr
  split at hr
  · rename_i hd
    cases hr; subst hd
    exact ⟨rfl, _, hv, rfl⟩
  · exact h.copied_version hr

/-! ## Staging -/

theorem Sound.stage (h : s.Sound) {document' : DocumentId → Option DocumentView} (hv : s.version v = none)
    (hj : s.job j = none)
    (hd : (s.document d = none ∧ document' = Function.update s.document d (some ⟨t, true, none⟩)) ∨
      ((∃ a, s.document d = some ⟨t, true, a⟩) ∧ document' = s.document)) :
    Sound { s with
      document := document'
      version := Function.update s.version v (some ⟨t, d, n⟩)
      job := Function.update s.job j (some ⟨v, false⟩) } := by
  have hver : ∀ {v' r}, s.version v' = some r → Function.update s.version v (some ⟨t, d, n⟩) v' = some r := by
    intro v' r hr
    have hne : v' ≠ v := by rintro rfl; rw [hv] at hr; cases hr
    simpa [hne] using hr
  have hold : ∀ {d' r}, s.document d' = some r → document' d' = some r := by
    intro d' r hr
    rcases hd with ⟨hn, rfl⟩ | ⟨_, rfl⟩
    · have hne : d' ≠ d := by rintro rfl; rw [hn] at hr; cases hr
      simpa [hne] using hr
    · exact hr
  -- A document of the new state with an active version was there before.
  have hback : ∀ {d' r a}, document' d' = some r → r.active = some a → s.document d' = some r := by
    intro d' r a hr ha
    rcases hd with ⟨_, rfl⟩ | ⟨_, rfl⟩
    · by_cases hne : d' = d
      · subst hne
        simp only [Function.update_self, Option.some.injEq] at hr
        subst hr; cases ha
      · simpa [hne] using hr
    · exact hr
  have hown : ∃ l a, document' d = some ⟨t, l, a⟩ := by
    rcases hd with ⟨_, rfl⟩ | ⟨⟨a, ha⟩, rfl⟩
    · exact ⟨true, none, by simp⟩
    · exact ⟨true, a, ha⟩
  have hjob : ∀ {j' r}, Function.update s.job j (some ⟨v, false⟩) j' = some r →
      (j' = j ∧ r = ⟨v, false⟩) ∨ s.job j' = some r := by
    intro j' r hr
    by_cases he : j' = j
    · subst he
      simp only [Function.update_self, Option.some.injEq] at hr
      exact Or.inl ⟨rfl, hr.symm⟩
    · exact Or.inr (by simpa [he] using hr)
  have hnojob : ∀ {j' r}, s.job j' = some r → r.versionId ≠ v := by
    intro j' r hr he
    obtain ⟨rv, hrv⟩ := h.job_version hr
    rw [he, hv] at hrv; cases hrv
  -- No generation was prepared for the new version.
  have hverback : ∀ {g r v' rv}, s.generation g = some r → r.changed = some v' →
      Function.update s.version v (some ⟨t, d, n⟩) v' = some rv → s.version v' = some rv := by
    intro g r v' rv hg hc hr
    obtain ⟨rv', hrv', _⟩ := h.changed_version hg hc
    rw [hver hrv'] at hr; cases hr
    exact hrv'
  constructor
  · intro v' r hr
    by_cases he : v' = v
    · subst he
      simp only [Function.update_self, Option.some.injEq] at hr
      subst hr; exact hown
    · obtain ⟨l, a, hda⟩ := h.version_document (by simpa [he] using hr)
      exact ⟨l, a, hold hda⟩
  · intro j' r hr
    rcases hjob hr with ⟨_, rfl⟩ | hr
    · exact ⟨_, Function.update_self ..⟩
    · obtain ⟨rv, hrv⟩ := h.job_version hr
      exact ⟨rv, hver hrv⟩
  · intro j₁ j₂ r₁ r₂ h₁ h₂ he
    rcases hjob h₁ with ⟨e₁, rfl⟩ | h₁' <;> rcases hjob h₂ with ⟨e₂, rfl⟩ | h₂'
    · rw [e₁, e₂]
    · exact absurd he.symm (hnojob h₂')
    · exact absurd he (hnojob h₁')
    · exact h.job_unique h₁' h₂' he
  · intro d' r a hr ha
    obtain ⟨hl, rv, hrv, hrd⟩ := h.active_version (hback hr ha) ha
    exact ⟨hl, rv, hver hrv, hrd⟩
  · intro d' r a j' rj hr ha hj' he
    rcases hjob hj' with ⟨_, rfl⟩ | hj'
    · obtain ⟨_, rv, hrv, _⟩ := h.active_version (hback hr ha) ha
      rw [← he, hv] at hrv; cases hrv
    · exact h.settled (hback hr ha) ha hj' he
  · exact h.current_active
  · intro g r v' hg hc
    obtain ⟨rv, hrv, ht⟩ := h.changed_version hg hc
    exact ⟨rv, hver hrv, ht⟩
  · exact h.row_generation
  · intro g d' r hr
    obtain ⟨rv, hrv, hrd⟩ := h.row_version hr
    exact ⟨rv, hver hrv, hrd⟩
  · exact h.parent_active
  · intro g r v' rv hg ha hc hrv
    rcases h.consumed hg ha hc (hverback hg hc hrv) with hs | ⟨rd, hrd, hl⟩
    · refine Or.inl fun j' rj hj' he => ?_
      rcases hjob hj' with ⟨_, rfl⟩ | hj'
      · obtain ⟨rv', hrv', _⟩ := h.changed_version hg hc
        rw [← he, hv] at hrv'; cases hrv'
      · exact hs j' rj hj' he
    · exact Or.inr ⟨rd, hold hrd, hl⟩
  · intro g r v' rv hg ha hc hrv
    exact h.prepared hg ha hc (hverback hg hc hrv)
  · intro t' d'
    refine (h.exact t' d').trans ?_
    rcases hd with ⟨hn, rfl⟩ | ⟨_, rfl⟩
    · by_cases he : d' = d
      · subst he; simp [activeVersion, hn]
      · simp [activeVersion, he]
    · rfl

/-! ## Preparing -/

theorem bind_lists {row' : GenerationId → DocumentId → Option IndexGenerationDocument}
    (hrow : ∀ g', g' ≠ g → row' g' = s.row g') {o : Option GenerationId}
    (ho : ∀ p, o = some p → p ≠ g) (d : DocumentId) :
    o.bind (fun p => (row' p d).map IndexGenerationDocument.documentVersionId) = o.bind (s.lists · d) := by
  cases o with
  | none => rfl
  | some p => simp [lists, hrow p (ho p rfl)]

theorem Sound.prepare (h : s.Sound) (hv : s.version v = some ⟨t, d, n⟩) (ht : s.tenant t = some T)
    (hg : s.generation g = none ∨ ∃ t' p, s.generation g = some ⟨t', some v, p, false⟩) :
    Sound { s with
      generation := Function.update s.generation g (some ⟨t, some v, T.activeIndexGenerationId, false⟩)
      row := Function.update s.row g (s.built T.activeIndexGenerationId t d v) } := by
  have hact : ∀ {p rp}, s.generation p = some rp → rp.active = true → p ≠ g := by
    rintro p rp hp ha rfl
    rcases hg with hn | ⟨t', q, hq⟩
    · rw [hn] at hp; cases hp
    · rw [hq] at hp; cases hp; cases ha
  have hcur : ∀ {t' p}, s.current t' = some p → p ≠ g := by
    intro t' p hp
    obtain ⟨rp, hrp, _, ha⟩ := h.current_active hp
    exact hact hrp ha
  have hrow : ∀ g', g' ≠ g → Function.update s.row g (s.built T.activeIndexGenerationId t d v) g' =
      s.row g' := fun g' hne => Function.update_of_ne hne ..
  have hgen : ∀ {g' r}, Function.update s.generation g
      (some ⟨t, some v, T.activeIndexGenerationId, false⟩) g' = some r →
      (g' = g ∧ r = ⟨t, some v, T.activeIndexGenerationId, false⟩) ∨ (g' ≠ g ∧ s.generation g' = some r) := by
    intro g' r hr
    by_cases he : g' = g
    · subst he
      simp only [Function.update_self, Option.some.injEq] at hr
      exact Or.inl ⟨rfl, hr.symm⟩
    · exact Or.inr ⟨he, by simpa [he] using hr⟩
  -- Every generation has the tenant that it had.
  have hten : ∀ {g' r}, s.generation g' = some r → ∃ r', Function.update s.generation g
      (some ⟨t, some v, T.activeIndexGenerationId, false⟩) g' = some r' ∧ r'.tenantId = r.tenantId := by
    intro g' r hr
    by_cases he : g' = g
    · subst he
      refine ⟨_, Function.update_self .., ?_⟩
      rcases hg with hn | ⟨t', q, hq⟩
      · rw [hn] at hr; cases hr
      · obtain ⟨rv, hrv, htt⟩ := h.changed_version hq rfl
        rw [hv] at hrv; cases hrv
        rw [hq] at hr; cases hr
        exact htt
    · exact ⟨r, by simpa [he] using hr, rfl⟩
  constructor
  · exact h.version_document
  · exact h.job_version
  · exact h.job_unique
  · exact h.active_version
  · exact h.settled
  · intro t' p hp
    obtain ⟨rp, hrp, htp, ha⟩ := h.current_active hp
    exact ⟨rp, by simpa [hact hrp ha] using hrp, htp, ha⟩
  · intro g' r v' hr hc
    rcases hgen hr with ⟨_, rfl⟩ | ⟨_, hr⟩
    · cases hc; exact ⟨_, hv, rfl⟩
    · exact h.changed_version hr hc
  · intro g' d' r hr
    by_cases he : g' = g
    · subst he
      simp only [Function.update_self] at hr
      exact ⟨_, Function.update_self .., ((h.built_version hv hr).1).symm⟩
    · obtain ⟨rg, hrg, hrt⟩ := h.row_generation (by simpa [he] using hr)
      exact ⟨rg, by simpa [he] using hrg, hrt⟩
  · intro g' d' r hr
    by_cases he : g' = g
    · subst he
      simp only [Function.update_self] at hr
      exact (h.built_version hv hr).2
    · exact h.row_version (by simpa [he] using hr)
  · intro g' r p hr ha hp
    rcases hgen hr with ⟨_, rfl⟩ | ⟨_, hr⟩
    · obtain ⟨rp, hrp, htp, hap⟩ := h.current_active ((current_eq ht).trans hp)
      exact ⟨rp, by simpa [hact hrp hap] using hrp, htp, hap⟩
    · obtain ⟨rp, hrp, htp, hap⟩ := h.parent_active hr ha hp
      exact ⟨rp, by simpa [hact hrp hap] using hrp, htp, hap⟩
  · intro g' r v' rv hr ha hc hrv
    rcases hgen hr with ⟨_, rfl⟩ | ⟨_, hr⟩
    · cases ha
    · exact h.consumed hr ha hc hrv
  · intro g' r v' rv hr ha hc hrv d'
    rcases hgen hr with ⟨rfl, rfl⟩ | ⟨hne, hr⟩
    · cases hc
      rw [hv] at hrv; cases hrv
      simp only [lists, Function.update_self]
      rw [h.built_lists ht, listed, current_eq ht]
      by_cases hd' : d' = d
      · simp [hd']
      · simp only [hd', ↓reduceIte]
        exact (bind_lists hrow (fun p hp => hcur ((current_eq ht).trans hp)) d').symm
    · have hp : ∀ p, r.parent = some p → p ≠ g := by
        intro p hp
        obtain ⟨rp, hrp, _, hap⟩ := h.parent_active hr ha hp
        exact hact hrp hap
      have hl : s.lists g' d' = if d' = rv.documentId then some v' else r.parent.bind (s.lists · d') :=
        h.prepared hr ha hc hrv d'
      rw [← bind_lists hrow hp] at hl
      refine Eq.trans ?_ hl
      simp [lists, hrow g' hne]
  · intro t' d'
    refine Eq.trans ?_ (h.exact t' d')
    exact bind_lists hrow (fun p hp => hcur hp) d'

/-! ## Switching to a generation -/

/-- The tenant of a document switches to a generation `g` that was not active before and lists `a` for the
document. Activation is the case `a = some v`, deletion the case `a = none`. -/
theorem Sound.switch (h : s.Sound) {a : Option VersionId} {a₀ : Option VersionId} {q : Option GenerationId}
    {rev : Nat} {row' : GenerationId → DocumentId → Option IndexGenerationDocument}
    {job' : JobId → Option JobView} (hd : s.document d = some ⟨t, true, a₀⟩)
    (hg : ∀ r, s.generation g = some r → r.active = false)
    (ha : ∀ v, a = some v → ∃ n, s.version v = some ⟨t, d, n⟩)
    (hrow : ∀ g', g' ≠ g → row' g' = s.row g')
    (hnew : ∀ d' r, row' g d' = some r →
      r.tenantId = t ∧ ∃ rv, s.version r.documentVersionId = some rv ∧ rv.documentId = d')
    (hlists : ∀ d', (row' g d').map IndexGenerationDocument.documentVersionId =
      if d' = d then a else s.listed t d')
    (hjob : ∀ j, (job' j).map JobView.versionId = (s.job j).map JobView.versionId)
    (hkeep : ∀ j r r', s.job j = some r → job' j = some r' → r.succeeded = true →
      r'.succeeded = true ∨ (a = none ∧ ∃ rv, s.version r.versionId = some rv ∧ rv.documentId = d))
    (hdone : ∀ v j r, a = some v → job' j = some r → r.versionId = v → r.succeeded = true) :
    Sound { s with
      tenant := Function.update s.tenant t (some ⟨some g, rev⟩)
      document := Function.update s.document d (some ⟨t, a.isSome, a⟩)
      generation := Function.update s.generation g (some ⟨t, a, q, true⟩)
      row := row'
      job := job' } := by
  have hact : ∀ {p rp}, s.generation p = some rp → rp.active = true → p ≠ g := by
    rintro p rp hp hap rfl
    rw [hg rp hp] at hap; cases hap
  have hcur : ∀ {t' p}, s.current t' = some p → p ≠ g := by
    intro t' p hp
    obtain ⟨rp, hrp, _, hap⟩ := h.current_active hp
    exact hact hrp hap
  have hgen : ∀ {g' r}, Function.update s.generation g (some ⟨t, a, q, true⟩) g' = some r →
      (g' = g ∧ r = ⟨t, a, q, true⟩) ∨ (g' ≠ g ∧ s.generation g' = some r) := by
    intro g' r hr
    by_cases he : g' = g
    · subst he
      simp only [Function.update_self, Option.some.injEq] at hr
      exact Or.inl ⟨rfl, hr.symm⟩
    · exact Or.inr ⟨he, by simpa [he] using hr⟩
  have hdoc : ∀ {d' r}, Function.update s.document d (some ⟨t, a.isSome, a⟩) d' = some r →
      (d' = d ∧ r = ⟨t, a.isSome, a⟩) ∨ (d' ≠ d ∧ s.document d' = some r) := by
    intro d' r hr
    by_cases he : d' = d
    · subst he
      simp only [Function.update_self, Option.some.injEq] at hr
      exact Or.inl ⟨rfl, hr.symm⟩
    · exact Or.inr ⟨he, by simpa [he] using hr⟩
  -- A job of the new state was there before, for the same version.
  have hjback : ∀ {j r}, job' j = some r → ∃ r₀, s.job j = some r₀ ∧ r₀.versionId = r.versionId := by
    intro j r hr
    have he := hjob j
    rw [hr, Option.map_some, eq_comm, Option.map_eq_some_iff] at he
    exact he
  constructor
  · intro v r hr
    obtain ⟨l, b, hb⟩ := h.version_document hr
    by_cases he : r.documentId = d
    · rw [he] at hb ⊢
      rw [hd] at hb; cases hb
      exact ⟨_, _, Function.update_self ..⟩
    · exact ⟨l, b, by simpa [he] using hb⟩
  · intro j r hr
    obtain ⟨r₀, h₀, he⟩ := hjback hr
    exact he ▸ h.job_version h₀
  · intro j₁ j₂ r₁ r₂ h₁ h₂ he
    obtain ⟨r₁', h₁', e₁⟩ := hjback h₁
    obtain ⟨r₂', h₂', e₂⟩ := hjback h₂
    exact h.job_unique h₁' h₂' (by rw [e₁, e₂, he])
  · intro d' r v hr hv
    rcases hdoc hr with ⟨rfl, rfl⟩ | ⟨_, hr⟩
    · obtain ⟨n, hn⟩ := ha v hv
      simp only at hv
      exact ⟨by simp [hv], _, hn, rfl⟩
    · exact h.active_version hr hv
  · intro d' r v j rj hr hv hj he
    rcases hdoc hr with ⟨_, rfl⟩ | ⟨hne, hr⟩
    · exact hdone v j rj hv hj he
    · obtain ⟨r₀, h₀, e₀⟩ := hjback hj
      rcases hkeep j r₀ rj h₀ hj (h.settled hr hv h₀ (e₀.trans he)) with hs | ⟨_, rv, hrv, hrd⟩
      · exact hs
      · obtain ⟨_, rv', hrv', hrd'⟩ := h.active_version hr hv
        rw [e₀, he, hrv'] at hrv; cases hrv
        exact absurd (hrd'.symm.trans hrd) hne
  · intro t' p hp
    by_cases he : t' = t
    · subst he
      simp only [current, Function.update_self, Option.bind_some, Option.some.injEq] at hp
      subst hp
      exact ⟨_, Function.update_self .., rfl, rfl⟩
    · have hp' : s.current t' = some p := by simpa [current, he] using hp
      obtain ⟨rp, hrp, htp, hap⟩ := h.current_active hp'
      exact ⟨rp, by simpa [hact hrp hap] using hrp, htp, hap⟩
  · intro g' r v hr hv
    rcases hgen hr with ⟨_, rfl⟩ | ⟨_, hr⟩
    · obtain ⟨n, hn⟩ := ha v hv
      exact ⟨_, hn, rfl⟩
    · exact h.changed_version hr hv
  · intro g' d' r hr
    by_cases he : g' = g
    · subst he
      exact ⟨_, Function.update_self .., ((hnew d' r hr).1).symm⟩
    · obtain ⟨rg, hrg, hrt⟩ := h.row_generation ((congrFun (hrow g' he) d').symm.trans hr)
      exact ⟨rg, by simpa [he] using hrg, hrt⟩
  · intro g' d' r hr
    by_cases he : g' = g
    · subst he; exact (hnew d' r hr).2
    · exact h.row_version ((congrFun (hrow g' he) d').symm.trans hr)
  · intro g' r p hr hap hp
    rcases hgen hr with ⟨_, rfl⟩ | ⟨_, hr⟩
    · cases hap
    · obtain ⟨rp, hrp, htp, hap'⟩ := h.parent_active hr hap hp
      exact ⟨rp, by simpa [hact hrp hap'] using hrp, htp, hap'⟩
  · intro g' r v rv hr hap hv hrv
    rcases hgen hr with ⟨_, rfl⟩ | ⟨_, hr⟩
    · exact Or.inl fun j rj hj he => hdone v j rj hv hj he
    · rcases h.consumed hr hap hv hrv with hs | ⟨rd, hrd, hl⟩
      · -- A job of the version that lost its success belongs to the deleted document.
        by_cases hlost : a = none ∧ rv.documentId = d
        · exact Or.inr ⟨⟨t, a.isSome, a⟩, by simp [hlost.2], by simp [hlost.1]⟩
        · refine Or.inl fun j rj hj he => ?_
          obtain ⟨r₀, h₀, e₀⟩ := hjback hj
          rcases hkeep j r₀ rj h₀ hj (hs j r₀ h₀ (e₀.trans he)) with hs' | ⟨hn, rv', hrv', hrd'⟩
          · exact hs'
          · rw [e₀, he, hrv] at hrv'; cases hrv'
            exact absurd ⟨hn, hrd'⟩ hlost
      · have hne : rv.documentId ≠ d := by
          intro he
          rw [he, hd] at hrd; cases hrd; cases hl
        exact Or.inr ⟨rd, by simpa [hne] using hrd, hl⟩
  · intro g' r v rv hr hap hv hrv d'
    rcases hgen hr with ⟨_, rfl⟩ | ⟨hne, hr⟩
    · cases hap
    · have hp : ∀ p, r.parent = some p → p ≠ g := by
        intro p hp
        obtain ⟨rp, hrp, _, hap'⟩ := h.parent_active hr hap hp
        exact hact hrp hap'
      have hl : s.lists g' d' = if d' = rv.documentId then some v else r.parent.bind (s.lists · d') :=
        h.prepared hr hap hv hrv d'
      rw [← bind_lists hrow hp] at hl
      refine Eq.trans ?_ hl
      simp [lists, hrow g' hne]
  · intro t' d'
    by_cases he : t' = t
    · subst he
      have hl := hlists d'
      rw [h.exact t' d'] at hl
      simp only [listed, current, Function.update_self, Option.bind_some, lists]
      rw [hl]
      by_cases hd' : d' = d
      · subst hd'
        cases a <;> simp [activeVersion]
      · simp [activeVersion, hd']
    · have hl : s.listed t' d' = s.activeVersion t' d' := h.exact t' d'
      have hother : (s.current t').bind (fun p => (row' p d').map
          IndexGenerationDocument.documentVersionId) = s.listed t' d' :=
        bind_lists hrow (fun p hp => hcur hp) d'
      rw [hl] at hother
      have hte : Function.update s.tenant t (some ⟨some g, rev⟩) t' = s.tenant t' :=
        Function.update_of_ne he ..
      simp only [listed, current, lists, hte]
      refine Eq.trans hother ?_
      by_cases hd' : d' = d
      · subst hd'
        simp [activeVersion, hd, Ne.symm he]
      · simp [activeVersion, hd']

/-- A generation is not active before the job of its version has succeeded. -/
theorem Sound.inactive (h : s.Sound) {a : Option VersionId} {p : Option GenerationId} {b : Bool}
    (hv : s.version v = some ⟨t, d, n⟩) (hd : s.document d = some ⟨t, true, a⟩)
    (hj : s.job j = some ⟨v, false⟩) (hg : s.generation g = some ⟨t, some v, p, b⟩) : b = false := by
  cases hb : b with
  | false => rfl
  | true =>
      subst hb
      rcases h.consumed hg rfl rfl hv with hs | ⟨rd, hrd, hl⟩
      · cases hs j _ hj rfl
      · rw [hd] at hrd; cases hrd; cases hl

theorem Sound.activate (h : s.Sound) {a : Option VersionId} {p : Option GenerationId} {b : Bool}
    {row' : GenerationId → DocumentId → Option IndexGenerationDocument}
    (hv : s.version v = some ⟨t, d, n⟩) (hd : s.document d = some ⟨t, true, a⟩)
    (hj : s.job j = some ⟨v, false⟩) (ht : s.tenant t = some T)
    (hg : s.generation g = some ⟨t, some v, p, b⟩)
    (hrow : (p = T.activeIndexGenerationId ∧ row' = s.row) ∨
      row' = Function.update s.row g (s.built T.activeIndexGenerationId t d v)) :
    Sound { s with
      tenant := Function.update s.tenant t (some ⟨some g, T.retrievalRevision + 1⟩)
      document := Function.update s.document d (some ⟨t, true, some v⟩)
      generation := Function.update s.generation g (some ⟨t, some v, T.activeIndexGenerationId, true⟩)
      row := row'
      job := Function.update s.job j (some ⟨v, true⟩) } := by
  obtain rfl := h.inactive hv hd hj hg
  refine h.switch (a := some v) hd ?_ ?_ ?_ ?_ ?_ ?_ ?_ ?_
  · intro r hr; rw [hg] at hr; cases hr; rfl
  · rintro _ ⟨⟩; exact ⟨n, hv⟩
  · intro g' hne
    rcases hrow with ⟨_, rfl⟩ | rfl
    · rfl
    · exact Function.update_of_ne hne ..
  · intro d' r hr
    rcases hrow with ⟨_, rfl⟩ | rfl
    · obtain ⟨rg, hrg, hrt⟩ := h.row_generation hr
      rw [hg] at hrg; cases hrg
      exact ⟨hrt.symm, h.row_version hr⟩
    · rw [Function.update_self] at hr
      exact h.built_version hv hr
  · intro d'
    rcases hrow with ⟨hp, rfl⟩ | rfl
    · -- The generation was prepared from the active one, which has stayed.
      have hl := h.prepared hg rfl rfl hv d'
      simp only [hp] at hl
      rwa [← current_eq ht] at hl
    · rw [Function.update_self]
      exact h.built_lists ht
  · intro j'
    by_cases he : j' = j
    · subst he; simp [hj]
    · simp [he]
  · intro j' r r' hr hr' hs
    by_cases he : j' = j
    · subst he
      simp only [Function.update_self, Option.some.injEq] at hr'
      exact Or.inl (by simp [← hr'])
    · rw [Function.update_of_ne he, hr] at hr'
      cases hr'; exact Or.inl hs
  · rintro _ j' r ⟨⟩ hr he
    by_cases hj' : j' = j
    · subst hj'
      simp only [Function.update_self, Option.some.injEq] at hr
      simp [← hr]
    · rw [Function.update_of_ne hj'] at hr
      exact absurd (h.job_unique hr hj he) hj'

theorem Sound.remove (h : s.Sound) {a : Option VersionId} {job' : JobId → Option JobView}
    (hd : s.document d = some ⟨t, true, a⟩) (ht : s.tenant t = some T) (hg : s.generation g = none)
    (hjob : ∀ j, job' j = s.job j ∨ ∃ v b r, s.job j = some ⟨v, b⟩ ∧ s.version v = some r ∧
      r.documentId = d ∧ job' j = some ⟨v, false⟩) :
    Sound { s with
      tenant := Function.update s.tenant t (some ⟨some g, T.retrievalRevision + 1⟩)
      document := Function.update s.document d (some ⟨t, false, none⟩)
      generation := Function.update s.generation g (some ⟨t, none, T.activeIndexGenerationId, true⟩)
      row := Function.update s.row g (s.copied T.activeIndexGenerationId t d)
      job := job' } := by
  refine h.switch (a := none) hd ?_ ?_ ?_ ?_ ?_ ?_ ?_ ?_
  · intro r hr; rw [hg] at hr; cases hr
  · rintro _ ⟨⟩
  · intro g' hne; exact Function.update_of_ne hne ..
  · intro d' r hr
    rw [Function.update_self] at hr
    exact h.copied_version hr
  · intro d'
    rw [Function.update_self]
    exact h.copied_lists ht
  · intro j'
    rcases hjob j' with he | ⟨v, b, r, hj, _, _, he⟩
    · rw [he]
    · simp [he, hj]
  · intro j' r r' hr hr' hs
    rcases hjob j' with he | ⟨v, b, rv, hj, hv, hrd, _⟩
    · rw [he, hr] at hr'; cases hr'
      exact Or.inl hs
    · rw [hj] at hr; cases hr
      exact Or.inr ⟨rfl, rv, hv, hrd⟩
  · rintro _ _ _ ⟨⟩

theorem Sound.bump (h : s.Sound) (ht : s.tenant t = some T) :
    Sound { s with
      tenant := Function.update s.tenant t (some ⟨T.activeIndexGenerationId, T.retrievalRevision + 1⟩) } := by
  have hcur : ∀ t', current { s with
      tenant := Function.update s.tenant t (some ⟨T.activeIndexGenerationId, T.retrievalRevision + 1⟩) } t' =
        s.current t' := by
    intro t'
    by_cases he : t' = t
    · subst he; simp [current, ht]
    · simp [current, he]
  constructor
  · exact h.version_document
  · exact h.job_version
  · exact h.job_unique
  · exact h.active_version
  · exact h.settled
  · intro t' g hg
    rw [hcur] at hg
    exact h.current_active hg
  · exact h.changed_version
  · exact h.row_generation
  · exact h.row_version
  · exact h.parent_active
  · exact h.consumed
  · exact h.prepared
  · intro t' d'
    refine Eq.trans ?_ (h.exact t' d')
    rw [listed, hcur]; rfl

theorem Sound.step {s' : Catalog} (h : s.Sound) (hs : s.Step s') : s'.Sound := by
  cases hs with
  | stage hv hj hd => exact h.stage hv hj hd
  | prepare hv ht hg => exact h.prepare hv ht hg
  | activate hv hd hj ht hg _ hrow => exact h.activate hv hd hj ht hg hrow
  | remove hd ht hg hjob => exact h.remove hd ht hg hjob
  | bump ht => exact h.bump ht

/-! ## What a step never takes back -/

/-- From one catalog to a later one, documents stay with their tenants and deleted ones stay deleted, the
number of an active version does not decrease, and a tenant that changes gets a larger revision. Versions
do not change, and jobs and generations stay with their versions. -/
structure Le (s s' : Catalog) : Prop where
  document : ∀ {d r}, s.document d = some r → ∃ r', s'.document d = some r' ∧ r'.tenantId = r.tenantId ∧
    (r'.live = true → r.live = true ∧ ∀ {v rv}, r.active = some v → s.version v = some rv →
      ∃ v' rv', r'.active = some v' ∧ s'.version v' = some rv' ∧ rv.number ≤ rv'.number)
  tenant : ∀ {t T}, s.tenant t = some T → ∃ T', s'.tenant t = some T' ∧
    (T' = T ∨ T.retrievalRevision < T'.retrievalRevision)
  version : ∀ {v r}, s.version v = some r → s'.version v = some r
  job : ∀ {j r}, s.job j = some r → ∃ r', s'.job j = some r' ∧ r'.versionId = r.versionId
  generation : ∀ {g r v}, s.generation g = some r → r.changed = some v →
    ∃ r', s'.generation g = some r' ∧ r'.changed = some v

theorem Le.refl (s : Catalog) : s.Le s where
  document hr := ⟨_, hr, rfl, fun hl => ⟨hl, fun hv hrv => ⟨_, _, hv, hrv, Nat.le_refl _⟩⟩⟩
  tenant hT := ⟨_, hT, Or.inl rfl⟩
  version hr := hr
  job hr := ⟨_, hr, rfl⟩
  generation hr hc := ⟨_, hr, hc⟩

theorem Le.trans {s₁ s₂ s₃ : Catalog} (h₁ : s₁.Le s₂) (h₂ : s₂.Le s₃) : s₁.Le s₃ where
  document hr := by
    obtain ⟨r₂, hr₂, ht₂, hk₂⟩ := h₁.document hr
    obtain ⟨r₃, hr₃, ht₃, hk₃⟩ := h₂.document hr₂
    refine ⟨r₃, hr₃, ht₃.trans ht₂, fun hl => ?_⟩
    obtain ⟨hl₂, hn₃⟩ := hk₃ hl
    obtain ⟨hl₁, hn₂⟩ := hk₂ hl₂
    refine ⟨hl₁, fun hv hrv => ?_⟩
    obtain ⟨v₂, rv₂, hv₂, hrv₂, hle₂⟩ := hn₂ hv hrv
    obtain ⟨v₃, rv₃, hv₃, hrv₃, hle₃⟩ := hn₃ hv₂ hrv₂
    exact ⟨v₃, rv₃, hv₃, hrv₃, Nat.le_trans hle₂ hle₃⟩
  tenant hT := by
    obtain ⟨T₂, hT₂, h₂'⟩ := h₁.tenant hT
    obtain ⟨T₃, hT₃, h₃'⟩ := h₂.tenant hT₂
    refine ⟨T₃, hT₃, ?_⟩
    rcases h₂' with rfl | h₂' <;> rcases h₃' with rfl | h₃'
    · exact Or.inl rfl
    · exact Or.inr h₃'
    · exact Or.inr h₂'
    · exact Or.inr (Nat.lt_trans h₂' h₃')
  version hr := h₂.version (h₁.version hr)
  job hr := by
    obtain ⟨r₂, hr₂, he₂⟩ := h₁.job hr
    obtain ⟨r₃, hr₃, he₃⟩ := h₂.job hr₂
    exact ⟨r₃, hr₃, he₃.trans he₂⟩
  generation hr hc := by
    obtain ⟨r₂, hr₂, hc₂⟩ := h₁.generation hr hc
    exact h₂.generation hr₂ hc₂

theorem tenant_le {T : Tenant} {o : Option GenerationId} (ht : s.tenant t = some T) {t' : TenantId}
    {T' : Tenant} (hT : s.tenant t' = some T') :
    ∃ T₂, Function.update s.tenant t (some ⟨o, T.retrievalRevision + 1⟩) t' = some T₂ ∧
      (T₂ = T' ∨ T'.retrievalRevision < T₂.retrievalRevision) := by
  by_cases he : t' = t
  · subst he
    rw [ht] at hT; cases hT
    exact ⟨_, Function.update_self .., Or.inr (Nat.lt_succ_self _)⟩
  · exact ⟨T', by rwa [Function.update_of_ne he], Or.inl rfl⟩

theorem generation_le {rg : GenerationView}
    (hg : ∀ r v, s.generation g = some r → r.changed = some v → rg.changed = some v) {r : GenerationView}
    (hr : s.generation g' = some r) (hc : r.changed = some v) :
    ∃ r', Function.update s.generation g (some rg) g' = some r' ∧ r'.changed = some v := by
  by_cases he : g' = g
  · subst he
    exact ⟨rg, Function.update_self .., hg r v hr hc⟩
  · exact ⟨r, by rwa [Function.update_of_ne he], hc⟩

theorem document_le {r₀ x : DocumentView} (hd : s.document d = some r₀) (ht : x.tenantId = r₀.tenantId)
    (hk : x.live = true → r₀.live = true ∧ ∀ {v rv}, r₀.active = some v → s.version v = some rv →
      ∃ v' rv', x.active = some v' ∧ s.version v' = some rv' ∧ rv.number ≤ rv'.number)
    {r : DocumentView} (hr : s.document d' = some r) :
    ∃ r', Function.update s.document d (some x) d' = some r' ∧ r'.tenantId = r.tenantId ∧
      (r'.live = true → r.live = true ∧ ∀ {v rv}, r.active = some v → s.version v = some rv →
        ∃ v' rv', r'.active = some v' ∧ s.version v' = some rv' ∧ rv.number ≤ rv'.number) := by
  by_cases he : d' = d
  · subst he
    rw [hd] at hr; cases hr
    exact ⟨x, Function.update_self .., ht, hk⟩
  · exact ⟨r, (Function.update_of_ne he ..).trans hr, rfl,
      fun hl => ⟨hl, fun hv hrv => ⟨_, _, hv, hrv, Nat.le_refl _⟩⟩⟩

theorem Step.le {s' : Catalog} (hs : s.Step s') : s.Le s' := by
  cases hs with
  | @stage t d v j n document' hv hj hd =>
      have hver : ∀ {v' r}, s.version v' = some r →
          Function.update s.version v (some ⟨t, d, n⟩) v' = some r := by
        intro v' r hr
        have hne : v' ≠ v := by rintro rfl; rw [hv] at hr; cases hr
        rwa [Function.update_of_ne hne]
      refine { (Le.refl s) with document := fun {d' r} hr => ?_, version := hver, job := fun {j' r} hr => ?_ }
      · have hr' : document' d' = some r := by
          rcases hd with ⟨hnone, rfl⟩ | ⟨_, rfl⟩
          · have hne : d' ≠ d := by rintro rfl; rw [hnone] at hr; cases hr
            rwa [Function.update_of_ne hne]
          · exact hr
        exact ⟨r, hr', rfl, fun hl => ⟨hl, fun ha hrv => ⟨_, _, ha, hver hrv, Nat.le_refl _⟩⟩⟩
      · have hne : j' ≠ j := by rintro rfl; rw [hj] at hr; cases hr
        exact ⟨r, (Function.update_of_ne hne ..).trans hr, rfl⟩
  | @prepare T t d v n g hv ht hg =>
      refine { (Le.refl s) with generation := fun hr hc => generation_le (fun r v' hr hc => ?_) hr hc }
      rcases hg with hnone | ⟨t', p, hg⟩
      · rw [hnone] at hr; cases hr
      · rw [hg] at hr; cases hr; exact hc
  | @activate T t d v n a j g p b row' hv hd hj ht hg hnewer hrow =>
      refine { (Le.refl s) with
        document := fun hr =>
          document_le (x := ⟨t, true, some v⟩) hd rfl (fun _ => ⟨rfl, fun {v' rv} ha hrv => ?_⟩) hr
        tenant := fun hT => tenant_le ht hT
        generation := fun hr hc => generation_le (fun r v' hr hc => ?_) hr hc
        job := fun {j' r} hr => ?_ }
      · refine ⟨v, ⟨t, d, n⟩, rfl, hv, ?_⟩
        by_cases hvv : v' = v
        · subst hvv
          rw [hv] at hrv; cases hrv
          exact Nat.le_refl _
        · exact hnewer v' rv ha hrv hvv
      · by_cases he : j' = j
        · subst he
          rw [hj] at hr; cases hr
          exact ⟨_, Function.update_self .., rfl⟩
        · exact ⟨r, (Function.update_of_ne he ..).trans hr, rfl⟩
      · rw [hg] at hr; cases hr; exact hc
  | @remove T t d a g job' hd ht hg hjob =>
      refine { (Le.refl s) with
        document := fun hr => document_le (x := ⟨t, false, none⟩) hd rfl (fun hl => by cases hl) hr
        tenant := fun hT => tenant_le ht hT
        generation := fun hr hc => generation_le (fun r v' hr hc => ?_) hr hc
        job := fun {j' r} hr => ?_ }
      · rcases hjob j' with he | ⟨v', b, rv, hj, _, _, he⟩
        · exact ⟨r, he.trans hr, rfl⟩
        · rw [hj] at hr; cases hr
          exact ⟨_, he, rfl⟩
      · rw [hg] at hr; cases hr
  | @bump T t ht => exact { (Le.refl s) with tenant := fun hT => tenant_le ht hT }

end Etoeragcb.Ingest.Catalog
