import Etoeragcb.Lib.Lemmas.Json
import Etoeragcb.Rag.Lemmas.Unseen

/-!
# Retrievals that agree with the store

What a call of `retrieve` carries, and what the cache holds, is what a call now would compute, until the revision of the
tenant grows.
-/

namespace Etoeragcb.Rag

open Lib Models Ingest

variable {ε : Type} {settings : RetrievalSettings ε} {request request' : RetrievalRequest} {store store' : Store ε}
  {scope : ResolvedScope} {result : RetrievalResult} {retrieval retrieval' : Retrieval ε} {cache cache' : RetrievalCache}

def resolveNow (settings : RetrievalSettings ε) (request : RetrievalRequest) (store : Store ε) :
    Except String ResolvedScope :=
  resolve settings.resolver store.db request.tenantId request.planning.plan (normalizedIds request.explicitDocumentIds)
    (normalizedIds request.explicitCollectionIds)

abbrev searchOf (settings : RetrievalSettings ε) (request : RetrievalRequest) (scope : ResolvedScope) :
    Reads (Store ε) (Except String (List RetrievalCandidate)) :=
  searchReads settings request.planning.plan scope

/-! ## What a call computes now -/

theorem resolveNow_congr (h : visible request.tenantId store' = visible request.tenantId store) :
    resolveNow settings request store' = resolveNow settings request store := by
  have hspec := resolveReads_spec (ε := ε) settings.resolver request.tenantId request.planning.plan
    (normalizedIds request.explicitDocumentIds) (normalizedIds request.explicitCollectionIds)
  rw [resolveNow, resolveNow, ← (hspec store).2, ← (hspec store').2]
  exact ((hspec store).1.congr h).2

/-- The scope and the candidates are those of a call now. -/
structure Current (settings : RetrievalSettings ε) (request : RetrievalRequest) (scope : ResolvedScope)
    (rest : Reads (Store ε) (Except String (List RetrievalCandidate))) (store : Store ε) : Prop where
  resolved : resolveNow settings request store = .ok scope
  steady : (searchOf settings request scope).Steady (visible request.tenantId) store
  restSteady : rest.Steady (visible request.tenantId) store
  eval : rest.eval store = (searchOf settings request scope).eval store

variable {rest : Reads (Store ε) (Except String (List RetrievalCandidate))}

theorem Current.congr (h : Current settings request scope rest store)
    (hv : visible request.tenantId store' = visible request.tenantId store) :
    Current settings request scope rest store' := by
  obtain ⟨hsteady, heval⟩ := h.steady.congr hv
  obtain ⟨hrest, hrestEval⟩ := h.restSteady.congr hv
  exact ⟨(resolveNow_congr hv).trans h.resolved, hsteady, hrest, hrestEval.trans (h.eval.trans heval.symm)⟩

theorem Current.start (hg : Grounded store.db) (hs : (view store.db).Sound)
    (h : resolveNow settings request store = .ok scope) :
    Current settings request scope (searchOf settings request scope) store := by
  obtain ⟨tenant, ht, -, -, rfl⟩ := resolve_eq_ok.mp h
  have hlisted := listedVersion_of_resolved settings.resolver request.planning.plan
    (normalizedIds request.explicitDocumentIds).toFinset (normalizedIds request.explicitCollectionIds).toFinset ht
  exact ⟨h, searchReads_steady hg hs hlisted, searchReads_steady hg hs hlisted, rfl⟩

theorem Current.ask {next : Store ε → Reads (Store ε) (Except String (List RetrievalCandidate))}
    (h : Current settings request scope (.ask next) store) : Current settings request scope (next store) store :=
  ⟨h.resolved, h.steady, h.restSteady.ask.1, h.restSteady.ask.2.trans h.eval⟩

theorem Current.retrieveNow {candidates : List RetrievalCandidate}
    (h : Current settings request scope (.done (.ok candidates)) store) :
    retrieveNow settings store request = .ok ⟨request.planning, scope, candidates, false⟩ := by
  have hr : resolve settings.resolver store.db request.tenantId request.planning.plan
    (normalizedIds request.explicitDocumentIds) (normalizedIds request.explicitCollectionIds) = .ok scope := h.resolved
  have he : (searchReads settings request.planning.plan scope).eval store = .ok candidates := h.eval.symm
  simp only [Rag.retrieveNow, hr, he, bind, Except.bind]
  rfl

/-- The result of a call, as far as the tenant has not changed since. -/
structure Agrees (settings : RetrievalSettings ε) (request : RetrievalRequest) (result : RetrievalResult)
    (store : Store ε) : Prop where
  plan : result.planning.plan = request.planning.plan
  current : AsOf (revisionOf request.tenantId) result.scope.retrievalRevision
    (Current settings request result.scope (.done (.ok result.candidates))) store

structure SameRequest (request request' : RetrievalRequest) : Prop where
  tenant : request.tenantId = request'.tenantId
  plan : request.planning.plan = request'.planning.plan
  documents : normalizedIds request.explicitDocumentIds = normalizedIds request'.explicitDocumentIds
  collections : normalizedIds request.explicitCollectionIds = normalizedIds request'.explicitCollectionIds

theorem Agrees.of_same (h : Agrees settings request result store) (hs : SameRequest request request') :
    Agrees settings request' result store := by
  refine ⟨h.plan.trans hs.plan, ?_⟩
  have hcurrent := h.current
  rw [hs.tenant] at hcurrent
  refine hcurrent.imp fun _ hc => ?_
  obtain ⟨hresolved, hsteady, hrest, heval⟩ := hc
  refine ⟨?_, ?_, ?_, ?_⟩
  · rwa [resolveNow, ← hs.tenant, ← hs.plan, ← hs.documents, ← hs.collections]
  · rwa [searchOf, ← hs.plan, ← hs.tenant]
  · trivial
  · rwa [searchOf, ← hs.plan]

/-! ## The calls -/

/-- What a call of `retrieve` knows. -/
def Retrieval.Coherent (settings : RetrievalSettings ε) (request : RetrievalRequest) (store : Store ε) :
    Retrieval ε → Prop
  | .resolving rest => .resolving rest = Retrieval.start settings request ∨
      ∃ n, AsOf (revisionOf request.tenantId) n (fun store => rest.Steady (visible request.tenantId) store ∧
        rest.eval store = resolveNow settings request store) store ∧
          rest.Returns fun x => ∀ scope, x = .ok scope → scope.retrievalRevision = n
  | .looking scope => AsOf (revisionOf request.tenantId) scope.retrievalRevision
      (fun store => resolveNow settings request store = .ok scope) store
  | .searching scope rest => AsOf (revisionOf request.tenantId) scope.retrievalRevision
      (Current settings request scope rest) store
  | .storing result => Agrees settings request result store ∧ result.planning = request.planning
  | .returned result => Agrees settings request result store
  | .raised _ => True

/-- What the cache knows: an entry is the result of a request with its key. -/
def CacheCoherent (settings : RetrievalSettings ε) (cache : RetrievalCache) (store : Store ε) : Prop :=
  ∀ key result, cache key = some result → ∃ request, key = retrievalKey settings request result.scope ∧
    Agrees settings request result store

theorem Agrees.step (h : Agrees settings request result store)
    (hs : Stamped (revisionOf request.tenantId) (visible request.tenantId) store store') :
    Agrees settings request result store' :=
  ⟨h.plan, h.current.step hs fun _ _ hv hc => hc.congr hv⟩

theorem Retrieval.Coherent.step (h : retrieval.Coherent settings request store)
    (hs : Stamped (revisionOf request.tenantId) (visible request.tenantId) store store') :
    retrieval.Coherent settings request store' := by
  cases retrieval with
  | resolving rest =>
      rcases h with he | ⟨n, hn, hr⟩
      · exact .inl he
      · refine .inr ⟨n, hn.step hs fun s s' hv hp => ?_, hr⟩
        obtain ⟨hsteady, heval⟩ := hp.1.congr hv
        exact ⟨hsteady, heval.trans (hp.2.trans (resolveNow_congr hv).symm)⟩
  | looking scope =>
      have hlooking : AsOf _ _ (fun store => resolveNow settings request store = .ok scope) store := h
      exact hlooking.step hs fun _ _ hv hp => (resolveNow_congr hv).trans hp
  | searching scope rest =>
      have hsearching : AsOf _ _ (Current settings request scope rest) store := h
      exact hsearching.step hs fun _ _ hv hc => hc.congr hv
  | storing result => exact ⟨h.1.step hs, h.2⟩
  | returned result => exact Agrees.step h hs
  | raised detail => trivial

theorem CacheCoherent.step (h : CacheCoherent settings cache store)
    (hs : ∀ t, Stamped (revisionOf t) (visible t) store store') : CacheCoherent settings cache store' := by
  intro key result hkey
  obtain ⟨request, hk, ha⟩ := h key result hkey
  exact ⟨request, hk, ha.step (hs _)⟩

/-- The first query reads the revision of the scope. -/
theorem resolveReads_first (r : Resolver) (tenantId : TenantId) (plan : RetrievalPlan) (ds : List DocumentId)
    (cs : List CollectionId) : ∃ next, resolveReads (ε := ε) r tenantId plan ds cs = .ask next ∧
      ∀ store, (next store).Returns fun x => ∀ scope, x = .ok scope →
        scope.retrievalRevision = revisionOf tenantId store := by
  refine ⟨_, rfl, fun store => ?_⟩
  cases ht : store.db.tenants.get? tenantId with
  | none =>
      intro scope hscope
      cases hscope
  | some tenant =>
      have hrevision : revisionOf tenantId store = tenant.retrievalRevision := by
        simp [revisionOf, Db.retrievalRevision, ht]
      rw [hrevision]
      intro s₁
      simp only
      split
      · intro scope hscope
        cases hscope
      · intro s₂
        simp only
        split
        · intro scope hscope
          cases hscope
        · intro s₃ s₄ scope hscope
          cases hscope
          rfl

theorem Retrieval.Coherent.query (h : retrieval.Coherent settings request store)
    (hq : retrieval.query request store = some retrieval') : retrieval'.Coherent settings request store := by
  cases retrieval with
  | resolving rest =>
      rcases h with he | ⟨n, hn, hr⟩
      · -- the first query
        obtain ⟨next, hnext, hreturns⟩ := resolveReads_first (ε := ε) settings.resolver request.tenantId
          request.planning.plan (normalizedIds request.explicitDocumentIds)
          (normalizedIds request.explicitCollectionIds)
        have hspec := resolveReads_spec settings.resolver request.tenantId request.planning.plan
          (normalizedIds request.explicitDocumentIds) (normalizedIds request.explicitCollectionIds) store
        rw [hnext] at hspec
        rw [Retrieval.start, hnext, Retrieval.resolving.injEq] at he
        subst he
        cases hq
        exact .inr ⟨revisionOf request.tenantId store,
          AsOf.now ⟨hspec.1.ask.1, hspec.1.ask.2.trans hspec.2⟩, hreturns store⟩
      · cases rest with
        | ask next =>
            cases hq
            exact .inr ⟨n, hn.imp fun _ hp => ⟨hp.1.ask.1, hp.1.ask.2.trans hp.2⟩, hr store⟩
        | done x =>
            cases x with
            | error e => cases hq; trivial
            | ok scope =>
                cases hq
                obtain rfl := hr scope rfl
                have hlooking : AsOf _ _ (fun store => resolveNow settings request store = .ok scope) store :=
                  hn.imp fun _ hp => hp.2.symm
                exact hlooking
  | searching scope rest =>
      cases rest with
      | ask next =>
          cases hq
          have hsearching : AsOf _ _ (Current settings request scope (.ask next)) store := h
          exact hsearching.imp fun _ hc => hc.ask
      | done x =>
          cases x with
          | error e => cases hq; trivial
          | ok candidates =>
              cases hq
              exact ⟨⟨rfl, h⟩, rfl⟩
  | looking _ => cases hq
  | storing _ => cases hq
  | returned _ => cases hq
  | raised _ => cases hq

theorem textsJson_injective : Function.Injective textsJson :=
  fun _ _ h => List.map_injective_iff.mpr (fun _ _ he => Json.str.inj he) (Json.arr.inj h)

theorem planJson_injective : Function.Injective planJson := by
  intro p p' h
  simp only [planJson, Json.obj.injEq, List.cons.injEq, Prod.mk.injEq, true_and, and_true, Json.str.injEq] at h
  obtain ⟨hc, hd, he, hh, hi, hq⟩ := h
  have hintent : p.intent = p'.intent := by
    cases hp : p.intent <;> cases hp' : p'.intent <;> first | rfl | (rw [hp, hp'] at hi; revert hi; decide)
  cases p
  cases p'
  simp only [RetrievalPlan.mk.injEq]
  exact ⟨hintent, hq, textsJson_injective he, textsJson_injective hd, textsJson_injective hc, textsJson_injective hh⟩

theorem payload_json_eq {uuidText : Nat → Text} (huuid : Function.Injective uuidText) {p p' : RetrievalPayload}
    (h : p.json uuidText = p'.json uuidText) : p.tenantId = p'.tenantId ∧ p.plan = p'.plan ∧
      p.documentIds = p'.documentIds ∧ p.collectionIds = p'.collectionIds := by
  simp only [RetrievalPayload.json, Json.obj.injEq, List.cons.injEq, Prod.mk.injEq, true_and, and_true,
    Json.str.injEq] at h
  obtain ⟨hc, hd, -, -, hp, -, -, ht⟩ := h
  have hids : ∀ {l l' : List Nat}, textsJson (l.map uuidText) = textsJson (l'.map uuidText) → l = l' :=
    fun h => List.map_injective_iff.mpr huuid (textsJson_injective h)
  exact ⟨huuid ht, planJson_injective hp, hids hd, hids hc⟩

/-- Digests of different texts, and the texts of different ids, are different. -/
structure Faithful (settings : RetrievalSettings ε) : Prop where
  sha256 : Function.Injective settings.sha256
  uuidText : Function.Injective settings.uuidText

theorem sameRequest_of_key {scope' : ResolvedScope} (hf : Faithful settings)
    (h : retrievalKey settings request scope = retrievalKey settings request' scope') :
    SameRequest request request' := by
  have hencode := hf.sha256 (List.append_cancel_left h)
  have hjson := congrArg Json.parse hencode
  rw [Json.parse_encode, Json.parse_encode, Option.some.injEq] at hjson
  obtain ⟨ht, hp, hd, hc⟩ := payload_json_eq hf.uuidText hjson
  exact ⟨ht, hp, hd, hc⟩

theorem Retrieval.Coherent.lookup {answers : Bool} (hf : Faithful settings)
    (hg : Grounded store.db) (hs : (view store.db).Sound) (hc : CacheCoherent settings cache store)
    (h : retrieval.Coherent settings request store)
    (hl : retrieval.lookup settings request cache answers = some retrieval') :
    retrieval'.Coherent settings request store := by
  cases retrieval with
  | looking scope =>
      simp only [Retrieval.lookup] at hl
      split at hl
      · rename_i result hresult
        cases hl
        cases answers with
        | false => cases hresult
        | true =>
            obtain ⟨request₀, hkey, hagrees⟩ := hc _ result hresult
            have hsame := hagrees.of_same (sameRequest_of_key hf hkey.symm)
            exact ⟨hsame.plan, hsame.current⟩
      · cases hl
        have hlooking : AsOf _ _ (fun store => resolveNow settings request store = .ok scope) store := h
        exact hlooking.imp fun _ hp => Current.start hg hs hp
  | resolving _ => cases hl
  | searching _ _ => cases hl
  | storing _ => cases hl
  | returned _ => cases hl
  | raised _ => cases hl

theorem Retrieval.Coherent.caching {stores : Bool} (hc : CacheCoherent settings cache store)
    (h : retrieval.Coherent settings request store)
    (hs : retrieval.cache settings request cache stores = some (retrieval', cache')) :
    retrieval'.Coherent settings request store ∧ CacheCoherent settings cache' store := by
  cases retrieval with
  | storing result =>
      simp only [Retrieval.cache, Option.some.injEq, Prod.mk.injEq] at hs
      obtain ⟨rfl, rfl⟩ := hs
      refine ⟨h.1, ?_⟩
      cases stores with
      | false => exact hc
      | true =>
          intro key result' hkey
          by_cases he : key = retrievalKey settings request result.scope
          · subst he
            rw [if_pos rfl, Function.update_self, Option.some.injEq] at hkey
            subst hkey
            exact ⟨request, rfl, h.1⟩
          · rw [if_pos rfl, Function.update_of_ne he] at hkey
            exact hc key result' hkey
  | resolving _ => cases hs
  | looking _ => cases hs
  | searching _ _ => cases hs
  | returned _ => cases hs
  | raised _ => cases hs

/-! ## Runs -/

variable {deployment : DeploymentSettings ε} {s s' : Deployment ε}

/-- The store is sane, and the calls and the cache agree with it. -/
structure Coherent (deployment : DeploymentSettings ε) (s : Deployment ε) : Prop where
  sane : Sane deployment s
  calls : ∀ q request retrieval, s.retrievals q = some (request, retrieval) →
    retrieval.Coherent deployment.toRetrievalSettings request s.store
  cached : CacheCoherent deployment.toRetrievalSettings s.cache s.store

theorem calls_goOn {q : RetrievalId}
    (h : ∀ q request retrieval, s.retrievals q = some (request, retrieval) →
      retrieval.Coherent settings request s.store)
    (hr : retrieval.Coherent settings request s.store) : ∀ q' request' retrieval',
      (s.goOn q request retrieval).retrievals q' = some (request', retrieval') →
        retrieval'.Coherent settings request' s.store := by
  intro q' request' retrieval' hq
  by_cases he : q' = q
  · subst he
    simp only [Deployment.goOn, Function.update_self, Option.some.injEq, Prod.mk.injEq] at hq
    obtain ⟨rfl, rfl⟩ := hq
    exact hr
  · simp only [Deployment.goOn, Function.update_of_ne he] at hq
    exact h q' request' retrieval' hq

theorem Coherent.step {a : DeploymentAction ε} (hf : Faithful deployment.toRetrievalSettings)
    (h : Coherent deployment s) (ha : careful s a) (hs : deploymentStep deployment s a = some s') :
    Coherent deployment s' := by
  have hsane := h.sane.step ha hs
  have hstamped : ∀ t, Stamped (revisionOf t) (visible t) s.store s'.store := fun t => stamped_step h.sane ha hs
  have hkept : s'.retrievals = s.retrievals → s'.cache = s.cache → Coherent deployment s' := by
    intro hr hc
    refine ⟨hsane, fun q request retrieval hq => ?_, hc ▸ h.cached.step hstamped⟩
    exact (h.calls q request retrieval (hr ▸ hq)).step (hstamped _)
  cases a with
  | archive a =>
      obtain ⟨b, -, rfl⟩ := Option.map_eq_some_iff.mp hs
      exact hkept rfl rfl
  | clearPoints r =>
      obtain ⟨c, -, rfl⟩ := Option.map_eq_some_iff.mp hs
      exact hkept rfl rfl
  | upsertPoints r batch =>
      obtain ⟨c, -, hs⟩ := Option.bind_eq_some_iff.mp hs
      split at hs
      · cases hs
        exact hkept rfl rfl
      · cases hs
  | collection request =>
      simp only [deploymentStep] at hs
      split at hs
      · cases hs
        exact hkept rfl rfl
      · cases hs
  | retrieve q request =>
      simp only [deploymentStep] at hs
      split at hs
      · cases hs
        exact ⟨hsane, calls_goOn h.calls (.inl rfl), h.cached⟩
      · cases hs
  | query q =>
      obtain ⟨⟨request, retrieval⟩, hq, hs⟩ := Option.bind_eq_some_iff.mp hs
      obtain ⟨retrieval', hr, rfl⟩ := Option.map_eq_some_iff.mp hs
      exact ⟨hsane, calls_goOn h.calls ((h.calls q request retrieval hq).query hr), h.cached⟩
  | lookup q answers =>
      obtain ⟨⟨request, retrieval⟩, hq, hs⟩ := Option.bind_eq_some_iff.mp hs
      obtain ⟨retrieval', hr, rfl⟩ := Option.map_eq_some_iff.mp hs
      exact ⟨hsane, calls_goOn h.calls
        ((h.calls q request retrieval hq).lookup hf h.sane.grounded h.sane.sound h.cached hr), h.cached⟩
  | cache q stores =>
      obtain ⟨⟨request, retrieval⟩, hq, hs⟩ := Option.bind_eq_some_iff.mp hs
      obtain ⟨⟨retrieval', cache'⟩, hr, rfl⟩ := Option.map_eq_some_iff.mp hs
      obtain ⟨hcall, hcache⟩ := Retrieval.Coherent.caching h.cached (h.calls q request retrieval hq) hr
      exact ⟨hsane, calls_goOn h.calls hcall, hcache⟩
  | expire key =>
      cases hs
      refine ⟨hsane, h.calls, fun key' result hkey => h.cached key' result ?_⟩
      replace hkey : Function.update s.cache key none key' = some result := hkey
      by_cases he : key' = key
      · subst he
        rw [Function.update_self] at hkey
        cases hkey
      · rwa [Function.update_of_ne he] at hkey

theorem coherent_of_run {tenants : Table TenantId Tenant} (hf : Faithful deployment.toRetrievalSettings)
    (ht : Untouched tenants)
    (h : Run (deploymentStep deployment) (fun s a => careful s a) (.fresh tenants) s) : Coherent deployment s := by
  refine Run.invariant (fun _ _ _ hc ha hs => hc.step hf ha hs) h ?_
  refine ⟨⟨?_, ?_, ?_, ?_⟩, ?_, ?_⟩
  · exact intact_of_run ht (Run.refl _ : Run (archiveStep 0) (fun s a => sparesSelected s a) _ (.fresh tenants))
  · rintro v ⟨d, r, hr, _⟩
    cases hr
  · intro id chunk hc
    cases hc
  · intro id p hp
    cases hp
  · intro q request retrieval hq
    cases hq
  · intro key result hkey
    cases hkey

end Etoeragcb.Rag
