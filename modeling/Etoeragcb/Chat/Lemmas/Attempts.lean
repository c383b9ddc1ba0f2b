import Etoeragcb.Chat.Attempts
import Etoeragcb.Core.Lemmas.Idempotency

/-!
# Messages and the records of their requests

A record belongs to one client request id. Until it is completed nothing has been answered to that request,
and afterwards its transcript is that of the answer.
-/

namespace Etoeragcb.Chat

open Lib Models Etoeragcb.Core

variable {digest : RequestPayload → Text} {idempotencyTtl : Nat} {db db' : ChatDb} {t : TenantId} {u : UserId}
  {q : ChatRequest} {key : Text} {id : MessageId} {now : Time} {accepted : AcceptedChat} {c : ClientRequestId}
  {messages messages' : Table MessageId Message} {m : Message} {k : RequestKey}
  {r : IdempotencyRequest StoredChatReplay} {s s' : ChatState} {a : ChatAction}

def HasUser (messages : Table MessageId Message) (t : TenantId) (u : UserId) (c : ClientRequestId) : Prop :=
  ∃ id m, messages.get? id = some m ∧ m.tenantId = t ∧ m.userId = u ∧ m.clientRequestId = some c

def Answers (m : Message) (t : TenantId) (u : UserId) (c : ClientRequestId) : Prop :=
  m.tenantId = t ∧ m.userId = u ∧ m.role = .assistant ∧ m.metaClientRequestId = some c

instance : Decidable (Answers m t u c) := inferInstanceAs (Decidable (_ ∧ _ ∧ _ ∧ _))

/-- The record of a client request says whether it has been answered, and how. -/
structure RecordOf (messages : Table MessageId Message) (k : RequestKey)
    (r : IdempotencyRequest StoredChatReplay) (c : ClientRequestId) : Prop where
  user : HasUser messages k.tenantId k.userId c
  unanswered : r.status ≠ .completed → ∀ {id m}, messages.get? id = some m → ¬Answers m k.tenantId k.userId c
  answered : r.status = .completed → ∃ replay m, r.response = some replay ∧
    messages.get? replay.assistantMessageId = some m ∧ Answers m k.tenantId k.userId c

/-- What holds between the messages and the records. -/
structure Sound (digest : RequestPayload → Text) (db : ChatDb) : Prop where
  user_unique : ∀ {id id' m m' c}, db.messages.get? id = some m → db.messages.get? id' = some m' →
    m.clientRequestId = some c → m'.clientRequestId = some c → m.tenantId = m'.tenantId →
    m.userId = m'.userId → id = id'
  answer_unique : ∀ {id id' m m' t u c}, db.messages.get? id = some m → db.messages.get? id' = some m' →
    Answers m t u c → Answers m' t u c → id = id'
  answer_user : ∀ {id m t u c}, db.messages.get? id = some m → Answers m t u c → HasUser db.messages t u c
  record : ∀ {k r}, db.records.get? k = some r →
    ∃ p, r.requestHash = digest p ∧ RecordOf db.messages k r p.clientRequestId
  record_unique : ∀ {k k' r r' p p'}, db.records.get? k = some r → db.records.get? k' = some r' →
    r.requestHash = digest p → r'.requestHash = digest p' → k.tenantId = k'.tenantId → k.userId = k'.userId →
    p.clientRequestId = p'.clientRequestId → k = k'

/-- Requests with the same digest have the same client request id. -/
def CollisionFree (digest : RequestPayload → Text) : Prop :=
  ∀ p p', digest p = digest p' → p.clientRequestId = p'.clientRequestId

theorem messagesOf_eq_nil : messagesOf messages t u c = [] ↔ ¬HasUser messages t u c := by
  rw [List.eq_nil_iff_forall_not_mem]
  constructor
  · rintro h ⟨id, m, hm, rfl, rfl, hc⟩
    exact h (id, m) (Table.mem_select.mpr ⟨hm, by simp [hc]⟩)
  · rintro h ⟨id, m⟩ hm
    obtain ⟨hm, hp⟩ := Table.mem_select.mp hm
    simp only [Bool.and_eq_true, decide_eq_true_eq] at hp
    exact h ⟨id, m, hm, hp.1.1, hp.1.2, hp.2⟩

theorem insertMessage_cases (h : insertMessage messages id m = .ok messages') :
    messages.insert? id m = some messages' ∧
      ∀ c, m.clientRequestId = some c → ¬HasUser messages m.tenantId m.userId c := by
  unfold insertMessage at h
  split at h
  · cases h
  · rename_i hn
    refine ⟨orRaise_eq_ok.mp h, fun c hc => ?_⟩
    rw [← messagesOf_eq_nil]
    simpa [hc] using hn

theorem storeUserMessage_cases {records : Records StoredChatReplay} {claimed : Bool}
    (h : storeUserMessage db records claimed t u q key id = .ok (db', accepted)) :
    (∃ id', accepted = ⟨q, t, u, id', key, none⟩) ∧
    ((claimed = false ∧ HasUser db.messages t u q.clientRequestId ∧ db' = { db with records }) ∨
      ∃ messages, db.messages.insert? id ⟨t, q.sessionId, u, .user, q.message, none, some q.clientRequestId⟩ =
          some messages ∧
        ¬HasUser db.messages t u q.clientRequestId ∧ db' = { db with records, messages }) := by
  unfold storeUserMessage at h
  cases hm : messagesOf db.messages t u q.clientRequestId with
  | nil =>
      rw [hm] at h
      simp only [List.head?_nil, bind_eq_ok, pure_eq_ok, Prod.mk.injEq] at h
      obtain ⟨messages, hi, rfl, rfl⟩ := h
      exact ⟨⟨id, rfl⟩, Or.inr ⟨messages, (insertMessage_cases hi).1, messagesOf_eq_nil.mp hm, rfl⟩⟩
  | cons x xs =>
      rw [hm] at h
      simp only [List.head?_cons] at h
      split at h
      · simp at h
      · rename_i hok
        simp only [pure_eq_ok, Prod.mk.injEq] at h
        obtain ⟨rfl, rfl⟩ := h
        have hu : HasUser db.messages t u q.clientRequestId := by
          by_contra hn
          rw [messagesOf_eq_nil.mpr hn] at hm; cases hm
        refine ⟨⟨_, rfl⟩, Or.inl ⟨?_, hu, rfl⟩⟩
        cases claimed with
        | false => rfl
        | true => exact absurd (Or.inl rfl) hok

theorem accept_cases (h : accept digest idempotencyTtl db t u q key id now = .ok (db', accepted)) :
    ∃ K, validateIdempotencyKey key = .ok K ∧
      ((∃ r replay id', db.records.get? ⟨t, u, chatOperation, K⟩ = some r ∧
          r.requestHash = digest (requestPayload q) ∧ r.status = .completed ∧ r.response = some replay ∧
          db' = db ∧ accepted = ⟨q, t, u, id', key, some replay⟩) ∨
      (∃ id', accepted = ⟨q, t, u, id', key, none⟩) ∧ ∃ records e,
        (db.records.insert? ⟨t, u, chatOperation, K⟩
              ⟨digest (requestPayload q), .inProgress, none, none, e, now, now⟩ = some records ∧
            ¬HasUser db.messages t u q.clientRequestId ∨
          ∃ r, db.records.get? ⟨t, u, chatOperation, K⟩ = some r ∧
            r.requestHash = digest (requestPayload q) ∧ r.status ≠ .completed ∧
            records = db.records.modify ⟨t, u, chatOperation, K⟩ fun r => { r with
              status := .inProgress, response := none, resourceId := none, expiresAt := e, updatedAt := now }) ∧
        (HasUser db.messages t u q.clientRequestId ∧ db' = { db with records } ∨
          ∃ messages, db.messages.insert? id ⟨t, q.sessionId, u, .user, q.message, none, some q.clientRequestId⟩ =
              some messages ∧
            ¬HasUser db.messages t u q.clientRequestId ∧ db' = { db with records, messages })) := by
  simp only [accept, bind_eq_ok, Prod.exists] at h
  obtain ⟨_, _, records, claim, hc, h⟩ := h
  obtain ⟨K, hK, hcase⟩ := claimIdempotency_cases hc
  refine ⟨K, hK, ?_⟩
  rcases hcase with ⟨hins, rfl⟩ | ⟨r, hr, ⟨_, rfl, rfl⟩ | ⟨hh, ⟨hs, rfl, rfl⟩ | ⟨_, _, rfl, rfl⟩ |
    ⟨hs, _, rfl, rfl⟩⟩⟩
  · obtain ⟨hacc, ⟨hf, _⟩ | ⟨messages, hi, hn, rfl⟩⟩ := storeUserMessage_cases h
    · simp at hf
    · exact Or.inr ⟨hacc, records, _, Or.inl ⟨hins, hn⟩, Or.inr ⟨messages, hi, hn, rfl⟩⟩
  · simp at h
  · simp only [bind_eq_ok, orRaise_eq_ok, pure_eq_ok, Prod.mk.injEq] at h
    obtain ⟨replay, hresp, id', _, rfl, rfl⟩ := h
    exact Or.inl ⟨r, replay, id', hr, hh, hs, hresp, rfl, rfl⟩
  · simp at h
  · obtain ⟨hacc, hmsg⟩ := storeUserMessage_cases h
    exact Or.inr ⟨hacc, _, _, Or.inr ⟨r, hr, hh, hs, rfl⟩, hmsg.imp And.right fun hm => hm⟩

/-! ## Soundness is kept -/

theorem HasUser.insert (h : HasUser messages t u c) (hi : messages.insert? id m = some messages') :
    HasUser messages' t u c := by
  obtain ⟨id', m', hm, hp⟩ := h
  have hne : id' ≠ id := by
    rintro rfl
    rw [Table.insert?_fresh hi] at hm; cases hm
  exact ⟨id', m', by rw [Table.get?_insert? hi, if_neg hne, hm], hp⟩

theorem get?_of_insert {id' : MessageId} {m' : Message} (hi : messages.insert? id m = some messages')
    (h : messages'.get? id' = some m') : (id' = id ∧ m' = m) ∨ messages.get? id' = some m' := by
  rw [Table.get?_insert? hi] at h
  split at h
  · rename_i he
    exact Or.inl ⟨he, (Option.some.inj h).symm⟩
  · exact Or.inr h

theorem RecordOf.insertUser (h : RecordOf messages k r c) (hi : messages.insert? id m = some messages')
    (hrole : m.role = .user) : RecordOf messages' k r c where
  user := h.user.insert hi
  unanswered hs id' m' hm ha := by
    rcases get?_of_insert hi hm with ⟨_, rfl⟩ | hm
    · rw [ha.2.2.1] at hrole; cases hrole
    · exact h.unanswered hs hm ha
  answered hs := by
    obtain ⟨replay, m', hr, hm, ha⟩ := h.answered hs
    have hne : replay.assistantMessageId ≠ id := by
      intro he
      rw [he, Table.insert?_fresh hi] at hm; cases hm
    exact ⟨replay, m', hr, by rw [Table.get?_insert? hi, if_neg hne, hm], ha⟩

theorem Sound.insertUser (h : Sound digest db) (hi : db.messages.insert? id m = some messages)
    (hrole : m.role = .user)
    (hc : ∀ c, m.clientRequestId = some c → ¬HasUser db.messages m.tenantId m.userId c) :
    Sound digest { db with messages } where
  user_unique {id₁ id₂ m₁ m₂ c} h₁ h₂ hc₁ hc₂ ht hu := by
    rcases get?_of_insert hi h₁ with ⟨e₁, rfl⟩ | h₁ <;> rcases get?_of_insert hi h₂ with ⟨e₂, rfl⟩ | h₂
    · rw [e₁, e₂]
    · exact absurd ⟨id₂, m₂, h₂, ht.symm, hu.symm, hc₂⟩ (hc c hc₁)
    · exact absurd ⟨id₁, m₁, h₁, ht, hu, hc₁⟩ (hc c hc₂)
    · exact h.user_unique h₁ h₂ hc₁ hc₂ ht hu
  answer_unique {id₁ id₂ m₁ m₂ t u c} h₁ h₂ ha₁ ha₂ := by
    rcases get?_of_insert hi h₁ with ⟨_, rfl⟩ | h₁
    · rw [ha₁.2.2.1] at hrole; cases hrole
    · rcases get?_of_insert hi h₂ with ⟨_, rfl⟩ | h₂
      · rw [ha₂.2.2.1] at hrole; cases hrole
      · exact h.answer_unique h₁ h₂ ha₁ ha₂
  answer_user {id' m' t u c} h' ha := by
    rcases get?_of_insert hi h' with ⟨_, rfl⟩ | h'
    · rw [ha.2.2.1] at hrole; cases hrole
    · exact (h.answer_user h' ha).insert hi
  record hr := by
    obtain ⟨p, hp, hrec⟩ := h.record hr
    exact ⟨p, hp, hrec.insertUser hi hrole⟩
  record_unique := h.record_unique

theorem Sound.rewrite (h : Sound digest db) {f : IdempotencyRequest StoredChatReplay → IdempotencyRequest StoredChatReplay}
    (hr : db.records.get? k = some r) (hs : r.status ≠ .completed) (hh : ∀ r, (f r).requestHash = r.requestHash)
    (hf : ∀ r, (f r).status ≠ .completed) : Sound digest { db with records := db.records.modify k f } := by
  have hold : ∀ {k' r'}, (db.records.modify k f).get? k' = some r' →
      ∃ r₀, db.records.get? k' = some r₀ ∧ r'.requestHash = r₀.requestHash := by
    intro k' r' hr'
    rw [Table.get?_modify] at hr'
    split at hr'
    · obtain ⟨r₀, h₀, rfl⟩ := Option.map_eq_some_iff.mp hr'
      exact ⟨r₀, h₀, hh r₀⟩
    · exact ⟨r', hr', rfl⟩
  refine { h with record := fun {k' r'} hr' => ?_, record_unique := fun h₁ h₂ e₁ e₂ => ?_ }
  · rw [Table.get?_modify] at hr'
    split at hr'
    · rename_i he
      subst he
      rw [hr] at hr'; cases hr'
      obtain ⟨p, hp, hrec⟩ := h.record hr
      exact ⟨p, (hh r).trans hp, hrec.user, fun _ => hrec.unanswered hs, fun hc => absurd hc (hf r)⟩
    · exact h.record hr'
  · obtain ⟨r₁, h₁', e₁'⟩ := hold h₁
    obtain ⟨r₂, h₂', e₂'⟩ := hold h₂
    exact h.record_unique h₁' h₂' (e₁'.symm.trans e₁) (e₂'.symm.trans e₂)

theorem Sound.insertRecord (h : Sound digest db) (hcf : CollisionFree digest) {p : RequestPayload}
    {records : Records StoredChatReplay} (hi : db.records.insert? k r = some records)
    (hh : r.requestHash = digest p) (hs : r.status = .inProgress)
    (hm : db.messages.insert? id m = some messages) (hrole : m.role = .user) (ht : m.tenantId = k.tenantId)
    (hu : m.userId = k.userId) (hc : m.clientRequestId = some p.clientRequestId)
    (hno : ¬HasUser db.messages k.tenantId k.userId p.clientRequestId) :
    Sound digest { db with records, messages } := by
  have hsound := h.insertUser hm hrole (by
    intro c hc'
    rw [hc] at hc'; cases hc'
    rwa [ht, hu])
  have hrow : ∀ {k' r'}, records.get? k' = some r' → (k' = k ∧ r' = r) ∨ db.records.get? k' = some r' := by
    intro k' r' hr'
    rw [Table.get?_insert? hi] at hr'
    split at hr'
    · rename_i he
      exact Or.inl ⟨he, (Option.some.inj hr').symm⟩
    · exact Or.inr hr'
  -- A record of the same client request would have brought its user message before.
  have hother : ∀ {k' r' p'}, db.records.get? k' = some r' → r'.requestHash = digest p' →
      k'.tenantId = k.tenantId → k'.userId = k.userId → p'.clientRequestId ≠ p.clientRequestId := by
    intro k' r' p' hr' hp' ht' hu' he
    obtain ⟨p'', hp'', hrec⟩ := h.record hr'
    have hcc := hcf p' p'' (hp'.symm.trans hp'')
    have huser := hrec.user
    rw [ht', hu', ← hcc, he] at huser
    exact hno huser
  refine { hsound with record := fun {k' r'} hr' => ?_, record_unique := fun h₁ h₂ e₁ e₂ ht' hu' he => ?_ }
  · rcases hrow hr' with ⟨rfl, rfl⟩ | hr'
    · refine ⟨p, hh, ⟨id, m, by rw [Table.get?_insert? hm, if_pos rfl], ht, hu, hc⟩, fun _ id' m' hm' ha => ?_,
        fun hc' => by rw [hs] at hc'; cases hc'⟩
      rcases get?_of_insert hm hm' with ⟨_, rfl⟩ | hm'
      · rw [ha.2.2.1] at hrole; cases hrole
      · exact hno (h.answer_user hm' ha)
    · exact hsound.record hr'
  · rcases hrow h₁ with ⟨rfl, rfl⟩ | h₁ <;> rcases hrow h₂ with ⟨rfl, rfl⟩ | h₂
    · rfl
    · have hp := hcf _ _ (hh.symm.trans e₁)
      exact absurd (he.symm.trans hp.symm) (hother h₂ e₂ ht'.symm hu'.symm)
    · have hp := hcf _ _ (hh.symm.trans e₂)
      exact absurd (he.trans hp.symm) (hother h₁ e₁ ht' hu')
    · exact h.record_unique h₁ h₂ e₁ e₂ ht' hu' he

theorem Sound.answer (h : Sound digest db) {p : RequestPayload} {replay : StoredChatReplay}
    {resourceId : Option MessageId} (hr : db.records.get? k = some r) (hh : r.requestHash = digest p)
    (hcf : CollisionFree digest) (hs : r.status = .inProgress) (hm : db.messages.insert? id m = some messages)
    (hid : replay.assistantMessageId = id) (ha : Answers m k.tenantId k.userId p.clientRequestId)
    (hc : m.clientRequestId = none) :
    Sound digest { db with
      messages
      records := db.records.modify k fun r => { r with
        status := .completed, response := some replay, resourceId := resourceId, updatedAt := now } } := by
  obtain ⟨p', hp', hrec⟩ := h.record hr
  have hpp : p'.clientRequestId = p.clientRequestId := hcf p' p (hp'.symm.trans hh)
  rw [hpp] at hrec
  have hnone : ∀ {id' m'}, db.messages.get? id' = some m' → ¬Answers m' k.tenantId k.userId p.clientRequestId :=
    fun hm' => hrec.unanswered (by simp [hs]) hm'
  have hold : ∀ {k' r'}, (db.records.modify k fun r => { r with
      status := .completed, response := some replay, resourceId := resourceId, updatedAt := now }).get? k' =
        some r' → ∃ r₀, db.records.get? k' = some r₀ ∧ r'.requestHash = r₀.requestHash := by
    intro k' r' hr'
    rw [Table.get?_modify] at hr'
    split at hr'
    · obtain ⟨r₀, h₀, rfl⟩ := Option.map_eq_some_iff.mp hr'
      exact ⟨r₀, h₀, rfl⟩
    · exact ⟨r', hr', rfl⟩
  have hnew : messages.get? id = some m := by rw [Table.get?_insert? hm, if_pos rfl]
  have hkeep : ∀ {id' m'}, db.messages.get? id' = some m' → messages.get? id' = some m' := by
    intro id' m' hm'
    have hne : id' ≠ id := by rintro rfl; rw [Table.insert?_fresh hm] at hm'; cases hm'
    rw [Table.get?_insert? hm, if_neg hne, hm']
  -- An answer that is there to a request of the new answer would have been there before.
  have hanswer : ∀ {id' m' t u c}, messages.get? id' = some m' → Answers m' t u c →
      Answers m t u c → id' = id := by
    intro id' m' t u c hm' ha' hb
    rcases get?_of_insert hm hm' with ⟨he, _⟩ | hm'
    · exact he
    · obtain ⟨h₁, h₂, _, h₄⟩ := hb
      obtain ⟨g₁, g₂, _, g₄⟩ := ha
      rw [g₄] at h₄; cases h₄
      rw [← h₁, g₁, ← h₂, g₂] at ha'
      exact absurd ha' (hnone hm')
  constructor
  · intro id₁ id₂ m₁ m₂ c h₁ h₂ hc₁ hc₂ ht hu
    rcases get?_of_insert hm h₁ with ⟨_, rfl⟩ | h₁
    · rw [hc] at hc₁; cases hc₁
    · rcases get?_of_insert hm h₂ with ⟨_, rfl⟩ | h₂
      · rw [hc] at hc₂; cases hc₂
      · exact h.user_unique h₁ h₂ hc₁ hc₂ ht hu
  · intro id₁ id₂ m₁ m₂ t u c h₁ h₂ ha₁ ha₂
    rcases get?_of_insert hm h₁ with ⟨e₁, rfl⟩ | h₁'
    · exact (e₁.trans (hanswer h₂ ha₂ ha₁).symm)
    · rcases get?_of_insert hm h₂ with ⟨e₂, rfl⟩ | h₂'
      · exact (hanswer h₁ ha₁ ha₂).trans e₂.symm
      · exact h.answer_unique h₁' h₂' ha₁ ha₂
  · intro id' m' t u c hm' ha'
    rcases get?_of_insert hm hm' with ⟨_, rfl⟩ | hm'
    · obtain ⟨h₁, h₂, _, h₄⟩ := ha'
      obtain ⟨g₁, g₂, _, g₄⟩ := ha
      rw [g₄] at h₄; cases h₄
      rw [← h₁, g₁, ← h₂, g₂]
      exact hrec.user.insert hm
    · exact (h.answer_user hm' ha').insert hm
  · intro k' r' hr'
    rw [Table.get?_modify] at hr'
    split at hr'
    · rename_i he
      subst he
      rw [hr] at hr'; cases hr'
      exact ⟨p, hh, hrec.user.insert hm, fun hn => absurd rfl hn, fun _ => ⟨replay, m, rfl, hid ▸ hnew, ha⟩⟩
    · rename_i hne
      obtain ⟨q', hq', hrec'⟩ := h.record hr'
      refine ⟨q', hq', hrec'.user.insert hm, fun hs' id' m' hm' ha' => ?_, fun hs' => ?_⟩
      · rcases get?_of_insert hm hm' with ⟨_, rfl⟩ | hm'
        · obtain ⟨h₁, h₂, _, h₄⟩ := ha'
          obtain ⟨g₁, g₂, _, g₄⟩ := ha
          rw [g₄] at h₄
          exact hne (h.record_unique hr' hr hq' hh (h₁.symm.trans g₁) (h₂.symm.trans g₂)
            (Option.some.inj h₄).symm)
        · exact hrec'.unanswered hs' hm' ha'
      · obtain ⟨replay', m', hresp, hm', ha'⟩ := hrec'.answered hs'
        exact ⟨replay', m', hresp, hkeep hm', ha'⟩
  · intro k₁ k₂ r₁ r₂ p₁ p₂ h₁ h₂ e₁ e₂
    obtain ⟨r₁', h₁', e₁'⟩ := hold h₁
    obtain ⟨r₂', h₂', e₂'⟩ := hold h₂
    exact h.record_unique h₁' h₂' (e₁'.symm.trans e₁) (e₂'.symm.trans e₂)

theorem prune_get? {olderThan : Time} (h : (prune db olderThan).records.get? k = some r) :
    db.records.get? k = some r := by
  simp only [prune, Table.get?_delete, Option.filter_eq_some_iff] at h
  exact h.1

theorem Sound.prune (h : Sound digest db) (olderThan : Time) : Sound digest (prune db olderThan) :=
  { h with
    record := fun hr => h.record (prune_get? hr)
    record_unique := fun h₁ h₂ => h.record_unique (prune_get? h₁) (prune_get? h₂) }

/-! ## Attempts -/

theorem Sound.accept (h : Sound digest db) (hcf : CollisionFree digest)
    (hacc : accept digest idempotencyTtl db t u q key id now = .ok (db', accepted)) :
    Sound digest db' ∧ (∀ {t u c}, HasUser db.messages t u c → HasUser db'.messages t u c) ∧
      (accepted.replay = none →
        HasUser db'.messages accepted.tenantId accepted.userId accepted.request.clientRequestId) := by
  obtain ⟨K, hK, ⟨r, replay, id', hr, hh, hs, hresp, rfl, rfl⟩ | ⟨⟨id', rfl⟩, records, e, hrec, hmsg⟩⟩ :=
    accept_cases hacc
  · exact ⟨h, fun hu => hu, fun hn => by cases hn⟩
  · rcases hmsg with ⟨hu, rfl⟩ | ⟨messages, hi, hn, rfl⟩
    · rcases hrec with ⟨_, hn⟩ | ⟨r, hr, hh, hs, rfl⟩
      · exact absurd hu hn
      · exact ⟨h.rewrite hr hs (fun _ => rfl) (fun _ => by simp), fun hu => hu, fun _ => hu⟩
    · refine ⟨?_, fun hu => hu.insert hi, fun _ => ⟨id, _, by rw [Table.get?_insert? hi, if_pos rfl], rfl, rfl, rfl⟩⟩
      rcases hrec with ⟨hins, _⟩ | ⟨r, hr, hh, hs, rfl⟩
      · exact h.insertRecord hcf hins rfl rfl hi rfl rfl rfl rfl hn
      · have hsound := h.insertUser hi rfl (fun c hc => by cases hc; exact hn)
        exact hsound.rewrite hr hs (fun _ => rfl) (fun _ => by simp)

theorem persist_cases {answer : Text} {transcript : List StreamEvent}
    (h : persist db accepted id answer transcript now = .ok db') :
    ∃ messages k r,
      db.messages.insert? id ⟨accepted.tenantId, accepted.request.sessionId, accepted.userId, .assistant, answer,
        some accepted.request.clientRequestId, none⟩ = some messages ∧
      lockedRecord db.records accepted.tenantId accepted.userId chatOperation accepted.idempotencyKey =
        .ok (k, r) ∧ r.status = .inProgress ∧
      db' = { db with
        messages
        records := db.records.modify k fun r => { r with
          status := .completed, response := some ⟨id, transcript⟩, resourceId := some id, updatedAt := now } } := by
  simp only [persist, bind_eq_ok, orRaise_eq_ok, pure_eq_ok] at h
  obtain ⟨_, _, _, _, messages, hm, records, hc, rfl⟩ := h
  obtain ⟨k, r, hl, hs, rfl⟩ := completeIdempotency_cases hc
  exact ⟨messages, k, r, (insertMessage_cases hm).1, hl, hs, rfl⟩

theorem Sound.persist {answer : Text} {transcript : List StreamEvent} (h : Sound digest db)
    (hcf : CollisionFree digest)
    (hown : ∀ k r, lockedRecord db.records accepted.tenantId accepted.userId chatOperation
      accepted.idempotencyKey = .ok (k, r) → r.status = .inProgress →
        r.requestHash = digest (requestPayload accepted.request))
    (hp : persist db accepted id answer transcript now = .ok db') :
    Sound digest db' ∧ ∀ {t u c}, HasUser db.messages t u c → HasUser db'.messages t u c := by
  obtain ⟨messages, k, r, hm, hl, hs, rfl⟩ := persist_cases hp
  obtain ⟨K, _, rfl, hr⟩ := lockedRecord_eq_ok.mp hl
  exact ⟨h.answer hr (hown _ r hl hs) hcf hs hm rfl ⟨rfl, rfl, rfl, rfl⟩ rfl, fun hu => hu.insert hm⟩

theorem fail_cases (db : ChatDb) (accepted : AcceptedChat) (now : Time) :
    fail db accepted now = db ∨ ∃ k r, db.records.get? k = some r ∧ r.status ≠ .completed ∧
    fail db accepted now = { db with
      records := db.records.modify k fun r => { r with status := .failed, updatedAt := now } } := by
  unfold fail
  split
  · rename_i records hf
    obtain ⟨k, r, hl, ⟨_, rfl⟩ | ⟨hs, rfl⟩⟩ := failIdempotency_cases hf
    · exact Or.inl rfl
    · obtain ⟨_, _, _, hr⟩ := lockedRecord_eq_ok.mp hl
      exact Or.inr ⟨k, r, hr, hs, rfl⟩
  · exact Or.inl rfl

theorem Sound.fail (h : Sound digest db) : Sound digest (fail db accepted now) := by
  rcases fail_cases db accepted now with he | ⟨k, r, hr, hs, he⟩
  · rw [he]; exact h
  · rw [he]
    exact h.rewrite hr hs (fun _ => rfl) (fun _ => by simp)

theorem fail_messages : (fail db accepted now).messages = db.messages := by
  rcases fail_cases db accepted now with he | ⟨k, r, _, _, he⟩ <;> rw [he]

/-- The database is sound, and every attempt has its user message. -/
structure Attempting (digest : RequestPayload → Text) (s : ChatState) : Prop where
  sound : Sound digest s.db
  user : ∀ {i a}, (s.attempts i).accepted? = some a →
    HasUser s.db.messages a.tenantId a.userId a.request.clientRequestId

theorem Attempting.goOn (h : Attempting digest s) {i : AttemptId} {p : Attempt} (hs : Sound digest db)
    (hu : ∀ {t u c}, HasUser s.db.messages t u c → HasUser db.messages t u c)
    (hp : ∀ a, p.accepted? = some a → HasUser db.messages a.tenantId a.userId a.request.clientRequestId) :
    Attempting digest (s.goOn db i p) where
  sound := hs
  user {j a} hj := by
    by_cases he : j = i
    · subst he
      simp only [ChatState.goOn, Function.update_self] at hj
      exact hp a hj
    · simp only [ChatState.goOn, Function.update_of_ne he] at hj
      exact hu (h.user hj)

theorem Attempting.step (h : Attempting digest s) (hcf : CollisionFree digest) (ha : persistsOwn digest s a)
    (hs : chatStep digest idempotencyTtl s a = some s') : Attempting digest s' := by
  cases a with
  | accept i t u q key id now =>
      simp only [chatStep] at hs
      cases hi : s.attempts i with
      | fresh =>
          simp only [hi] at hs
          split at hs
          · rename_i db accepted hacc
            cases hs
            obtain ⟨hsound, hmono, huser⟩ := h.sound.accept hcf hacc
            refine h.goOn hsound hmono fun a ha => ?_
            cases hrep : accepted.replay with
            | none => simp only [hrep, Option.isSome_none, Bool.false_eq_true, ↓reduceIte] at ha
                      cases ha; exact huser hrep
            | some r => simp [hrep, Attempt.accepted?] at ha
          · cases hs
            exact h.goOn h.sound (fun hu => hu) fun a ha => by cases ha
      | _ => simp [hi] at hs
  | persist i id answer transcript now =>
      simp only [chatStep] at hs
      cases hi : s.attempts i with
      | running accepted =>
          have huser := h.user (i := i) (a := accepted) (by rw [hi]; rfl)
          simp only [hi] at hs
          split at hs
          · rename_i db hp
            cases hs
            obtain ⟨hsound, hmono⟩ := h.sound.persist hcf (fun k r hl hst => by
              simpa [persistsOwn, hi, Attempt.accepted?, hl, Except.toOption, hst] using ha) hp
            exact h.goOn hsound hmono fun a ha => by cases ha; exact hmono huser
          · cases hs
            exact h.goOn h.sound (fun hu => hu) fun a ha => by cases ha; exact huser
      | _ => simp [hi] at hs
  | fail i now =>
      simp only [chatStep, Option.map_eq_some_iff] at hs
      obtain ⟨accepted, _, rfl⟩ := hs
      exact h.goOn h.sound.fail (fun hu => by rwa [fail_messages]) fun a ha => by cases ha
  | prune olderThan => cases hs; exact ⟨h.sound.prune olderThan, h.user⟩
  | administer users sessions => cases hs; exact ⟨{ h.sound with }, h.user⟩

theorem Attempting.fresh {users : Table UserId User} {sessions : Table SessionId ChatSession} :
    Attempting digest (ChatState.fresh users sessions) where
  sound := by
    constructor
    · intro _ _ _ _ _ h; cases h
    · intro _ _ _ _ _ _ _ h; cases h
    · intro _ _ _ _ _ h; cases h
    · intro _ _ h; cases h
    · intro _ _ _ _ _ _ h; cases h
  user h := by cases h

theorem attempting_of_run {users : Table UserId User} {sessions : Table SessionId ChatSession}
    (hcf : CollisionFree digest)
    (h : Run (chatStep digest idempotencyTtl) (fun s a => persistsOwn digest s a)
      (ChatState.fresh users sessions) s) : Attempting digest s :=
  Run.invariant (fun _ _ _ hi ha hs => hi.step hcf ha hs) h Attempting.fresh

end Etoeragcb.Chat
