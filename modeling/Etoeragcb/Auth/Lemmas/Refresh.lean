import Etoeragcb.Auth.Refresh

/-!
# What a statement of one call leaves to the others
-/

namespace Etoeragcb.Auth

open Lib Models

variable {hashRefreshToken : Nat → Text} {refreshTtl : Nat} {s s' t : State} {c c' : CallId} {call call' : Call}
  {tokens : Table TokenId RefreshToken} {writes : List Write} {account : Option Account} {id : TokenId}
  {r r' : RefreshToken} {family : FamilyId} {scope : Scope} {returned : Returned}

/-! ## Writes -/

structure Later (r r' : RefreshToken) : Prop where
  user : r'.userId = r.userId
  family : r'.familyId = r.familyId

theorem Later.refl (r : RefreshToken) : Later r r := ⟨rfl, rfl⟩

theorem Later.trans {r'' : RefreshToken} (h : Later r r') (h' : Later r' r'') : Later r r'' :=
  ⟨h'.user.trans h.user, h'.family.trans h.family⟩

theorem apply_get? (w : Write) (h : tokens.get? id = some r) :
    ∃ r', (w.apply tokens).get? id = some r' ∧ Later r r' := by
  cases w with
  | revoke id' t n =>
      by_cases he : id = id'
      · subst he
        exact ⟨RefreshToken.revoke r t n, by simp [Write.apply, h], rfl, rfl⟩
      · exact ⟨r, by simp [Write.apply, he, h], .refl r⟩
  | insert id' token =>
      refine ⟨r, ?_, .refl r⟩
      simp only [Write.apply]
      cases hi : tokens.insert? id' token with
      | none => exact h
      | some tokens' =>
          have hne : id ≠ id' := by
            rintro rfl
            rw [Table.insert?_fresh hi] at h
            cases h
          simp [Table.get?_insert? hi, hne, h]

theorem apply_new (w : Write) (h : (w.apply tokens).get? id = some r') :
    (∃ r, tokens.get? id = some r ∧ Later r r') ∨ .insert id r' = w := by
  cases hr : tokens.get? id with
  | some r =>
      obtain ⟨r'', hr'', hl⟩ := apply_get? w hr
      rw [hr''] at h
      cases h
      exact Or.inl ⟨r, rfl, hl⟩
  | none =>
      refine Or.inr ?_
      cases w with
      | revoke id' t n =>
          simp only [Write.apply, Table.get?_modify] at h
          split at h <;> simp_all
      | insert id' token =>
          simp only [Write.apply] at h
          cases hi : tokens.insert? id' token with
          | none =>
              rw [hi, Option.getD_none, hr] at h
              cases h
          | some tokens' =>
              rw [hi, Option.getD_some, Table.get?_insert? hi] at h
              split at h
              · rename_i he
                cases h
                rw [he]
              · rw [hr] at h
                cases h

theorem applied_get? (writes : List Write) (h : tokens.get? id = some r) :
    ∃ r', (writes.foldl Write.apply tokens).get? id = some r' ∧ Later r r' := by
  induction writes generalizing tokens r with
  | nil => exact ⟨r, h, .refl r⟩
  | cons w writes ih =>
      obtain ⟨r₁, h₁, hl₁⟩ := apply_get? w h
      obtain ⟨r₂, h₂, hl₂⟩ := ih h₁
      exact ⟨r₂, h₂, hl₁.trans hl₂⟩

/-- A committed row after a transaction is a later version of one before, or the transaction inserted it. -/
theorem applied_new (writes : List Write) (h : (writes.foldl Write.apply tokens).get? id = some r') :
    (∃ r, tokens.get? id = some r ∧ Later r r') ∨ ∃ r, .insert id r ∈ writes ∧ Later r r' := by
  induction writes generalizing tokens with
  | nil => exact Or.inl ⟨r', h, .refl r'⟩
  | cons w writes ih =>
      rcases ih h with ⟨r₁, h₁, hl⟩ | ⟨r, hm, hl⟩
      · rcases apply_new w h₁ with ⟨r, hr, hl'⟩ | rfl
        · exact Or.inl ⟨r, hr, hl'.trans hl⟩
        · exact Or.inr ⟨r₁, List.mem_cons_self, hl⟩
      · exact Or.inr ⟨r, List.mem_cons_of_mem w hm, hl⟩

/-- A flush does not get past a row whose replacement is not there yet. -/
theorem flushes_rotation {id' : TokenId} {now : Time} (h : tokens.get? id' = none) (writes : List Write) :
    flushes tokens (.revoke id now (some id') :: writes) = false := by
  simp [flushes, Write.meetsKey, h]

/-! ## Calls and locks -/

theorem begin?_eq_some (h : s.begin? c call = some s') : .began c ∉ s.log ∧ s.calls.get? c = none ∧
    s'.calls.get? c = some call ∧ (∀ c', c' ≠ c → s'.calls.get? c' = s.calls.get? c') ∧
    s' = { s with calls := s'.calls, log := .began c :: s.log } := by
  simp only [State.begin?, Option.ite_none_left_eq_some] at h
  obtain ⟨hnew, h⟩ := h
  obtain ⟨calls, hi, rfl⟩ := Option.map_eq_some_iff.mp h
  refine ⟨hnew, Table.insert?_fresh hi, by simp [Table.get?_insert? hi], fun c' hc => ?_, rfl⟩
  simp [Table.get?_insert? hi, hc]

theorem get?_goOn (h : s.calls.get? c = some call') : (s.goOn c call).calls.get? c = some call := by
  simp [State.goOn, h]

theorem get?_goOn_other (h : c' ≠ c) : (s.goOn c call).calls.get? c' = s.calls.get? c' := by
  simp [State.goOn, h]

theorem get?_close_self : (s.close c).calls.get? c = none := by
  simp [State.close]

theorem get?_close_other (h : c' ≠ c) : (s.close c).calls.get? c' = s.calls.get? c' := by
  simp only [State.close, Table.get?_delete, h, decide_false, Bool.not_false]
  cases s.calls.get? c' <;> rfl

theorem userLocks_close {userId : UserId} (h : c' ≠ c) :
    (s.close c).userLocks userId = some c' ↔ s.userLocks userId = some c' := by
  simp only [State.close]
  split
  · rename_i he
    simp [he, Ne.symm h]
  · rfl

/-- A lock that was free or the own one goes to `c`, and the others keep theirs. -/
theorem update_lock {locks : Nat → Option CallId} {n : Nat} (hfree : locks n = none ∨ locks n = some c) (h : c' ≠ c)
    (n' : Nat) : Function.update locks n (some c) n' = some c' ↔ locks n' = some c' := by
  simp only [Function.update_apply]
  split
  · rename_i he
    subst he
    rcases hfree with hf | hf <;> simp [hf, Ne.symm h]
  · rfl

/-! ## What stands behind an open call -/

def HasRow (s : State) (id : TokenId) : Prop := ∃ r, s.tokens.get? id = some r

def HasFamily (s : State) (family : FamilyId) : Prop := ∃ id r, s.tokens.get? id = some r ∧ r.familyId = family

/-- What a revocation of many tokens is part of, and what it returns with. -/
def Bulk (s : State) (c : CallId) (returned : Returned) : Scope → Prop
  | .family family => returned = .denied ∨ returned = .reuseDetected family
  | .user account => s.userLocks account.userId = some c ∧ returned = .revoked account.userId

/-- What a transaction has flushed: the first token of a family, the revocation of one token, or a user that is
enabled. No flush of a rotation succeeds. -/
inductive Flushed (s : State) (c : CallId) : List Write → Option Account → Returned → Prop
  | first {id record} : id ∈ s.drawn → record.familyId ∈ s.drawn → ¬HasFamily s record.familyId →
      Flushed s c [.insert id record] none (.signedIn id record.familyId)
  | single {id now returned} : returned = .denied ∨ returned = .loggedOut →
      Flushed s c [.revoke id now none] none returned
  | enabling {account : Account} : s.userLocks account.userId = some c →
      Flushed s c [] (some account) (.enabled account.userId)

def Backed (s : State) (c : CallId) : Call → Prop
  | .checked id _ => HasRow s id
  | .rotating id _ _ _ => HasRow s id
  | .revoking _ _ returned => returned = .denied ∨ returned = .loggedOut
  | .revokingAll scope _ returned => Bulk s c returned scope
  | .updating scope _ returned _ writes => Bulk s c returned scope ∧ ∀ w ∈ writes, ∃ id t, w = .revoke id t none
  | .committing writes account returned => Flushed s c writes account returned
  | _ => True

/-- A call is about to insert the first token of a family. -/
def Founds (call : Call) (family : FamilyId) : Prop :=
  ∃ writes account id, call = .committing writes account (.signedIn id family)

/-- What always holds: a family has one token, an exchange never returns, and open calls have what they rely on. -/
structure Sound (s : State) : Prop where
  alone : ∀ id id' r r', s.tokens.get? id = some r → s.tokens.get? id' = some r' → r.familyId = r'.familyId → id = id'
  drawn : ∀ id r, s.tokens.get? id = some r → id ∈ s.drawn ∧ r.familyId ∈ s.drawn
  backed : ∀ c call, s.calls.get? c = some call → Backed s c call
  founds : ∀ c c' call call' family, s.calls.get? c = some call → s.calls.get? c' = some call' →
    Founds call family → Founds call' family → c = c'
  unexchanged : ∀ c id next family, .returned c (.exchanged id next family) ∉ s.log

theorem Sound.fresh (hs : Sound s) {n : Nat} (h : n ∉ s.drawn) : s.tokens.get? n = none := by
  cases hr : s.tokens.get? n with
  | none => rfl
  | some r => exact absurd (hs.drawn n r hr).1 h

/-! ## Steps of other calls -/

/-- What a step of the call `c` leaves to the other calls. -/
structure Frame (c : CallId) (s s' : State) : Prop where
  userLocks : ∀ userId c', c' ≠ c → (s'.userLocks userId = some c' ↔ s.userLocks userId = some c')
  calls : ∀ c', c' ≠ c → s'.calls.get? c' = s.calls.get? c'
  drawn : ∀ n ∈ s.drawn, n ∈ s'.drawn
  rows : ∀ id, HasRow s id → HasRow s' id
  families : ∀ family, HasFamily s' family →
    HasFamily s family ∨ ∃ call, s.calls.get? c = some call ∧ Founds call family

theorem Frame.bulk (h : Frame c s s') (hc : c' ≠ c) (hb : Bulk s c' returned scope) : Bulk s' c' returned scope := by
  cases scope with
  | family f => exact hb
  | user account => exact ⟨(h.userLocks _ c' hc).mpr hb.1, hb.2⟩

theorem Frame.backed (h : Frame c s s') (hs : Sound s) (hc : c' ≠ c) (hcall : s.calls.get? c' = some call) :
    Backed s' c' call := by
  have hb := hs.backed c' call hcall
  cases call with
  | loggingIn | signingIn | granting | refreshing | loggingOut | commanded | administering => trivial
  | checked => exact h.rows _ hb
  | rotating => exact h.rows _ hb
  | revokingAll => exact h.bulk hc hb
  | updating => exact ⟨h.bulk hc hb.1, hb.2⟩
  | revoking => exact hb
  | committing writes account returned =>
      cases hb with
      | @first id record hd hfd hno =>
          refine .first (h.drawn _ hd) (h.drawn _ hfd) fun hf => ?_
          rcases h.families _ hf with hold | ⟨call₀, hcall₀, hfound⟩
          · exact hno hold
          · exact hc (hs.founds c' c _ call₀ _ hcall hcall₀ ⟨_, _, _, rfl⟩ hfound)
      | single hret => exact .single hret
      | enabling hl => exact .enabling ((h.userLocks _ c' hc).mpr hl)

/-! ## Steps that commit nothing -/

/-- The user and the version that a call has read to issue an access token. -/
def Call.reads? (tokens : Table TokenId RefreshToken) : Call → Option (UserId × Nat)
  | .signingIn userId authVersion _ => some (userId, authVersion)
  | .granting userId _ _ authVersion _ => some (userId, authVersion)
  | .rotating id _ _ authVersion => (tokens.get? id).map fun r => (r.userId, authVersion)
  | _ => none

/-- The columns of a user that a call has sent. -/
def Call.account? : Call → Option Account
  | .revokingAll scope _ _ => scope.account?
  | .updating scope _ _ _ _ => scope.account?
  | .committing _ account _ => account
  | _ => none

def Call.isNew : Call → Bool
  | .loggingIn _ _ _ | .refreshing _ _ | .loggingOut _ _ | .commanded _ _ _ => true
  | _ => false

def Call.isCommitting : Call → Bool
  | .committing _ _ _ => true
  | _ => false

/-- How a call goes on from `call'` to `call` when a statement takes the state `s` to `s'`. -/
structure Next (s s' : State) (c : CallId) (call' call : Call) : Prop where
  backed : Backed s' c call
  founds : ∀ family, Founds call family → family ∉ s.drawn
  reads : ∀ userId authVersion, call.reads? s.tokens = some (userId, authVersion) →
    call'.reads? s.tokens = some (userId, authVersion) ∨
      (s.users.get? userId).map UserAccount.authVersion = some authVersion
  sends : ∀ account, call.account? = some account → call'.account? = some account ∨
    ∃ user operation now, call' = .administering account.userId user operation now ∧
      account.authVersion = user.authVersion + 1

/-- An event that is not the commit of a login, of a command or of a detected reuse. -/
inductive Minor (s : State) (c : CallId) : Event → Prop
  | began : Minor s c (.began c)
  | issued {claims : AccessClaims} {call : Call} : s.calls.get? c = some call →
      call.reads? s.tokens = some (claims.userId, claims.authVersion) → Minor s c (.issued claims)
  | returned {ret : Returned} : ret = .denied ∨ ret = .loggedOut → Minor s c (.returned c ret)

/-- A step of the call `c` that leaves the committed rows as they are. -/
structure Quiet (c : CallId) (s s' : State) : Prop where
  tokens : s'.tokens = s.tokens
  users : s'.users = s.users
  userLocks : ∀ userId c', c' ≠ c → (s'.userLocks userId = some c' ↔ s.userLocks userId = some c')
  calls : ∀ c', c' ≠ c → s'.calls.get? c' = s.calls.get? c'
  drawn : ∀ n ∈ s.drawn, n ∈ s'.drawn
  log : s'.log = s.log ∨ ∃ e, Minor s c e ∧ s'.log = e :: s.log
  own : ∀ call, s'.calls.get? c = some call → call.isNew ∨ ∃ call', s.calls.get? c = some call' ∧ Next s s' c call' call

theorem Backed.mono (h : Backed s c call) (ht : s'.tokens = s.tokens)
    (hu : ∀ userId, s.userLocks userId = some c → s'.userLocks userId = some c) (hd : ∀ n ∈ s.drawn, n ∈ s'.drawn) :
    Backed s' c call := by
  have hrow : ∀ id, HasRow s id → HasRow s' id := fun id hh => by rwa [HasRow, ht]
  have hbulk : ∀ returned scope, Bulk s c returned scope → Bulk s' c returned scope := by
    intro returned scope hb
    cases scope with
    | family f => exact hb
    | user account => exact ⟨hu _ hb.1, hb.2⟩
  cases call with
  | loggingIn | signingIn | granting | refreshing | loggingOut | commanded | administering => trivial
  | checked => exact hrow _ h
  | rotating => exact hrow _ h
  | revokingAll => exact hbulk _ _ h
  | updating => exact ⟨hbulk _ _ h.1, h.2⟩
  | revoking => exact h
  | committing =>
      cases h with
      | first hdr hfd hno => exact .first (hd _ hdr) (hd _ hfd) (by rwa [HasFamily, ht])
      | single hret => exact .single hret
      | enabling hlock => exact .enabling (hu _ hlock)

theorem quiet_close (ht : t.tokens = s.tokens) (hu : t.users = s.users) (hul : t.userLocks = s.userLocks)
    (hc : t.calls = s.calls) (hd : ∀ n ∈ s.drawn, n ∈ t.drawn)
    (hlog : t.log = s.log ∨ ∃ e, Minor s c e ∧ t.log = e :: s.log) : Quiet c s (t.close c) where
  tokens := ht
  users := hu
  userLocks userId c' h := by
    rw [userLocks_close h, hul]
  calls c' h := by
    rw [get?_close_other h, hc]
  drawn := hd
  log := hlog
  own call h := by
    rw [get?_close_self] at h
    cases h

theorem quiet_giveBack (h : returned = .denied ∨ returned = .loggedOut) : Quiet c s (s.giveBack c returned) :=
  quiet_close (t := { s with log := .returned c returned :: s.log }) rfl rfl rfl rfl (fun _ h => h)
    (Or.inr ⟨_, .returned h, rfl⟩)

theorem quiet_begin (h : s.begin? c call = some s') (hnew : call.isNew) : Quiet c s s' := by
  obtain ⟨-, -, hown, hother, he⟩ := begin?_eq_some h
  rw [he] at hown hother ⊢
  refine ⟨rfl, rfl, fun _ _ _ => .rfl, hother, fun _ h => h, Or.inr ⟨_, .began, rfl⟩, ?_⟩
  intro call' h'
  rw [hown] at h'
  cases h'
  exact Or.inl hnew

theorem quiet_goOn (hcall : s.calls.get? c = some call') (ht : t.tokens = s.tokens) (hu : t.users = s.users)
    (hul : ∀ userId c', c' ≠ c → (t.userLocks userId = some c' ↔ s.userLocks userId = some c'))
    (hc : t.calls = s.calls) (hd : ∀ n ∈ s.drawn, n ∈ t.drawn)
    (hlog : t.log = s.log ∨ ∃ e, Minor s c e ∧ t.log = e :: s.log) (hnext : Next s t c call' call) :
    Quiet c s (t.goOn c call) := by
  refine ⟨ht, hu, hul, fun c' hne => ?_, hd, hlog, fun call₂ h => Or.inr ⟨call', hcall, ?_⟩⟩
  · rw [get?_goOn_other hne, hc]
  · rw [get?_goOn (by rw [hc]; exact hcall)] at h
    cases h
    exact { hnext with backed := hnext.backed.mono rfl (fun _ h => h) fun _ h => h }

theorem Next.plain (hb : Backed s' c call) (hplain : call.isCommitting = false)
    (hr : ∀ userId authVersion, call.reads? s.tokens = some (userId, authVersion) →
      call'.reads? s.tokens = some (userId, authVersion) ∨
        (s.users.get? userId).map UserAccount.authVersion = some authVersion)
    (ha : ∀ account, call.account? = some account → call'.account? = some account ∨
      ∃ user operation now, call' = .administering account.userId user operation now ∧
        account.authVersion = user.authVersion + 1) : Next s s' c call' call := by
  refine ⟨hb, ?_, hr, ha⟩
  rintro f ⟨w, a, id, rfl⟩
  cases hplain

theorem Next.silent (hb : Backed s' c call) (hplain : call.isCommitting = false) (hr : call.reads? s.tokens = none)
    (ha : call.account? = none) : Next s s' c call' call :=
  .plain hb hplain (fun _ _ h => by rw [hr] at h; cases h) fun _ h => by rw [ha] at h; cases h

theorem Quiet.frame (h : Quiet c s s') : Frame c s s' where
  userLocks := h.userLocks
  calls := h.calls
  drawn := h.drawn
  rows id hr := by rwa [HasRow, h.tokens]
  families family hf := Or.inl (by rwa [HasFamily, ← h.tokens])

theorem Backed.founds (h : Backed s c call) (hf : Founds call family) : family ∈ s.drawn := by
  obtain ⟨writes, account, id, rfl⟩ := hf
  cases h with
  | first hd hfd hno => exact hfd
  | single hret => rcases hret with hr | hr <;> cases hr

theorem Quiet.backed (h : Quiet c s s') (hcall : s'.calls.get? c = some call) : Backed s' c call := by
  rcases h.own call hcall with hnew | ⟨call', -, hnext⟩
  · cases call <;> trivial
  · exact hnext.backed

theorem Quiet.founds (h : Quiet c s s') (hcall : s'.calls.get? c = some call) (hf : Founds call family) :
    family ∉ s.drawn := by
  rcases h.own call hcall with hnew | ⟨call', -, hnext⟩
  · obtain ⟨w, a, id, rfl⟩ := hf
    cases hnew
  · exact hnext.founds family hf

theorem Minor.unexchanged {e : Event} (h : Minor s c e) (c' : CallId) (id next : TokenId) (family : FamilyId) :
    e ≠ .returned c' (.exchanged id next family) := by
  rintro rfl
  cases h with
  | returned hret => rcases hret with hret | hret <;> cases hret

theorem Sound.quiet (hs : Sound s) (h : Quiet c s s') : Sound s' where
  alone := by
    rw [h.tokens]
    exact hs.alone
  drawn id r hr := by
    rw [h.tokens] at hr
    exact ⟨h.drawn _ (hs.drawn id r hr).1, h.drawn _ (hs.drawn id r hr).2⟩
  backed c' call hcall := by
    by_cases hc : c' = c
    · subst hc
      exact h.backed hcall
    · rw [h.calls c' hc] at hcall
      exact h.frame.backed hs hc hcall
  founds c₁ c₂ call₁ call₂ family h₁ h₂ hf₁ hf₂ := by
    by_cases hc₁ : c₁ = c <;> by_cases hc₂ : c₂ = c
    · rw [hc₁, hc₂]
    · subst hc₁
      rw [h.calls c₂ hc₂] at h₂
      exact absurd ((hs.backed c₂ call₂ h₂).founds hf₂) (h.founds h₁ hf₁)
    · subst hc₂
      rw [h.calls c₁ hc₁] at h₁
      exact absurd ((hs.backed c₁ call₁ h₁).founds hf₁) (h.founds h₂ hf₂)
    · rw [h.calls c₁ hc₁] at h₁
      rw [h.calls c₂ hc₂] at h₂
      exact hs.founds c₁ c₂ call₁ call₂ family h₁ h₂ hf₁ hf₂
  unexchanged c' id next family hm := by
    rcases h.log with hlog | ⟨e, hminor, hlog⟩
    · exact hs.unexchanged c' id next family (hlog ▸ hm)
    · rw [hlog] at hm
      rcases List.mem_cons.mp hm with he | hm
      · exact hminor.unexchanged c' id next family he.symm
      · exact hs.unexchanged c' id next family hm

end Etoeragcb.Auth
