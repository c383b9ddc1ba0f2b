import Etoeragcb.Auth.Lemmas.Steps

/-!
# After the sessions of a user are revoked
-/

namespace Etoeragcb.Auth

open Lib Models

variable {hashRefreshToken : Nat → Text} {refreshTtl : Nat} {s s' : State} {c : CallId} {call call' : Call}
  {writes : List Write} {account : Option Account} {returned : Returned} {a : Action} {userId : UserId} {e : Event}

/-! ## Events -/

/-- The refresh token that a call has inserted. -/
def Event.signs : Event → Option (CallId × TokenId)
  | .returned c (.signedIn id _) => some (c, id)
  | .returned c (.exchanged _ next _) => some (c, next)
  | _ => none

/-- The refresh token that a call has exchanged. -/
def Event.exchanges : Event → Option TokenId
  | .returned _ (.exchanged id _ _) => some id
  | _ => none

/-- The user whose tokens a command has revoked. -/
def Event.revokes : Event → Option UserId
  | .returned _ (.revoked userId) => some userId
  | _ => none

theorem Sound.exchanges (hs : Sound s) (hm : e ∈ s.log) : e.exchanges = none := by
  cases e with
  | returned c ret =>
      cases ret with
      | exchanged id next family => exact absurd hm (hs.unexchanged c id next family)
      | signedIn | reuseDetected | denied | loggedOut | enabled | revoked => rfl
  | began | issued => rfl

theorem Minor.revokes (h : Minor s c e) : e.revokes = none := by
  cases h with
  | began => rfl
  | issued => rfl
  | returned hret => rcases hret with rfl | rfl <;> rfl

/-! ## Finished calls -/

theorem Sound.revokes (hs : Sound s) (hcall : s.calls.get? c = some call)
    (hf : call.finished? = some (writes, account, returned)) (he : (Event.returned c returned).revokes = some userId) :
    ∃ account', account'.userId = userId ∧ account = some account' := by
  have hb := hs.backed c call hcall
  rcases finished?_cases hf with rfl | ⟨scope, now, rfl, rfl⟩
  · cases hb with
    | single hret => rcases hret with rfl | rfl <;> cases he
    | first | enabling => cases he
  · cases scope with
    | family f => rcases hb.1 with rfl | rfl <;> cases he
    | user account' =>
        rw [hb.1.2] at he
        cases he
        exact ⟨account', rfl, rfl⟩

theorem Backed.locked {account : Account} (h : Backed s c call) (ha : call.account? = some account) :
    s.userLocks account.userId = some c := by
  have hscope : ∀ {scope : Scope} {ret : Returned}, scope.account? = some account → Bulk s c ret scope →
      s.userLocks account.userId = some c := by
    intro scope ret ha hb
    cases scope with
    | family => cases ha
    | user =>
        cases ha
        exact hb.1
  cases call with
  | revokingAll scope now ret => exact hscope ha h
  | updating scope now ret targets writes => exact hscope ha h.1
  | committing writes account' ret =>
      cases h with
      | enabling hl =>
          cases ha
          exact hl
      | first | single => cases ha
  | loggingIn | signingIn | granting | refreshing | checked | rotating | loggingOut | revoking | commanded
    | administering => cases ha

theorem finished?_account (hf : call.finished? = some (writes, account, returned)) : call.account? = account := by
  rcases finished?_cases hf with rfl | ⟨scope, now, rfl, rfl⟩ <;> rfl

theorem isNew_silent (tokens : Table TokenId RefreshToken) (h : call.isNew) :
    call.account? = none ∧ call.reads? tokens = none := by
  cases call with
  | loggingIn | refreshing | loggingOut | commanded => exact ⟨rfl, rfl⟩
  | signingIn | granting | checked | rotating | revoking | administering | revokingAll | updating | committing => cases h

/-! ## Versions -/

def AtLeast (s : State) (userId : UserId) (authVersion : Nat) : Prop :=
  ∃ user, s.users.get? userId = some user ∧ authVersion ≤ user.authVersion

theorem AtLeast.of_read {authVersion : Nat} (h : (s.users.get? userId).map UserAccount.authVersion = some authVersion) :
    AtLeast s userId authVersion := by
  obtain ⟨user, hu, rfl⟩ := Option.map_eq_some_iff.mp h
  exact ⟨user, hu, Nat.le_refl _⟩

/-- The version that a call writes is the one behind the version that is committed. -/
def Current (s : State) (account : Account) : Prop :=
  ∃ user, s.users.get? account.userId = some user ∧ account.authVersion = user.authVersion + 1

theorem write_users (writes : List Write) (hcur : ∀ account', account = some account' → Current s account') :
    ∀ u user, s.users.get? u = some user → ∃ user', (s.write writes account).users.get? u = some user' ∧
      user.authVersion ≤ user'.authVersion ∧
      ∀ account', account = some account' → (account'.userId = u → user.authVersion < user'.authVersion) ∧
        (account'.userId ≠ u → user' = user) := by
  intro u user hu
  cases account with
  | none => exact ⟨user, hu, Nat.le_refl _, fun _ h => by cases h⟩
  | some account =>
      obtain ⟨user₀, hu₀, hv⟩ := hcur account rfl
      simp only [State.write, Option.elim_some, Account.applyUser, Table.get?_modify]
      by_cases he : u = account.userId
      · subst he
        rw [hu₀] at hu
        cases hu
        refine ⟨_, by rw [if_pos rfl, hu₀]; rfl, by simp only; omega, ?_⟩
        rintro _ ⟨⟩
        exact ⟨fun _ => by simp only; omega, fun hne => absurd rfl hne⟩
      · refine ⟨user, by rw [if_neg he]; exact hu, Nat.le_refl _, ?_⟩
        rintro _ ⟨⟩
        exact ⟨fun he' => absurd he'.symm he, fun _ => rfl⟩

theorem AtLeast.write {u authVersion : Nat} (h : AtLeast s u authVersion)
    (hcur : ∀ account', account = some account' → Current s account') :
    AtLeast ((s.write writes account).giveBack c returned) u authVersion := by
  obtain ⟨user, hu, hle⟩ := h
  obtain ⟨user', hu', hle', -⟩ := write_users writes hcur u user hu
  exact ⟨user', hu', Nat.le_trans hle hle'⟩

theorem administering_flush {user : UserAccount} {operation : Operation} {now : Time}
    (h : step hashRefreshToken refreshTtl s a = some s')
    (hcall : s.calls.get? a.caller = some (.administering userId user operation now))
    (hcall' : s'.calls.get? a.caller = some call') : a = .flush a.caller := by
  cases a with
  | flush => rfl
  | login c | refresh c | logout c | admin c =>
      have hn := (begin?_eq_some h).2.1
      cases hn.symm.trans hcall
  | abort c =>
      obtain ⟨call, -, rfl⟩ := Option.map_eq_some_iff.mp h
      cases get?_close_self.symm.trans hcall'
  | commit c =>
      obtain ⟨_, hf, rfl⟩ := Option.map_eq_some_iff.mp h
      cases get?_close_self.symm.trans hcall'
  | select c => simp only [Action.caller] at hcall; simp [step, stepSelect, hcall] at h
  | readMembership c => simp only [Action.caller] at hcall; simp [step, stepReadMembership, hcall] at h
  | readOwner c => simp only [Action.caller] at hcall; simp [step, stepReadOwner, hcall] at h
  | grant c => simp only [Action.caller] at hcall; simp [step, stepGrant, hcall] at h
  | rotate c => simp only [Action.caller] at hcall; simp [step, stepRotate, hcall] at h
  | update c => simp only [Action.caller] at hcall; simp [step, stepUpdate, hcall] at h
  | visit c => simp only [Action.caller] at hcall; simp [step, stepVisit, hcall] at h

/-! ## The invariant -/

/-- The access tokens that were issued name an older version of the user. -/
def Stale (s : State) (userId : UserId) (older : List Event) : Prop :=
  ∀ claims, .issued claims ∈ older → claims.userId = userId →
    ∃ user, s.users.get? userId = some user ∧ claims.authVersion < user.authVersion

structure Secured (s : State) : Prop where
  current : ∀ c call account, s.calls.get? c = some call → call.account? = some account → Current s account
  reads : ∀ c call userId authVersion, s.calls.get? c = some call →
    call.reads? s.tokens = some (userId, authVersion) → AtLeast s userId authVersion
  issued : ∀ claims, .issued claims ∈ s.log → AtLeast s claims.userId claims.authVersion
  past : ∀ newer e userId older, s.log = newer ++ e :: older → e.revokes = some userId → Stale s userId older

theorem Current.quiet {account : Account} (h : Current s account) (hq : Quiet c s s') : Current s' account := by
  rwa [Current, hq.users]

theorem AtLeast.quiet {authVersion : Nat} (h : AtLeast s userId authVersion) (hq : Quiet c s s') :
    AtLeast s' userId authVersion := by
  rwa [AtLeast, hq.users]

/-- What the calls send behind a step is current, since a command goes on only if nobody has written the user. -/
theorem Secured.current_quiet {account : Account} (hg : Secured s) (h : step hashRefreshToken refreshTtl s a = some s')
    (hq : Quiet a.caller s s') (ho : undisturbed s a) (hcall : s'.calls.get? c = some call)
    (ha : call.account? = some account) : Current s account := by
  by_cases hc : c = a.caller
  · subst hc
    rcases hq.own call hcall with hnew | ⟨call', hcall', hnext⟩
    · rw [(isNew_silent s.tokens hnew).1] at ha
      cases ha
    · rcases hnext.sends account ha with ha' | ⟨user, operation, now, rfl, hv⟩
      · exact hg.current _ call' account hcall' ha'
      · have hflush := administering_flush h hcall' hcall
        rw [hflush] at ho
        simp only [undisturbed, hcall', decide_eq_true_eq] at ho
        obtain ⟨user', hu', he⟩ := Option.map_eq_some_iff.mp ho
        exact ⟨user', hu', by rw [hv, he]⟩
  · rw [hq.calls c hc] at hcall
    exact hg.current c call account hcall ha

theorem Secured.reads_quiet {c' : CallId} {authVersion : Nat} (hg : Secured s) (hq : Quiet c' s s')
    (hcall : s'.calls.get? c = some call) (hr : call.reads? s.tokens = some (userId, authVersion)) :
    AtLeast s userId authVersion := by
  by_cases hc : c = c'
  · subst hc
    rcases hq.own call hcall with hnew | ⟨call', hcall', hnext⟩
    · rw [(isNew_silent s.tokens hnew).2] at hr
      cases hr
    · rcases hnext.reads userId authVersion hr with hr' | hr'
      · exact hg.reads c call' userId authVersion hcall' hr'
      · exact .of_read hr'
  · rw [hq.calls c hc] at hcall
    exact hg.reads c call userId authVersion hcall hr

theorem Secured.quiet (hg : Secured s) (h : step hashRefreshToken refreshTtl s a = some s')
    (hq : Quiet a.caller s s') (ho : undisturbed s a) : Secured s' where
  current c call account hcall ha := (hg.current_quiet h hq ho hcall ha).quiet hq
  reads c call u v hcall hr := by
    rw [hq.tokens] at hr
    exact (hg.reads_quiet hq hcall hr).quiet hq
  issued claims hm := by
    refine AtLeast.quiet ?_ hq
    rcases hq.log with hlog | ⟨e, hminor, hlog⟩
    · exact hg.issued claims (hlog ▸ hm)
    · rw [hlog] at hm
      rcases List.mem_cons.mp hm with rfl | hm
      · cases hminor with
        | issued hcall hr => exact hg.reads _ _ _ _ hcall hr
      · exact hg.issued claims hm
  past newer e u older hlog' he := by
    rw [Stale, hq.users]
    rcases hq.log with hlog | ⟨e', hminor, hlog⟩
    · exact hg.past newer e u older (hlog ▸ hlog') he
    · rw [hlog] at hlog'
      cases newer with
      | nil =>
          obtain ⟨rfl, -⟩ := List.cons.inj hlog'
          rw [hminor.revokes] at he
          cases he
      | cons y newer => exact hg.past newer e u older (List.cons.inj hlog').2 he

theorem Sound.other_call {c' : CallId} {call' : Call} (hs : Sound s) (hcall : s.calls.get? c = some call)
    (hf : call.finished? = some (writes, account, returned))
    (h : ((s.write writes account).giveBack c returned).calls.get? c' = some call') :
    c' ≠ c ∧ s.calls.get? c' = some call' := by
  by_cases hc : c' = c
  · subst hc
    cases get?_close_self.symm.trans h
  · exact ⟨hc, by rw [← (hs.frame hcall hf).calls c' hc]; exact h⟩

/-- Two calls that have sent columns of one user would both hold its lock. -/
theorem Sound.account_ne {c' : CallId} {call' : Call} {account account' : Account} (hs : Sound s)
    (hcall : s.calls.get? c = some call) (ha : call.account? = some account) (hcall' : s.calls.get? c' = some call')
    (ha' : call'.account? = some account') (hc : c' ≠ c) : account'.userId ≠ account.userId := by
  intro he
  have hlock := (hs.backed c call hcall).locked ha
  rw [← he, (hs.backed c' call' hcall').locked ha'] at hlock
  exact hc (Option.some.inj hlock)

/-- The row of a token may be a later version, of the same user. -/
theorem Sound.reads_applied {c' : CallId} {call' : Call} {authVersion : Nat} (hs : Sound s) (writes : List Write)
    (hcall : s.calls.get? c' = some call')
    (hr : call'.reads? (writes.foldl Write.apply s.tokens) = some (userId, authVersion)) :
    call'.reads? s.tokens = some (userId, authVersion) := by
  cases call' with
  | rotating id now role authVersion' =>
      obtain ⟨r, hr₀⟩ : HasRow s id := hs.backed c' _ hcall
      obtain ⟨r', hr', hl⟩ := applied_get? writes hr₀
      rw [Call.reads?, hr', Option.map_some, hl.user] at hr
      rw [Call.reads?, hr₀, Option.map_some, hr]
  | loggingIn | signingIn | granting | refreshing | checked | loggingOut | revoking | commanded | administering
    | revokingAll | updating | committing => exact hr

theorem Secured.commit (hg : Secured s) (hs : Sound s) (hcall : s.calls.get? c = some call)
    (hf : call.finished? = some (writes, account, returned)) :
    Secured ((s.write writes account).giveBack c returned) := by
  have hcur : ∀ account', account = some account' → Current s account' := fun account' ha =>
    hg.current c call account' hcall (by rw [finished?_account hf, ha])
  constructor
  · intro c' call' account' hopen ha'
    obtain ⟨hc, hcall'⟩ := hs.other_call hcall hf hopen
    obtain ⟨user, hu, hv⟩ := hg.current c' call' account' hcall' ha'
    obtain ⟨user', hu', -, hsame⟩ := write_users writes hcur account'.userId user hu
    cases account with
    | none => exact ⟨user, hu, hv⟩
    | some account =>
        have hne := hs.account_ne hcall (finished?_account hf) hcall' ha' hc
        rw [(hsame account rfl).2 hne.symm] at hu'
        exact ⟨user, hu', hv⟩
  · intro c' call' u v hopen hr
    obtain ⟨-, hcall'⟩ := hs.other_call hcall hf hopen
    exact (hg.reads c' call' u v hcall' (hs.reads_applied writes hcall' hr)).write hcur
  · intro claims hm
    rcases List.mem_cons.mp hm with hm | hm
    · cases hm
    · exact (hg.issued claims hm).write hcur
  · intro newer e u older hlog he claims hm hu
    cases newer with
    | nil =>
        obtain ⟨rfl, rfl⟩ := List.cons.inj hlog
        obtain ⟨account', rfl, rfl⟩ := hs.revokes hcall hf he
        obtain ⟨user, huser, hle⟩ := hg.issued claims hm
        rw [hu] at huser
        obtain ⟨user', huser', -, hlt⟩ := write_users writes hcur account'.userId user huser
        exact ⟨user', huser', Nat.lt_of_le_of_lt hle ((hlt account' rfl).1 rfl)⟩
    | cons x newer =>
        obtain ⟨user, huser, hlt⟩ := hg.past newer e u older (List.cons.inj hlog).2 he claims hm hu
        obtain ⟨user', huser', hle, -⟩ := write_users writes hcur u user huser
        exact ⟨user', huser', Nat.lt_of_lt_of_le hlt hle⟩

theorem Secured.step (hg : Secured s) (hs : Sound s) (ho : undisturbed s a)
    (h : step hashRefreshToken refreshTtl s a = some s') : Secured s' := by
  rcases step_cases h hs with hq | ⟨c, call, writes, account, returned, -, hcall, hf, rfl⟩
  · exact hg.quiet h hq ho
  · exact hg.commit hs hcall hf

theorem Secured.start (users : Table UserId UserAccount) (memberships : Table (UserId × TenantId) MemberRole) :
    Secured (.fresh users memberships) where
  current _ _ _ h := by cases h
  reads _ _ _ _ h := by cases h
  issued _ h := by cases h
  past newer _ _ _ h := by cases newer <;> cases h

end Etoeragcb.Auth
