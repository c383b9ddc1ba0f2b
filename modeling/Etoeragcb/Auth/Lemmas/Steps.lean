import Etoeragcb.Auth.Lemmas.Refresh

/-!
# The statements of a call, one by one

Every statement but the last leaves the committed tokens as they are; the commit puts the rows of one
transaction in their place.
-/

namespace Etoeragcb.Auth

open Lib Models

variable {hashRefreshToken : Nat → Text} {refreshTtl : Nat} {s s' : State} {c : CallId} {call : Call}
  {writes : List Write} {account : Option Account} {returned : Returned} {a : Action} {id : TokenId} {r : RefreshToken}
  {family : FamilyId} {scope : Scope}

/-! ## Statements before the commit -/

theorem byHash_get? {tokenHash : Text} (h : s.byHash tokenHash = some (id, r)) : s.tokens.get? id = some r :=
  (Table.mem_select.mp (List.mem_of_head? h)).1

theorem next_check {call' : Call} (hr : s.tokens.get? id = some r) (now : Time) :
    Next s (s.lock id c) c call' (check id r now) := by
  simp only [check]
  split
  · exact .silent (Or.inr rfl) rfl rfl rfl
  · split
    · exact .silent (Or.inl rfl) rfl rfl rfl
    · exact .silent ⟨r, hr⟩ rfl rfl rfl

theorem quiet_next {call' : Call} (hcall : s.calls.get? c = some call') (hnext : Next s s c call' call) :
    Quiet c s (s.goOn c call) :=
  quiet_goOn hcall rfl rfl (fun _ _ _ => .rfl) rfl (fun _ h => h) (Or.inl rfl) hnext

theorem quiet_locked {call' : Call} (hcall : s.calls.get? c = some call') (hnext : Next s (s.lock id c) c call' call) :
    Quiet c s ((s.lock id c).goOn c call) :=
  quiet_goOn hcall rfl rfl (fun _ _ _ => .rfl) rfl (fun _ h => h) (Or.inl rfl) hnext

theorem quiet_select (h : stepSelect s c = some s') : Quiet c s s' := by
  simp only [stepSelect] at h
  split at h
  · rename_i userId passwordValid now hcall
    split at h
    · cases h
      exact quiet_giveBack (Or.inl rfl)
    · rename_i user huser
      split at h
      · cases h
        refine quiet_next hcall ?_
        refine .plain trivial rfl (fun u v h => ?_) fun _ h => (by cases h)
        cases h
        exact Or.inr (by rw [huser]; rfl)
      · cases h
        exact quiet_giveBack (Or.inl rfl)
  · rename_i tokenHash now hcall
    split at h
    · cases h
      exact quiet_giveBack (Or.inl rfl)
    · rename_i id r hby
      simp only [Option.ite_none_right_eq_some] at h
      obtain ⟨-, h⟩ := h
      cases h
      exact quiet_locked hcall (next_check (byHash_get? hby) now)
  · rename_i tokenHash now hcall
    split at h
    · cases h
      exact quiet_giveBack (Or.inr rfl)
    · rename_i id r hby
      simp only [Option.ite_none_right_eq_some] at h
      obtain ⟨-, h⟩ := h
      split at h
      · cases h
        exact quiet_locked hcall (.silent (Or.inr rfl) rfl rfl rfl)
      · cases h
        exact quiet_giveBack (Or.inr rfl)
  · rename_i userId operation now hcall
    split at h
    · cases h
      exact quiet_giveBack (Or.inl rfl)
    · cases h
      exact quiet_next hcall (.silent trivial rfl rfl rfl)
  · cases h

theorem quiet_readMembership {tenantId : TenantId} (h : stepReadMembership s c tenantId = some s') : Quiet c s s' := by
  simp only [stepReadMembership] at h
  split at h
  · rename_i userId authVersion now hcall
    split at h
    · cases h
      exact quiet_giveBack (Or.inl rfl)
    · cases h
      refine quiet_next hcall ?_
      exact .plain trivial rfl (fun _ _ h => Or.inl h) fun _ h => (by cases h)
  · cases h

theorem owner_active {role : MemberRole} {authVersion : Nat} (h : s.owner r = .active role authVersion) :
    (s.users.get? r.userId).map UserAccount.authVersion = some authVersion := by
  simp only [State.owner] at h
  split at h
  · rename_i user role' hu hm
    split at h
    · cases h
      rw [hu]; rfl
    · cases h
  · cases h

theorem quiet_readOwner (h : stepReadOwner s c = some s') (hs : Sound s) : Quiet c s s' := by
  simp only [stepReadOwner] at h
  split at h
  · rename_i id now hcall
    have hrow : HasRow s id := hs.backed c _ hcall
    obtain ⟨r, hr, h⟩ := Option.map_eq_some_iff.mp h
    split at h
    · rename_i role authVersion howner
      subst h
      refine quiet_next hcall ?_
      refine .plain hrow rfl (fun u v h => ?_) fun _ h => (by cases h)
      simp only [Call.reads?, hr, Option.map_some, Option.some.injEq, Prod.mk.injEq] at h
      obtain ⟨rfl, rfl⟩ := h
      exact Or.inr (owner_active howner)
    · subst h
      exact quiet_next hcall (.silent (Or.inl rfl) rfl rfl rfl)
  · cases h

theorem quiet_grant {raw : Nat} (h : stepGrant hashRefreshToken refreshTtl s c id raw family = some s') (hs : Sound s) :
    Quiet c s s' := by
  simp only [stepGrant] at h
  split at h
  · rename_i userId tenantId role authVersion now hcall
    simp only [Option.ite_none_right_eq_some, Option.some.injEq] at h
    obtain ⟨⟨-, -, hfam⟩, rfl⟩ := h
    refine quiet_goOn hcall rfl rfl (fun _ _ _ => .rfl) rfl (fun n hn => by simp [hn])
      (Or.inr ⟨_, .issued hcall rfl, rfl⟩) ⟨?_, ?_, ?_, ?_⟩
    · refine .first (by simp) (by simp) ?_
      rintro ⟨id', r', hr', hf⟩
      have hd := (hs.drawn id' r' hr').2
      rw [hf] at hd
      exact hfam hd
    · rintro f ⟨w, a, id', hi⟩
      cases hi
      exact hfam
    all_goals intros; contradiction
  · cases h

/-- The rotation names a row that its own transaction has not inserted yet, so the flush fails. -/
theorem quiet_rotate {raw : Nat} (h : stepRotate hashRefreshToken refreshTtl s c id raw = some s') (hs : Sound s) :
    Quiet c s s' := by
  simp only [stepRotate] at h
  split at h
  · rename_i old now role authVersion hcall
    simp only [Option.ite_none_right_eq_some] at h
    obtain ⟨⟨hid, -⟩, h⟩ := h
    obtain ⟨r, hr, rfl⟩ := Option.map_eq_some_iff.mp h
    rw [flushes_rotation (hs.fresh hid), if_neg Bool.false_ne_true]
    exact quiet_close rfl rfl rfl rfl (fun n hn => by simp [hn])
      (Or.inr ⟨_, .issued hcall (by simp [Call.reads?, hr]), rfl⟩)
  · cases h

theorem account_userId (operation : Operation) (userId : UserId) (user : UserAccount) (now : Time) :
    (operation.account userId user now).userId = userId ∧
      (operation.account userId user now).authVersion = user.authVersion + 1 := by
  cases operation <;> exact ⟨rfl, rfl⟩

theorem quiet_flush (h : stepFlush s c = some s') (hs : Sound s) : Quiet c s s' := by
  simp only [stepFlush] at h
  split at h
  · rename_i id now returned hcall
    have hret : returned = .denied ∨ returned = .loggedOut := hs.backed c _ hcall
    cases h
    refine quiet_next hcall ⟨.single hret, ?_, ?_, ?_⟩
    · rintro f ⟨w, a, id', hi⟩
      cases hi
      rcases hret with hret | hret <;> cases hret
    all_goals intros; contradiction
  · rename_i userId user operation now hcall
    simp only [Option.ite_none_right_eq_some] at h
    obtain ⟨hfree, h⟩ := h
    obtain ⟨hid, hver⟩ := account_userId operation userId user now
    have hlock : Function.update s.userLocks userId (some c) (operation.account userId user now).userId = some c := by
      simp [hid]
    have hsends : ∀ account : Account, some (operation.account userId user now) = some account →
        ∃ (u : UserAccount) (op : Operation) (t : Time), Call.administering userId user operation now =
          .administering account.userId u op t ∧ account.authVersion = u.authVersion + 1 := by
      rintro account ⟨⟩
      exact ⟨user, operation, now, by rw [hid], hver⟩
    split at h
    · cases h
      refine quiet_goOn hcall rfl rfl (fun u c' hc => update_lock hfree hc u) rfl (fun _ h => h) (Or.inl rfl)
        ⟨?_, ?_, ?_, fun account h => Or.inr (hsends account h)⟩
      · rw [← hid]
        exact .enabling hlock
      · rintro f ⟨w, a, id', hi⟩
        cases hi
      · intros
        contradiction
    · cases h
      refine quiet_goOn hcall rfl rfl (fun u c' hc => update_lock hfree hc u) rfl (fun _ h => h) (Or.inl rfl) ?_
      exact .plain ⟨hlock, by rw [hid]⟩ rfl (fun _ _ h => (by cases h)) fun account h => Or.inr (hsends account h)
  · cases h

theorem quiet_update (h : stepUpdate s c = some s') (hs : Sound s) : Quiet c s s' := by
  simp only [stepUpdate] at h
  split at h
  · rename_i scope now returned hcall
    cases h
    refine quiet_next hcall ?_
    exact .plain ⟨hs.backed c _ hcall, fun _ hw => absurd hw List.not_mem_nil⟩ rfl (fun _ _ h => (by cases h))
      fun account h => Or.inl h
  · cases h

theorem quiet_visit (h : stepVisit s c id = some s') (hs : Sound s) : Quiet c s s' := by
  simp only [stepVisit] at h
  split at h
  · rename_i scope now returned targets writes hcall
    simp only [Option.ite_none_right_eq_some] at h
    obtain ⟨-, h⟩ := h
    obtain ⟨r, hr, h⟩ := Option.map_eq_some_iff.mp h
    obtain ⟨hbulk, hw⟩ := hs.backed c _ hcall
    split at h
    · subst h
      refine quiet_locked hcall ?_
      refine .plain ⟨?_, fun w hm => ?_⟩ rfl (fun _ _ h => (by cases h)) fun account h => Or.inl h
      · cases scope <;> exact hbulk
      · rcases List.mem_append.mp hm with hm | hm
        · exact hw w hm
        · exact ⟨id, now, List.mem_singleton.mp hm⟩
    · subst h
      refine quiet_next hcall ?_
      exact .plain ⟨hbulk, hw⟩ rfl (fun _ _ h => (by cases h)) fun account h => Or.inl h
  · cases h

def Action.caller : Action → CallId
  | .login c _ _ _ | .refresh c _ _ | .logout c _ _ | .admin c _ _ _ | .select c | .readMembership c _ | .readOwner c
  | .grant c _ _ _ | .rotate c _ _ | .flush c | .update c | .visit c _ | .commit c | .abort c => c

/-- A step leaves the committed rows as they are, or it is the commit of a call. -/
theorem step_cases (h : step hashRefreshToken refreshTtl s a = some s') (hs : Sound s) :
    Quiet a.caller s s' ∨ ∃ c call writes account returned, a = .commit c ∧ s.calls.get? c = some call ∧
      call.finished? = some (writes, account, returned) ∧ s' = (s.write writes account).giveBack c returned := by
  cases a with
  | login | refresh | logout | admin => exact Or.inl (quiet_begin h rfl)
  | select c => exact Or.inl (quiet_select h)
  | readMembership c => exact Or.inl (quiet_readMembership h)
  | readOwner c => exact Or.inl (quiet_readOwner h hs)
  | grant c => exact Or.inl (quiet_grant h hs)
  | rotate c => exact Or.inl (quiet_rotate h hs)
  | flush c => exact Or.inl (quiet_flush h hs)
  | update c => exact Or.inl (quiet_update h hs)
  | visit c => exact Or.inl (quiet_visit h hs)
  | commit c =>
      obtain ⟨⟨writes, account, returned⟩, hf, rfl⟩ := Option.map_eq_some_iff.mp h
      obtain ⟨call, hcall, hf⟩ := Option.bind_eq_some_iff.mp hf
      exact Or.inr ⟨c, call, writes, account, returned, rfl, hcall, hf, rfl⟩
  | abort c =>
      obtain ⟨call, -, rfl⟩ := Option.map_eq_some_iff.mp h
      exact Or.inl (quiet_close rfl rfl rfl rfl (fun _ h => h) (Or.inl rfl))

/-! ## The commit -/

/-- A finished call is one whose flushed writes are known, or the family `UPDATE` behind its last row. -/
theorem finished?_cases (h : call.finished? = some (writes, account, returned)) :
    call = .committing writes account returned ∨
      ∃ scope now, call = .updating scope now returned [] writes ∧ account = scope.account? := by
  cases call with
  | committing => cases h; exact Or.inl rfl
  | updating scope now ret targets w =>
      cases targets with
      | nil => cases h; exact Or.inr ⟨scope, now, rfl, rfl⟩
      | cons => cases h
  | loggingIn | signingIn | granting | refreshing | checked | rotating | loggingOut | revoking | commanded
    | administering | revokingAll => cases h

theorem Sound.inserts (hs : Sound s) (hcall : s.calls.get? c = some call)
    (hf : call.finished? = some (writes, account, returned)) (hi : .insert id r ∈ writes) :
    writes = [.insert id r] ∧ Founds call r.familyId ∧ id ∈ s.drawn ∧ ¬HasFamily s r.familyId := by
  have hb := hs.backed c call hcall
  rcases finished?_cases hf with rfl | ⟨scope, now, rfl, -⟩
  · cases hb with
    | first hd hfd hno =>
        obtain ⟨rfl, rfl⟩ := Write.insert.inj (List.mem_singleton.mp hi)
        exact ⟨rfl, ⟨_, _, _, rfl⟩, hd, hno⟩
    | single => cases List.mem_singleton.mp hi
    | enabling => cases hi
  · obtain ⟨id', t, he⟩ := hb.2 _ hi
    cases he

theorem Sound.applied (hs : Sound s) (hcall : s.calls.get? c = some call)
    (hf : call.finished? = some (writes, account, returned)) {r' : RefreshToken}
    (h : (writes.foldl Write.apply s.tokens).get? id = some r') :
    (∃ r, s.tokens.get? id = some r ∧ Later r r') ∨
      ∃ r, writes = [.insert id r] ∧ Founds call r'.familyId ∧ id ∈ s.drawn ∧ ¬HasFamily s r'.familyId := by
  rcases applied_new writes h with hold | ⟨r, hi, hl⟩
  · exact Or.inl hold
  · rw [hl.family]
    exact Or.inr ⟨r, hs.inserts hcall hf hi⟩

theorem Sound.frame (hs : Sound s) (hcall : s.calls.get? c = some call)
    (hf : call.finished? = some (writes, account, returned)) :
    Frame c s ((s.write writes account).giveBack c returned) where
  userLocks _ _ hc := userLocks_close hc
  calls _ hc := get?_close_other hc
  drawn _ hn := hn
  rows id hr := by
    obtain ⟨r, hr⟩ := hr
    obtain ⟨r', hr', -⟩ := applied_get? writes hr
    exact ⟨r', hr'⟩
  families family hfam := by
    obtain ⟨id, r', hr', rfl⟩ := hfam
    rcases hs.applied hcall hf hr' with ⟨r, hr, hl⟩ | ⟨-, -, hfound, -⟩
    · exact Or.inl ⟨id, r, hr, hl.family.symm⟩
    · exact Or.inr ⟨call, hcall, hfound⟩

theorem Sound.not_exchanged (hs : Sound s) (hcall : s.calls.get? c = some call)
    (hf : call.finished? = some (writes, account, returned))
    (id next : TokenId) (family : FamilyId) : returned ≠ .exchanged id next family := by
  rintro rfl
  have hb := hs.backed c call hcall
  rcases finished?_cases hf with rfl | ⟨scope, now, rfl, -⟩
  · cases hb with
    | single hret => rcases hret with hret | hret <;> cases hret
  · cases scope with
    | family f => rcases hb.1 with hret | hret <;> cases hret
    | user account => cases hb.1.2

theorem Sound.commit (hs : Sound s) (hcall : s.calls.get? c = some call)
    (hf : call.finished? = some (writes, account, returned)) :
    Sound ((s.write writes account).giveBack c returned) := by
  have hframe := hs.frame hcall hf
  have hother : ∀ c' call', ((s.write writes account).giveBack c returned).calls.get? c' = some call' →
      c' ≠ c ∧ s.calls.get? c' = some call' := by
    intro c' call' h'
    by_cases hc : c' = c
    · subst hc
      cases get?_close_self.symm.trans h'
    · exact ⟨hc, by rw [← hframe.calls c' hc]; exact h'⟩
  constructor
  · intro id id' r r' hr hr' hfam
    rcases hs.applied hcall hf hr with ⟨r₀, hr₀, hl⟩ | ⟨r₀, hw, -, -, hno⟩
    · rcases hs.applied hcall hf hr' with ⟨r₁, hr₁, hl'⟩ | ⟨r₁, hw', -, -, hno'⟩
      · exact hs.alone id id' r₀ r₁ hr₀ hr₁ (by rw [← hl.family, ← hl'.family, hfam])
      · exact absurd ⟨id, r₀, hr₀, by rw [← hl.family, hfam]⟩ hno'
    · rcases hs.applied hcall hf hr' with ⟨r₁, hr₁, hl'⟩ | ⟨r₁, hw', -, -, hno'⟩
      · exact absurd ⟨id', r₁, hr₁, by rw [← hl'.family, hfam]⟩ hno
      · rw [hw] at hw'
        cases hw'
        rfl
  · intro id r hr
    rcases hs.applied hcall hf hr with ⟨r₀, hr₀, hl⟩ | ⟨r₀, -, hfound, hd, -⟩
    · rw [hl.family]
      exact hs.drawn id r₀ hr₀
    · exact ⟨hd, (hs.backed c call hcall).founds hfound⟩
  · intro c' call' h'
    obtain ⟨hc, h'⟩ := hother c' call' h'
    exact hframe.backed hs hc h'
  · intro c₁ c₂ call₁ call₂ f h₁ h₂
    exact hs.founds c₁ c₂ call₁ call₂ f (hother c₁ call₁ h₁).2 (hother c₂ call₂ h₂).2
  · intro c' id next family hm
    rcases List.mem_cons.mp hm with he | hm
    · cases he
      exact hs.not_exchanged hcall hf id next family rfl
    · exact hs.unexchanged c' id next family hm

theorem Sound.step (hs : Sound s) (h : step hashRefreshToken refreshTtl s a = some s') : Sound s' := by
  rcases step_cases h hs with hq | ⟨c, call, writes, account, returned, -, hcall, hf, rfl⟩
  · exact hs.quiet hq
  · exact hs.commit hcall hf

theorem Sound.start (users : Table UserId UserAccount) (memberships : Table (UserId × TenantId) MemberRole) :
    Sound (.fresh users memberships) where
  alone _ _ _ _ h := by cases h
  drawn _ _ h := by cases h
  backed _ _ h := by cases h
  founds _ _ _ _ _ h := by cases h
  unexchanged _ _ _ _ := List.not_mem_nil

end Etoeragcb.Auth
