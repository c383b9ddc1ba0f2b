import Etoeragcb.Auth.Lemmas.RateLimit
import Etoeragcb.Auth.Lemmas.Sessions

/-!
# What rotation, reuse detection, revocation and rate limits guarantee
-/

namespace Etoeragcb.Auth

open Lib Models

variable {hashRefreshToken : Nat → Text} {refreshTtl : Nat} {users : Table UserId UserAccount}
  {memberships : Table (UserId × TenantId) MemberRole} {s : State}

def oneUser : Table UserId UserAccount := ⟨[(1, ⟨true, none, 1⟩)], by decide⟩

def oneMembership : Table (UserId × TenantId) MemberRole := ⟨[((1, 1), .member)], by decide⟩

def signIn : List Action := [.login 0 1 true 0, .select 0, .readMembership 0 1, .grant 0 1 11 100, .commit 0]

theorem sound_of_run {ok : State → Action → Prop}
    (h : Run (step hashRefreshToken refreshTtl) ok (.fresh users memberships) s) : Sound s :=
  Run.invariant (fun _ _ _ hs _ hstep => hs.step hstep) h (Sound.start users memberships)

/-! ## Rotation and reuse -/

/-- A family has one unrevoked token at most, and once a call has returned with a detected reuse, no later call
exchanges a token of its family. -/
structure RefreshSafe (s : State) : Prop where
  one : ∀ id id' r r', s.tokens.get? id = some r → s.tokens.get? id' = some r' → r.familyId = r'.familyId →
    r.revokedAt = none → r'.revokedAt = none → id = id'
  never : ∀ newer c id next family older, s.log = newer ++ .returned c (.exchanged id next family) :: older →
    ∀ c', .returned c' (.reuseDetected family) ∉ older

/-- In every state of every run what is promised of a family holds: its first token stays its only one, since the key
of `replaced_by` lets no rotation through. -/
theorem refreshSafe_of_run
    (h : Run (step hashRefreshToken refreshTtl) (fun _ _ => True) (.fresh users memberships) s) : RefreshSafe s where
  one id id' r r' hr hr' hf _ _ := (sound_of_run h).alone id id' r r' hr hr' hf
  never newer c id next family older hlog := by
    have hm : .returned c (.exchanged id next family) ∈ s.log := by
      rw [hlog]
      exact List.mem_append_right _ List.mem_cons_self
    exact absurd hm ((sound_of_run h).unexchanged c id next family)

/-- Two calls refresh token 11, and the flush of each fails; the user logs out, and the reuse of the token is
detected. -/
def rejectedRotation : List Action :=
  signIn ++ [.refresh 1 11 1, .select 1, .readOwner 1, .rotate 1 2 12, .refresh 2 11 2, .select 2, .readOwner 2,
    .rotate 2 3 13, .logout 3 11 3, .select 3, .flush 3, .commit 3, .refresh 4 11 4, .select 4, .update 4, .commit 4]

theorem refreshSafe_rejectedRotation : ∃ s,
    exec (step (List.replicate · 'x') 100) (fun _ _ => True) (.fresh oneUser oneMembership) rejectedRotation = some s ∧
      s.log.take 3 = [.returned 4 (.reuseDetected 100), .began 4, .returned 3 .loggedOut] ∧ RefreshSafe s := by
  have hrun : (exec (step (List.replicate · 'x') 100) (fun _ _ => True) (.fresh oneUser oneMembership)
      rejectedRotation).map (fun s => s.log.take 3) =
      some [.returned 4 (.reuseDetected 100), .began 4, .returned 3 .loggedOut] := by decide
  obtain ⟨s, hs, hlog⟩ := Option.map_eq_some_iff.mp hrun
  exact ⟨s, hs, hlog, refreshSafe_of_run (Run.of_exec hs)⟩

/-! ## Revocation by an administrator -/

/-- Once a command that revokes the tokens of a user has committed, the access tokens issued before are rejected,
and no refresh token is exchanged that a call has inserted which had begun before. -/
structure SessionsRevoked (s : State) : Prop where
  access : ∀ newer e userId older claims, s.log = newer ++ e :: older → e.revokes = some userId →
    .issued claims ∈ older → claims.userId = userId → getCurrentPrincipal s claims = false
  refresh : ∀ newer e userId older id r e' c, s.log = newer ++ e :: older → e.revokes = some userId →
    s.tokens.get? id = some r → r.userId = userId → e' ∈ s.log → e'.signs = some (c, id) → .began c ∈ older →
      ∀ x ∈ newer, x.exchanges ≠ some id

/-- Two commands read the same version, and the second one writes again what the first one has written. -/
def lostVersion : List Action :=
  [.admin 1 1 .revokeTokens 0, .select 1, .admin 2 1 .resetPassword 0, .select 2, .flush 1, .update 1, .commit 1] ++
    signIn ++ [.flush 2, .update 2, .visit 2 1, .commit 2]

/-- An access token issued between the commits of two commands that have read the same version stays good. -/
theorem not_sessionsRevoked : ¬∀ (hashRefreshToken : Nat → Text) (refreshTtl : Nat) (users : Table UserId UserAccount)
    (memberships : Table (UserId × TenantId) MemberRole) (s : State),
    Run (step hashRefreshToken refreshTtl) (fun _ _ => True) (.fresh users memberships) s → SessionsRevoked s := by
  intro hall
  have hrun : (exec (step (List.replicate · 'x') 100) (fun _ _ => True) (.fresh oneUser oneMembership)
      lostVersion).map (fun s => (s.log.head?, decide (.issued ⟨1, 1, .member, 2⟩ ∈ s.log.tail),
        getCurrentPrincipal s ⟨1, 1, .member, 2⟩)) = some (some (.returned 2 (.revoked 1)), true, true) := by decide
  obtain ⟨s, hs, he⟩ := Option.map_eq_some_iff.mp hrun
  simp only [Prod.mk.injEq, decide_eq_true_eq] at he
  obtain ⟨hhead, hissued, haccepted⟩ := he
  obtain ⟨older, hlog⟩ := List.head?_eq_some_iff.mp hhead
  rw [hlog, List.tail_cons] at hissued
  have hrejected := (hall _ _ _ _ s (Run.of_exec hs)).access [] _ 1 older _ hlog rfl hissued rfl
  rw [hrejected] at haccepted
  cases haccepted

/-- If every command writes the version of a user that nobody has written since it read it, a revocation is final. -/
theorem sessionsRevoked_of_undisturbed
    (h : Run (step hashRefreshToken refreshTtl) (fun s a => undisturbed s a) (.fresh users memberships) s) :
    SessionsRevoked s := by
  have hboth : Sound s ∧ Secured s :=
    Run.invariant (p := fun s => Sound s ∧ Secured s)
      (fun _ _ _ hs ho hstep => ⟨hs.1.step hstep, hs.2.step hs.1 ho hstep⟩) h
      ⟨Sound.start users memberships, Secured.start users memberships⟩
  constructor
  · intro newer e userId older claims hlog he hm hu
    obtain ⟨user, huser, hlt⟩ := hboth.2.past newer e userId older hlog he claims hm hu
    simp only [getCurrentPrincipal, hu, huser]
    split
    · rename_i user' role hu' hm'
      cases hu'
      simp [Nat.ne_of_gt hlt]
    · rfl
  · intro newer e userId older id r e' c hlog _ _ _ _ _ _ x hx hex
    have hx' : x ∈ s.log := by
      rw [hlog]
      exact List.mem_append_left _ hx
    rw [hboth.1.exchanges hx'] at hex
    cases hex

/-- The user is disabled and enabled again, and token 11 is denied. -/
def reachedToken : List Action :=
  signIn ++ [.admin 2 1 (.setUserEnabled false) 2, .select 2, .flush 2, .update 2, .visit 2 1, .commit 2,
    .admin 3 1 (.setUserEnabled true) 3, .select 3, .flush 3, .commit 3, .refresh 4 11 4, .select 4, .update 4,
    .commit 4]

theorem sessionsRevoked_reachedToken : ∃ s,
    exec (step (List.replicate · 'x') 100) (fun s a => undisturbed s a) (.fresh oneUser oneMembership)
        reachedToken = some s ∧
      s.log.take 4 = [.returned 4 (.reuseDetected 100), .began 4, .returned 3 (.enabled 1), .began 3] ∧
      SessionsRevoked s := by
  have hrun : (exec (step (List.replicate · 'x') 100) (fun s a => undisturbed s a) (.fresh oneUser oneMembership)
      reachedToken).map (fun s => s.log.take 4) =
      some [.returned 4 (.reuseDetected 100), .began 4, .returned 3 (.enabled 1), .began 3] := by decide
  obtain ⟨s, hs, hlog⟩ := Option.map_eq_some_iff.mp hrun
  exact ⟨s, hs, hlog, sessionsRevoked_of_undisturbed (Run.of_exec hs)⟩

/-! ## Rate limits -/

section RateLimit

variable {scope : Text} {raws : List Text} {limits : List Limit} {history : List RateCheck} {call : RateCheck}

def userCheck (now : Nat) : RateCheck := ⟨[("user".toList, "7".toList)], by decide, fun _ _ => now⟩

/-- Two limits with one window, whose counter is incremented twice by each call. -/
def minuteLimits : List Text := ["2/60".toList, "3/60".toList]

theorem not_check_counts : ¬∀ (scope : Text) (raws : List Text) (history : List RateCheck) (call : RateCheck),
    validateRateLimits raws = .ok raws → DistinctSubjects (history ++ [call]) → InTime (history ++ [call]) →
    ∃ limits decision, Reads raws limits ∧
      (RedisRateLimiter.check scope raws (checks scope raws history) call).2 = some decision ∧
      Counts limits history call decision := by
  intro hall
  have htime : InTime [userCheck 0, userCheck 500] :=
    List.pairwise_pair.mpr fun _ _ _ _ => Nat.zero_le 500
  obtain ⟨limits, decision, hread, hcheck, hcounts⟩ := hall "chat".toList minuteLimits [userCheck 0] (userCheck 500)
    (by decide) (distinctSubjects_of_labels (by decide)) htime
  have hlimits : limits = [⟨2, 60⟩, ⟨3, 60⟩] := by
    obtain ⟨limit, rest, hlimit, hrest, rfl⟩ := List.forall₂_cons_left_iff.mp hread
    obtain ⟨limit', rest', hlimit', hrest', rfl⟩ := List.forall₂_cons_left_iff.mp hrest
    have htwo : parseLimit "2/60".toList = some ⟨2, 60⟩ := by decide
    have hthree : parseLimit "3/60".toList = some ⟨3, 60⟩ := by decide
    rw [List.forall₂_nil_left_iff.mp hrest', ← Option.some_inj.mp (htwo.symm.trans hlimit),
      ← Option.some_inj.mp (hthree.symm.trans hlimit')]
  subst hlimits
  -- The second call is the fourth increment of the counter of the window.
  have hdenied : (RedisRateLimiter.check "chat".toList minuteLimits (checks "chat".toList minuteLimits [userCheck 0])
      (userCheck 500)).2 = some ⟨false, 60⟩ := by decide +kernel
  have hallowed : decision.allowed = true := hcounts.allowed_iff.mpr (by decide)
  rw [← Option.some_inj.mp (hdenied.symm.trans hcheck)] at hallowed
  cases hallowed

/-- If every limit has a window of its own, a call of any run is allowed if and only if it exceeds no limit. -/
theorem check_counts_of_distinct (hvalid : validateRateLimits raws = .ok raws) (hread : Reads raws limits)
    (hwindows : (limits.map (·.window)).Nodup) (hdistinct : DistinctSubjects (history ++ [call]))
    (htime : InTime (history ++ [call])) :
    ∃ decision, (RedisRateLimiter.check scope raws (checks scope raws history) call).2 = some decision ∧
      Counts limits history call decision :=
  check_spec hread hwindows (limits_pos hvalid hread) hdistinct htime

theorem check_counts_of_distinct_sample : ∃ decision,
    (RedisRateLimiter.check "chat".toList ["10/60".toList, "100/3600".toList]
      (checks "chat".toList ["10/60".toList, "100/3600".toList] [userCheck 0]) (userCheck 500)).2 = some decision ∧
      Counts [⟨10, 60⟩, ⟨100, 3600⟩] [userCheck 0] (userCheck 500) decision :=
  check_counts_of_distinct (by decide) (.cons (by decide) (.cons (by decide) .nil)) (by decide)
    (distinctSubjects_of_labels (by decide)) (List.pairwise_pair.mpr fun _ _ _ _ => Nat.zero_le 500)

end RateLimit

end Etoeragcb.Auth
