import Etoeragcb.Models.Auth
import Etoeragcb.Lib.Machine
import Etoeragcb.Lib.Table

/-!
# Sign-in sessions

`AuthService.login`, `refresh` and `logout` of `app/auth/service.py` and the commands of `app/admin_cli.py` that
revoke the sessions of a user, one step for each statement that they send. A transaction under READ COMMITTED sees
what has been committed when a statement starts. The statements that lock a row wait for its lock and then go by
the latest committed version of the row; the rows of an `UPDATE` are picked out when it starts. What a transaction
writes shows when it commits. The foreign key of `replaced_by` is checked at the end of each statement.
-/

namespace Etoeragcb.Auth

open Lib Models

abbrev CallId := Nat

/-- What a call ends with. A new token pair names its refresh token and the family, an exchange also the token
that was exchanged. -/
inductive Returned
  | signedIn (id : TokenId) (family : FamilyId)
  | exchanged (id next : TokenId) (family : FamilyId)
  | reuseDetected (family : FamilyId)
  | denied
  | loggedOut
  | enabled (userId : UserId)
  | revoked (userId : UserId)
deriving DecidableEq

inductive Event
  | began (c : CallId)
  | issued (claims : AccessClaims)
  | returned (c : CallId) (returned : Returned)
deriving DecidableEq

/-- A row of `refresh_tokens` that a transaction has written and not yet committed. -/
inductive Write
  | revoke (id : TokenId) (revokedAt : Time) (replacedBy : Option TokenId)
  | insert (id : TokenId) (token : RefreshToken)
deriving DecidableEq

/-- The columns of a row of `users` that a command sends, and the membership that `set_role` sends. -/
structure Account where
  userId : UserId
  isActive : Option Bool
  disabledAt : Option (Option Time)
  authVersion : Nat
  role : Option (TenantId × MemberRole)
deriving DecidableEq

inductive Operation
  | setUserEnabled (enabled : Bool)
  | resetPassword
  | revokeTokens
  | setRole (tenantId : TenantId) (role : MemberRole)
deriving DecidableEq

/-- The rows that an `UPDATE` of `_revoke_family` or of `_revoke_user_tokens` is about. -/
inductive Scope
  | family (family : FamilyId)
  | user (account : Account)
deriving DecidableEq

/-- What the user and membership of a token turn out to be. -/
inductive Owner
  | missing | inactive | active (role : MemberRole) (authVersion : Nat)
deriving DecidableEq

/-- A call between two of its statements. -/
inductive Call
  /-- `login` before it reads the user -/
  | loggingIn (userId : UserId) (passwordValid : Bool) (now : Time)
  /-- `login` before it reads the memberships -/
  | signingIn (userId : UserId) (authVersion : Nat) (now : Time)
  /-- `login` with a membership, before the new token is flushed -/
  | granting (userId : UserId) (tenantId : TenantId) (role : MemberRole) (authVersion : Nat) (now : Time)
  /-- `refresh` before its `SELECT ... FOR UPDATE` -/
  | refreshing (tokenHash : Text) (now : Time)
  /-- `refresh` with a valid token, before it reads the owner -/
  | checked (id : TokenId) (now : Time)
  /-- `refresh` with an active owner, before the rotation is flushed -/
  | rotating (id : TokenId) (now : Time) (role : MemberRole) (authVersion : Nat)
  /-- `logout` before its `SELECT ... FOR UPDATE` -/
  | loggingOut (tokenHash : Text) (now : Time)
  /-- the revocation of a single token, before it is flushed -/
  | revoking (id : TokenId) (now : Time) (returned : Returned)
  /-- a command before it reads the user -/
  | commanded (userId : UserId) (operation : Operation) (now : Time)
  /-- a command before the user is flushed -/
  | administering (userId : UserId) (user : UserAccount) (operation : Operation) (now : Time)
  /-- `_revoke_family` or `_revoke_user_tokens` before its `UPDATE` -/
  | revokingAll (scope : Scope) (now : Time) (returned : Returned)
  /-- one of them, with the rows that its `UPDATE` has still to visit -/
  | updating (scope : Scope) (now : Time) (returned : Returned) (targets : List TokenId) (writes : List Write)
  /-- everything is flushed -/
  | committing (writes : List Write) (account : Option Account) (returned : Returned)
deriving DecidableEq

/-- The committed rows, who holds the row locks, the open calls, the ids, families and raw tokens that have been
drawn, and what has happened, the latest first. -/
structure State where
  users : Table UserId UserAccount
  memberships : Table (UserId × TenantId) MemberRole
  tokens : Table TokenId RefreshToken
  locks : TokenId → Option CallId
  userLocks : UserId → Option CallId
  calls : Table CallId Call
  drawn : List Nat
  log : List Event

def State.fresh (users : Table UserId UserAccount) (memberships : Table (UserId × TenantId) MemberRole) : State :=
  ⟨users, memberships, .empty, fun _ => none, fun _ => none, .empty, [], []⟩

def State.begin? (s : State) (c : CallId) (call : Call) : Option State :=
  if .began c ∈ s.log then none
  else (s.calls.insert? c call).map fun calls => { s with calls := calls, log := .began c :: s.log }

def State.goOn (s : State) (c : CallId) (call : Call) : State :=
  { s with calls := s.calls.modify c fun _ => call }

def State.close (s : State) (c : CallId) : State :=
  { s with
    calls := s.calls.delete fun c' _ => decide (c' = c)
    locks := fun id => if s.locks id = some c then none else s.locks id
    userLocks := fun id => if s.userLocks id = some c then none else s.userLocks id }

/-- The transaction ends, and the call returns. -/
def State.giveBack (s : State) (c : CallId) (returned : Returned) : State :=
  let s := s.close c
  { s with log := .returned c returned :: s.log }

def State.lock (s : State) (id : TokenId) (c : CallId) : State :=
  { s with locks := Function.update s.locks id (some c) }

def State.isFree (s : State) (id : TokenId) (c : CallId) : Bool :=
  decide (s.locks id = none ∨ s.locks id = some c)

/-- `.where(RefreshToken.token_hash == token_hash)` -/
def State.byHash (s : State) (tokenHash : Text) : Option (TokenId × RefreshToken) :=
  (s.tokens.select fun _ r => decide (r.tokenHash = tokenHash)).head?

/-- The branches of `refresh` behind the token that it has locked. -/
def check (id : TokenId) (refresh : RefreshToken) (now : Time) : Call :=
  if refresh.revokedAt ≠ none ∨ refresh.replacedBy ≠ none then
    .revokingAll (.family refresh.familyId) now (.reuseDetected refresh.familyId)
  else if refresh.expiresAt ≤ now then .revoking id now .denied
  else .checked id now

/-- `not user.is_active or user.disabled_at is not None`, negated -/
def canSignIn (user : UserAccount) : Bool := user.isActive && decide (user.disabledAt = none)

/-- `refresh.revoked_at = …`, and `refresh.replaced_by = …` in a rotation -/
def RefreshToken.revoke (r : RefreshToken) (revokedAt : Time) (replacedBy : Option TokenId) : RefreshToken :=
  { r with revokedAt := some revokedAt, replacedBy := replacedBy.or r.replacedBy }

/-- The `WHERE` of `_revoke_family` and of `_revoke_user_tokens`. -/
def Scope.matches (scope : Scope) (r : RefreshToken) : Bool :=
  match scope with
  | .family id => decide (r.familyId = id ∧ r.revokedAt = none)
  | .user account => decide (r.userId = account.userId ∧ r.revokedAt = none)

def Scope.account? : Scope → Option Account
  | .family _ => none
  | .user account => some account

/-- What a command sets in the user that it has read. A column that keeps its value is not sent. -/
def Operation.account (operation : Operation) (userId : UserId) (user : UserAccount) (now : Time) : Account :=
  let send {α : Type} [DecidableEq α] (old new : α) : Option α := if old = new then none else some new
  match operation with
  | .setUserEnabled enabled =>
      { userId := userId
        isActive := send user.isActive enabled
        disabledAt := send user.disabledAt (if enabled then none else some now)
        authVersion := user.authVersion + 1
        role := none }
  | .resetPassword | .revokeTokens => ⟨userId, none, none, user.authVersion + 1, none⟩
  | .setRole tenantId role => ⟨userId, none, none, user.authVersion + 1, some (tenantId, role)⟩

def Write.apply (tokens : Table TokenId RefreshToken) : Write → Table TokenId RefreshToken
  | .revoke id revokedAt replacedBy => tokens.modify id fun r => RefreshToken.revoke r revokedAt replacedBy
  | .insert id token => (tokens.insert? id token).getD tokens

def Account.applyUser (account : Account) (users : Table UserId UserAccount) : Table UserId UserAccount :=
  users.modify account.userId fun user =>
    { isActive := account.isActive.getD user.isActive
      disabledAt := account.disabledAt.getD user.disabledAt
      authVersion := account.authVersion }

/-- The membership of `set_role` is updated, or inserted. -/
def Account.applyRole (account : Account) (memberships : Table (UserId × TenantId) MemberRole) :
    Table (UserId × TenantId) MemberRole :=
  match account.role with
  | none => memberships
  | some (tenantId, role) =>
      ((memberships.insert? (account.userId, tenantId) role).getD memberships).modify (account.userId, tenantId)
        fun _ => role

/-- `fk_refresh_tokens_replaced_by_refresh_tokens`: a row that is named as the replacement exists. -/
def Write.meetsKey (tokens : Table TokenId RefreshToken) : Write → Bool
  | .revoke _ _ (some replacedBy) => (tokens.get? replacedBy).isSome
  | .revoke _ _ none | .insert _ _ => true

/-- No statement of a flush breaks the key, each behind those before it. -/
def flushes : Table TokenId RefreshToken → List Write → Bool
  | _, [] => true
  | tokens, w :: writes => w.meetsKey tokens && flushes (w.apply tokens) writes

def State.write (s : State) (writes : List Write) (account : Option Account) : State :=
  { s with
    tokens := writes.foldl Write.apply s.tokens
    users := account.elim s.users fun account => account.applyUser s.users
    memberships := account.elim s.memberships fun account => account.applyRole s.memberships }

/-- The `UPDATE` or the flush is done, and only the commit is left. -/
def Call.finished? : Call → Option (List Write × Option Account × Returned)
  | .committing writes account returned => some (writes, account, returned)
  | .updating scope _ returned [] writes => some (writes, scope.account?, returned)
  | _ => none

inductive Action
  | login (c : CallId) (userId : UserId) (passwordValid : Bool) (now : Time)
  | refresh (c : CallId) (raw : Nat) (now : Time)
  | logout (c : CallId) (raw : Nat) (now : Time)
  | admin (c : CallId) (userId : UserId) (operation : Operation) (now : Time)
  | select (c : CallId)
  | readMembership (c : CallId) (tenantId : TenantId)
  | readOwner (c : CallId)
  | grant (c : CallId) (id : TokenId) (raw : Nat) (family : FamilyId)
  | rotate (c : CallId) (id : TokenId) (raw : Nat)
  | flush (c : CallId)
  | update (c : CallId)
  | visit (c : CallId) (id : TokenId)
  | commit (c : CallId)
  | abort (c : CallId)
deriving DecidableEq

variable (hashRefreshToken : Nat → Text) (refreshTtl : Nat)

/-- The first statement of a call; a `SELECT ... FOR UPDATE` needs the row to be free. -/
def stepSelect (s : State) (c : CallId) : Option State :=
  match s.calls.get? c with
  | some (.loggingIn userId passwordValid now) =>
      match s.users.get? userId with
      | none => some (s.giveBack c .denied)
      | some user =>
          if passwordValid && canSignIn user then some (s.goOn c (.signingIn userId user.authVersion now))
          else some (s.giveBack c .denied)
  | some (.refreshing tokenHash now) =>
      match s.byHash tokenHash with
      | none => some (s.giveBack c .denied)
      | some (id, refresh) =>
          if s.isFree id c then some ((s.lock id c).goOn c (check id refresh now)) else none
  | some (.loggingOut tokenHash now) =>
      match s.byHash tokenHash with
      | none => some (s.giveBack c .loggedOut)
      | some (id, refresh) =>
          if s.isFree id c then
            if refresh.revokedAt = none then some ((s.lock id c).goOn c (.revoking id now .loggedOut))
            else some (s.giveBack c .loggedOut)
          else none
  | some (.commanded userId operation now) =>
      match s.users.get? userId with
      | none => some (s.giveBack c .denied)
      | some user => some (s.goOn c (.administering userId user operation now))
  | _ => none

/-- `_memberships` of `login`, from which `_select_membership` takes the one of `tenantId`. -/
def stepReadMembership (s : State) (c : CallId) (tenantId : TenantId) : Option State :=
  match s.calls.get? c with
  | some (.signingIn userId authVersion now) =>
      match s.memberships.get? (userId, tenantId) with
      | none => some (s.giveBack c .denied)
      | some role => some (s.goOn c (.granting userId tenantId role authVersion now))
  | _ => none

/-- The user of a token with the membership in its tenant. -/
def State.owner (s : State) (refresh : RefreshToken) : Owner :=
  match s.users.get? refresh.userId, s.memberships.get? (refresh.userId, refresh.tenantId) with
  | some user, some role => if canSignIn user then .active role user.authVersion else .inactive
  | _, _ => .missing

/-- The owner of a valid token is read, without a lock. -/
def stepReadOwner (s : State) (c : CallId) : Option State :=
  match s.calls.get? c with
  | some (.checked id now) =>
      (s.tokens.get? id).map fun refresh =>
        match s.owner refresh with
        | .active role authVersion => s.goOn c (.rotating id now role authVersion)
        | _ => s.goOn c (.revokingAll (.family refresh.familyId) now .denied)
  | _ => none

/-- `_new_token_bundle`: the access token is issued, and the first token of a family is flushed. -/
def stepGrant (s : State) (c : CallId) (id : TokenId) (raw : Nat) (family : FamilyId) : Option State :=
  match s.calls.get? c with
  | some (.granting userId tenantId role authVersion now) =>
      if id ∉ s.drawn ∧ raw ∉ s.drawn ∧ family ∉ s.drawn then
        let record : RefreshToken := ⟨userId, tenantId, hashRefreshToken raw, family, now + refreshTtl, none, none⟩
        let issued : Event := .issued ⟨userId, tenantId, role, authVersion⟩
        some ({ s with drawn := id :: raw :: family :: s.drawn, log := issued :: s.log }.goOn c
          (.committing [.insert id record] none (.signedIn id family)))
      else none
  | _ => none

/-- The access token of an exchange is issued, and the rotation is flushed: the session sends its `UPDATE`s before its
`INSERT`s. If that fails, the transaction is rolled back, and the call raises. -/
def stepRotate (s : State) (c : CallId) (id' : TokenId) (raw : Nat) : Option State :=
  match s.calls.get? c with
  | some (.rotating id now role authVersion) =>
      if id' ∉ s.drawn ∧ raw ∉ s.drawn then
        (s.tokens.get? id).map fun refresh =>
          let next : RefreshToken := ⟨refresh.userId, refresh.tenantId, hashRefreshToken raw, refresh.familyId,
            now + refreshTtl, none, none⟩
          let issued : Event := .issued ⟨refresh.userId, refresh.tenantId, role, authVersion⟩
          let writes := [.revoke id now (some id'), .insert id' next]
          let s := { s with drawn := id' :: raw :: s.drawn, log := issued :: s.log }
          if flushes s.tokens writes then s.goOn c (.committing writes none (.exchanged id id' refresh.familyId))
          else s.close c
      else none
  | _ => none

/-- The attributes that were set are sent as an `UPDATE`, which for a user needs the row to be free. -/
def stepFlush (s : State) (c : CallId) : Option State :=
  match s.calls.get? c with
  | some (.revoking id now returned) => some (s.goOn c (.committing [.revoke id now none] none returned))
  | some (.administering userId user operation now) =>
      if s.userLocks userId = none ∨ s.userLocks userId = some c then
        let s := { s with userLocks := Function.update s.userLocks userId (some c) }
        let account := operation.account userId user now
        match operation with
        | .setUserEnabled true => some (s.goOn c (.committing [] (some account) (.enabled userId)))
        | _ => some (s.goOn c (.revokingAll (.user account) now (.revoked userId)))
      else none
  | _ => none

/-- The `UPDATE` of a revocation starts: its rows are those that are committed now. -/
def stepUpdate (s : State) (c : CallId) : Option State :=
  match s.calls.get? c with
  | some (.revokingAll scope now returned) =>
      some (s.goOn c (.updating scope now returned ((s.tokens.select fun _ r => scope.matches r).map Prod.fst) []))
  | _ => none

/-- The `UPDATE` comes to one of its rows: it waits until the row is free, and checks its latest version. -/
def stepVisit (s : State) (c : CallId) (id : TokenId) : Option State :=
  match s.calls.get? c with
  | some (.updating scope now returned targets writes) =>
      if id ∈ targets ∧ s.isFree id c then
        (s.tokens.get? id).map fun r =>
          if scope.matches r then
            (s.lock id c).goOn c (.updating scope now returned (targets.erase id) (writes ++ [.revoke id now none]))
          else s.goOn c (.updating scope now returned (targets.erase id) writes)
      else none
  | _ => none

def stepCommit (s : State) (c : CallId) : Option State :=
  ((s.calls.get? c).bind Call.finished?).map fun (writes, account, returned) =>
    (s.write writes account).giveBack c returned

def step (s : State) : Action → Option State
  | .login c userId passwordValid now => s.begin? c (.loggingIn userId passwordValid now)
  | .refresh c raw now => s.begin? c (.refreshing (hashRefreshToken raw) now)
  | .logout c raw now => s.begin? c (.loggingOut (hashRefreshToken raw) now)
  | .admin c userId operation now => s.begin? c (.commanded userId operation now)
  | .select c => stepSelect s c
  | .readMembership c tenantId => stepReadMembership s c tenantId
  | .readOwner c => stepReadOwner s c
  | .grant c id raw family => stepGrant hashRefreshToken refreshTtl s c id raw family
  | .rotate c id raw => stepRotate hashRefreshToken refreshTtl s c id raw
  | .flush c => stepFlush s c
  | .update c => stepUpdate s c
  | .visit c id => stepVisit s c id
  | .commit c => stepCommit s c
  | .abort c => (s.calls.get? c).map fun _ => s.close c

/-- The branches of `get_current_principal` behind the claims that it has decoded; `false` is a 401. -/
def getCurrentPrincipal (s : State) (claims : AccessClaims) : Bool :=
  match s.users.get? claims.userId, s.memberships.get? (claims.userId, claims.tenantId) with
  | some user, some _ => canSignIn user && decide (user.authVersion = claims.authVersion)
  | _, _ => false

/-! ## Commands without a race -/

/-- A command writes the version of a user that nobody has written since it read it. -/
def undisturbed (s : State) : Action → Bool
  | .flush c =>
      match s.calls.get? c with
      | some (.administering userId user _ _) =>
          decide ((s.users.get? userId).map UserAccount.authVersion = some user.authVersion)
      | _ => true
  | _ => true

end Etoeragcb.Auth
