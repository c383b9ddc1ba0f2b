import Etoeragcb.Lib.Machine
import Etoeragcb.Lib.Table
import Etoeragcb.Lib.Text

/-!
# Refreshing tokens in the gateway

`refreshToken`, `performRefresh` and `pruneRotated` of `frontend/src/lib/server/api.ts` with `tokenBundle` of `session.ts`,
one step for each stretch between two awaits. A step runs at one instant of the clock. An exchange is one request for
`/auth/refresh`, with the promise `pending` of the call that sends it.
-/

namespace Etoeragcb.Frontend

open Lib

def refreshCacheMs : Nat := 10000

def maxRotatedResults : Nat := 128

/-- The body of an answer that `parseTokenResponse` accepts. -/
structure TokenResponse where
  accessToken : Text
  refreshToken : Text
  tenantId : Text
  expiresIn : Nat
  refreshExpiresIn : Nat
deriving DecidableEq

structure TokenBundle where
  accessToken : Text
  refreshToken : Text
  tenantId : Text
  accessExpiresAt : Nat
  hardExpiresAt : Nat
deriving DecidableEq

def tokenBundle (payload : TokenResponse) (now : Nat) : TokenBundle :=
  ⟨payload.accessToken, payload.refreshToken, payload.tenantId, now + payload.expiresIn * 1000,
    now + payload.refreshExpiresIn * 1000⟩

structure RotatedResult where
  bundle : TokenBundle
  expiresAt : Nat
deriving DecidableEq

/-- What `performRefresh` throws: a `GatewayError`, or what it is thrown itself. -/
inductive RefreshError
  | gateway (code : String) (status : Nat)
  | raised
deriving DecidableEq

/-- How a request ends: `fetch` or the reading of the body throws, the status is not a success, the body is no token
response, or it is one. -/
inductive Reply
  | failed
  | notOk
  | invalid
  | answered (payload : TokenResponse)

def performRefresh (oldBundle : TokenBundle) (now : Nat) : Reply → Except RefreshError TokenBundle
  | .failed | .invalid => .error .raised
  | .notOk => .error (.gateway "session_expired" 401)
  | .answered payload =>
      let replacement := tokenBundle payload now
      if replacement.tenantId ≠ oldBundle.tenantId then .error (.gateway "session_expired" 401) else .ok replacement

/-- `upstream`: when the backend has exchanged the token, and for what. `outcome`: what `performRefresh` has ended with.
`storedAt`: when the result went into `rotated`. -/
structure Exchange where
  oldBundle : TokenBundle
  upstream : Option (Nat × TokenResponse)
  outcome : Option (Except RefreshError TokenBundle)
  storedAt : Option Nat
deriving DecidableEq

/-- What `pending` has settled with. -/
def Exchange.pending (x : Exchange) : Option (Except RefreshError TokenBundle) :=
  match x.outcome with
  | some (.ok bundle) => if x.storedAt.isSome then some (.ok bundle) else none
  | some (.error e) => some (.error e)
  | none => none

/-- How far a call is: it has ended, its promise is that of an exchange, or it awaits the exchange that it has begun. -/
inductive CallStatus
  | ended (result : Except RefreshError TokenBundle)
  | shares (e : Nat)
  | awaits (e : Nat)
deriving DecidableEq

/-- The maps of the module, the exchanges and the calls in their order, and the exchanges whose results have been
stored, the last one first. -/
structure Gateway (κ : Type) where
  now : Nat
  rotated : Table κ RotatedResult
  refreshes : κ → Option Nat
  exchanges : List Exchange
  stored : List Nat
  calls : List CallStatus

def Gateway.start {κ : Type} : Gateway κ := ⟨0, .empty, fun _ => none, [], [], []⟩

inductive GatewayAction
  | tick (ms : Nat)
  | refreshToken (oldBundle : TokenBundle)
  | exchange (e : Nat) (payload : TokenResponse)
  | respond (e : Nat) (reply : Reply)
  | store (e : Nat)
  | resume (c : Nat)

/-- A reply carries a token response only if the backend has given it to this exchange. -/
def Reply.Genuine (x : Exchange) : Reply → Prop
  | .answered payload => x.upstream.map Prod.snd = some payload
  | .failed | .notOk | .invalid => True

instance (x : Exchange) (reply : Reply) : Decidable (reply.Genuine x) := by
  cases reply <;> simp only [Reply.Genuine] <;> infer_instance

namespace Gateway

variable {κ : Type}

def pruneRotated (s : Gateway κ) : Gateway κ := { s with rotated := s.rotated.delete fun _ r => r.expiresAt ≤ s.now }

variable [DecidableEq κ] (refreshHash : Text → κ)

/-- `refreshToken` up to its `await`. -/
def refreshToken (s : Gateway κ) (oldBundle : TokenBundle) : Gateway κ :=
  let key := refreshHash oldBundle.refreshToken
  let s := s.pruneRotated
  match (s.rotated.get? key).filter fun cached => s.now < cached.expiresAt with
  | some cached => { s with calls := s.calls ++ [.ended (.ok cached.bundle)] }
  | none =>
      match s.refreshes key with
      | some existing => { s with calls := s.calls ++ [.shares existing] }
      | none => { s with
          exchanges := s.exchanges ++ [⟨oldBundle, none, none, none⟩]
          refreshes := Function.update s.refreshes key (some s.exchanges.length)
          calls := s.calls ++ [.awaits s.exchanges.length] }

/-- The callback of `then`. A digest is never empty, so the loop ends by the size of the map alone. -/
def storeResult (s : Gateway κ) (e : Nat) (x : Exchange) (bundle : TokenBundle) : Gateway κ :=
  { s with
    rotated := (s.rotated.set (refreshHash x.oldBundle.refreshToken) ⟨bundle, s.now + refreshCacheMs⟩).evict
      maxRotatedResults
    exchanges := s.exchanges.set e { x with storedAt := some s.now }
    stored := e :: s.stored }

def step (s : Gateway κ) : GatewayAction → Option (Gateway κ)
  | .tick ms => some { s with now := s.now + ms }
  | .refreshToken oldBundle => some (refreshToken refreshHash s oldBundle)
  | .exchange e payload => do
      let x ← s.exchanges[e]?
      guard (x.upstream = none)
      return { s with exchanges := s.exchanges.set e { x with upstream := some (s.now, payload) } }
  | .respond e reply => do
      let x ← s.exchanges[e]?
      guard (x.outcome = none ∧ reply.Genuine x)
      return { s with
        exchanges := s.exchanges.set e { x with outcome := some (performRefresh x.oldBundle s.now reply) } }
  | .store e => do
      let x ← s.exchanges[e]?
      guard (x.storedAt = none)
      let some (.ok bundle) := x.outcome | none
      return storeResult refreshHash s e x bundle
  | .resume c => do
      let some (.awaits e) := s.calls[c]? | none
      let x ← s.exchanges[e]?
      let result ← x.pending
      return { s with
        refreshes := Function.update s.refreshes (refreshHash x.oldBundle.refreshToken) none
        calls := s.calls.set c (.ended result) }

/-- What the promise of the call `c` has settled with. -/
def result (s : Gateway κ) (c : Nat) : Option (Except RefreshError TokenBundle) :=
  match s.calls[c]? with
  | some (.ended result) => some result
  | some (.shares e) => s.exchanges[e]?.bind Exchange.pending
  | some (.awaits _) | none => none

end Gateway

/-! ## Deduplication -/

variable {κ : Type} [DecidableEq κ] (refreshHash : Text → κ)

/-- Any interleaving of the calls with the answers of the backend. -/
abbrev GatewayRun : Gateway κ → Gateway κ → Prop := Run (Gateway.step refreshHash) fun _ _ => True

/-- A call with the token of `x` sends no request. -/
def SendsNothing (s : Gateway κ) (x : Exchange) : Prop :=
  ∀ oldBundle, oldBundle.refreshToken = x.oldBundle.refreshToken →
    (s.refreshToken refreshHash oldBundle).exchanges = s.exchanges

/-- A call with the token of `x` has ended as soon as the exchange `e` has, and as it has. -/
def EndsAs (s : Gateway κ) (e : Nat) (x : Exchange) : Prop :=
  ∀ oldBundle, oldBundle.refreshToken = x.oldBundle.refreshToken →
    ∀ t, GatewayRun refreshHash (s.refreshToken refreshHash oldBundle) t →
      t.result s.calls.length = t.exchanges[e]?.bind Exchange.pending

/-- What the exchange `e` can still end with is among `results`. -/
def EndsWith (s : Gateway κ) (e : Nat) (results : Except RefreshError TokenBundle → Prop) : Prop :=
  ∀ t, GatewayRun refreshHash s t → ∀ r, t.exchanges[e]?.bind Exchange.pending = some r → results r

/-- A token whose exchange is in flight is not sent, nor one that has been exchanged within the last ten seconds, whose
calls return the bundle of the exchange. -/
def Deduplicates (s : Gateway κ) : Prop :=
  ∀ (e : Nat) (x : Exchange), s.exchanges[e]? = some x →
    (x.pending = none → SendsNothing refreshHash s x) ∧
      ∀ since payload, x.upstream = some (since, payload) → s.now < since + refreshCacheMs →
        SendsNothing refreshHash s x ∧ EndsAs refreshHash s e x ∧
          EndsWith refreshHash s e fun r => ∃ now, r = .ok (tokenBundle payload now)

/-- How many results have been stored after that of the exchange `e`. -/
def Gateway.storedAfter (s : Gateway κ) (e : Nat) : Nat := (s.stored.takeWhile fun e' => decide (e' ≠ e)).length

/-- The exchange has not failed in the gateway, and its result has not been followed by as many others as there is room
for. -/
def Remembered (s : Gateway κ) (e : Nat) (x : Exchange) : Prop :=
  (∀ error, x.outcome ≠ some (.error error)) ∧ (x.storedAt = none ∨ s.storedAfter e < maxRotatedResults)

/-- The same of an exchange that is remembered. If its answer is lost later on, its calls throw. -/
def DeduplicatesRemembered (s : Gateway κ) : Prop :=
  ∀ (e : Nat) (x : Exchange), s.exchanges[e]? = some x →
    (x.pending = none → SendsNothing refreshHash s x) ∧
      ∀ since payload, x.upstream = some (since, payload) → s.now < since + refreshCacheMs → Remembered s e x →
        SendsNothing refreshHash s x ∧ EndsAs refreshHash s e x ∧
          EndsWith refreshHash s e fun r => ∀ bundle, r = .ok bundle → ∃ now, bundle = tokenBundle payload now

end Etoeragcb.Frontend
