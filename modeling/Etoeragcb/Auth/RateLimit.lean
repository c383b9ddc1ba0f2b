import Etoeragcb.Lib.FixedWindow
import Etoeragcb.Lib.Json

/-!
# Rate limits

`RedisRateLimiter.check` of `app/auth/rate_limit.py` and `validate_rate_limits` of `app/config.py`. Redis runs the script
of a counter as one step, and tells the time in milliseconds.
-/

namespace Etoeragcb.Auth

open Lib

/-- `[1-9][0-9]*` -/
def isPositive : Text → Bool
  | [] => false
  | c :: s => '1' ≤ c && c ≤ '9' && s.all isDigit

def beforeSlash (raw : Text) : Text := raw.takeWhile (· ≠ '/')

def afterSlash (raw : Text) : Text := (raw.dropWhile (· ≠ '/')).drop 1

/-- `RATE_LIMIT_RE.fullmatch` -/
def isRateLimit (raw : Text) : Bool := isPositive (beforeSlash raw) && raw.contains '/' && isPositive (afterSlash raw)

def validateRateLimits (limits : List Text) : Except String (List Text) :=
  if limits = [] ∨ ∃ raw ∈ limits, isRateLimit raw = false then
    .error "rate limits must use count/window_seconds, for example 5/60"
  else .ok limits

/-- `int`, which refuses texts that are too long. The signs, blanks and underscores that it takes as well are left out. -/
def int (s : Text) : Option Nat := if s ≠ [] ∧ s.all isDigit ∧ s.length ≤ 4300 then some (ofDecimal s) else none

structure Limit where
  maximum : Nat
  window : Nat
deriving DecidableEq

/-- The two parts of `raw_limit.split("/", maxsplit=1)` as numbers. -/
def parseLimit (raw : Text) : Option Limit :=
  if '/' ∈ raw then do
    let maximum ← int (beforeSlash raw)
    let window ← int (afterSlash raw)
    pure ⟨maximum, window⟩
  else none

structure RateLimitDecision where
  allowed : Bool
  retryAfter : Nat
deriving DecidableEq

/-- A call of `check`: the members of `identifiers`, and when Redis runs the script for a member and a limit. -/
structure RateCheck where
  identifiers : List (Text × Text)
  labels_nodup : (identifiers.map Prod.fst).Nodup
  time : Text × Text → Limit → Nat

abbrev Redis := Text → Option Counter

def Limit.span (limit : Limit) : Nat := 1000 * limit.window

/-- `label:identifier` -/
def subject (member : Text × Text) : Text := member.1 ++ ':' :: member.2

variable (scope : Text)

def bucket (member : Text × Text) (window : Nat) : Text :=
  "rate:".toList ++ scope ++ ':' :: (subject member ++ ':' :: decimal window)

/-- `_increment_script`: the counter of the bucket, which expires after the window, with the seconds that are left of it. -/
def incrementScript (redis : Redis) (key : Text) (limit : Limit) (now : Nat) : Redis × Nat × Nat :=
  let counter := Counter.hit limit.span now (redis key)
  (hit redis ⟨key, limit.span, now⟩, counter.value, (counter.expiresAt - now + 500) / 1000)

/-- One turn of the inner loop, unless a limit before could not be read. -/
def checkLimit (call : RateCheck) (member : Text × Text) (s : Redis × Option Nat) (raw : Text) : Redis × Option Nat :=
  match s.2, parseLimit raw with
  | some retryAfter, some limit =>
      let (redis, current, ttl) := incrementScript s.1 (bucket scope member limit.window) limit (call.time member limit)
      (redis, some (if limit.maximum < current then max retryAfter (max 1 ttl) else retryAfter))
  | _, _ => (s.1, none)

/-- `RedisRateLimiter.check`, with no decision if a limit cannot be read. -/
def RedisRateLimiter.check (limits : List Text) (redis : Redis) (call : RateCheck) : Redis × Option RateLimitDecision :=
  let (redis, retryAfter) :=
    call.identifiers.foldl (fun s member => limits.foldl (checkLimit scope call member) s) (redis, some 0)
  (redis, retryAfter.map fun n => ⟨n = 0, n⟩)

def checks (limits : List Text) (calls : List RateCheck) : Redis :=
  calls.foldl (fun redis call => (RedisRateLimiter.check scope limits redis call).1) fun _ => none

end Etoeragcb.Auth
