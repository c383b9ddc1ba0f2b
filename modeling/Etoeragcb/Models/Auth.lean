import Etoeragcb.Models.Content

/-!
# The rows of the sign-in sessions

The tables `users`, `user_tenants` and `refresh_tokens` of `app/models/auth.py`, and the claims of an access token.
-/

namespace Etoeragcb.Models

open Lib

abbrev TokenId := Nat
abbrev FamilyId := Nat

/-- A row of `users`, with the columns that sign-in goes by. -/
structure UserAccount where
  isActive : Bool
  disabledAt : Option Time
  authVersion : Nat
deriving DecidableEq

inductive MemberRole
  | admin | member
deriving DecidableEq

/-- What an access token says of its bearer. -/
structure AccessClaims where
  userId : UserId
  tenantId : TenantId
  role : MemberRole
  authVersion : Nat
deriving DecidableEq

structure RefreshToken where
  userId : UserId
  tenantId : TenantId
  tokenHash : Text
  familyId : FamilyId
  expiresAt : Time
  revokedAt : Option Time
  replacedBy : Option TokenId
deriving DecidableEq

end Etoeragcb.Models
