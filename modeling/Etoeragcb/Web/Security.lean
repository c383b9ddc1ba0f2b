import Etoeragcb.Lib.Url

/-!
# What may be fetched

`app/web/security.py`. The codec `idna` is a parameter.
-/

namespace Etoeragcb.Web

open Lib

structure WebFetchError where
  code : String
  message : String
deriving DecidableEq

structure ValidatedUrl where
  canonicalUrl : Text
  scheme : Text
  host : Text
  port : Nat
  requestTarget : Text
  hostHeader : Text
deriving DecidableEq

/-! ## Addresses -/

/-- An address of `_EXPLICIT_METADATA_ADDRESSES` -/
def isMetadataAddress : IpAddress → Bool
  | .v4 ip => inAny [(quad [168, 63, 129, 16], 32), (quad [169, 254, 169, 254], 32), (quad [169, 254, 170, 2], 32),
      (quad [100, 100, 100, 200], 32)] ip
  | .v6 ip _ => inAny [(hextets [0xfd00, 0xec2, 0, 0, 0, 0, 0, 0x254], 128)] ip

def isForbiddenAddress (address : IpAddress) : Bool :=
  !address.isGlobal || address.isPrivate || address.isLoopback || address.isLinkLocal || address.isMulticast ||
    address.isReserved || address.isUnspecified || isMetadataAddress address

def validatePublicAddresses (addresses : List IpAddress) : Except WebFetchError Unit :=
  if addresses = [] then .error ⟨"dns_failure", "DNS returned no addresses"⟩
  else if addresses.any isForbiddenAddress then .error ⟨"forbidden_address", "DNS resolved to a forbidden address"⟩
  else .ok ()

/-! ## URLs -/

def isHostChar (c : Char) : Bool := ('a' ≤ c && c ≤ 'z') || isDigit c

/-- `_HOST_LABEL` of a whole label -/
def isHostLabel (label : Text) : Bool :=
  label.head?.any isHostChar && label.getLast?.any isHostChar && label.all (fun c => isHostChar c || c == '-') &&
    label.length ≤ 63

variable (u : Unicode) (idna : Text → Option Text)

def normalizeHost (host : Text) : Except WebFetchError Text :=
  let candidate := u.lower (host.rdropWhile (· = '.'))
  match ipAddress candidate with
  | some address => .ok address.compressed
  | none => match idna candidate with
    | none => .error ⟨"invalid_url", "hostname IDNA encoding failed"⟩
    | some candidate =>
        if 253 < candidate.length ∨ (candidate.splitOn '.').any (!isHostLabel ·) then
          .error ⟨"invalid_url", "hostname is malformed"⟩
        else .ok candidate

def hasForbiddenUrlCharacter (url : Text) : Bool := url.any fun c => c == '\\' || c.toNat < 33 || c.toNat == 127

def defaultPort (scheme : Text) : Nat := if scheme = "https".toList then 443 else 80

def canonicalForm (scheme host : Text) (port : Nat) (path query : Text) : ValidatedUrl :=
  let hostForAuthority := if ':' ∈ host then '[' :: host ++ [']'] else host
  let authority := if port = defaultPort scheme then hostForAuthority else hostForAuthority ++ ':' :: decimal port
  { canonicalUrl := urlunsplit ⟨scheme, authority, path, query, []⟩
    scheme
    host
    port
    requestTarget := path ++ if query = [] then [] else '?' :: query
    hostHeader := authority }

def pathSafe : Text := "/:@!$&'()*+,;=-._~%".toList

/-- `validate_url` behind the parts of the URL and its port -/
def validateParts (allowedPorts : List Nat) (parsed : SplitResult) (port : Option Nat) : Except WebFetchError ValidatedUrl :=
  let scheme := u.lower parsed.scheme
  if scheme ≠ "http".toList ∧ scheme ≠ "https".toList then
    .error ⟨"invalid_scheme", "only HTTP and HTTPS URLs are allowed"⟩
  else if parsed.username ≠ none ∨ parsed.password ≠ none then
    .error ⟨"credentials_forbidden", "URL credentials are forbidden"⟩
  else match parsed.hostname u with
    | none => .error ⟨"invalid_url", "URL hostname is required"⟩
    | some hostname => do
        let host ← normalizeHost u idna hostname
        let resolvedPort := port.getD (defaultPort scheme)
        if resolvedPort ∉ allowedPorts then .error ⟨"port_forbidden", "URL port is not allowlisted"⟩
        else
          let path := quote pathSafe (if parsed.path = [] then ['/'] else parsed.path)
          let query := quote ('?' :: pathSafe) parsed.query
          if path.head? ≠ some '/' then .error ⟨"invalid_url", "URL path must be absolute"⟩
          else .ok (canonicalForm scheme host resolvedPort path query)

def validateUrl (allowedPorts : List Nat) (url : Text) : Except WebFetchError ValidatedUrl :=
  if url = [] ∨ 4096 < url.length ∨ hasForbiddenUrlCharacter url then
    .error ⟨"invalid_url", "URL is empty, oversized, or malformed"⟩
  else match urlsplit u [] url with
    | none => .error ⟨"invalid_url", "URL authority is invalid"⟩
    | some parsed => match parsed.port with
      | none => .error ⟨"invalid_url", "URL authority is invalid"⟩
      | some port => validateParts u idna allowedPorts parsed port

end Etoeragcb.Web
