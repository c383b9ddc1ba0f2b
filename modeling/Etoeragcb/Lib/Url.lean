import Etoeragcb.Lib.Address
import Etoeragcb.Lib.Base64
import Etoeragcb.Lib.Unicode
import Etoeragcb.Lib.Utf8

/-!
# URLs

`urlsplit`, `urlunsplit`, `urljoin` and `quote` of `urllib.parse`. They return nothing where they raise `ValueError`.
-/

namespace Etoeragcb.Lib

structure SplitResult where
  scheme : Text
  netloc : Text
  path : Text
  query : Text
  fragment : Text
deriving DecidableEq

/-- `s.rpartition(c)` without the separator -/
def rpartition (c : Char) (s : Text) : Text × Text := ((s.rdropWhile (· ≠ c)).dropLast, s.rtakeWhile (· ≠ c))

def isSchemeChar (c : Char) : Bool := isLetter c || isDigit c || c == '+' || c == '-' || c == '.'

/-- `str.lower` of an ASCII text -/
def asciiLower (s : Text) : Text := s.map fun c => if 'A' ≤ c ∧ c ≤ 'Z' then Char.ofNat (c.toNat + 32) else c

def isDelimiter (c : Char) : Bool := c == '/' || c == '?' || c == '#'

/-- The scheme of a URL, the given one if it has none, and what follows. -/
def cutScheme (scheme url : Text) : Text × Text :=
  let (name, rest) := partition ':' url
  if ':' ∈ url ∧ name.head?.any isLetter ∧ name.all isSchemeChar then (asciiLower name, rest) else (scheme, url)

def checkBracketedHost (hostname : Text) : Bool :=
  match hostname with
  | 'v' :: rest =>
      let (version, address) := partition '.' rest
      '.' ∈ rest && version ≠ [] && version.all (fun c => (Json.hexValue c).isSome) && address ≠ [] && '\n' ∉ address
  | _ => match ipAddress hostname with
    | some (.v6 _ _) => true
    | _ => false

def checkBracketedNetloc (netloc : Text) : Bool :=
  let hostnameAndPort := (rpartition '@' netloc).2
  if '[' ∈ hostnameAndPort then
    let (beforeBracket, bracketed) := partition '[' hostnameAndPort
    let (hostname, port) := partition ']' bracketed
    beforeBracket = [] && (port = [] || port.head? = some ':') && checkBracketedHost hostname
  else checkBracketedHost (partition ':' hostnameAndPort).1

def checkBrackets (netloc : Text) : Bool :=
  if '[' ∈ netloc ∧ ']' ∈ netloc then checkBracketedNetloc netloc else '[' ∉ netloc && ']' ∉ netloc

def checkNetloc (u : Unicode) (netloc : Text) : Bool :=
  let n := netloc.filter fun c => c ∉ ['@', ':', '#', '?']
  netloc.all isAscii || u.nfkc n = n || !(u.nfkc n).any fun c => c ∈ ['/', '?', '#', '@', ':']

/-- What `urlsplit` leaves out of a URL. -/
def cleanUrl (url : Text) : Text := (url.dropWhile fun c => c.toNat ≤ 32).filter fun c => c ∉ ['\t', '\r', '\n']

def cutPath (s : Text) : Text × Text × Text :=
  let (s, fragment) := partition '#' s
  let (path, query) := partition '?' s
  (path, query, fragment)

/-- `urlsplit(url, scheme)` -/
def urlsplit (u : Unicode) (scheme url : Text) : Option SplitResult :=
  let (scheme, rest) := cutScheme scheme (cleanUrl url)
  let (netloc, rest) := match rest with
    | '/' :: '/' :: rest => (rest.takeWhile (!isDelimiter ·), rest.dropWhile (!isDelimiter ·))
    | _ => ([], rest)
  let (path, query, fragment) := cutPath rest
  if checkBrackets netloc && checkNetloc u netloc then some ⟨scheme, netloc, path, query, fragment⟩ else none

namespace SplitResult

variable (parsed : SplitResult)

def username : Option Text :=
  if '@' ∈ parsed.netloc then some (partition ':' (rpartition '@' parsed.netloc).1).1 else none

def password : Option Text :=
  let userinfo := (rpartition '@' parsed.netloc).1
  if '@' ∈ parsed.netloc ∧ ':' ∈ userinfo then some (partition ':' userinfo).2 else none

def hostinfo : Text × Text :=
  let hostinfo := (rpartition '@' parsed.netloc).2
  if '[' ∈ hostinfo then
    let (hostname, port) := partition ']' (partition '[' hostinfo).2
    (hostname, (partition ':' port).2)
  else partition ':' hostinfo

/-- `parsed.hostname`, of which a zone keeps its case -/
def hostname (u : Unicode) : Option Text :=
  let hostname := parsed.hostinfo.1
  if hostname = [] then none
  else
    let (name, zone) := partition '%' hostname
    some (u.lower name ++ if '%' ∈ hostname then '%' :: zone else [])

/-- `parsed.port`, or nothing where it is no port -/
def port : Option (Option Nat) :=
  let port := parsed.hostinfo.2
  if port = [] then some none
  else if port.all isDigit ∧ ofDecimal port ≤ 65535 then some (some (ofDecimal port)) else none

end SplitResult

/-- `urlunsplit`, for a URL with an authority -/
def urlunsplit (parsed : SplitResult) : Text :=
  let path := if parsed.path = [] ∨ parsed.path.head? = some '/' then parsed.path else '/' :: parsed.path
  (if parsed.scheme = [] then [] else parsed.scheme ++ [':']) ++ ['/', '/'] ++ parsed.netloc ++ path ++
    (if parsed.query = [] then [] else '?' :: parsed.query) ++
    (if parsed.fragment = [] then [] else '#' :: parsed.fragment)

/-- `_splitparams`, of the last segment -/
def splitParams (path : Text) : Text × Text :=
  let front := path.rdropWhile (· ≠ '/')
  let last := path.rtakeWhile (· ≠ '/')
  (front ++ (partition ';' last).1, (partition ';' last).2)

def urlunparse (parsed : SplitResult) (params : Text) : Text :=
  urlunsplit { parsed with path := if params = [] then parsed.path else parsed.path ++ ';' :: params }

/-- The segments of a path without those that stand for a directory, the last one first. -/
def resolveSegments (segments : List Text) : List Text :=
  segments.foldl
    (fun resolved seg => if seg = ['.', '.'] then resolved.tail else if seg = ['.'] then resolved else seg :: resolved) []

def dropEmptyInside : List Text → List Text
  | [] => []
  | seg :: segs => seg :: (segs.dropLast.filter (· ≠ []) ++ segs.getLast?.toList)

/-- The path of a URL that is relative to the path of its base. -/
def joinPath (basePath path : Text) : Text :=
  let baseParts := basePath.splitOn '/'
  let baseParts := if baseParts.getLast? = some [] then baseParts else baseParts.dropLast
  let segments :=
    if path.head? = some '/' then path.splitOn '/' else dropEmptyInside (baseParts ++ path.splitOn '/')
  let resolved := resolveSegments segments
  let resolved :=
    if segments.getLast? = some ['.'] ∨ segments.getLast? = some ['.', '.'] then [] :: resolved else resolved
  match ['/'].intercalate resolved.reverse with
  | [] => ['/']
  | s => s

/-- `urljoin(base, url)`, for a base with the scheme `http` or `https` and an authority -/
def urljoin (u : Unicode) (base url : Text) : Option Text :=
  if url = [] then some base
  else (urlsplit u [] base).bind fun b => (urlsplit u b.scheme url).map fun parsed =>
    let (basePath, baseParams) := splitParams b.path
    let (path, params) := splitParams parsed.path
    if parsed.scheme ≠ b.scheme then url
    else if parsed.netloc ≠ [] then urlunparse { parsed with path } params
    else if path = [] ∧ params = [] then
      let query := if parsed.query = [] then b.query else parsed.query
      urlunparse { parsed with netloc := b.netloc, path := basePath, query } baseParams
    else urlunparse { parsed with netloc := b.netloc, path := joinPath basePath path } params

/-! ## Quoting -/

/-- `%` and the two capital hexadecimal digits of a byte -/
def percentByte (b : UInt8) : Text :=
  let digit (n : Nat) : Char := if n < 10 then Char.ofNat (48 + n) else Char.ofNat (55 + n)
  ['%', digit (b.toNat / 16), digit (b.toNat % 16)]

/-- `quote(string, safe)`, for ASCII characters that are safe -/
def quote (safe string : Text) : Text :=
  (utf8 string).flatMap fun b =>
    let c := Char.ofNat b.toNat
    if b.toNat < 128 ∧ (isLetter c ∨ isDigit c ∨ c ∈ ['_', '.', '-', '~'] ∨ c ∈ safe) then [c] else percentByte b

end Etoeragcb.Lib
