import Etoeragcb.Lib.Uuid

/-!
# Addresses

The addresses of `ipaddress`: how a text is read and written, and the networks that their properties go by.
-/

namespace Etoeragcb.Lib

/-- `IPv4Address` and `IPv6Address` -/
inductive IpAddress
  | v4 (ip : BitVec 32)
  | v6 (ip : BitVec 128) (scopeId : Option Text)
deriving DecidableEq

/-- The number of which the parts are the digits to the base `2 ^ bits`. -/
def ofParts (bits : Nat) (parts : List Nat) : Nat := parts.foldl (fun acc part => acc * 2 ^ bits + part) 0

def quad (parts : List Nat) : BitVec 32 := BitVec.ofNat 32 (ofParts 8 parts)

/-- The address of which the first parts are given, and the others are zero. -/
def hextets (parts : List Nat) : BitVec 128 := BitVec.ofNat 128 (ofParts 16 (parts ++ List.replicate (8 - parts.length) 0))

/-- `address in network`, both of `w` bits -/
def inNetwork {w : Nat} (ip network : BitVec w) (len : Nat) : Bool := ip >>> (w - len) == network >>> (w - len)

/-! ## Reading -/

/-- `s.partition(c)` without the separator -/
def partition (c : Char) (s : Text) : Text × Text := (s.takeWhile (· ≠ c), (s.dropWhile (· ≠ c)).tail)

def parseOctet (s : Text) : Option Nat :=
  if s ≠ [] ∧ s.all isDigit ∧ s.length ≤ 3 ∧ (s = ['0'] ∨ s.head? ≠ some '0') ∧ ofDecimal s ≤ 255 then
    some (ofDecimal s)
  else none

def ipv4Address (s : Text) : Option (BitVec 32) :=
  if '/' ∈ s then none
  else
    let octets := s.splitOn '.'
    if octets.length ≠ 4 then none else (octets.mapM parseOctet).map quad

/-- `_parse_hextet`, of which `int` refuses the empty text -/
def parseHextet (s : Text) : Option Nat := if s = [] ∨ 4 < s.length then none else readHex 0 s

def hextetText (n : Nat) : Text :=
  match (hexDigits 4 n).dropWhile (· = '0') with
  | [] => ['0']
  | s => s

/-- A dotted last part stands for two parts. -/
def undotted (parts : List Text) : Option (List Text) :=
  match parts.getLast? with
  | some last =>
      if '.' ∈ last then
        (ipv4Address last).map fun ip =>
          parts.dropLast ++ [hextetText (ip.toNat / 2 ^ 16), hextetText (ip.toNat % 2 ^ 16)]
      else some parts
  | none => some parts

/-- `_ip_int_from_string` of an `IPv6Address` -/
def ipv6Int (s : Text) : Option (BitVec 128) :=
  let parts := s.splitOn ':'
  if parts.length < 3 then none
  else (undotted parts).bind fun parts =>
    if 9 < parts.length then none
    else
      let inner := (parts.drop 1).dropLast
      let first := parts.head?.getD []
      let last := parts.getLast?.getD []
      match inner.count [] with
      | 0 => if parts.length = 8 ∧ first ≠ [] ∧ last ≠ [] then (parts.mapM parseHextet).map hextets else none
      | 1 =>
          let skipIndex := inner.idxOf [] + 1
          -- an empty end belongs to the `::` next to it
          let hi := if first = [] then (parts.take skipIndex).tail else parts.take skipIndex
          let lo := if last = [] then (parts.drop (skipIndex + 1)).dropLast else parts.drop (skipIndex + 1)
          if (first = [] ∧ hi ≠ []) ∨ (last = [] ∧ lo ≠ []) ∨ 8 < hi.length + lo.length + 1 then none
          else (hi.mapM parseHextet).bind fun hi => (lo.mapM parseHextet).map fun lo =>
            hextets (hi ++ List.replicate (8 - (hi.length + lo.length)) 0 ++ lo)
      | _ => none

def ipv6Address (s : Text) : Option (BitVec 128 × Option Text) :=
  if '/' ∈ s then none
  else
    let (addr, scopeId) := partition '%' s
    if '%' ∉ s then (ipv6Int addr).map (·, none)
    else if scopeId = [] ∨ '%' ∈ scopeId then none
    else (ipv6Int addr).map (·, some scopeId)

def ipAddress (s : Text) : Option IpAddress :=
  match ipv4Address s with
  | some ip => some (.v4 ip)
  | none => (ipv6Address s).map fun (ip, scopeId) => .v6 ip scopeId

/-! ## Writing -/

def partsOf (bits : Nat) : Nat → Nat → List Nat
  | 0, _ => []
  | n + 1, value => partsOf bits n (value / 2 ^ bits) ++ [value % 2 ^ bits]

def ipv4Text (ip : BitVec 32) : Text := ['.'].intercalate ((partsOf 8 4 ip.toNat).map decimal)

/-- How many of the first parts are zero. -/
def zeros (parts : List Nat) : Nat := (parts.takeWhile (· = 0)).length

/-- Where the longest run of zeros starts, the first one of that length, and its length. -/
def longestRun : List Nat → Nat × Nat
  | [] => (0, 0)
  | part :: parts =>
      let (start, len) := longestRun parts
      if len ≤ zeros (part :: parts) then (0, zeros (part :: parts)) else (start + 1, len)

def compressHextets (parts : List Nat) : List Text :=
  let texts := parts.map hextetText
  let (start, len) := longestRun parts
  if 1 < len then
    (if start = 0 then [[]] else []) ++ texts.take start ++ [[]] ++ texts.drop (start + len) ++
      (if start + len = parts.length then [[]] else [])
  else texts

/-- `_string_from_ip_int` of an `IPv6Address` -/
def ipv6Text (ip : BitVec 128) : Text := [':'].intercalate (compressHextets (partsOf 16 8 ip.toNat))

def ipv4Mapped (ip : BitVec 128) : Option (BitVec 32) :=
  if ip.toNat / 2 ^ 32 = 0xffff then some (BitVec.ofNat 32 ip.toNat) else none

/-- `address.compressed`, which is `str(address)` -/
def IpAddress.compressed : IpAddress → Text
  | .v4 ip => ipv4Text ip
  | .v6 ip scopeId =>
      (match ipv4Mapped ip with
        | none => ipv6Text ip
        | some mapped => ipv6Text (hextets [0, 0, 0, 0, 0, 0, 0, 0xffff]) ++ ':' :: ipv4Text mapped) ++
      (match scopeId with
        | none => []
        | some scopeId => '%' :: scopeId)

/-! ## Properties -/

/-- A property of the addresses of either version, where an address that is mapped from version 4 has those of the
mapped one. -/
def IpAddress.viaMapped (four : BitVec 32 → Bool) (six : BitVec 128 → Bool) : IpAddress → Bool
  | .v4 ip => four ip
  | .v6 ip _ => match ipv4Mapped ip with
    | some mapped => four mapped
    | none => six ip

def privateNetworks4 : List (BitVec 32 × Nat) :=
  [(quad [0, 0, 0, 0], 8), (quad [10, 0, 0, 0], 8), (quad [127, 0, 0, 0], 8), (quad [169, 254, 0, 0], 16),
    (quad [172, 16, 0, 0], 12), (quad [192, 0, 0, 0], 24), (quad [192, 0, 0, 170], 31), (quad [192, 0, 2, 0], 24),
    (quad [192, 168, 0, 0], 16), (quad [198, 18, 0, 0], 15), (quad [198, 51, 100, 0], 24), (quad [203, 0, 113, 0], 24),
    (quad [240, 0, 0, 0], 4), (quad [255, 255, 255, 255], 32)]

def privateExceptions4 : List (BitVec 32 × Nat) := [(quad [192, 0, 0, 9], 32), (quad [192, 0, 0, 10], 32)]

def privateNetworks6 : List (BitVec 128 × Nat) :=
  [(hextets [0, 0, 0, 0, 0, 0, 0, 1], 128), (hextets [], 128), (hextets [0, 0, 0, 0, 0, 0xffff], 96),
    (hextets [0x64, 0xff9b, 1], 48), (hextets [0x100], 64), (hextets [0x2001], 23), (hextets [0x2001, 0xdb8], 32),
    (hextets [0x2002], 16), (hextets [0x3fff], 20), (hextets [0xfc00], 7), (hextets [0xfe80], 10)]

def privateExceptions6 : List (BitVec 128 × Nat) :=
  [(hextets [0x2001, 1, 0, 0, 0, 0, 0, 1], 128), (hextets [0x2001, 1, 0, 0, 0, 0, 0, 2], 128),
    (hextets [0x2001, 3], 32), (hextets [0x2001, 4, 0x112], 48), (hextets [0x2001, 0x20], 28),
    (hextets [0x2001, 0x30], 28)]

def reservedNetworks6 : List (BitVec 128 × Nat) :=
  [(hextets [], 8), (hextets [0x100], 8), (hextets [0x200], 7), (hextets [0x400], 6), (hextets [0x800], 5),
    (hextets [0x1000], 4), (hextets [0x4000], 3), (hextets [0x6000], 3), (hextets [0x8000], 3), (hextets [0xa000], 3),
    (hextets [0xc000], 3), (hextets [0xe000], 4), (hextets [0xf000], 5), (hextets [0xf800], 6), (hextets [0xfe00], 9)]

def inAny {w : Nat} (networks : List (BitVec w × Nat)) (ip : BitVec w) : Bool :=
  networks.any fun network => inNetwork ip network.1 network.2

def isPrivate4 (ip : BitVec 32) : Bool := inAny privateNetworks4 ip && !inAny privateExceptions4 ip

def isPrivate6 (ip : BitVec 128) : Bool := inAny privateNetworks6 ip && !inAny privateExceptions6 ip

def IpAddress.isPrivate : IpAddress → Bool := IpAddress.viaMapped isPrivate4 isPrivate6

/-- `address.is_global`, which the shared network of version 4 is not either -/
def IpAddress.isGlobal : IpAddress → Bool :=
  IpAddress.viaMapped (fun ip => !inNetwork ip (quad [100, 64, 0, 0]) 10 && !isPrivate4 ip) fun ip => !isPrivate6 ip

def IpAddress.isLoopback : IpAddress → Bool := IpAddress.viaMapped (inNetwork · (quad [127, 0, 0, 0]) 8) (· == 1)

def IpAddress.isLinkLocal : IpAddress → Bool :=
  IpAddress.viaMapped (inNetwork · (quad [169, 254, 0, 0]) 16) (inNetwork · (hextets [0xfe80]) 10)

def IpAddress.isMulticast : IpAddress → Bool :=
  IpAddress.viaMapped (inNetwork · (quad [224, 0, 0, 0]) 4) (inNetwork · (hextets [0xff00]) 8)

def IpAddress.isReserved : IpAddress → Bool :=
  IpAddress.viaMapped (inNetwork · (quad [240, 0, 0, 0]) 4) (inAny reservedNetworks6)

def IpAddress.isUnspecified : IpAddress → Bool := IpAddress.viaMapped (· == 0) (· == 0)

end Etoeragcb.Lib
