import Etoeragcb.Lib.Text

/-!
# JSON

Values, the compact text that `orjson.dumps` writes of them, and a parser of JSON texts. Numbers that are not integers
stay literals, and an object keeps its members as they are written.
-/

namespace Etoeragcb.Lib

/-! ## Numbers -/

/-- `0` or digits without a leading zero -/
def isDecimal (s : Text) : Bool := s != [] && s.all isDigit && (s == ['0'] || s.head? != some '0')

def dropSign : Text → Text
  | '-' :: s => s
  | s => s

def isDigits (s : Text) : Bool := s != [] && s.all isDigit

/-- `[eE][+-]?[0-9]+` -/
def isExponent : Text → Bool
  | e :: '+' :: s => (e == 'e' || e == 'E') && isDigits s
  | e :: '-' :: s => (e == 'e' || e == 'E') && isDigits s
  | e :: s => (e == 'e' || e == 'E') && isDigits s
  | [] => false

def isFraction : Text → Bool
  | '.' :: s => isDigits (s.takeWhile isDigit) && ((s.dropWhile isDigit).isEmpty || isExponent (s.dropWhile isDigit))
  | s => isExponent s

def isInteger (s : Text) : Bool := isDecimal (dropSign s)

def isNumeric (c : Char) : Bool := isDigit c || ['-', '+', '.', 'e', 'E'].contains c

def isFloat (s : Text) : Bool :=
  s.all isNumeric && isDecimal ((dropSign s).takeWhile isDigit) && isFraction ((dropSign s).dropWhile isDigit)

/-- A number with a fraction or an exponent, as it is written. -/
structure FloatLiteral where
  text : Text
  valid : isFloat text = true
deriving DecidableEq

def decimal (n : Nat) : Text := Nat.toDigits 10 n

def ofDecimal (s : Text) : Nat := Nat.ofDigitChars 10 s 0

def encodeInt (n : Int) : Text := if n < 0 then '-' :: decimal n.natAbs else decimal n.natAbs

def decodeInt : Text → Int
  | '-' :: s => -(ofDecimal s : Int)
  | s => ofDecimal s

/-! ## Values and their texts -/

inductive Json
  | null
  | bool (b : Bool)
  | int (n : Int)
  | float (literal : FloatLiteral)
  | str (s : Text)
  | arr (items : List Json)
  | obj (members : List (Text × Json))

namespace Json

/-- The member under a key; the last one counts. -/
def get? (members : List (Text × Json)) (key : Text) : Option Json :=
  (members.reverse.find? fun x => x.1 = key).map Prod.snd

def hexDigit (n : Nat) : Char := if n < 10 then Char.ofNat (48 + n) else Char.ofNat (87 + n)

def escape (c : Char) : Text :=
  if c = '"' then ['\\', '"']
  else if c = '\\' then ['\\', '\\']
  else if c = '\x08' then ['\\', 'b']
  else if c = '\t' then ['\\', 't']
  else if c = '\n' then ['\\', 'n']
  else if c = '\x0c' then ['\\', 'f']
  else if c = '\r' then ['\\', 'r']
  else if c.toNat < 32 then ['\\', 'u', '0', '0', hexDigit (c.toNat / 16), hexDigit (c.toNat % 16)]
  else [c]

def encodeString (s : Text) : Text := '"' :: (s.flatMap escape ++ ['"'])

mutual
/-- `orjson.dumps` -/
def encode : Json → Text
  | .null => ['n', 'u', 'l', 'l']
  | .bool true => ['t', 'r', 'u', 'e']
  | .bool false => ['f', 'a', 'l', 's', 'e']
  | .int n => encodeInt n
  | .float l => l.text
  | .str s => encodeString s
  | .arr [] => ['[', ']']
  | .arr (v :: vs) => '[' :: (v.encode ++ encodeItems vs)
  | .obj [] => ['{', '}']
  | .obj ((k, v) :: ms) => '{' :: (encodeString k ++ ':' :: (v.encode ++ encodeMembers ms))

/-- The items behind the first one, with the end of the array. -/
def encodeItems : List Json → Text
  | [] => [']']
  | v :: vs => ',' :: (v.encode ++ encodeItems vs)

/-- The members behind the first one, with the end of the object. -/
def encodeMembers : List (Text × Json) → Text
  | [] => ['}']
  | (k, v) :: ms => ',' :: (encodeString k ++ ':' :: (v.encode ++ encodeMembers ms))
end

/-! ## Parsing -/

def isBlank (c : Char) : Bool := c == ' ' || c == '\t' || c == '\n' || c == '\r'

def skip (s : Text) : Text := s.dropWhile isBlank

def hexValue (c : Char) : Option Nat :=
  if isDigit c then some (c.toNat - 48)
  else if 'a' ≤ c ∧ c ≤ 'f' then some (c.toNat - 87)
  else if 'A' ≤ c ∧ c ≤ 'F' then some (c.toNat - 55)
  else none

/-- What a character behind a backslash stands for. -/
def unescape (c : Char) : Option Nat :=
  if c = '"' ∨ c = '\\' ∨ c = '/' then some c.toNat
  else if c = 'b' then some 8
  else if c = 't' then some 9
  else if c = 'n' then some 10
  else if c = 'f' then some 12
  else if c = 'r' then some 13
  else none

/-- Where the reader of a string stands: behind a backslash, or before the last `left + 1` digits of `\u`. -/
inductive Mode
  | plain
  | escape
  | hex (left : Nat) (value : Nat)

/-- The code points up to the closing quote, where an escape stands for one UTF-16 unit, and what is left. -/
def units : Mode → Text → Option (List Nat × Text)
  | _, [] => none
  | .plain, c :: s =>
      if c = '"' then some ([], s)
      else if c = '\\' then units .escape s
      else if c.toNat < 32 then none
      else (units .plain s).map fun x => (c.toNat :: x.1, x.2)
  | .escape, c :: s =>
      if c = 'u' then units (.hex 3 0) s
      else (unescape c).bind fun n => (units .plain s).map fun x => (n :: x.1, x.2)
  | .hex left value, c :: s =>
      (hexValue c).bind fun d =>
        match left with
        | 0 => (units .plain s).map fun x => ((16 * value + d) :: x.1, x.2)
        | left + 1 => units (.hex left (16 * value + d)) s

def isHigh (n : Nat) : Bool := 0xd800 ≤ n && n ≤ 0xdbff

def isLow (n : Nat) : Bool := 0xdc00 ≤ n && n ≤ 0xdfff

/-- Surrogates are joined; a lone one is an error. -/
def join : List Nat → Option Text
  | [] => some []
  | [n] => if isHigh n || isLow n then none else some [Char.ofNat n]
  | n :: m :: ns =>
      if isHigh n then
        if isLow m then (join ns).map (Char.ofNat (0x10000 + 0x400 * (n - 0xd800) + (m - 0xdc00)) :: ·) else none
      else if isLow n then none
      else (join (m :: ns)).map (Char.ofNat n :: ·)

def string (s : Text) : Option (Text × Text) := (units .plain s).bind fun x => (join x.1).map fun t => (t, x.2)

def number (s : Text) : Option (Json × Text) :=
  let token := s.takeWhile isNumeric
  if isInteger token then some (.int (decodeInt token), s.dropWhile isNumeric)
  else if h : isFloat token = true then some (.float ⟨token, h⟩, s.dropWhile isNumeric)
  else none

def keyword (s : Text) : Option (Json × Text) :=
  if ['n', 'u', 'l', 'l'].isPrefixOf s then some (.null, s.drop 4)
  else if ['t', 'r', 'u', 'e'].isPrefixOf s then some (.bool true, s.drop 4)
  else if ['f', 'a', 'l', 's', 'e'].isPrefixOf s then some (.bool false, s.drop 5)
  else none

def member (value : Text → Option (Json × Text)) (s : Text) : Option ((Text × Json) × Text) :=
  match skip s with
  | '"' :: s =>
      (string s).bind fun x =>
        match skip x.2 with
        | ':' :: s => (value s).map fun y => ((x.1, y.1), y.2)
        | _ => none
  | _ => none

mutual
/-- A value at the beginning of the text, and what is left behind it. Every bracket and comma takes one of `fuel`. -/
def value : Nat → Text → Option (Json × Text)
  | 0, _ => none
  | fuel + 1, s =>
      match skip s with
      | [] => none
      | c :: s =>
          if c = '"' then (string s).map fun x => (.str x.1, x.2)
          else if c = '[' then
            match skip s with
            | ']' :: r => some (.arr [], r)
            | s => (value fuel s).bind fun x => (items fuel x.2).map fun y => (.arr (x.1 :: y.1), y.2)
          else if c = '{' then
            match skip s with
            | '}' :: r => some (.obj [], r)
            | s => (member (value fuel) s).bind fun x => (members fuel x.2).map fun y => (.obj (x.1 :: y.1), y.2)
          else if isNumeric c then number (c :: s)
          else keyword (c :: s)

def items : Nat → Text → Option (List Json × Text)
  | 0, _ => none
  | fuel + 1, s =>
      match skip s with
      | ']' :: r => some ([], r)
      | ',' :: s => (value fuel s).bind fun x => (items fuel x.2).map fun y => (x.1 :: y.1, y.2)
      | _ => none

def members : Nat → Text → Option (List (Text × Json) × Text)
  | 0, _ => none
  | fuel + 1, s =>
      match skip s with
      | '}' :: r => some ([], r)
      | ',' :: s => (member (value fuel) s).bind fun x => (members fuel x.2).map fun y => (x.1 :: y.1, y.2)
      | _ => none
end

def parse (s : Text) : Option Json :=
  (value (s.length + 1) s).bind fun x => if skip x.2 = [] then some x.1 else none

end Json

end Etoeragcb.Lib
