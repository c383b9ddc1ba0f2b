import Etoeragcb.Lib.Text

/-!
# Case and compatibility forms

What `unicodedata.normalize("NFKC", s)`, `str.lower` and `str.casefold` take from the Unicode character database,
as parameters, with the rules of `str.lower` and `str.casefold` over them.
-/

namespace Etoeragcb.Lib

/-- The parts of the character database that the rules below go by. -/
structure Unicode where
  nfkc : Text → Text
  lowerChar : Char → Text
  foldChar : Char → Text
  isCased : Char → Bool
  isCaseIgnorable : Char → Bool

variable (u : Unicode)

/-- A capital sigma is final behind a cased letter and before none, case-ignorable characters apart. -/
def Unicode.isFinal (before after : Text) : Bool :=
  (before.dropWhile u.isCaseIgnorable).head?.any u.isCased &&
    !(after.dropWhile u.isCaseIgnorable).head?.any u.isCased

/-- `str.lower` behind the characters `before`, the last one first. -/
def Unicode.lowerFrom : Text → Text → Text
  | _, [] => []
  | before, c :: s =>
      (if c = 'Σ' then [if u.isFinal before s then 'ς' else 'σ'] else u.lowerChar c) ++
        Unicode.lowerFrom (c :: before) s

def Unicode.lower (s : Text) : Text := u.lowerFrom [] s

def Unicode.casefold (s : Text) : Text := s.flatMap u.foldChar

/-! ## A sample of the database -/

/-- The small form of an ASCII letter, or of a Turkish one but `İ`. -/
def Unicode.latinLower (c : Char) : Text :=
  if 'A' ≤ c ∧ c ≤ 'Z' then [Char.ofNat (c.toNat + 32)]
  else match c with
    | 'Ç' => ['ç'] | 'Ğ' => ['ğ'] | 'Ö' => ['ö'] | 'Ş' => ['ş'] | 'Ü' => ['ü']
    | 'İ' => ['i', '\u0307']
    | _ => [c]

/-- What the database says of texts over ASCII and the Turkish letters. -/
def Unicode.latin : Unicode where
  nfkc s := s
  lowerChar := latinLower
  foldChar := latinLower
  isCased c := isLetter c || c ∈ ['ç', 'ğ', 'ı', 'ö', 'ş', 'ü', 'Ç', 'Ğ', 'İ', 'Ö', 'Ş', 'Ü']
  isCaseIgnorable c := c ∈ ['.', ':', '^', Char.ofNat 39, Char.ofNat 96]

end Etoeragcb.Lib
