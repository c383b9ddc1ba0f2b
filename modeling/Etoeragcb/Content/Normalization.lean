import Etoeragcb.Lib.Unicode

/-!
# The lexical form of a text

`app/ingest/normalization.py`.
-/

namespace Etoeragcb.Content

open Lib

def turkishMarkers : Text := ['ç', 'ğ', 'ı', 'ö', 'ş', 'ü', 'Ç', 'Ğ', 'İ', 'Ö', 'Ş', 'Ü']

def turkishCaseMap (c : Char) : Char :=
  if c = 'I' then 'ı' else if c = 'İ' then 'i' else c

inductive Language
  | auto | tr | other
deriving DecidableEq

/-- `WHITESPACE_RE.sub(" ", …)`, behind whitespace or not. -/
def collapse : Bool → Text → Text
  | _, [] => []
  | inSpace, c :: s =>
      if isSpace c then (if inSpace then collapse true s else ' ' :: collapse true s) else c :: collapse false s

variable (u : Unicode)

def isTurkish (language : Language) (normalized : Text) : Bool :=
  decide (language = .tr) || (decide (language = .auto) && normalized.any (turkishMarkers.contains ·))

def fold (turkish : Bool) (normalized : Text) : Text :=
  if turkish then u.lower (normalized.map turkishCaseMap) else u.casefold normalized

def normalizeLexicalIn (language : Language) (text : Text) : Text :=
  let normalized := u.nfkc text
  strip (collapse false (fold u (isTurkish language normalized) normalized))

/-- `normalize_lexical` with its default language. -/
def normalizeLexical (text : Text) : Text := normalizeLexicalIn u .auto text

end Etoeragcb.Content
