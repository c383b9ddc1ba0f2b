import Etoeragcb.Lib.Text

/-!
# Strings of code points

A `str` may hold lone surrogates, which cannot be encoded.
-/

namespace Etoeragcb.Lib

abbrev CodePoint := Fin 0x110000

/-- A `str` of any code points. -/
abbrev Str := List CodePoint

def codePoint (c : Char) : CodePoint := Fin.ofNat 0x110000 c.toNat

def Str.ofText (s : Text) : Str := s.map codePoint

def CodePoint.char? (n : CodePoint) : Option Char := if n.val.isValidChar then some (Char.ofNat n.val) else none

/-- The characters of a `str` without surrogates. -/
def Str.text? : Str → Option Text
  | [] => some []
  | n :: s => (CodePoint.char? n).bind fun c => (Str.text? s).map (c :: ·)

/-- `str.encode` -/
def utf8 (s : Text) : List UInt8 := s.flatMap String.utf8EncodeChar

/-- `bytes.decode` -/
def ofUtf8 (bytes : List UInt8) : Option Text := bytes.toByteArray.utf8Decode?.map Array.toList

variable {s t : Text} {c : Char}

theorem ofUtf8_utf8 (s : Text) : ofUtf8 (utf8 s) = some s := by
  have h : (utf8 s).toByteArray = s.utf8Encode := rfl
  rw [ofUtf8, h, List.utf8Decode?_utf8Encode]
  rfl

theorem utf8_injective : Function.Injective utf8 := fun s t h => by
  have hs := ofUtf8_utf8 s
  rw [h, ofUtf8_utf8] at hs
  exact (Option.some.inj hs).symm

theorem codePoint_val (c : Char) : (codePoint c).val = c.toNat := by
  have hc : c.toNat < 0x110000 := by
    rcases c.valid with h | h
    · exact lt_trans h (by decide)
    · exact h.2
  exact Nat.mod_eq_of_lt hc

theorem char?_codePoint (c : Char) : (codePoint c).char? = some c := by
  have hv : c.toNat.isValidChar := c.valid
  rw [CodePoint.char?, codePoint_val, if_pos hv, Char.ofNat_toNat]

theorem codePoint_of_char? {n : CodePoint} (h : n.char? = some c) : n = codePoint c := by
  by_cases hv : n.val.isValidChar
  · rw [CodePoint.char?, if_pos hv] at h
    rw [← Option.some.inj h]
    refine Fin.ext ?_
    rw [codePoint_val, Char.ofNat, dif_pos hv]
    rfl
  · rw [CodePoint.char?, if_neg hv] at h
    cases h

theorem text?_ofText (s : Text) : (Str.ofText s).text? = some s := by
  induction s with
  | nil => rfl
  | cons c s ih =>
      have hcut : Str.ofText (c :: s) = codePoint c :: Str.ofText s := rfl
      rw [hcut, Str.text?, char?_codePoint, ih]
      rfl

theorem eq_ofText {s : Str} (h : s.text? = some t) : s = Str.ofText t := by
  induction s generalizing t with
  | nil =>
      cases h
      rfl
  | cons n s ih =>
      obtain ⟨c, hc, ht⟩ := Option.bind_eq_some_iff.mp h
      obtain ⟨t, hs, rfl⟩ := Option.map_eq_some_iff.mp ht
      exact congrArg₂ List.cons (codePoint_of_char? hc) (ih hs)

end Etoeragcb.Lib
