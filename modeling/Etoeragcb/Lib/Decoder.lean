import Etoeragcb.Lib.Utf8
import Mathlib.Data.Char

/-!
# Decoding a stream of bytes

The decoder of UTF-8 that reads a stream byte by byte, as `TextDecoder` of a browser does: what is malformed is replaced, and
a byte order mark in front of the text is left out.
-/

namespace Etoeragcb.Lib

/-- The bits of the character that is being read, how many bytes it still needs, and the bounds of the next one. -/
structure Utf8Decoder where
  codePoint : Nat
  needed : Nat
  lower : Nat
  upper : Nat
deriving DecidableEq

namespace Utf8Decoder

def new : Utf8Decoder := ⟨0, 0, 0x80, 0xbf⟩

def replacement : Char := '\uFFFD'

/-- A byte that no character needs. -/
def lead (b : Nat) : Utf8Decoder × Text :=
  if b ≤ 0x7f then (new, [Char.ofNat b])
  else if 0xc2 ≤ b ∧ b ≤ 0xdf then (⟨b - 0xc0, 1, 0x80, 0xbf⟩, [])
  else if 0xe0 ≤ b ∧ b ≤ 0xef then
    (⟨b - 0xe0, 2, if b = 0xe0 then 0xa0 else 0x80, if b = 0xed then 0x9f else 0xbf⟩, [])
  else if 0xf0 ≤ b ∧ b ≤ 0xf4 then
    (⟨b - 0xf0, 3, if b = 0xf0 then 0x90 else 0x80, if b = 0xf4 then 0x8f else 0xbf⟩, [])
  else (new, [replacement])

def byte (d : Utf8Decoder) (b : Nat) : Utf8Decoder × Text :=
  match d.needed with
  | 0 => lead b
  | n + 1 =>
      if d.lower ≤ b ∧ b ≤ d.upper then
        let codePoint := 64 * d.codePoint + (b - 0x80)
        if n = 0 then (new, [Char.ofNat codePoint]) else (⟨codePoint, n, 0x80, 0xbf⟩, [])
      else ((lead b).1, replacement :: (lead b).2)

def bytes (d : Utf8Decoder) : List UInt8 → Utf8Decoder × Text
  | [] => (d, [])
  | b :: bs => (((d.byte b.toNat).1.bytes bs).1, (d.byte b.toNat).2 ++ ((d.byte b.toNat).1.bytes bs).2)

end Utf8Decoder

structure TextDecoder where
  decoder : Utf8Decoder
  bomSeen : Bool
deriving DecidableEq

namespace TextDecoder

def new : TextDecoder := ⟨.new, false⟩

/-- `decode(bytes, { stream: true })` -/
def decode (d : TextDecoder) (fragment : List UInt8) : TextDecoder × Text :=
  let (decoder, s) := d.decoder.bytes fragment
  if d.bomSeen || s.isEmpty then (⟨decoder, d.bomSeen⟩, s)
  else (⟨decoder, true⟩, if s.head? = some '\uFEFF' then s.drop 1 else s)

/-- What `decode` without bytes returns at the end. -/
def flush (d : TextDecoder) : Text := if d.decoder.needed = 0 then [] else [Utf8Decoder.replacement]

def after (d : TextDecoder) : List (List UInt8) → TextDecoder
  | [] => d
  | fragment :: fragments => (d.decode fragment).1.after fragments

def decodeAll (d : TextDecoder) : List (List UInt8) → List Text
  | [] => []
  | fragment :: fragments => (d.decode fragment).2 :: (d.decode fragment).1.decodeAll fragments

end TextDecoder

/-! ## Decoding what is encoded -/

variable {c : Char} {s t : Text} {bs : List UInt8} {fragments : List (List UInt8)}

namespace Utf8Decoder

theorem bytes_append (d : Utf8Decoder) (bs cs : List UInt8) :
    d.bytes (bs ++ cs) = (((d.bytes bs).1.bytes cs).1, (d.bytes bs).2 ++ ((d.bytes bs).1.bytes cs).2) := by
  induction bs generalizing d with
  | nil => rfl
  | cons b bs ih => simp only [List.cons_append, bytes, ih, List.append_assoc]

theorem bytes_cons {d d' : Utf8Decoder} {b : Nat} (hb : b < 256) (h : d.byte b = (d', s)) (bs : List UInt8) :
    d.bytes (UInt8.ofNat b :: bs) = ((d'.bytes bs).1, s ++ (d'.bytes bs).2) := by
  have hnat : (UInt8.ofNat b).toNat = b := Nat.mod_eq_of_lt hb
  rw [bytes, hnat, h]

theorem byte_lead (b : Nat) : new.byte b = lead b := rfl

theorem byte_more {d : Utf8Decoder} {b n : Nat} (hneeded : d.needed = n + 2) (hlower : d.lower ≤ b) (hupper : b ≤ d.upper) :
    d.byte b = (⟨64 * d.codePoint + (b - 0x80), n + 1, 0x80, 0xbf⟩, []) := by
  simp only [byte, hneeded, if_pos (And.intro hlower hupper), Nat.succ_ne_zero, if_false]

theorem byte_last {d : Utf8Decoder} {b : Nat} (hneeded : d.needed = 1) (hlower : d.lower ≤ b) (hupper : b ≤ d.upper) :
    d.byte b = (new, [Char.ofNat (64 * d.codePoint + (b - 0x80))]) := by
  simp only [byte, hneeded, if_pos (And.intro hlower hupper), if_true]

theorem toNat_range (c : Char) : c.toNat < 0xd800 ∨ 0xdfff < c.toNat ∧ c.toNat < 0x110000 := c.valid

theorem bytes_char (c : Char) : new.bytes (String.utf8EncodeChar c) = (new, [c]) := by
  have hrange := toNat_range c
  have hback : ∀ n, n = c.toNat → ([Char.ofNat n] : Text) = [c] := fun n hn => by rw [hn, Char.ofNat_toNat]
  have hv : c.val.toNat = c.toNat := rfl
  simp only [String.utf8EncodeChar, hv]
  generalize c.toNat = n at hrange hback
  by_cases h1 : n ≤ 0x7f
  · rw [if_pos h1, bytes_cons (by omega) ((byte_lead n).trans (if_pos h1)), hback n rfl]
    rfl
  · rw [if_neg h1]
    by_cases h2 : n ≤ 0x7ff
    · have hlead : new.byte (n / 64 % 0x20 + 0xc0) = (⟨n / 64, 1, 0x80, 0xbf⟩, []) := by
        rw [byte_lead, lead, if_neg (by omega), if_pos (by omega), show n / 64 % 0x20 + 0xc0 - 0xc0 = n / 64 by omega]
      rw [if_pos h2, bytes_cons (by omega) hlead, bytes_cons (by omega) (byte_last rfl (by dsimp; omega) (by dsimp; omega)),
        hback _ (by dsimp; omega)]
      rfl
    · rw [if_neg h2]
      by_cases h3 : n ≤ 0xffff
      · have hlead : new.byte (n / 4096 % 0x10 + 0xe0) =
            (⟨n / 4096, 2, if n / 4096 = 0 then 0xa0 else 0x80, if n / 4096 = 0xd then 0x9f else 0xbf⟩, []) := by
          rw [byte_lead, lead, if_neg (by omega), if_neg (by omega), if_pos (by omega),
            show n / 4096 % 0x10 + 0xe0 - 0xe0 = n / 4096 by omega,
            if_congr (show n / 4096 % 0x10 + 0xe0 = 0xe0 ↔ n / 4096 = 0 by omega) rfl rfl,
            if_congr (show n / 4096 % 0x10 + 0xe0 = 0xed ↔ n / 4096 = 0xd by omega) rfl rfl]
        rw [if_pos h3, bytes_cons (by omega) hlead, bytes_cons (by omega) (byte_more rfl (by dsimp; split <;> omega)
          (by dsimp; split <;> omega)), bytes_cons (by omega) (byte_last rfl (by dsimp; omega) (by dsimp; omega)),
          hback _ (by dsimp; omega)]
        rfl
      · have hlead : new.byte (n / 262144 % 0x08 + 0xf0) =
            (⟨n / 262144, 3, if n / 262144 = 0 then 0x90 else 0x80, if n / 262144 = 4 then 0x8f else 0xbf⟩, []) := by
          rw [byte_lead, lead, if_neg (by omega), if_neg (by omega), if_neg (by omega), if_pos (by omega),
            show n / 262144 % 0x08 + 0xf0 - 0xf0 = n / 262144 by omega,
            if_congr (show n / 262144 % 0x08 + 0xf0 = 0xf0 ↔ n / 262144 = 0 by omega) rfl rfl,
            if_congr (show n / 262144 % 0x08 + 0xf0 = 0xf4 ↔ n / 262144 = 4 by omega) rfl rfl]
        rw [if_neg h3, bytes_cons (by omega) hlead, bytes_cons (by omega) (byte_more rfl (by dsimp; split <;> omega)
          (by dsimp; split <;> omega)), bytes_cons (by omega) (byte_more rfl (by dsimp; omega) (by dsimp; omega)),
          bytes_cons (by omega) (byte_last rfl (by dsimp; omega) (by dsimp; omega)), hback _ (by dsimp; omega)]
        rfl

theorem bytes_utf8 (s : Text) : new.bytes (utf8 s) = (new, s) := by
  induction s with
  | nil => rfl
  | cons c s ih =>
      have hcut : utf8 (c :: s) = String.utf8EncodeChar c ++ utf8 s := rfl
      rw [hcut, bytes_append, bytes_char, ih]
      rfl

end Utf8Decoder

namespace TextDecoder

theorem flatten_decodeAll_seen (d : Utf8Decoder) (fragments : List (List UInt8)) :
    (decodeAll ⟨d, true⟩ fragments).flatten = (d.bytes fragments.flatten).2 ∧
      after ⟨d, true⟩ fragments = ⟨(d.bytes fragments.flatten).1, true⟩ := by
  induction fragments generalizing d with
  | nil => exact ⟨rfl, rfl⟩
  | cons fragment fragments ih =>
      have hdecode : decode ⟨d, true⟩ fragment = (⟨(d.bytes fragment).1, true⟩, (d.bytes fragment).2) := rfl
      rw [decodeAll, after, hdecode, List.flatten_cons, List.flatten_cons, Utf8Decoder.bytes_append, (ih _).1, (ih _).2]
      exact ⟨rfl, rfl⟩

/-- Fragments are decoded as the bytes that they make up, unless the text begins with a byte order mark. -/
theorem decodeAll_spec {d : Utf8Decoder} (h : (d.bytes fragments.flatten).2.head? ≠ some '\uFEFF') :
    (decodeAll ⟨d, false⟩ fragments).flatten = (d.bytes fragments.flatten).2 ∧
      (after ⟨d, false⟩ fragments).decoder = (d.bytes fragments.flatten).1 := by
  induction fragments generalizing d with
  | nil => exact ⟨rfl, rfl⟩
  | cons fragment fragments ih =>
      rw [List.flatten_cons, Utf8Decoder.bytes_append] at h ⊢
      rw [decodeAll, after, List.flatten_cons]
      by_cases hs : (d.bytes fragment).2 = []
      · have hdecode : decode ⟨d, false⟩ fragment = (⟨(d.bytes fragment).1, false⟩, []) := by
          simp [decode, hs]
        rw [hs, List.nil_append] at h
        rw [hdecode, hs, (ih h).1, (ih h).2]
        exact ⟨rfl, rfl⟩
      · have hhead : (d.bytes fragment).2.head? ≠ some '\uFEFF' := by
          obtain ⟨c, s, hc⟩ := List.exists_cons_of_ne_nil hs
          rw [hc] at h ⊢
          exact h
        have hdecode : decode ⟨d, false⟩ fragment = (⟨(d.bytes fragment).1, true⟩, (d.bytes fragment).2) := by
          simp [decode, hs, hhead]
        obtain ⟨htexts, hafter⟩ := flatten_decodeAll_seen (d.bytes fragment).1 fragments
        rw [hdecode, htexts, hafter]
        exact ⟨rfl, rfl⟩

/-- However the bytes of a text are cut, the text is read. -/
theorem decodeAll_utf8 (hs : s.head? ≠ some '\uFEFF') (h : fragments.flatten = utf8 s) :
    (new.decodeAll fragments).flatten = s ∧ (new.after fragments).flush = [] := by
  have hbytes := Utf8Decoder.bytes_utf8 s
  rw [← h] at hbytes
  have hhead : (Utf8Decoder.new.bytes fragments.flatten).2.head? ≠ some '\uFEFF' := by rw [hbytes]; exact hs
  obtain ⟨htexts, hafter⟩ := decodeAll_spec hhead
  rw [hbytes] at htexts hafter
  refine ⟨htexts, ?_⟩
  rw [flush, show (new.after fragments).decoder = .new from hafter]
  rfl

end TextDecoder

end Etoeragcb.Lib
