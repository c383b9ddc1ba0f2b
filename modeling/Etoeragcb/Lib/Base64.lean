import Etoeragcb.Lib.Text
import Mathlib.Data.List.Infix

/-!
# Base64 for URLs

`urlsafe_b64encode` and `urlsafe_b64decode`, which skips the characters that stand for nothing.
-/

namespace Etoeragcb.Lib

def base64Char (n : Nat) : Char :=
  if n < 26 then Char.ofNat (65 + n)
  else if n < 52 then Char.ofNat (71 + n)
  else if n < 62 then Char.ofNat (n - 4)
  else if n = 62 then '-' else '_'

/-- What a character stands for; those of the other alphabet are kept by the translation. -/
def base64Value (c : Char) : Option Nat :=
  if 'A' ≤ c ∧ c ≤ 'Z' then some (c.toNat - 65)
  else if 'a' ≤ c ∧ c ≤ 'z' then some (c.toNat - 71)
  else if isDigit c then some (c.toNat + 4)
  else if c = '-' ∨ c = '+' then some 62
  else if c = '_' ∨ c = '/' then some 63
  else none

def base64Encode : List UInt8 → Text
  | [] => []
  | [a] => [base64Char (a.toNat / 4), base64Char (a.toNat % 4 * 16), '=', '=']
  | [a, b] => [base64Char (a.toNat / 4), base64Char (a.toNat % 4 * 16 + b.toNat / 16), base64Char (b.toNat % 16 * 4), '=']
  | a :: b :: c :: bytes =>
      base64Char (a.toNat / 4) :: base64Char (a.toNat % 4 * 16 + b.toNat / 16) ::
        base64Char (b.toNat % 16 * 4 + c.toNat / 64) :: base64Char (c.toNat % 64) :: base64Encode bytes

/-- The bytes of the text behind `pos` characters of a quad, of which `left` is left over, and `pads` paddings. -/
def decodeQuads (pos left pads : Nat) : Text → Option (List UInt8)
  | [] => if pos = 0 then some [] else none
  | c :: s =>
      if c = '=' then
        if 2 ≤ pos ∧ 4 ≤ pos + (pads + 1) then some []
        else decodeQuads pos left (if 2 ≤ pos then pads + 1 else pads) s
      else
        match base64Value c with
        | none => decodeQuads pos left pads s
        | some v =>
            match pos with
            | 0 => decodeQuads 1 v 0 s
            | 1 => (decodeQuads 2 (v % 16) 0 s).map (UInt8.ofNat (left * 4 + v / 16) :: ·)
            | 2 => (decodeQuads 3 (v % 4) 0 s).map (UInt8.ofNat (left * 16 + v / 4) :: ·)
            | _ => (decodeQuads 0 0 0 s).map (UInt8.ofNat (left * 64 + v) :: ·)

def isAscii (c : Char) : Bool := c.toNat < 128

/-- Only ASCII texts are decoded. -/
def base64Decode (s : Text) : Option (List UInt8) := if s.all isAscii then decodeQuads 0 0 0 s else none

/-! ## What is encoded can be decoded -/

theorem value_base64Char : ∀ n < 64, base64Value (base64Char n) = some n := by decide

theorem base64Char_ne : ∀ n < 64, base64Char n ≠ '=' ∧ base64Char n ≠ '.' ∧ isAscii (base64Char n) = true := by decide

variable {pos left pads n : Nat} {s : Text} {bytes : List UInt8}

theorem decodeQuads_char (h : n < 64) : decodeQuads pos left pads (base64Char n :: s) =
    match pos with
    | 0 => decodeQuads 1 n 0 s
    | 1 => (decodeQuads 2 (n % 16) 0 s).map (UInt8.ofNat (left * 4 + n / 16) :: ·)
    | 2 => (decodeQuads 3 (n % 4) 0 s).map (UInt8.ofNat (left * 16 + n / 4) :: ·)
    | _ => (decodeQuads 0 0 0 s).map (UInt8.ofNat (left * 64 + n) :: ·) := by
  rw [decodeQuads, if_neg (base64Char_ne n h).1, value_base64Char n h]

theorem decodeQuads_first (h : n < 64) : decodeQuads 0 left pads (base64Char n :: s) = decodeQuads 1 n 0 s :=
  decodeQuads_char h

theorem decodeQuads_second {b : UInt8} (h : n < 64) (hb : left * 4 + n / 16 = b.toNat) :
    decodeQuads 1 left pads (base64Char n :: s) = (decodeQuads 2 (n % 16) 0 s).map (b :: ·) := by
  have hb' : UInt8.ofNat (left * 4 + n / 16) = b := by rw [hb, UInt8.ofNat_toNat]
  exact hb' ▸ decodeQuads_char h

theorem decodeQuads_third {b : UInt8} (h : n < 64) (hb : left * 16 + n / 4 = b.toNat) :
    decodeQuads 2 left pads (base64Char n :: s) = (decodeQuads 3 (n % 4) 0 s).map (b :: ·) := by
  have hb' : UInt8.ofNat (left * 16 + n / 4) = b := by rw [hb, UInt8.ofNat_toNat]
  exact hb' ▸ decodeQuads_char h

theorem decodeQuads_fourth {b : UInt8} (h : n < 64) (hb : left * 64 + n = b.toNat) :
    decodeQuads 3 left pads (base64Char n :: s) = (decodeQuads 0 0 0 s).map (b :: ·) := by
  have hb' : UInt8.ofNat (left * 64 + n) = b := by rw [hb, UInt8.ofNat_toNat]
  exact hb' ▸ decodeQuads_char h

theorem decodeQuads_encode (bytes : List UInt8) : decodeQuads 0 0 0 (base64Encode bytes) = some bytes := by
  induction bytes using base64Encode.induct with
  | case1 => rfl
  | case2 a =>
      have ha := a.toNat_lt
      rw [base64Encode, decodeQuads_first (by omega), decodeQuads_second (b := a) (by omega) (by omega)]
      rfl
  | case3 a b =>
      have ha := a.toNat_lt
      have hb := b.toNat_lt
      rw [base64Encode, decodeQuads_first (by omega), decodeQuads_second (b := a) (by omega) (by omega),
        decodeQuads_third (b := b) (by omega) (by omega)]
      rfl
  | case4 a b c bytes ih =>
      have ha := a.toNat_lt
      have hb := b.toNat_lt
      have hc := c.toNat_lt
      rw [base64Encode, decodeQuads_first (by omega), decodeQuads_second (b := a) (by omega) (by omega),
        decodeQuads_third (b := b) (by omega) (by omega), decodeQuads_fourth (b := c) (by omega) (by omega), ih]
      rfl

/-! ## Without the padding -/

def b64encode (value : List UInt8) : Text := (base64Encode value).rdropWhile (· = '=')

def b64decode (value : Text) : Option (List UInt8) :=
  base64Decode (value ++ List.replicate ((4 - value.length % 4) % 4) '=')

def isBase64Url (c : Char) : Bool := isAscii c && c != '.' && c != '='

theorem isBase64Url_char (h : n < 64) : isBase64Url (base64Char n) = true := by
  have hc := base64Char_ne n h
  simp [isBase64Url, hc.1, hc.2.1, hc.2.2]

theorem rdropWhile_replicate {c : Char} (h : c ∉ s) (n : Nat) :
    (s ++ List.replicate n c).rdropWhile (· = c) = s := by
  induction n with
  | zero =>
      rw [List.replicate_zero, List.append_nil, List.rdropWhile_eq_self_iff]
      intro hs hc
      exact h (of_decide_eq_true hc ▸ List.getLast_mem hs)
  | succ n ih =>
      rw [List.replicate_succ', ← List.append_assoc, List.rdropWhile_concat, if_pos (decide_eq_true rfl)]
      exact ih

theorem base64Encode_body (bytes : List UInt8) : ∃ body, (∀ c ∈ body, isBase64Url c = true) ∧
    base64Encode bytes = body ++ List.replicate ((4 - body.length % 4) % 4) '=' := by
  induction bytes using base64Encode.induct with
  | case1 => exact ⟨[], by simp, rfl⟩
  | case2 a =>
      have ha := a.toNat_lt
      refine ⟨[base64Char (a.toNat / 4), base64Char (a.toNat % 4 * 16)], ?_, rfl⟩
      simp only [List.forall_mem_cons]
      exact ⟨isBase64Url_char (by omega), isBase64Url_char (by omega), List.forall_mem_nil _⟩
  | case3 a b =>
      have ha := a.toNat_lt
      have hb := b.toNat_lt
      refine ⟨[base64Char (a.toNat / 4), base64Char (a.toNat % 4 * 16 + b.toNat / 16), base64Char (b.toNat % 16 * 4)],
        ?_, rfl⟩
      simp only [List.forall_mem_cons]
      exact ⟨isBase64Url_char (by omega), isBase64Url_char (by omega), isBase64Url_char (by omega), List.forall_mem_nil _⟩
  | case4 a b c bytes ih =>
      have ha := a.toNat_lt
      have hb := b.toNat_lt
      have hc := c.toNat_lt
      obtain ⟨body, hbody, he⟩ := ih
      refine ⟨base64Char (a.toNat / 4) :: base64Char (a.toNat % 4 * 16 + b.toNat / 16) ::
        base64Char (b.toNat % 16 * 4 + c.toNat / 64) :: base64Char (c.toNat % 64) :: body, ?_, ?_⟩
      · simp only [List.forall_mem_cons]
        exact ⟨isBase64Url_char (by omega), isBase64Url_char (by omega), isBase64Url_char (by omega),
          isBase64Url_char (by omega), hbody⟩
      · simp only [base64Encode, he, List.length_cons, List.cons_append, Nat.add_assoc, Nat.reduceAdd, Nat.add_mod_right]

theorem b64encode_body (bytes : List UInt8) : (∀ c ∈ b64encode bytes, isBase64Url c = true) ∧
    base64Encode bytes = b64encode bytes ++ List.replicate ((4 - (b64encode bytes).length % 4) % 4) '=' := by
  obtain ⟨body, hbody, he⟩ := base64Encode_body bytes
  have hpad : '=' ∉ body := fun hc => absurd (hbody _ hc) (by decide)
  have hcut : b64encode bytes = body := by
    rw [b64encode, he]
    exact rdropWhile_replicate hpad _
  rw [hcut]
  exact ⟨hbody, he⟩

theorem b64decode_b64encode (bytes : List UInt8) : b64decode (b64encode bytes) = some bytes := by
  obtain ⟨hbody, he⟩ := b64encode_body bytes
  rw [b64decode, ← he, base64Decode, if_pos]
  · exact decodeQuads_encode bytes
  · rw [he, List.all_append, Bool.and_eq_true, List.all_eq_true, List.all_eq_true]
    refine ⟨fun c hc => ?_, fun c hc => ?_⟩
    · have hurl := hbody c hc
      simp only [isBase64Url, Bool.and_eq_true] at hurl
      exact hurl.1.1
    · rw [List.eq_of_mem_replicate hc]
      rfl

theorem length_base64Encode (bytes : List UInt8) : (base64Encode bytes).length = 4 * ((bytes.length + 2) / 3) := by
  induction bytes using base64Encode.induct with
  | case1 => rfl
  | case2 a => simp [base64Encode]
  | case3 a b => simp [base64Encode]
  | case4 a b c bytes ih =>
      simp only [base64Encode, List.length_cons, ih]
      omega

theorem length_b64encode (bytes : List UInt8) : 4 * ((bytes.length + 2) / 3) < (b64encode bytes).length + 4 ∧
    (b64encode bytes).length ≤ 4 * ((bytes.length + 2) / 3) := by
  have hlen := congrArg List.length (b64encode_body bytes).2
  rw [length_base64Encode, List.length_append, List.length_replicate] at hlen
  omega

end Etoeragcb.Lib
