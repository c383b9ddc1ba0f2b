import Etoeragcb.Lib.Lemmas.Json
import Etoeragcb.Lib.Scan
import Mathlib.Data.Char
import Mathlib.Data.List.Lex

/-!
# UUIDs and their texts

`str` of a `uuid.UUID`, and the constructor that reads a text. The digits are those of `[0-9A-Fa-f]`: the signs,
prefixes and underscores that `int` takes as well are left out.
-/

namespace Etoeragcb.Lib

structure UUID where
  value : Nat
  lt : value < 2 ^ 128
deriving DecidableEq

/-- The last `n` hexadecimal digits of a number. -/
def hexDigits : Nat → Nat → Text
  | 0, _ => []
  | n + 1, value => hexDigits n (value / 16) ++ [Json.hexDigit (value % 16)]

/-- `int(hex, 16)` behind digits of the value `acc`. -/
def readHex : Nat → Text → Option Nat
  | acc, [] => some acc
  | acc, c :: s => (Json.hexValue c).bind fun d => readHex (16 * acc + d) s

/-- `str(uuid)` -/
def UUID.text (u : UUID) : Text :=
  let h := hexDigits 32 u.value
  h.take 8 ++ '-' :: ((h.drop 8).take 4 ++ '-' :: ((h.drop 12).take 4 ++ '-' :: ((h.drop 16).take 4 ++ '-' :: h.drop 20)))

/-- `s.replace(old, '')` -/
def removeAll (old s : Text) : Text := rewrite (fun s => if old.isPrefixOf s then some ([], old.length) else none) s

def isBrace (c : Char) : Bool := c == '{' || c == '}'

/-- `uuid.UUID(s)` -/
def UUID.ofText (s : Text) : Option UUID :=
  let hex := (((removeAll "uuid:".toList (removeAll "urn:".toList s)).dropWhile isBrace).rdropWhile isBrace).filter (· ≠ '-')
  if hex.length = 32 then
    (readHex 0 hex).bind fun n => if h : n < 2 ^ 128 then some ⟨n, h⟩ else none
  else none

/-! ## Reading what is written -/

variable {s : Text} {c : Char} {n : Nat}

theorem length_hexDigits (n value : Nat) : (hexDigits n value).length = n := by
  induction n generalizing value with
  | zero => rfl
  | succ n ih => rw [hexDigits, List.length_append, ih, List.length_singleton]

theorem readHex_append (acc : Nat) (s t : Text) : readHex acc (s ++ t) = (readHex acc s).bind fun n => readHex n t := by
  induction s generalizing acc with
  | nil => rfl
  | cons c s ih =>
      rw [List.cons_append, readHex, readHex]
      cases Json.hexValue c with
      | none => rfl
      | some d => exact ih _

theorem readHex_hexDigits (n acc value : Nat) : readHex acc (hexDigits n value) = some (16 ^ n * acc + value % 16 ^ n) := by
  induction n generalizing value with
  | zero => simp [hexDigits, readHex, Nat.mod_one]
  | succ n ih =>
      have hlt := Nat.mod_lt value (show 0 < 16 by decide)
      rw [hexDigits, readHex_append, ih, Option.bind_some, readHex, (Json.hexDigit_spec _ hlt).1, Option.bind_some, readHex,
        pow_succ, Nat.mul_comm (16 ^ n) 16, Nat.mod_mul, Nat.mul_add]
      congr 1
      ring

def isUuidChar (c : Char) : Bool := isDigit c || ('a' ≤ c && c ≤ 'f') || c == '-'

theorem hexDigit_isUuidChar : ∀ n < 16, isUuidChar (Json.hexDigit n) = true ∧ Json.hexDigit n ≠ '-' := by decide

theorem mem_hexDigits {value : Nat} (h : c ∈ hexDigits n value) : isUuidChar c = true ∧ c ≠ '-' := by
  induction n generalizing value with
  | zero => exact absurd h List.not_mem_nil
  | succ n ih =>
      rw [hexDigits, List.mem_append, List.mem_singleton] at h
      rcases h with h | rfl
      · exact ih h
      · exact hexDigit_isUuidChar _ (Nat.mod_lt value (by decide))

theorem groups_append (h : Text) : h.take 8 ++ ((h.drop 8).take 4 ++ ((h.drop 12).take 4 ++ ((h.drop 16).take 4 ++ h.drop 20))) = h := by
  have h₁ := List.take_append_drop 4 (h.drop 16)
  have h₂ := List.take_append_drop 4 (h.drop 12)
  have h₃ := List.take_append_drop 4 (h.drop 8)
  rw [List.drop_drop] at h₁ h₂ h₃
  rw [h₁, h₂, h₃, List.take_append_drop]

namespace UUID

theorem text_filter (u : UUID) : u.text.filter (· ≠ '-') = hexDigits 32 u.value := by
  have hkeep : ∀ s : Text, (∀ c ∈ s, c ∈ hexDigits 32 u.value) → s.filter (· ≠ '-') = s := fun s hs =>
    List.filter_eq_self.mpr fun c hc => decide_eq_true (mem_hexDigits (hs c hc)).2
  have hcut : ∀ s, ('-' :: s : Text).filter (· ≠ '-') = s.filter (· ≠ '-') := fun s => List.filter_cons_of_neg (by simp)
  simp only [text, List.filter_append, hcut]
  rw [hkeep _ fun c hc => List.mem_of_mem_take hc, hkeep _ fun c hc => List.mem_of_mem_drop (List.mem_of_mem_take hc),
    hkeep _ fun c hc => List.mem_of_mem_drop (List.mem_of_mem_take hc),
    hkeep _ fun c hc => List.mem_of_mem_drop (List.mem_of_mem_take hc), hkeep _ fun c hc => List.mem_of_mem_drop hc]
  exact groups_append _

theorem mem_text {u : UUID} (h : c ∈ u.text) : isUuidChar c = true := by
  have hdigit : c ∈ hexDigits 32 u.value → isUuidChar c = true := fun hc => (mem_hexDigits hc).1
  have hdash : c = '-' → isUuidChar c = true := fun hc => hc ▸ rfl
  simp only [text, List.mem_append, List.mem_cons] at h
  rcases h with h | h | h | h | h | h | h | h | h
  · exact hdigit (List.mem_of_mem_take h)
  · exact hdash h
  · exact hdigit (List.mem_of_mem_drop (List.mem_of_mem_take h))
  · exact hdash h
  · exact hdigit (List.mem_of_mem_drop (List.mem_of_mem_take h))
  · exact hdash h
  · exact hdigit (List.mem_of_mem_drop (List.mem_of_mem_take h))
  · exact hdash h
  · exact hdigit (List.mem_of_mem_drop h)

theorem length_text (u : UUID) : u.text.length = 36 := by
  simp [text, length_hexDigits]

end UUID

theorem removeAll_eq_self {old : Text} (ho : c ∈ old) (hs : c ∉ s) : removeAll old s = s := by
  refine rewrite_eq_self fun t ht => if_neg fun hp => hs ?_
  exact ht.mem ((List.isPrefixOf_iff_prefix.mp hp).mem ho)

theorem dropBraces_eq_self (h : ∀ c ∈ s, isBrace c = false) : (s.dropWhile isBrace).rdropWhile isBrace = s := by
  have hd : s.dropWhile isBrace = s := by
    cases s with
    | nil => rfl
    | cons c s => exact List.dropWhile_cons_of_neg (by simp [h c List.mem_cons_self])
  rw [hd, List.rdropWhile_eq_self_iff]
  intro hs
  simp [h _ (List.getLast_mem hs)]

theorem UUID.ofText_text (u : UUID) : ofText u.text = some u := by
  have hcolon : ':' ∉ u.text := fun h => absurd (mem_text h) (by decide)
  have hbrace : ∀ c ∈ u.text, isBrace c = false := by
    intro c hc
    by_contra hb
    have hchar := mem_text hc
    simp only [isBrace, Bool.not_eq_false, Bool.or_eq_true, beq_iff_eq] at hb
    rcases hb with rfl | rfl <;> exact absurd hchar (by decide)
  have hvalue : u.value % 16 ^ 32 = u.value := Nat.mod_eq_of_lt (lt_of_lt_of_eq u.lt (by decide))
  simp only [ofText]
  rw [removeAll_eq_self (show ':' ∈ "urn:".toList by decide) hcolon, removeAll_eq_self (show ':' ∈ "uuid:".toList by decide) hcolon,
    dropBraces_eq_self hbrace, text_filter, if_pos (length_hexDigits 32 u.value), readHex_hexDigits, Option.bind_some]
  simp only [Nat.mul_zero, Nat.zero_add, hvalue, u.lt, ↓reduceDIte]

/-! ## The order of texts -/

theorem append_lt_append_iff {a b s t : Text} (h : a.length = b.length) : a ++ s < b ++ t ↔ a < b ∨ a = b ∧ s < t := by
  induction a generalizing b with
  | nil =>
      rw [List.length_nil] at h
      rw [List.eq_nil_of_length_eq_zero h.symm]
      simp
  | cons c a ih =>
      cases b with
      | nil => cases h
      | cons d b =>
          rw [List.cons_append, List.cons_append, List.cons_lt_cons_iff, List.cons_lt_cons_iff, ih (Nat.succ.inj h),
            List.cons.injEq]
          tauto

theorem hexDigit_lt {m n : Nat} (hn : n < 16) (h : m < n) : Json.hexDigit m < Json.hexDigit n := by
  have hall : ∀ n : Fin 16, ∀ m : Fin 16, m < n → Json.hexDigit m < Json.hexDigit n := by decide
  exact hall ⟨n, hn⟩ ⟨m, h.trans hn⟩ h

theorem hexDigits_lt {k m n : Nat} (hn : n < 16 ^ k) (h : m < n) : hexDigits k m < hexDigits k n := by
  induction k generalizing m n with
  | zero => simp at hn; omega
  | succ k ih =>
      rw [hexDigits, hexDigits, append_lt_append_iff (by rw [length_hexDigits, length_hexDigits])]
      have hdiv : n / 16 < 16 ^ k := Nat.div_lt_of_lt_mul (by rw [← pow_succ']; exact hn)
      rcases Nat.lt_or_eq_of_le (Nat.div_le_div_right (c := 16) h.le) with hlt | heq
      · exact Or.inl (ih hdiv hlt)
      · refine Or.inr ⟨by rw [heq], ?_⟩
        rw [List.cons_lt_cons_iff]
        exact Or.inl (hexDigit_lt (Nat.mod_lt _ (by decide)) (by omega))

theorem separated_lt {a b : Text} (i : Nat) (c : Char) {s t : Text} (hlength : a.length = b.length) (h : a < b)
    (htail : a.drop i < b.drop i → s < t) : a.take i ++ c :: s < b.take i ++ c :: t := by
  rw [← List.take_append_drop i a, ← List.take_append_drop i b,
    append_lt_append_iff (by rw [List.length_take, List.length_take, hlength])] at h
  rw [append_lt_append_iff (by rw [List.length_take, List.length_take, hlength]), List.cons_lt_cons_iff]
  exact h.imp_right fun h => ⟨h.1, Or.inr ⟨rfl, htail h.2⟩⟩

theorem UUID.text_lt {u v : UUID} (h : u.value < v.value) : u.text < v.text := by
  have hdigits := hexDigits_lt (k := 32) (by have := v.lt; norm_num; exact this) h
  have hlength : ∀ i, ((hexDigits 32 u.value).drop i).length = ((hexDigits 32 v.value).drop i).length := fun i => by
    rw [List.length_drop, List.length_drop, length_hexDigits, length_hexDigits]
  refine separated_lt 8 '-' (hlength 0) hdigits fun h8 => ?_
  refine separated_lt 4 '-' (hlength 8) h8 fun h12 => ?_
  rw [List.drop_drop, List.drop_drop] at h12
  refine separated_lt 4 '-' (hlength 12) h12 fun h16 => ?_
  rw [List.drop_drop, List.drop_drop] at h16
  refine separated_lt 4 '-' (hlength 16) h16 fun h20 => ?_
  rw [List.drop_drop, List.drop_drop] at h20
  exact h20

end Etoeragcb.Lib
