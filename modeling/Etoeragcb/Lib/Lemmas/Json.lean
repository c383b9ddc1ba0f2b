import Etoeragcb.Lib.Json
import Mathlib.Data.List.Infix
import Mathlib.Data.Nat.Digits.Defs

/-!
# Written values are read back

The text of a value is parsed to the value again, and no proper prefix of the text of an object is parsed.
-/

namespace Etoeragcb.Lib

/-! ## Numbers -/

theorem isDigit_of_mem_decimal {n : Nat} {c : Char} (h : c ∈ decimal n) : isDigit c = true := by
  have hd : c.isDigit = true := Nat.isDigit_of_mem_toDigits (by decide) (le_refl _) h
  simp only [Char.isDigit, ge_iff_le, Bool.and_eq_true, decide_eq_true_eq] at hd
  simp only [isDigit, Bool.and_eq_true, decide_eq_true_eq]
  exact hd

theorem colon_notMem_decimal (n : Nat) : ':' ∉ decimal n := fun h => absurd (isDigit_of_mem_decimal h) (by decide)

theorem ofDecimal_decimal (n : Nat) : ofDecimal (decimal n) = n := Nat.ofDigitChars_toDigits (by decide) (by decide)

theorem decimal_ne_nil (n : Nat) : decimal n ≠ [] := Nat.toDigits_ne_nil

theorem decimal_head {n : Nat} (hn : 0 < n) : ∃ d ds, decimal n = d :: ds ∧ d ≠ '0' := by
  induction n using Nat.strong_induction_on with
  | h n ih =>
      by_cases hlt : n < 10
      · refine ⟨_, [], Nat.toDigits_of_lt_base hlt, ?_⟩
        have hsmall : ∀ m < 10, 0 < m → Nat.digitChar m ≠ '0' := by decide
        exact hsmall n hlt hn
      · obtain ⟨d, ds, hd, hne⟩ := ih (n / 10) (by omega) (by omega)
        rw [decimal, Nat.toDigits_of_base_le (by decide) (by omega)]
        rw [decimal] at hd
        exact ⟨d, ds ++ [_], by rw [hd]; rfl, hne⟩

theorem isDecimal_decimal (n : Nat) : isDecimal (decimal n) = true := by
  have hall : (decimal n).all isDigit = true := List.all_eq_true.mpr fun c => isDigit_of_mem_decimal
  rcases Nat.eq_zero_or_pos n with rfl | hn
  · decide
  · obtain ⟨d, ds, hd, hne⟩ := decimal_head hn
    rw [hd] at hall ⊢
    simp [isDecimal, hall, hne]

theorem dropSign_decimal (n : Nat) : dropSign (decimal n) = decimal n := by
  have hd : ∀ c ∈ decimal n, isDigit c = true := fun c => isDigit_of_mem_decimal
  cases h : decimal n with
  | nil => rfl
  | cons c s =>
      rw [h] at hd
      have hc : c ≠ '-' := by
        rintro rfl
        exact absurd (hd '-' List.mem_cons_self) (by decide)
      unfold dropSign
      split
      · rename_i heq
        exact absurd (List.cons.inj heq).1 hc
      · rfl

theorem isInteger_encodeInt (n : Int) : isInteger (encodeInt n) = true := by
  rw [isInteger, encodeInt]
  split
  · exact isDecimal_decimal _
  · rw [dropSign_decimal]
    exact isDecimal_decimal _

theorem decodeInt_encodeInt (n : Int) : decodeInt (encodeInt n) = n := by
  rw [encodeInt]
  split
  · rw [decodeInt, ofDecimal_decimal]
    omega
  · have hs := dropSign_decimal n.natAbs
    rw [decodeInt]
    · rw [ofDecimal_decimal]
      omega
    · intro s he
      rw [he] at hs
      simp only [dropSign] at hs
      exact absurd (congrArg List.length hs) (by simp)

theorem isNumeric_of_mem_encodeInt {n : Int} {c : Char} (h : c ∈ encodeInt n) : isNumeric c = true := by
  have hdec : ∀ c ∈ decimal n.natAbs, isNumeric c = true := fun c hc => by
    simp [isNumeric, isDigit_of_mem_decimal hc]
  rw [encodeInt] at h
  split at h
  · rcases List.mem_cons.mp h with rfl | h
    · decide
    · exact hdec c h
  · exact hdec c h

theorem FloatLiteral.isNumeric_of_mem (l : FloatLiteral) {c : Char} (h : c ∈ l.text) : isNumeric c = true := by
  have hv := l.valid
  simp only [isFloat, Bool.and_eq_true] at hv
  exact List.all_eq_true.mp hv.1.1 c h

theorem dropWhile_isDigit_eq_nil {s : Text} (h : s.all isDigit = true) : s.dropWhile isDigit = [] := by
  rw [List.dropWhile_eq_nil_iff]
  exact List.all_eq_true.mp h

theorem FloatLiteral.not_isInteger (l : FloatLiteral) : isInteger l.text = false := by
  have hv := l.valid
  simp only [isFloat, Bool.and_eq_true] at hv
  cases hi : isInteger l.text with
  | false => rfl
  | true =>
      simp only [isInteger, isDecimal, Bool.and_eq_true] at hi
      have hf := hv.2
      rw [dropWhile_isDigit_eq_nil hi.1.2] at hf
      exact absurd hf (by decide)

theorem FloatLiteral.ne_nil (l : FloatLiteral) : l.text ≠ [] := by
  intro h
  have hv := l.valid
  rw [h] at hv
  exact absurd hv (by decide)

theorem encodeInt_ne_nil (n : Int) : encodeInt n ≠ [] := by
  rw [encodeInt]
  split
  · exact List.cons_ne_nil _ _
  · exact decimal_ne_nil _

namespace Json

variable {v : Json} {vs : List Json} {ms : List (Text × Json)} {r s t u : Text} {c : Char} {n m : Nat}

/-- What follows does not go on with a number. -/
def Ends (r : Text) : Prop := ∀ c u, r = c :: u → isNumeric c = false

theorem ends_nil : Ends [] := fun _ _ h => by cases h

theorem ends_cons (h : isNumeric c = false) : Ends (c :: r) := fun _ _ he => (List.cons.inj he).1 ▸ h

theorem takeWhile_token (ht : ∀ c ∈ t, isNumeric c = true) (hr : Ends r) :
    (t ++ r).takeWhile isNumeric = t ∧ (t ++ r).dropWhile isNumeric = r := by
  have hr' : r.takeWhile isNumeric = [] ∧ r.dropWhile isNumeric = r := by
    cases r with
    | nil => exact ⟨rfl, rfl⟩
    | cons c u => simp [hr c u rfl]
  rw [List.takeWhile_append_of_pos ht, List.dropWhile_append_of_pos ht, hr'.1, hr'.2, List.append_nil]
  exact ⟨rfl, rfl⟩

theorem number_encodeInt (n : Int) (hr : Ends r) : number (encodeInt n ++ r) = some (.int n, r) := by
  obtain ⟨ht, hd⟩ := takeWhile_token (t := encodeInt n) (fun c => isNumeric_of_mem_encodeInt) hr
  simp only [number, ht, hd, isInteger_encodeInt, decodeInt_encodeInt, ↓reduceIte]

theorem number_float (l : FloatLiteral) (hr : Ends r) : number (l.text ++ r) = some (.float l, r) := by
  obtain ⟨ht, hd⟩ := takeWhile_token (t := l.text) (fun c => l.isNumeric_of_mem) hr
  simp only [number, ht, hd, l.not_isInteger, Bool.false_eq_true, ↓reduceIte, l.valid, ↓reduceDIte]

/-! ## Strings -/

theorem hexDigit_spec : ∀ n < 16, hexValue (hexDigit n) = some n ∧ 32 ≤ (hexDigit n).toNat := by decide

theorem units_escape : units .plain (escape c ++ s) = (units .plain s).map fun x => (c.toNat :: x.1, x.2) := by
  unfold escape
  split_ifs with h₁ h₂ h₃ h₄ h₅ h₆ h₇ h₈
  · subst h₁; simp [units, unescape]
  · subst h₂; simp [units, unescape]
  · subst h₃; simp [units, unescape]
  · subst h₄; simp [units, unescape]
  · subst h₅; simp [units, unescape]
  · subst h₆; simp [units, unescape]
  · subst h₇; simp [units, unescape]
  · have hz : hexValue '0' = some 0 := by decide
    have hv : 16 * (c.toNat / 16) + c.toNat % 16 = c.toNat := by omega
    simp [units, hz,
        (hexDigit_spec (c.toNat / 16) (by omega)).1, (hexDigit_spec (c.toNat % 16) (by omega)).1, hv]
  · simp [units, h₁, h₂, h₈]

theorem units_encode : units .plain (s.flatMap escape ++ '"' :: r) = some (s.map Char.toNat, r) := by
  induction s with
  | nil => simp [units]
  | cons c s ih => simp [List.append_assoc, units_escape, ih]

theorem surrogate_free (c : Char) : isHigh c.toNat = false ∧ isLow c.toNat = false := by
  have hv := c.valid
  simp only [UInt32.isValidChar, Nat.isValidChar] at hv
  simp only [isHigh, isLow, Char.toNat, Bool.and_eq_false_iff, decide_eq_false_iff_not]
  omega

theorem join_toNat (s : Text) : join (s.map Char.toNat) = some s := by
  induction s with
  | nil => rfl
  | cons c s ih =>
      obtain ⟨hh, hl⟩ := surrogate_free c
      cases s with
      | nil => simp [join, hh, hl]
      | cons d s =>
          rw [List.map_cons] at ih
          simp [join, hh, hl, ih]

theorem string_encode : string (s.flatMap escape ++ '"' :: r) = some (s, r) := by
  simp [string, units_encode, join_toNat]

/-! ## Values -/

theorem skip_cons (h : isBlank c = false) : skip (c :: s) = c :: s := by
  simp [skip, h]

theorem ne_of_isNumeric {d : Char} (h : isNumeric c = true) (hd : isNumeric d = false) : c ≠ d := by
  rintro rfl
  rw [h] at hd
  cases hd

theorem isBlank_of_isNumeric (h : isNumeric c = true) : isBlank c = false := by
  simp [isBlank, ne_of_isNumeric h (show isNumeric ' ' = false by decide),
    ne_of_isNumeric h (show isNumeric '\t' = false by decide), ne_of_isNumeric h (show isNumeric '\n' = false by decide),
    ne_of_isNumeric h (show isNumeric '\r' = false by decide)]

theorem encode_head (v : Json) : ∃ c t, v.encode = c :: t ∧ isBlank c = false ∧ c ≠ ']' ∧ c ≠ '}' := by
  have hnumeric : ∀ s : Text, s ≠ [] → (∀ c ∈ s, isNumeric c = true) →
      ∃ c t, s = c :: t ∧ isBlank c = false ∧ c ≠ ']' ∧ c ≠ '}' := by
    intro s hs hall
    obtain ⟨c, t, rfl⟩ := List.exists_cons_of_ne_nil hs
    have hc := hall c List.mem_cons_self
    exact ⟨c, t, rfl, isBlank_of_isNumeric hc, ne_of_isNumeric hc (by decide), ne_of_isNumeric hc (by decide)⟩
  match v with
  | .null => exact ⟨_, _, encode.eq_1, by decide⟩
  | .bool true => exact ⟨_, _, encode.eq_2, by decide⟩
  | .bool false => exact ⟨_, _, encode.eq_3, by decide⟩
  | .int n =>
      rw [encode]
      exact hnumeric _ (encodeInt_ne_nil n) fun c => isNumeric_of_mem_encodeInt
  | .float l =>
      rw [encode]
      exact hnumeric _ l.ne_nil fun c => l.isNumeric_of_mem
  | .str s => exact ⟨_, _, by rw [encode, encodeString], by decide⟩
  | .arr [] => exact ⟨_, _, by rw [encode], by decide⟩
  | .arr (_ :: _) => exact ⟨_, _, by rw [encode], by decide⟩
  | .obj [] => exact ⟨_, _, by rw [encode], by decide⟩
  | .obj ((_, _) :: _) => exact ⟨_, _, by rw [encode], by decide⟩

theorem skip_encode (v : Json) (r : Text) : skip (v.encode ++ r) = v.encode ++ r := by
  obtain ⟨c, t, he, hb, -⟩ := encode_head v
  rw [he]
  exact skip_cons hb

theorem encode_ne_close (v : Json) (r u : Text) : v.encode ++ r ≠ ']' :: u := by
  obtain ⟨c, t, he, -, hc, -⟩ := encode_head v
  rw [he]
  exact fun h => hc (List.cons.inj h).1

theorem value_quote : value (n + 1) ('"' :: s) = (string s).map fun x => (.str x.1, x.2) := by
  rw [value, skip_cons (by decide)]
  rfl

theorem value_numeric (h : isNumeric c = true) : value (n + 1) (c :: s) = number (c :: s) := by
  rw [value, skip_cons (isBlank_of_isNumeric h)]
  simp only [ne_of_isNumeric h (show isNumeric '"' = false by decide), ne_of_isNumeric h (show isNumeric '[' = false by decide),
    ne_of_isNumeric h (show isNumeric '{' = false by decide), h, ↓reduceIte]

theorem value_bracket (hs : skip s = s) (hne : ∀ u, s ≠ ']' :: u) :
    value (n + 1) ('[' :: s) = (value n s).bind fun x => (items n x.2).map fun y => (.arr (x.1 :: y.1), y.2) := by
  rw [value, skip_cons (by decide)]
  simp only [Char.reduceEq, ↓reduceIte, hs]

theorem value_brace (hs : skip s = s) (hne : ∀ u, s ≠ '}' :: u) :
    value (n + 1) ('{' :: s) =
      (member (value n) s).bind fun x => (members n x.2).map fun y => (.obj (x.1 :: y.1), y.2) := by
  rw [value, skip_cons (by decide)]
  simp only [Char.reduceEq, ↓reduceIte, hs]

theorem items_comma : items (n + 1) (',' :: s) = (value n s).bind fun x => (items n x.2).map fun y => (x.1 :: y.1, y.2) := by
  rw [items, skip_cons (by decide)]
  rfl

theorem members_comma :
    members (n + 1) (',' :: s) = (member (value n) s).bind fun x => (members n x.2).map fun y => (x.1 :: y.1, y.2) := by
  rw [members, skip_cons (by decide)]
  rfl

theorem member_encode {k : Text} {f : Text → Option (Json × Text)} (h : f s = some (v, r)) :
    member f (encodeString k ++ ':' :: s) = some ((k, v), r) := by
  simp [member, encodeString, List.append_assoc, skip_cons (show isBlank '"' = false by decide), string_encode,
    skip_cons (show isBlank ':' = false by decide), h]

theorem skip_encodeString (k r : Text) : skip (encodeString k ++ r) = encodeString k ++ r := skip_cons (by decide)

theorem encodeString_ne_close (k r u : Text) : encodeString k ++ r ≠ '}' :: u :=
  fun h => absurd (List.cons.inj h).1 (by decide)

theorem ends_items (vs : List Json) (r : Text) : Ends (encodeItems vs ++ r) := by
  cases vs with
  | nil => exact ends_cons (by decide)
  | cons v vs => exact ends_cons (by decide)

theorem ends_members (ms : List (Text × Json)) (r : Text) : Ends (encodeMembers ms ++ r) := by
  cases ms with
  | nil => exact ends_cons (by decide)
  | cons m ms => exact ends_cons (by decide)

mutual
theorem value_encode : (v : Json) → ∀ {n r}, v.encode.length ≤ n → Ends r → value n (v.encode ++ r) = some (v, r)
  | v, 0, r, hn, _ => by
      obtain ⟨c, t, he, -⟩ := encode_head v
      rw [he] at hn
      exact absurd hn (by simp)
  | .null, n + 1, r, _, _ => rfl
  | .bool true, n + 1, r, _, _ => rfl
  | .bool false, n + 1, r, _, _ => rfl
  | .int k, n + 1, r, _, hr => by
      obtain ⟨c, t, he⟩ := List.exists_cons_of_ne_nil (encodeInt_ne_nil k)
      have hnum := number_encodeInt k hr
      rw [encode]
      rw [he] at hnum ⊢
      rw [List.cons_append, value_numeric (isNumeric_of_mem_encodeInt (n := k) (he ▸ List.mem_cons_self))]
      exact hnum
  | .float l, n + 1, r, _, hr => by
      obtain ⟨c, t, he⟩ := List.exists_cons_of_ne_nil l.ne_nil
      have hnum := number_float l hr
      rw [encode]
      rw [he] at hnum ⊢
      rw [List.cons_append, value_numeric (l.isNumeric_of_mem (he ▸ List.mem_cons_self))]
      exact hnum
  | .str s, n + 1, r, _, _ => by
      rw [encode, encodeString, List.cons_append, value_quote, List.append_assoc, List.singleton_append, string_encode]
      rfl
  | .arr [], n + 1, r, _, _ => rfl
  | .obj [], n + 1, r, _, _ => rfl
  | .arr (v :: vs), n + 1, r, hn, _ => by
      rw [encode, List.length_cons, List.length_append] at hn
      rw [encode, List.cons_append, List.append_assoc,
        value_bracket (skip_encode v _) (encode_ne_close v _),
        value_encode v (by omega) (ends_items vs r), Option.bind_some, items_encode vs (by omega)]
      rfl
  | .obj ((k, v) :: ms), n + 1, r, hn, _ => by
      rw [encode, List.length_cons, List.length_append, List.length_cons, List.length_append] at hn
      rw [encode, List.cons_append, List.append_assoc, List.cons_append, List.append_assoc,
        value_brace (skip_encodeString k _) (encodeString_ne_close k _),
        member_encode (value_encode v (by omega) (ends_members ms r)), Option.bind_some, members_encode ms (by omega)]
      rfl

theorem items_encode : (vs : List Json) → ∀ {n r}, (encodeItems vs).length ≤ n → items n (encodeItems vs ++ r) = some (vs, r)
  | [], 0, r, hn => absurd hn (by simp [encodeItems])
  | _ :: _, 0, r, hn => absurd hn (by simp [encodeItems])
  | [], n + 1, r, _ => rfl
  | v :: vs, n + 1, r, hn => by
      rw [encodeItems, List.length_cons, List.length_append] at hn
      rw [encodeItems, List.cons_append, List.append_assoc, items_comma, value_encode v (by omega) (ends_items vs r),
        Option.bind_some, items_encode vs (by omega)]
      rfl

theorem members_encode : (ms : List (Text × Json)) → ∀ {n r}, (encodeMembers ms).length ≤ n →
    members n (encodeMembers ms ++ r) = some (ms, r)
  | [], 0, r, hn => absurd hn (by simp [encodeMembers])
  | (_, _) :: _, 0, r, hn => absurd hn (by simp [encodeMembers])
  | [], n + 1, r, _ => rfl
  | (k, v) :: ms, n + 1, r, hn => by
      rw [encodeMembers, List.length_cons, List.length_append, List.length_cons, List.length_append] at hn
      rw [encodeMembers, List.cons_append, List.append_assoc, List.cons_append, List.append_assoc, members_comma,
        member_encode (value_encode v (by omega) (ends_members ms r)), Option.bind_some, members_encode ms (by omega)]
      rfl
end

theorem parse_encode (v : Json) : parse v.encode = some v := by
  have h := value_encode v (n := v.encode.length + 1) (r := []) (Nat.le_succ _) ends_nil
  rw [List.append_nil] at h
  rw [parse, h, Option.bind_some]
  exact if_pos rfl

/-! ## Longer texts -/

theorem skip_append (h : skip s = c :: u) : skip (s ++ t) = c :: (u ++ t) := by
  have hs : s.dropWhile isBlank = c :: u := h
  rw [skip, List.dropWhile_append, hs]
  rfl

theorem skip_eq_cons_of_ne (h : skip s ≠ []) : ∃ c u, skip s = c :: u := List.exists_cons_of_ne_nil h

theorem units_append {mode : Mode} {us : List Nat} (h : units mode s = some (us, r)) :
    units mode (s ++ t) = some (us, r ++ t) := by
  induction s generalizing mode us with
  | nil => cases mode <;> cases h
  | cons c s ih =>
      have hmap : ∀ {mode : Mode} {k : Nat}, (units mode s).map (fun x => (k :: x.1, x.2)) = some (us, r) →
          (units mode (s ++ t)).map (fun x => (k :: x.1, x.2)) = some (us, r ++ t) := by
        intro mode k hk
        obtain ⟨⟨us', r'⟩, hx, he⟩ := Option.map_eq_some_iff.mp hk
        cases he
        rw [ih hx]
        rfl
      cases mode with
      | plain =>
          simp only [List.cons_append, units] at h ⊢
          split_ifs at h ⊢
          · cases h
            rfl
          · exact ih h
          · exact hmap h
      | escape =>
          simp only [List.cons_append, units] at h ⊢
          split_ifs at h ⊢
          · exact ih h
          · obtain ⟨k, hk, h⟩ := Option.bind_eq_some_iff.mp h
            rw [hk]
            exact hmap h
      | hex left value =>
          simp only [List.cons_append, units] at h ⊢
          obtain ⟨d, hd, h⟩ := Option.bind_eq_some_iff.mp h
          rw [hd]
          cases left with
          | zero => exact hmap h
          | succ left => exact ih h

theorem string_append {x : Text} (h : string s = some (x, r)) : string (s ++ t) = some (x, r ++ t) := by
  obtain ⟨⟨us, r'⟩, hu, h⟩ := Option.bind_eq_some_iff.mp h
  obtain ⟨y, hy, he⟩ := Option.map_eq_some_iff.mp h
  cases he
  simp [string, units_append hu, hy]

theorem number_append (h : number s = some (v, r)) (hr : r ≠ []) : number (s ++ t) = some (v, r ++ t) := by
  have hdrop : s.dropWhile isNumeric = r := by
    simp only [number] at h
    split_ifs at h <;> simp_all
  have hd : (s ++ t).dropWhile isNumeric = r ++ t := by
    rw [List.dropWhile_append, hdrop, if_neg (by simpa using hr)]
  have ht : (s ++ t).takeWhile isNumeric = s.takeWhile isNumeric := by
    have hsplit := List.takeWhile_append_dropWhile (p := isNumeric) (l := s)
    have hsplit' := List.takeWhile_append_dropWhile (p := isNumeric) (l := s ++ t)
    rw [hd] at hsplit'
    rw [hdrop] at hsplit
    nth_rewrite 2 [← hsplit] at hsplit'
    rw [List.append_assoc] at hsplit'
    exact List.append_cancel_right hsplit'
  simp only [number, ht, hd]
  simp only [number, hdrop] at h
  split_ifs at h ⊢ <;> simp_all

theorem keyword_append (h : keyword s = some (v, r)) : keyword (s ++ t) = some (v, r ++ t) := by
  unfold keyword at h
  split_ifs at h with h₁ h₂ h₃
  · obtain ⟨z, rfl⟩ := List.isPrefixOf_iff_prefix.mp h₁
    cases h
    rfl
  · obtain ⟨z, rfl⟩ := List.isPrefixOf_iff_prefix.mp h₂
    cases h
    rfl
  · obtain ⟨z, rfl⟩ := List.isPrefixOf_iff_prefix.mp h₃
    cases h
    rfl

/-- Reading goes on as before when the text goes on, with at least as much fuel. -/
def Extends {α : Type} (read : Nat → Text → Option (α × Text)) (n : Nat) : Prop :=
  ∀ {s x r}, read n s = some (x, r) → ∀ {m} t, n ≤ m → read m (s ++ t) = some (x, r ++ t)

theorem value_ne_nil {y : Json × Text} (h : value n s = some y) : s ≠ [] := by
  rintro rfl
  cases n <;> cases h

theorem member_ne_nil {f : Text → Option (Json × Text)} {y : (Text × Json) × Text} (h : member f s = some y) : s ≠ [] := by
  rintro rfl
  cases h

theorem items_ne_nil {y : List Json × Text} (h : items n s = some y) : s ≠ [] := by
  rintro rfl
  cases n <;> cases h

theorem members_ne_nil {y : List (Text × Json) × Text} (h : members n s = some y) : s ≠ [] := by
  rintro rfl
  cases n <;> cases h

/-- Values do the same, unless a number ends where the text ends. -/
def ValueExtends (n : Nat) : Prop :=
  ∀ {s v r}, value n s = some (v, r) → (r = [] → ∀ c u, skip s = c :: u → isNumeric c = false) →
    ∀ {m} t, n ≤ m → value m (s ++ t) = some (v, r ++ t)

theorem ValueExtends.next (h : ValueExtends n) (hv : value n s = some (v, r)) (hr : r ≠ []) (hm : n ≤ m) (t : Text) :
    value m (s ++ t) = some (v, r ++ t) := h hv (fun he => absurd he hr) t hm

theorem member_append {x : Text × Json} (hv : ValueExtends n) (h : member (value n) s = some (x, r)) (hr : r ≠ [])
    (hm : n ≤ m) (t : Text) : member (value m) (s ++ t) = some (x, r ++ t) := by
  unfold member at h
  split at h
  · rename_i u hs
    obtain ⟨⟨k, r₁⟩, hk, h⟩ := Option.bind_eq_some_iff.mp h
    dsimp only at h
    split at h
    · rename_i w hw
      obtain ⟨⟨y, r₂⟩, hy, he⟩ := Option.map_eq_some_iff.mp h
      cases he
      simp only [member, skip_append hs, string_append hk, Option.bind_some, skip_append hw, hv.next hy hr hm,
        Option.map_some]
    · cases h
  · cases h

theorem items_extends (hv : ValueExtends n) (hi : Extends items n) : Extends items (n + 1) := by
  intro s x r h m t hm
  obtain ⟨m, rfl⟩ : ∃ k, m = k + 1 := ⟨m - 1, by omega⟩
  rw [items] at h
  split at h
  · rename_i hs
    cases h
    simp only [items, skip_append hs]
  · rename_i u hs
    obtain ⟨⟨v, r₁⟩, h₁, h⟩ := Option.bind_eq_some_iff.mp h
    obtain ⟨⟨vs, r₂⟩, h₂, he⟩ := Option.map_eq_some_iff.mp h
    cases he
    have hm' : n ≤ m := by omega
    simp only [items, skip_append hs, hv.next h₁ (items_ne_nil h₂) hm', Option.bind_some, hi h₂ t hm', Option.map_some]
  · cases h

theorem members_extends (hv : ValueExtends n) (hi : Extends members n) : Extends members (n + 1) := by
  intro s x r h m t hm
  obtain ⟨m, rfl⟩ : ∃ k, m = k + 1 := ⟨m - 1, by omega⟩
  rw [members] at h
  split at h
  · rename_i hs
    cases h
    simp only [members, skip_append hs]
  · rename_i u hs
    obtain ⟨⟨v, r₁⟩, h₁, h⟩ := Option.bind_eq_some_iff.mp h
    obtain ⟨⟨vs, r₂⟩, h₂, he⟩ := Option.map_eq_some_iff.mp h
    cases he
    have hm' : n ≤ m := by omega
    simp only [members, skip_append hs, member_append hv h₁ (members_ne_nil h₂) hm', Option.bind_some, hi h₂ t hm',
      Option.map_some]
  · cases h

theorem value_extends (hv : ValueExtends n) (hi : Extends items n) (hm : Extends members n) : ValueExtends (n + 1) := by
  intro s v r h hr m t hnm
  obtain ⟨m, rfl⟩ : ∃ k, m = k + 1 := ⟨m - 1, by omega⟩
  have hnm' : n ≤ m := by omega
  rw [value] at h
  split at h
  · cases h
  · rename_i c u hs
    rw [value, skip_append hs]
    dsimp only
    split_ifs at h ⊢ with h₁ h₂ h₃ h₄
    · obtain ⟨⟨x, r₁⟩, hx, he⟩ := Option.map_eq_some_iff.mp h
      cases he
      rw [string_append hx, Option.map_some]
    · split at h
      · rename_i w hw
        cases h
        rw [skip_append hw]
        rfl
      · rename_i hw
        obtain ⟨⟨y, r₁⟩, hy, h⟩ := Option.bind_eq_some_iff.mp h
        obtain ⟨⟨vs, r₂⟩, hvs, he⟩ := Option.map_eq_some_iff.mp h
        cases he
        obtain ⟨d, w, hd⟩ := skip_eq_cons_of_ne (value_ne_nil hy)
        have hlong := hv.next hy (items_ne_nil hvs) hnm' t
        rw [hd, List.cons_append] at hlong
        rw [skip_append hd]
        split
        · rename_i heq
          cases heq
          exact absurd hd (hw _)
        · rw [hlong, Option.bind_some, hi hvs t hnm', Option.map_some]
    · split at h
      · rename_i w hw
        cases h
        rw [skip_append hw]
        rfl
      · rename_i hw
        obtain ⟨⟨y, r₁⟩, hy, h⟩ := Option.bind_eq_some_iff.mp h
        obtain ⟨⟨ms, r₂⟩, hms, he⟩ := Option.map_eq_some_iff.mp h
        cases he
        obtain ⟨d, w, hd⟩ := skip_eq_cons_of_ne (member_ne_nil hy)
        have hlong := member_append hv hy (members_ne_nil hms) hnm' t
        rw [hd, List.cons_append] at hlong
        rw [skip_append hd]
        split
        · rename_i heq
          cases heq
          exact absurd hd (hw _)
        · rw [hlong, Option.bind_some, hm hms t hnm', Option.map_some]
    · refine number_append h fun he => ?_
      rw [hr he c u hs] at h₄
      cases h₄
    · exact keyword_append h

theorem extends_all (n : Nat) : ValueExtends n ∧ Extends items n ∧ Extends members n := by
  induction n with
  | zero => refine ⟨?_, ?_, ?_⟩ <;> intro _ _ _ h <;> cases h
  | succ n ih => exact ⟨value_extends ih.1 ih.2.1 ih.2.2, items_extends ih.1 ih.2.1, members_extends ih.1 ih.2.2⟩

/-- An object is read to its closing brace, so that no proper prefix of its text is the text of a value. -/
theorem parse_prefix (h : s <+: encode (.obj ms)) (hne : s ≠ encode (.obj ms)) : parse s = none := by
  obtain ⟨t, ht⟩ := h
  cases hp : parse s with
  | none => rfl
  | some v =>
      obtain ⟨⟨v', r⟩, hv, h⟩ := Option.bind_eq_some_iff.mp hp
      obtain ⟨u, hu⟩ : ∃ u, encode (.obj ms) = '{' :: u := by
        cases ms with
        | nil => exact ⟨_, by rw [encode]⟩
        | cons m ms => exact ⟨_, by rw [encode]⟩
      obtain ⟨c, w, rfl⟩ := List.exists_cons_of_ne_nil (value_ne_nil hv)
      have hc : c = '{' := by
        rw [hu] at ht
        exact (List.cons.inj ht).1
      subst hc
      have hlong := (extends_all _).1 hv (fun _ d z hz => by
        rw [skip_cons (by decide)] at hz
        cases hz
        decide) (m := ('{' :: w).length + 1 + (encode (.obj ms)).length) t (by omega)
      rw [ht] at hlong
      have hfull := value_encode (.obj ms) (n := ('{' :: w).length + 1 + (encode (.obj ms)).length) (r := []) (by omega)
        ends_nil
      rw [List.append_nil] at hfull
      rw [hfull] at hlong
      have hnil : r ++ t = [] := (Prod.ext_iff.mp (Option.some.inj hlong)).2.symm
      rw [(List.append_eq_nil_iff.mp hnil).2, List.append_nil] at ht
      exact absurd ht hne

/-! ## The characters of a text -/

theorem ge_of_all {l : Text} (hl : (l.all fun d => 32 ≤ d.toNat) = true) (hc : c ∈ l) : 32 ≤ c.toNat :=
  of_decide_eq_true (List.all_eq_true.mp hl c hc)

theorem escape_ge {d : Char} (h : d ∈ escape c) : 32 ≤ d.toNat := by
  unfold escape at h
  split_ifs at h with h₁ h₂ h₃ h₄ h₅ h₆ h₇ h₈
  · exact ge_of_all (by decide) h
  · exact ge_of_all (by decide) h
  · exact ge_of_all (by decide) h
  · exact ge_of_all (by decide) h
  · exact ge_of_all (by decide) h
  · exact ge_of_all (by decide) h
  · exact ge_of_all (by decide) h
  · refine ge_of_all ?_ h
    have hhex := (hexDigit_spec (c.toNat / 16) (by omega)).2
    have hhex' := (hexDigit_spec (c.toNat % 16) (by omega)).2
    simp [hhex, hhex']
  · rw [List.mem_singleton.mp h]
    exact Nat.le_of_not_lt h₈

theorem encodeString_ge {s : Text} (h : c ∈ encodeString s) : 32 ≤ c.toNat := by
  simp only [encodeString, List.mem_cons, List.mem_append, List.mem_flatMap, List.not_mem_nil, or_false] at h
  rcases h with rfl | ⟨d, -, hd⟩ | rfl
  · decide
  · exact escape_ge hd
  · decide

theorem isNumeric_ge (h : isNumeric c = true) : 32 ≤ c.toNat := by
  simp only [isNumeric, isDigit, Bool.or_eq_true, Bool.and_eq_true, decide_eq_true_eq, List.contains_iff_mem] at h
  rcases h with h | h
  · exact le_trans (by decide) (Char.le_def.mp h.1)
  · exact ge_of_all (by decide) h

mutual
theorem encode_ge : (v : Json) → ∀ {c}, c ∈ v.encode → 32 ≤ c.toNat
  | .null, c, h => by
      exact ge_of_all (by decide) h
  | .bool true, c, h => by
      exact ge_of_all (by decide) h
  | .bool false, c, h => by
      exact ge_of_all (by decide) h
  | .int n, c, h => by
      rw [encode] at h
      exact isNumeric_ge (isNumeric_of_mem_encodeInt h)
  | .float l, c, h => by
      rw [encode] at h
      exact isNumeric_ge (l.isNumeric_of_mem h)
  | .str s, c, h => by
      rw [encode] at h
      exact encodeString_ge h
  | .arr [], c, h => by
      exact ge_of_all (by decide) h
  | .obj [], c, h => by
      exact ge_of_all (by decide) h
  | .arr (v :: vs), c, h => by
      simp only [encode, List.mem_cons, List.mem_append] at h
      rcases h with rfl | h | h
      · decide
      · exact encode_ge v h
      · exact encodeItems_ge vs h
  | .obj ((k, v) :: ms), c, h => by
      simp only [encode, List.mem_cons, List.mem_append] at h
      rcases h with rfl | h | rfl | h | h
      · decide
      · exact encodeString_ge h
      · decide
      · exact encode_ge v h
      · exact encodeMembers_ge ms h

theorem encodeItems_ge : (vs : List Json) → ∀ {c}, c ∈ encodeItems vs → 32 ≤ c.toNat
  | [], c, h => by
      exact ge_of_all (by decide) h
  | v :: vs, c, h => by
      simp only [encodeItems, List.mem_cons, List.mem_append] at h
      rcases h with rfl | h | h
      · decide
      · exact encode_ge v h
      · exact encodeItems_ge vs h

theorem encodeMembers_ge : (ms : List (Text × Json)) → ∀ {c}, c ∈ encodeMembers ms → 32 ≤ c.toNat
  | [], c, h => by
      exact ge_of_all (by decide) h
  | (k, v) :: ms, c, h => by
      simp only [encodeMembers, List.mem_cons, List.mem_append] at h
      rcases h with rfl | h | rfl | h | h
      · decide
      · exact encodeString_ge h
      · decide
      · exact encode_ge v h
      · exact encodeMembers_ge ms h
end

end Json

end Etoeragcb.Lib
