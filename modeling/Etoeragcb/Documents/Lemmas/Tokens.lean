import Etoeragcb.Documents.Tokens

/-!
# What a signer signs and accepts
-/

namespace Etoeragcb.Documents

open Lib Models

/-! ## Payloads -/

section Payloads

variable {c : Conversions} {p : FileTokenPayload}

theorem pageField_dump (c : Conversions) (page : Option Int) : pageField c (some (dumpPage page)) = some page := by
  cases page with
  | none => rfl
  | some n => exact congrArg (Option.map some) (c.int_int n)

theorem modelDump_names (p : FileTokenPayload) : (p.modelDump.all fun x => fieldNames.contains x.1) = true := by
  have hnames : p.modelDump.map Prod.fst = fieldNames := rfl
  have hall : (p.modelDump.map Prod.fst).all (fieldNames.contains ·) = true := by
    rw [hnames]
    decide
  rw [List.all_map] at hall
  exact hall

theorem modelValidate_modelDump (hp : p.valid = true) : modelValidate c (.obj p.modelDump) = some p := by
  have h₀ : Json.get? p.modelDump "schema_version".toList = some (.int 1) := rfl
  have h₁ : Json.get? p.modelDump "tenant_id".toList = some (.str p.tenantId.text) := rfl
  have h₂ : Json.get? p.modelDump "user_id".toList = some (.str p.userId.text) := rfl
  have h₃ : Json.get? p.modelDump "document_id".toList = some (.str p.documentId.text) := rfl
  have h₄ : Json.get? p.modelDump "document_version_id".toList = some (.str p.documentVersionId.text) := rfl
  have h₅ : Json.get? p.modelDump "file_sha256".toList = some (.str p.fileSha256) := rfl
  have h₆ : Json.get? p.modelDump "storage_binding".toList = some (.str p.storageBinding) := rfl
  have h₇ : Json.get? p.modelDump "page".toList = some (dumpPage p.page) := rfl
  have h₈ : Json.get? p.modelDump "expires_at".toList = some (.int p.expiresAt) := rfl
  have h₉ : Json.get? p.modelDump "nonce".toList = some (.str p.nonce) := rfl
  simp only [modelValidate, h₀, h₁, h₂, h₃, h₄, h₅, h₆, h₇, h₈, h₉, modelDump_names, Option.all_some, c.one, and_self,
    ↓reduceIte, Option.bind_some, c.uuid_text, c.int_int, strField, pageField_dump]
  exact if_pos hp

theorem loads_encode (v : Json) : loads (utf8 v.encode) = some v := by
  rw [loads, ofUtf8_utf8, Option.bind_some, Json.parse_encode]

/-! ## The size of a dump -/

def size (t : Text) : Nat := (utf8 t).length

theorem size_append (t u : Text) : size (t ++ u) = size t + size u := by
  rw [size, utf8, List.flatMap_append, List.length_append]
  rfl

theorem size_cons (x : Char) (t : Text) : size (x :: t) = x.utf8Size + size t := by
  rw [size, utf8, List.flatMap_cons, List.length_append, String.length_utf8EncodeChar]
  rfl

theorem utf8Size_ascii {x : Char} (hx : isAscii x = true) : x.utf8Size = 1 := by
  have hlt : x.toNat < 128 := of_decide_eq_true hx
  have hle : x.val ≤ 127 := UInt32.le_iff_toNat_le.mpr (Nat.le_of_lt_succ hlt)
  exact if_pos hle

theorem size_ascii {t : Text} (ht : t.all isAscii = true) : size t = t.length := by
  induction t with
  | nil => rfl
  | cons x t ih =>
      rw [List.all_cons, Bool.and_eq_true] at ht
      rw [size_cons, utf8Size_ascii ht.1, ih ht.2, List.length_cons, Nat.add_comm]

theorem size_escape (x : Char) : size (Json.escape x) ≤ 6 := by
  have hhex : ∀ n < 16, isAscii (Json.hexDigit n) = true := by decide
  unfold Json.escape
  split_ifs
  · decide
  · decide
  · decide
  · decide
  · decide
  · decide
  · decide
  · have hall : ['\\', 'u', '0', '0', Json.hexDigit (x.toNat / 16), Json.hexDigit (x.toNat % 16)].all isAscii = true := by
      simp only [List.all_cons, hhex (x.toNat / 16) (by omega), hhex (x.toNat % 16) (by omega)]
      decide
    exact (size_ascii hall).le
  · rw [size_cons]
    exact le_trans (Nat.add_le_add_right x.utf8Size_le_four _) (by decide)

theorem size_encodeString (t : Text) : size (Json.encodeString t) ≤ 6 * t.length + 2 := by
  have hsum : size (t.flatMap Json.escape) ≤ 6 * t.length := by
    induction t with
    | nil => exact le_refl 0
    | cons x t ih =>
        have hx := size_escape x
        rw [List.flatMap_cons, size_append, List.length_cons]
        omega
  have hquote : ('"' : Char).utf8Size = 1 := by decide
  have hlast : size ['"'] = 1 := by decide
  rw [Json.encodeString, size_cons, size_append, hquote, hlast]
  omega

theorem size_encodeInt {n : Int} (h : fits n = true) : size (encodeInt n) ≤ 21 := by
  simp only [fits, Bool.and_eq_true, decide_eq_true_eq] at h
  have hdigits : (decimal n.natAbs).length ≤ 20 := Nat.toDigits_length 10 n.natAbs 20 (by decide) (by omega)
  have hascii : (decimal n.natAbs).all isAscii = true := by
    refine List.all_eq_true.mpr fun x hx => ?_
    have hd := isDigit_of_mem_decimal hx
    simp only [isDigit, Bool.and_eq_true, decide_eq_true_eq] at hd
    exact decide_eq_true (lt_of_le_of_lt (Char.le_def.mp hd.2) (by decide))
  have hminus : ('-' : Char).utf8Size = 1 := by decide
  rw [encodeInt]
  split
  · rw [size_cons, size_ascii hascii, hminus]
    omega
  · rw [size_ascii hascii]
    omega

theorem size_encodeMembers (ms : List (Text × Json)) : size (Json.encodeMembers ms) =
    1 + ((ms.map fun x => size (Json.encodeString x.1) + 2).sum + (ms.map fun x => size x.2.encode).sum) := by
  have hcomma : (',' : Char).utf8Size = 1 := by decide
  have hcolon : (':' : Char).utf8Size = 1 := by decide
  induction ms with
  | nil => decide
  | cons x ms ih =>
      simp only [Json.encodeMembers, size_cons, size_append, ih, List.map_cons, List.sum_cons, hcomma, hcolon]
      omega

theorem size_encode_obj (ms : List (Text × Json)) : size (Json.obj ms).encode ≤
    2 + ((ms.map fun x => size (Json.encodeString x.1) + 2).sum + (ms.map fun x => size x.2.encode).sum) := by
  have hbrace : ('{' : Char).utf8Size = 1 := by decide
  have hcolon : (':' : Char).utf8Size = 1 := by decide
  cases ms with
  | nil => decide
  | cons x ms =>
      simp only [Json.encode, size_cons, size_append, size_encodeMembers, List.map_cons, List.sum_cons, hbrace, hcolon]
      omega

theorem size_str (t : Text) : size (Json.str t).encode ≤ 6 * t.length + 2 := size_encodeString t

theorem size_int {n : Int} (h : fits n = true) : size (Json.int n).encode ≤ 21 := size_encodeInt h

theorem size_page {page : Option Int} (h : page.all fits = true) : size (dumpPage page).encode ≤ 21 := by
  cases page with
  | none => exact show size Json.null.encode ≤ 21 by decide
  | some n => exact size_int h

theorem size_modelDump (hp : p.valid = true) (hexpires : fits p.expiresAt = true) (hpage : p.page.all fits = true) :
    size (Json.obj p.modelDump).encode ≤ 2400 := by
  simp only [FileTokenPayload.valid, isHexDigest, Bool.and_eq_true, beq_iff_eq, decide_eq_true_eq] at hp
  obtain ⟨⟨⟨⟨⟨⟨hsha, -⟩, hbinding, -⟩, -⟩, -⟩, -⟩, hnonce⟩ := hp
  have hnames : (p.modelDump.map fun x => size (Json.encodeString x.1) + 2).sum = 145 := by
    have hkeys : p.modelDump.map Prod.fst = fieldNames := rfl
    rw [← Function.comp_def (fun k => size (Json.encodeString k) + 2) Prod.fst, ← List.map_map, hkeys]
    decide
  have hlen := size_encode_obj p.modelDump
  have h₁ := size_str p.tenantId.text
  have h₂ := size_str p.userId.text
  have h₃ := size_str p.documentId.text
  have h₄ := size_str p.documentVersionId.text
  have h₅ := size_str p.fileSha256
  have h₆ := size_str p.storageBinding
  have h₇ := size_page hpage
  have h₈ := size_int hexpires
  have h₉ := size_str p.nonce
  have hone := size_int (show fits 1 = true by decide)
  rw [UUID.length_text] at h₁ h₂ h₃ h₄
  rw [hnames] at hlen
  refine hlen.trans ?_
  simp only [FileTokenPayload.modelDump, List.map_cons, List.map_nil, List.sum_cons, List.sum_nil]
  omega

end Payloads

/-! ## Tokens -/

section Tokens

variable {h : Hmac} {c : Conversions} {s : FileTokenSigner} {token : Str} {now : Time}

theorem codePoint_injective : Function.Injective codePoint := fun x y hxy => by
  have hval := congrArg Fin.val hxy
  rw [codePoint_val, codePoint_val] at hval
  exact Char.toNat_inj.mp hval

theorem ofText_injective : Function.Injective Str.ofText := List.map_injective_iff.mpr codePoint_injective

theorem splitToken_eq_some {encoded provided : Str} : splitToken token = some (encoded, provided) ↔
    token = encoded ++ codePoint '.' :: provided ∧ codePoint '.' ∉ encoded := by
  constructor
  · intro hs
    rw [splitToken] at hs
    split at hs
    · obtain ⟨l, t, rfl, hl⟩ := List.eq_append_cons_of_mem ‹_›
      have hall : ∀ n ∈ l, decide (n ≠ codePoint '.') = true := fun n hn => decide_eq_true fun he => hl (he ▸ hn)
      simp only [List.takeWhile_append_of_pos hall, List.dropWhile_append_of_pos hall] at hs
      simp at hs
      obtain ⟨rfl, rfl⟩ := hs
      exact ⟨rfl, hl⟩
    · cases hs
  · rintro ⟨rfl, hl⟩
    have hall : ∀ n ∈ encoded, decide (n ≠ codePoint '.') = true := fun n hn => decide_eq_true fun he => hl (he ▸ hn)
    rw [splitToken, if_pos (List.mem_append_right _ List.mem_cons_self), List.takeWhile_append_of_pos hall,
      List.dropWhile_append_of_pos hall]
    simp

theorem dot_notMem_b64encode (bytes : List UInt8) : '.' ∉ b64encode bytes := fun hd =>
  absurd ((b64encode_body bytes).1 _ hd) (by decide)

theorem codePoint_notMem {t : Text} {x : Char} (ht : x ∉ t) : codePoint x ∉ Str.ofText t := by
  intro hx
  obtain ⟨y, hy, he⟩ := List.mem_map.mp hx
  exact ht (codePoint_injective he ▸ hy)

theorem ofText_append (t u : Text) : Str.ofText (t ++ u) = Str.ofText t ++ Str.ofText u := List.map_append

theorem splitToken_ofText {t : Text} (ht : '.' ∉ t) (u : Text) :
    splitToken (Str.ofText (t ++ '.' :: u)) = some (Str.ofText t, Str.ofText u) :=
  splitToken_eq_some.mpr ⟨ofText_append t ('.' :: u), codePoint_notMem ht⟩

theorem ofText_ascii {t : Text} (ht : ∀ x ∈ t, isAscii x = true) : (Str.ofText t).any (128 ≤ ·.val) = false := by
  rw [Bool.eq_false_iff]
  intro hany
  obtain ⟨n, hn, hle⟩ := List.any_eq_true.mp hany
  obtain ⟨x, hx, rfl⟩ := List.mem_map.mp hn
  rw [decide_eq_true_eq, codePoint_val] at hle
  exact absurd (of_decide_eq_true (ht x hx)) (Nat.not_lt.mpr hle)

/-! ## Messages -/

theorem tokenMessage_injective : Function.Injective tokenMessage := fun _ _ he =>
  utf8_injective (List.append_cancel_left he)

theorem tokenMessage_ne_storageMessage (encoded : Text) (tenantId documentId versionId : UUID)
    (storageKey fileSha256 : Text) :
    tokenMessage encoded ≠ storageMessage tenantId documentId versionId storageKey fileSha256 := by
  intro he
  have htoken : (tokenMessage encoded).take 10 = utf8 "rag-file-t".toList := by
    rw [tokenMessage, List.take_append_of_le_length (by decide)]
    decide
  have hstorage : (storageMessage tenantId documentId versionId storageKey fileSha256).take 10 =
      utf8 "rag-file-s".toList := by
    rw [storageMessage, List.take_append_of_le_length (by decide)]
    decide
  rw [he, hstorage] at htoken
  exact absurd htoken (by decide)

/-! ## Issuing and verifying -/

open FileTokenSigner

variable {r : IssueRequest} {t : Text} {e : Time} {p : FileTokenPayload}

theorem issue_eq_ok : s.issue h r = .ok (t, e) ↔ ((s.payload h r).valid = true ∧ fits (s.payload h r).expiresAt = true ∧
    (s.payload h r).page.all fits = true) ∧ t = s.encodedPayload h r ++ '.' :: s.signature h (s.encodedPayload h r) ∧
      e = r.now + s.ttl * 1000000 := by
  simp only [issue]
  by_cases hvalid : (s.payload h r).valid = true
  · by_cases hfits : fits (s.payload h r).expiresAt = true ∧ (s.payload h r).page.all fits = true
    · rw [if_neg (not_not.mpr hvalid), if_neg (not_not.mpr hfits), Except.ok.injEq, Prod.mk.injEq]
      exact ⟨fun hx => ⟨⟨hvalid, hfits⟩, hx.1.symm, hx.2.symm⟩, fun hx => ⟨hx.2.1.symm, hx.2.2.symm⟩⟩
    · rw [if_neg (not_not.mpr hvalid), if_pos hfits]
      exact ⟨fun hx => (by cases hx), fun hx => absurd hx.1.2 hfits⟩
  · rw [if_pos hvalid]
    exact ⟨fun hx => (by cases hx), fun hx => absurd hx.1.1 hvalid⟩

theorem read_encodedPayload (c : Conversions) (hp : (s.payload h r).valid = true) :
    ((b64decode (s.encodedPayload h r)).bind loads).bind (modelValidate c) = some (s.payload h r) := by
  rw [encodedPayload, b64decode_b64encode, Option.bind_some, loads_encode, Option.bind_some, modelValidate_modelDump hp]

theorem length_issued (hp : (s.payload h r).valid = true) (hexpires : fits (s.payload h r).expiresAt = true)
    (hpage : (s.payload h r).page.all fits = true) :
    (s.encodedPayload h r ++ '.' :: s.signature h (s.encodedPayload h r)).length ≤ 4096 := by
  have hsize : (utf8 (Json.obj (s.payload h r).modelDump).encode).length ≤ 2400 := size_modelDump hp hexpires hpage
  have hencoded := (length_b64encode (utf8 (Json.obj (s.payload h r).modelDump).encode)).2
  have hsignature := (length_b64encode (h.digest s.secret (tokenMessage (s.encodedPayload h r)))).2
  rw [h.length_digest] at hsignature
  rw [List.length_append, List.length_cons]
  change (s.encodedPayload h r).length ≤ _ at hencoded
  change (s.signature h (s.encodedPayload h r)).length ≤ _ at hsignature
  omega

theorem verify_split (hlen : token.length ≤ 4096) {encoded provided : Str}
    (hs : splitToken token = some (encoded, provided)) :
    s.verify h c token now = s.verifyParts h c encoded provided now := by
  rw [verify, if_neg (Nat.not_lt.mpr hlen), hs]

theorem signature_eq {issuer : FileTokenSigner} (hs : issuer.secret = s.secret) (text : Text) :
    issuer.signature h text = s.signature h text := by
  rw [signature, hs]
  rfl

theorem verify_issued {issuer : FileTokenSigner} (hs : issuer.secret = s.secret) (hi : issuer.issue h r = .ok (t, e)) :
    s.verify h c (Str.ofText t) now =
      if (issuer.payload h r).expiresAt ≤ timestamp now then .error (.fileTokenError .expired)
      else .ok (issuer.payload h r) := by
  obtain ⟨⟨hp, hexpires, hpage⟩, ht, -⟩ := issue_eq_ok.mp hi
  have hlen : (Str.ofText t).length ≤ 4096 := by
    rw [Str.ofText, List.length_map, ht]
    exact length_issued hp hexpires hpage
  have hascii : ∀ x ∈ s.signature h (issuer.encodedPayload h r), isAscii x = true := fun x hx => by
    have hurl := (b64encode_body _).1 x hx
    simp only [isBase64Url, Bool.and_eq_true] at hurl
    exact hurl.1.1
  have hdot : '.' ∉ issuer.encodedPayload h r := dot_notMem_b64encode _
  rw [signature_eq hs] at ht
  rw [ht] at hlen
  rw [ht, verify_split hlen (splitToken_ofText hdot _), verifyParts, text?_ofText]
  simp only [ofText_ascii hascii, Bool.false_eq_true, ↓reduceIte, ne_eq, not_true_eq_false, readPayload,
    read_encodedPayload c hp]

/-- What is accepted carries its code and is read from the text that the code is for. -/
theorem verify_eq_ok (hv : s.verify h c token now = .ok p) : ∃ text, token = Str.ofText (text ++ '.' :: s.signature h text) ∧
    ((b64decode text).bind loads).bind (modelValidate c) = some p ∧ timestamp now < p.expiresAt := by
  simp only [verify] at hv
  split at hv
  · cases hv
  · split at hv
    · cases hv
    · rename_i encoded provided hs
      obtain ⟨rfl, -⟩ := splitToken_eq_some.mp hs
      simp only [verifyParts] at hv
      split at hv
      · cases hv
      · rename_i text ht
        obtain rfl := eq_ofText ht
        split_ifs at hv with ha hsig
        rw [ne_eq, not_not] at hsig
        subst hsig
        simp only [readPayload] at hv
        split at hv
        · cases hv
        · rename_i payload hread
          split_ifs at hv with hexpired
          cases hv
          refine ⟨text, ?_, hread, not_le.mp hexpired⟩
          exact (ofText_append text ('.' :: s.signature h text)).symm

theorem readPayload_total (text : Text) : (∃ p, readPayload c text now = .ok p) ∨
    ∃ code, readPayload c text now = .error (.fileTokenError code) := by
  rw [readPayload]
  split
  · exact Or.inr ⟨_, rfl⟩
  · split_ifs
    · exact Or.inr ⟨_, rfl⟩
    · exact Or.inl ⟨_, rfl⟩

/-- Only what cannot be compared raises another error. -/
theorem verify_total_iff : ((∃ p, s.verify h c token now = .ok p) ∨
    ∃ code, s.verify h c token now = .error (.fileTokenError code)) ↔ uncomparable token = false := by
  by_cases hlen : token.length ≤ 4096
  · cases hs : splitToken token with
    | none =>
        have hv : s.verify h c token now = .error (.fileTokenError .invalid) := by
          rw [verify, if_neg (Nat.not_lt.mpr hlen), hs]
        exact iff_of_true (Or.inr ⟨_, hv⟩) (by simp [uncomparable, hs])
    | some x =>
        obtain ⟨encoded, provided⟩ := x
        rw [verify_split hlen hs, verifyParts]
        cases ht : Str.text? encoded with
        | none => simp [uncomparable, hs, hlen, ht]
        | some text =>
            cases ha : provided.any (128 ≤ ·.val) with
            | true => simp [uncomparable, hs, hlen, ht, ha]
            | false =>
                refine iff_of_true ?_ (by simp [uncomparable, hs, ht, ha])
                simp only [Bool.false_eq_true, ↓reduceIte]
                split_ifs
                · exact Or.inr ⟨_, rfl⟩
                · exact readPayload_total text
  · have hv : s.verify h c token now = .error (.fileTokenError .invalid) := if_pos (Nat.not_le.mp hlen)
    exact iff_of_true (Or.inr ⟨_, hv⟩) (by simp [uncomparable, hlen])

theorem append_dot_inj {x y x' y' : Text} (hy : '.' ∉ y) (hy' : '.' ∉ y') (he : x ++ '.' :: y = x' ++ '.' :: y') : x = x' := by
  have hrev : y.reverse ++ '.' :: x.reverse = y'.reverse ++ '.' :: x'.reverse := by
    simpa using congrArg List.reverse he
  have hsplit := congrArg (fun z => splitToken (Str.ofText z)) hrev
  simp only [splitToken_ofText (mt List.mem_reverse.mp hy), splitToken_ofText (mt List.mem_reverse.mp hy')] at hsplit
  exact List.reverse_injective (ofText_injective (Prod.ext_iff.mp (Option.some.inj hsplit)).2)

theorem unforged_issued (hi : s.issue h r = .ok (t, e)) : s.Unforged h (Str.ofText t) := by
  intro encoded hencoded
  have ht := (issue_eq_ok.mp hi).2.1
  have hsame := append_dot_inj (dot_notMem_b64encode _) (dot_notMem_b64encode _) (ht.symm.trans (ofText_injective hencoded))
  exact hsame ▸ .token s rfl r t e hi

end Tokens

end Etoeragcb.Documents
