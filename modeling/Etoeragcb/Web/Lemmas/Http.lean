import Etoeragcb.Web.Lemmas.Chunks

/-!
# What a response may raise

Which of the functions raise something else than a `WebFetchError`, and how long a body gets.
-/

namespace Etoeragcb.Web

open Lib

variable {stream line rest raw : Bytes} {headers : Headers} {status maxBytes total : Nat} {e : Raised}
  {received : Bytes → Nat}

/-- Of the exceptions, the one that the callers of the transport expect. -/
def Raised.IsWebFetchError (e : Raised) : Prop := ∃ w, e = .webFetchError w

theorem isWebFetchError_invalidResponse (message : String) : (invalidResponse message).IsWebFetchError := ⟨_, rfl⟩

/-! ## The head -/

theorem parseHeader_error (h : parseHeader line = .error e) : e.IsWebFetchError := by
  simp only [parseHeader] at h
  split at h
  · exact Except.error.inj h ▸ isWebFetchError_invalidResponse _
  · split at h
    · exact Except.error.inj h ▸ isWebFetchError_invalidResponse _
    · split at h
      · exact Except.error.inj h ▸ isWebFetchError_invalidResponse _
      · split at h
        · exact Except.error.inj h ▸ isWebFetchError_invalidResponse _
        · cases h

theorem validateFraming_error (h : validateFraming headers = .error e) : e.IsWebFetchError := by
  simp only [validateFraming] at h
  split at h
  · exact Except.error.inj h ▸ isWebFetchError_invalidResponse _
  · split at h
    · exact Except.error.inj h ▸ isWebFetchError_invalidResponse _
    · split at h
      · exact ⟨_, (Except.error.inj h).symm⟩
      · cases h

theorem readResponseHead_of_readHead (h : readHead stream = .ok (raw, rest)) : readResponseHead stream =
    if headerLimit < raw.length + 4 then .error (invalidResponse "HTTP response headers are oversized")
    else do
      let statusLine ← orRaise ((splitCrlf raw).head?.bind ascii?) (invalidResponse "HTTP status line is not ASCII")
      let status ← orRaise (statusOf statusLine) (invalidResponse "HTTP response status is malformed")
      let parsed ← (splitCrlf raw).tail.mapM parseHeader
      validateFraming (parsed.foldl addHeader [])
      return ((status, parsed.foldl addHeader []), rest) := by
  rw [readResponseHead, h]
  rfl

theorem readResponseHead_error (h : readResponseHead stream = .error e) : e.IsWebFetchError := by
  cases hhead : readHead stream with
  | error e' =>
      rw [readResponseHead, hhead] at h
      exact Except.error.inj h ▸ isWebFetchError_invalidResponse _
  | ok x =>
      obtain ⟨raw, rest⟩ := x
      rw [readResponseHead_of_readHead hhead] at h
      split at h
      · exact Except.error.inj h ▸ isWebFetchError_invalidResponse _
      · simp only [bind_eq_error, orRaise_eq_error, orRaise_eq_ok, pure, Except.pure, reduceCtorEq, and_false, exists_false,
          or_false] at h
        rcases h with ⟨-, rfl⟩ | ⟨statusLine, -, ⟨-, rfl⟩ | ⟨status, -, h | ⟨parsed, -, h⟩⟩⟩
        · exact isWebFetchError_invalidResponse _
        · exact isWebFetchError_invalidResponse _
        · obtain ⟨line, -, hline⟩ := mem_of_mapM_eq_error h
          exact parseHeader_error hline
        · exact validateFraming_error h

theorem validateFraming_of_head (h : readResponseHead stream = .ok ((status, headers), rest)) :
    validateFraming headers = .ok () := by
  cases hhead : readHead stream with
  | error e' =>
      rw [readResponseHead, hhead] at h
      cases h
  | ok x =>
      obtain ⟨raw, rest'⟩ := x
      rw [readResponseHead_of_readHead hhead] at h
      split at h
      · cases h
      · simp only [bind_eq_ok, orRaise_eq_ok, pure_eq_ok, Prod.mk.injEq] at h
        obtain ⟨_, -, _, -, parsed, -, _, hframing, ⟨-, rfl⟩, -⟩ := h
        exact hframing

theorem isdigit_of_framing {v : Text} {vs : List Text} (h : validateFraming headers = .ok ())
    (hv : valuesOf headers "content-length" = v :: vs) : isdigitLatin1 v = true := by
  rw [validateFraming, hv] at h
  split at h
  · cases h
  · split at h
    · cases h
    · rename_i hlen
      by_contra hdigit
      exact hlen ⟨List.cons_ne_nil _ _, Or.inr (by simpa using hdigit)⟩

/-- The digits that `int` does not take. -/
def isSuperscript (c : Char) : Bool := c ∈ ['²', '³', '¹']

theorem isDigit_or_isSuperscript {v : Text} (h : isdigitLatin1 v = true) {c : Char} (hc : c ∈ v) :
    isDigit c = true ∨ isSuperscript c = true := by
  simp only [isdigitLatin1, Bool.and_eq_true, List.all_eq_true] at h
  simpa [isSuperscript] using h.2 c hc

theorem isDigit_eq_false {c : Char} (h : isSuperscript c = true) : isDigit c = false := by
  have hc : c = '²' ∨ c = '³' ∨ c = '¹' := by simpa [isSuperscript] using h
  rcases hc with rfl | rfl | rfl <;> decide

theorem intLatin1_eq_none_iff {v : Text} (h : isdigitLatin1 v = true) :
    intLatin1 v = none ↔ (∃ c ∈ v, isSuperscript c = true) ∨ 4300 < v.length := by
  rw [intLatin1]
  split
  · rename_i hv
    simp only [reduceCtorEq, false_iff, not_or, not_exists, not_and, Nat.not_lt]
    refine ⟨fun c hc hs => ?_, hv.2⟩
    have hd := List.all_eq_true.mp hv.1 c hc
    rw [isDigit_eq_false hs] at hd
    cases hd
  · rename_i hv
    simp only [true_iff]
    by_contra hno
    push Not at hno
    exact hv ⟨List.all_eq_true.mpr fun c hc => (isDigit_or_isSuperscript h hc).resolve_right (hno.1 c hc), hno.2⟩

/-! ## The body -/

theorem readToEnd_cases (received : Bytes → Nat) {maxBytes total : Nat} (h : total ≤ maxBytes) (stream : Bytes) :
    (∃ body, readToEnd received maxBytes total stream = .ok body ∧ total + body.length ≤ maxBytes) ∨
      ∃ message, readToEnd received maxBytes total stream = .error (tooLarge message) := by
  induction hn : stream.length using Nat.strong_induction_on generalizing total stream with
  | _ n ih =>
      subst hn
      rw [readToEnd]
      by_cases hs : stream = []
      · exact Or.inl ⟨[], dif_pos hs, h⟩
      rw [dif_neg hs]
      generalize hk : min (min 65536 (maxBytes - total + 1)) (max 1 (received stream)) = k
      by_cases hlen : maxBytes < total + (stream.take k).length
      · exact Or.inr ⟨_, if_pos hlen⟩
      rw [if_neg hlen]
      have hlt : (stream.drop k).length < stream.length := by
        have := List.length_pos_iff.mpr hs
        rw [List.length_drop]
        omega
      rcases ih _ hlt (Nat.not_lt.mp hlen) (stream.drop k) rfl with ⟨body, hok, hle⟩ | ⟨message, herr⟩
      · refine Or.inl ⟨stream.take k ++ body, by rw [hok]; rfl, ?_⟩
        rw [List.length_append]
        omega
      · exact Or.inr ⟨message, by rw [herr]; rfl⟩

def IsIdentity (headers : Headers) : Prop :=
  lowerLatin1 (strip ([','].intercalate (valuesOf headers "content-encoding"))) ∈ [[], "identity".toList]

theorem readBody_compressed (h : ¬IsIdentity headers) : readBody received headers maxBytes rest =
    .error (.webFetchError ⟨"unsupported_encoding", "compressed responses are not accepted"⟩) := by
  simp only [IsIdentity, List.mem_cons, List.not_mem_nil, or_false, not_or] at h
  exact if_pos h

theorem readBody_identity (h : IsIdentity headers) : readBody received headers maxBytes rest =
    match valuesOf headers "content-length" with
    | contentLength :: _ => do
        let length ← orRaise (intLatin1 contentLength) .valueError
        if maxBytes < length then .error (tooLarge "response exceeds the byte limit")
        else (readexactly length rest).map Prod.fst
    | [] =>
        if valuesOf headers "transfer-encoding" ≠ [] then readChunked maxBytes [] rest
        else readToEnd received maxBytes 0 rest := by
  simp only [IsIdentity, List.mem_cons, List.not_mem_nil, or_false] at h
  exact if_neg fun hno => h.elim hno.1 hno.2

/-- A length that `int` does not take, or behind chunks a line that is too long. -/
def Unreadable (headers : Headers) (maxBytes : Nat) (rest : Bytes) : Prop :=
  (∃ v vs, valuesOf headers "content-length" = v :: vs ∧ ((∃ c ∈ v, isSuperscript c = true) ∨ 4300 < v.length)) ∨
    (valuesOf headers "content-length" = [] ∧ valuesOf headers "transfer-encoding" ≠ [] ∧ LongLine maxBytes 0 rest)

theorem unreadable_of_length {v : Text} {vs : List Text} (h : validateFraming headers = .ok ())
    (hv : valuesOf headers "content-length" = v :: vs) : Unreadable headers maxBytes rest ↔ intLatin1 v = none := by
  rw [intLatin1_eq_none_iff (isdigit_of_framing h hv), Unreadable, hv]
  constructor
  · rintro (⟨v', vs', he, hbad⟩ | ⟨he, -⟩)
    · obtain ⟨rfl, rfl⟩ := List.cons.inj he
      exact hbad
    · cases he
  · exact fun hbad => Or.inl ⟨v, vs, rfl, hbad⟩

theorem unreadable_of_nil (hv : valuesOf headers "content-length" = []) : Unreadable headers maxBytes rest ↔
    valuesOf headers "transfer-encoding" ≠ [] ∧ LongLine maxBytes 0 rest := by
  simp [Unreadable, hv]

/-- The body, or an exception that is contained, or what is raised is that a number or a line is not taken. -/
inductive BodyEnds (headers : Headers) (maxBytes : Nat) (rest : Bytes) : Except Raised Bytes → Prop
  | read {body : Bytes} : body.length ≤ maxBytes → ¬(IsIdentity headers ∧ Unreadable headers maxBytes rest) →
      BodyEnds headers maxBytes rest (.ok body)
  | contained {e : Raised} : e ≠ .valueError → ¬(IsIdentity headers ∧ Unreadable headers maxBytes rest) →
      BodyEnds headers maxBytes rest (.error e)
  | raised : IsIdentity headers → Unreadable headers maxBytes rest → BodyEnds headers maxBytes rest (.error .valueError)

theorem bodyEnds_of_length {v : Text} {vs : List Text} (h : validateFraming headers = .ok ())
    (hidentity : IsIdentity headers)
    (hv : valuesOf headers "content-length" = v :: vs) :
    BodyEnds headers maxBytes rest (readBody received headers maxBytes rest) := by
  have hunreadable : Unreadable headers maxBytes rest ↔ intLatin1 v = none := unreadable_of_length h hv
  rw [readBody_identity hidentity, hv]
  simp only
  cases hint : intLatin1 v with
  | none => exact .raised hidentity (hunreadable.mpr hint)
  | some length =>
      have hno : ¬(IsIdentity headers ∧ Unreadable headers maxBytes rest) := fun hbad => by
        rw [hunreadable, hint] at hbad
        cases hbad.2
      simp only [orRaise, bind, Except.bind]
      split
      · exact .contained (fun he => (by cases he)) hno
      · rename_i hlen
        rcases readexactly_cases length rest with ⟨data, after, -, hdata, hok⟩ | herr
        · rw [hok]
          exact .read (hdata ▸ Nat.not_lt.mp hlen) hno
        · rw [herr]
          exact .contained (fun he => (by cases he)) hno

theorem bodyEnds_of_chunks (hidentity : IsIdentity headers) (hv : valuesOf headers "content-length" = [])
    (htransfer : valuesOf headers "transfer-encoding" ≠ []) :
    BodyEnds headers maxBytes rest (readBody received headers maxBytes rest) := by
  have hunreadable : Unreadable headers maxBytes rest ↔ valuesOf headers "transfer-encoding" ≠ [] ∧
      LongLine maxBytes 0 rest :=
    unreadable_of_nil hv
  rw [readBody_identity hidentity, hv]
  simp only [if_pos htransfer]
  have hraised : Unreadable headers maxBytes rest → readChunked maxBytes [] rest = .error .valueError := fun hbad =>
    readChunked_nil_of_long (hunreadable.mp hbad).2
  rcases readChunked_cases maxBytes [] rest with ⟨texts, data, enc, after, -, -, hle, hok⟩ | ⟨hlong, herr⟩ | ⟨e, hne, herr⟩
  · have hdata : data.length ≤ maxBytes := by simpa using hle
    rw [hok] at hraised ⊢
    exact .read hdata fun hbad => nomatch hraised hbad.2
  · rw [herr]
    exact .raised hidentity (hunreadable.mpr ⟨htransfer, hlong⟩)
  · rw [herr] at hraised ⊢
    exact .contained hne fun hbad => hne (Except.error.inj (hraised hbad.2))

theorem bodyEnds_of_rest (hidentity : IsIdentity headers) (hv : valuesOf headers "content-length" = [])
    (htransfer : valuesOf headers "transfer-encoding" = []) :
    BodyEnds headers maxBytes rest (readBody received headers maxBytes rest) := by
  have hno : ¬(IsIdentity headers ∧ Unreadable headers maxBytes rest) := fun hbad =>
    ((unreadable_of_nil hv).mp hbad.2).1 htransfer
  rw [readBody_identity hidentity, hv]
  simp only [if_neg (not_not.mpr htransfer)]
  rcases readToEnd_cases received (Nat.zero_le maxBytes) rest with ⟨body, hok, hle⟩ | ⟨message, herr⟩
  · rw [hok]
    exact .read (by omega) hno
  · rw [herr]
    exact .contained nofun hno

theorem readBody_ends (received : Bytes → Nat) (maxBytes : Nat) (rest : Bytes) (h : validateFraming headers = .ok ()) :
    BodyEnds headers maxBytes rest (readBody received headers maxBytes rest) := by
  by_cases hidentity : IsIdentity headers
  · cases hv : valuesOf headers "content-length" with
    | cons v vs => exact bodyEnds_of_length h hidentity hv
    | nil =>
        by_cases htransfer : valuesOf headers "transfer-encoding" = []
        · exact bodyEnds_of_rest hidentity hv htransfer
        · exact bodyEnds_of_chunks hidentity hv htransfer
  · rw [readBody_compressed hidentity]
    exact .contained nofun fun hbad => hidentity hbad.1

end Etoeragcb.Web
