import Etoeragcb.Lib.Uuid
import Etoeragcb.Web.Http

/-!
# The chunked coding

The grammar of the coding, for any way to write the size of a chunk.
-/

namespace Etoeragcb.Web

open Lib

/-- A line that ends with the line break, and has none before. -/
def IsLine (line : Bytes) : Prop := ∃ text, line = text ++ [13, 10] ∧ 10 ∉ text

/-- A line within the limit that has a size, and behind a semicolon an extension. -/
def SizeLine (size : Bytes → Nat → Prop) (text line : Bytes) (n : Nat) : Prop :=
  ∃ extension, line = text ++ extension ++ [13, 10] ∧ 59 ∉ text ∧ (extension = [] ∨ extension.head? = some 59) ∧
    10 ∉ text ++ extension ∧ line.length ≤ chunkLineLimit ∧ size text n

/-- Trailers up to the empty line, behind others of the given length. -/
inductive Trailers : Nat → Bytes → Prop
  | last {total : Nat} : total + 2 ≤ headerLimit → Trailers total [13, 10]
  | line {total : Nat} {line rest : Bytes} : IsLine line → line ≠ [13, 10] → total + line.length ≤ headerLimit →
      Trailers (total + line.length) rest → Trailers total (line ++ rest)

/-- The coding of a body, with the texts of its sizes. -/
inductive Coded (size : Bytes → Nat → Prop) : List Bytes → Bytes → Bytes → Prop
  | last {text line rest : Bytes} : SizeLine size text line 0 → Trailers 0 rest → Coded size [text] [] (line ++ rest)
  | chunk {text line data body rest : Bytes} {texts : List Bytes} : SizeLine size text line data.length → data ≠ [] →
      Coded size texts body rest → Coded size (text :: texts) (data ++ body) (line ++ data ++ [13, 10] ++ rest)

/-- One or more hexadecimal digits. -/
def HexSize (text : Bytes) (n : Nat) : Prop := text ≠ [] ∧ readHex 0 (latin1 text) = some n

/-- What `int` takes. -/
def IntSize (text : Bytes) (n : Nat) : Prop := intBase16 text = some (n : ℤ)

variable {stream line rest text data body enc : Bytes} {texts : List Bytes} {total n maxBytes : Nat}

/-! ## Lines -/

theorem takeWhile_line {x : Bytes} (h : (10 : UInt8) ∉ x) (rest : Bytes) : (x ++ 10 :: rest).takeWhile (· ≠ 10) = x ∧
    (x ++ 10 :: rest).dropWhile (· ≠ 10) = 10 :: rest := by
  have hx : ∀ b ∈ x, decide (b ≠ 10) = true := fun b hb => decide_eq_true fun he => h (he ▸ hb)
  rw [List.takeWhile_append_of_pos hx, List.dropWhile_append_of_pos hx]
  simp

theorem readline_line (h : IsLine line) (hlen : line.length ≤ headerLimit + 1) :
    readline (line ++ rest) = .ok (line, rest) := by
  obtain ⟨text, rfl, htext⟩ := h
  have hmem : (10 : UInt8) ∉ text ++ [13] := by simpa using htext
  obtain ⟨htake, hdrop⟩ := takeWhile_line hmem rest
  have he : text ++ [13, 10] ++ rest = text ++ [13] ++ 10 :: rest := by simp
  rw [List.length_append] at hlen
  have hshort : ¬headerLimit < (text ++ [13]).length := by simpa using hlen
  rw [he, readline, htake, if_neg hshort, hdrop]
  simp

theorem line_of_readline (h : readline stream = .ok (line, rest)) (hend : endsCrlf line = true) :
    stream = line ++ rest ∧ IsLine line ∧ line.length ≤ headerLimit + 1 := by
  simp only [readline] at h
  split at h
  · cases h
  · rename_i hlen
    have hs := List.takeWhile_append_dropWhile (p := fun b : UInt8 => decide (b ≠ 10)) (l := stream)
    have hmem : ∀ b ∈ stream.takeWhile fun b : UInt8 => decide (b ≠ 10), b ≠ 10 := fun b hb => by
      simpa using List.mem_takeWhile_imp hb
    rw [endsCrlf, List.isSuffixOf_iff_suffix] at hend
    obtain ⟨text, htext⟩ := hend
    split at h
    · rename_i hd
      cases h
      exact absurd rfl (hmem 10 (by rw [← htext]; simp))
    · rename_i b rest' hd
      cases h
      have hb : b = 10 ∧ text ++ [13] = stream.takeWhile fun b : UInt8 => decide (b ≠ 10) := by
        have hsplit : (text ++ [13]) ++ [10] = (stream.takeWhile fun b : UInt8 => decide (b ≠ 10)) ++ [b] := by
          simpa using htext
        obtain ⟨he, hb⟩ := List.append_inj' hsplit rfl
        exact ⟨(List.singleton_inj.mp hb).symm, he⟩
      refine ⟨by rw [List.append_assoc, List.singleton_append, ← hd, hs], ⟨text, htext.symm, fun ht => ?_⟩, ?_⟩
      · exact hmem 10 (hb.2 ▸ List.mem_append_left _ ht) rfl
      · rw [List.length_append, List.length_singleton]
        omega

theorem endsCrlf_line (h : IsLine line) : endsCrlf line = true := by
  obtain ⟨text, rfl, -⟩ := h
  rw [endsCrlf, List.isSuffixOf_iff_suffix]
  exact List.suffix_append text _

theorem sizeText_sizeLine {size : Bytes → Nat → Prop} (h : SizeLine size text line n) :
    sizeText line = text ∧ IsLine line ∧ size text n ∧ line.length ≤ chunkLineLimit := by
  obtain ⟨extension, rfl, htext, hext, hmem, hlen, hsize⟩ := h
  refine ⟨?_, ⟨text ++ extension, rfl, hmem⟩, hsize, hlen⟩
  have hne : ∀ b ∈ text, decide (b ≠ 59) = true := fun b hb => decide_eq_true fun he => htext (he ▸ hb)
  have hcut : (text ++ extension ++ [13, 10]).take ((text ++ extension ++ [13, 10]).length - 2) = text ++ extension := by
    rw [List.length_append]
    exact List.take_left
  rw [sizeText, hcut, List.takeWhile_append_of_pos hne]
  rcases hext with rfl | hext
  · simp
  · cases extension with
    | nil => cases hext
    | cons b extension =>
        cases hext
        simp

theorem sizeLine_of_line {size : Bytes → Nat → Prop} (h : IsLine line) (hlen : line.length ≤ chunkLineLimit)
    (hsize : size (sizeText line) n) : SizeLine size (sizeText line) line n := by
  obtain ⟨text, rfl, htext⟩ := h
  have hcut : (text ++ [13, 10]).take ((text ++ [13, 10]).length - 2) = text := by
    rw [List.length_append]
    exact List.take_left
  have hs := List.takeWhile_append_dropWhile (p := fun b : UInt8 => decide (b ≠ 59)) (l := text)
  rw [sizeText, hcut] at hsize ⊢
  refine ⟨text.dropWhile (· ≠ 59), by rw [hs], fun hm => ?_, ?_, by rwa [hs], hlen, hsize⟩
  · simpa using List.mem_takeWhile_imp hm
  · cases hd : text.dropWhile (· ≠ 59) with
    | nil => exact Or.inl rfl
    | cons b t =>
        have hb : b = 59 := by simpa using head_dropWhile hd
        exact Or.inr (by rw [hb]; rfl)

/-! ## Trailers -/

theorem readTrailers_error {e : Raised} (h : readline stream = .error e) : readTrailers total stream = .error e := by
  rw [readTrailers]
  split
  · rename_i he
    rw [h] at he
    cases he
    rfl
  · rename_i he
    rw [h] at he
    cases he

theorem readTrailers_line (h : readline stream = .ok (line, rest)) : readTrailers total stream =
    if headerLimit < total + line.length then .error (invalidResponse "chunk trailers are invalid")
    else if endsCrlf line then if line = [13, 10] then .ok () else readTrailers (total + line.length) rest
    else .error (invalidResponse "chunk trailers are invalid") := by
  rw [readTrailers]
  split
  · rename_i he
    rw [h] at he
    cases he
  · rename_i he
    rw [h] at he
    cases he
    rfl

/-- A line that is too long to be read, or what is left of the stream without a line break. -/
def TooLong (stream : Bytes) : Prop := headerLimit < (stream.takeWhile (· ≠ 10)).length

/-- Behind trailers of the given length, and others, there is a line that is too long. -/
inductive LongTrailer : Nat → Bytes → Prop
  | here {total : Nat} {stream : Bytes} : TooLong stream → LongTrailer total stream
  | line {total : Nat} {line rest : Bytes} : IsLine line → line ≠ [13, 10] → total + line.length ≤ headerLimit →
      LongTrailer (total + line.length) rest → LongTrailer total (line ++ rest)

theorem readline_error_iff {e : Raised} : readline stream = .error e ↔ TooLong stream ∧ e = .valueError := by
  simp only [readline, TooLong]
  split
  · rename_i h
    simp only [h, true_and, Except.error.injEq, eq_comm]
  · rename_i h
    simp only [h, false_and, iff_false]
    split <;> simp

theorem readTrailers_of_trailers (h : Trailers total enc) (rest : Bytes) : readTrailers total (enc ++ rest) = .ok () := by
  induction h with
  | last hlen =>
      have hline : IsLine [13, 10] := ⟨[], rfl, List.not_mem_nil⟩
      have hshort : ¬headerLimit < _ + [(13 : UInt8), 10].length := Nat.not_lt.mpr hlen
      rw [readTrailers_line (readline_line hline (by decide)), if_neg hshort, if_pos (endsCrlf_line hline),
        if_pos rfl]
  | line hline hne hlen _ ih =>
      rw [List.append_assoc, readTrailers_line (readline_line hline (by omega)), if_neg (Nat.not_lt.mpr hlen),
        if_pos (endsCrlf_line hline), if_neg hne, ih]

theorem readTrailers_of_long (h : LongTrailer total stream) : readTrailers total stream = .error .valueError := by
  induction h with
  | here hlong => exact readTrailers_error (readline_error_iff.mpr ⟨hlong, rfl⟩)
  | line hline hne hlen _ ih =>
      rw [readTrailers_line (readline_line hline (by omega)), if_neg (Nat.not_lt.mpr hlen), if_pos (endsCrlf_line hline),
        if_neg hne, ih]

theorem readTrailers_cases (total : Nat) (stream : Bytes) :
    (∃ enc rest, stream = enc ++ rest ∧ Trailers total enc ∧ readTrailers total stream = .ok ()) ∨
      (LongTrailer total stream ∧ readTrailers total stream = .error .valueError) ∨
      ∃ message, readTrailers total stream = .error (invalidResponse message) := by
  induction hn : stream.length using Nat.strong_induction_on generalizing total stream with
  | _ n ih =>
      subst hn
      cases hread : readline stream with
      | error e =>
          obtain ⟨hlong, rfl⟩ := readline_error_iff.mp hread
          exact Or.inr (Or.inl ⟨.here hlong, readTrailers_error hread⟩)
      | ok x =>
          obtain ⟨line, rest⟩ := x
          rw [readTrailers_line hread]
          by_cases hlen : headerLimit < total + line.length
          · exact Or.inr (Or.inr ⟨_, if_pos hlen⟩)
          · rw [if_neg hlen]
            by_cases hend : endsCrlf line = true
            · obtain ⟨rfl, hline, -⟩ := line_of_readline hread hend
              rw [if_pos hend]
              by_cases hempty : line = [13, 10]
              · exact Or.inl ⟨line, rest, rfl, hempty ▸ .last (by rw [hempty] at hlen; simpa using hlen), if_pos hempty⟩
              · have hlt : rest.length < (line ++ rest).length := by
                  have := length_pos_of_endsCrlf hend
                  rw [List.length_append]
                  omega
                rw [if_neg hempty]
                rcases ih rest.length hlt (total + line.length) rest rfl with ⟨enc, rest', rfl, henc, hok⟩ | ⟨hlong, herr⟩ | herr
                · exact Or.inl ⟨line ++ enc, rest', by rw [List.append_assoc], .line hline hempty (by omega) henc, hok⟩
                · exact Or.inr (Or.inl ⟨.line hline hempty (by omega) hlong, herr⟩)
                · exact Or.inr (Or.inr herr)
            · exact Or.inr (Or.inr ⟨_, if_neg hend⟩)

/-! ## Chunks -/

theorem readChunked_error {e : Raised} (h : readline stream = .error e) : readChunked maxBytes body stream = .error e := by
  rw [readChunked]
  split
  · rename_i he
    rw [h] at he
    cases he
    rfl
  · rename_i he
    rw [h] at he
    cases he

def readChunk (maxBytes : Nat) (body rest : Bytes) (size : ℤ) : Except Raised Bytes :=
  if size < 0 ∨ (maxBytes : ℤ) < body.length + size then .error (tooLarge "chunked response exceeds the byte limit")
  else if size = 0 then (readTrailers 0 rest).map fun _ => body
  else do
    let (data, after) ← readexactly size.toNat rest
    let (terminator, after) ← readexactly 2 after
    if terminator ≠ [13, 10] then .error (invalidResponse "chunk terminator is invalid")
    else readChunked maxBytes (body ++ data) after

theorem readChunked_line (h : readline stream = .ok (line, rest)) : readChunked maxBytes body stream =
    if endsCrlf line ∧ line.length ≤ chunkLineLimit then
      match intBase16 (sizeText line) with
      | none => .error (invalidResponse "chunk size is invalid")
      | some size => readChunk maxBytes body rest size
    else .error (invalidResponse "chunk header is malformed") := by
  rw [readChunked]
  split
  · rename_i he
    rw [h] at he
    cases he
  · rename_i he
    rw [h] at he
    cases he
    split
    · cases hsize : intBase16 (sizeText line) with
      | none => rfl
      | some size =>
          simp only [readChunk]
          split
          · rfl
          · split
            · rfl
            · split
              · rename_i hdata
                rw [hdata]
                rfl
              · rename_i hdata
                rw [hdata]
                simp only [bind, Except.bind]
                split
                · rename_i hend
                  rw [hend]
                · rename_i hend
                  rw [hend]
    · rfl

/-- Behind chunks, the body of which has the given length and others, there is a line that is too long. -/
inductive LongLine (maxBytes : Nat) : Nat → Bytes → Prop
  | here {n : Nat} {stream : Bytes} : TooLong stream → LongLine maxBytes n stream
  | trailer {n : Nat} {text line rest : Bytes} : SizeLine IntSize text line 0 → n ≤ maxBytes → LongTrailer 0 rest →
      LongLine maxBytes n (line ++ rest)
  | chunk {n : Nat} {text line data rest : Bytes} : SizeLine IntSize text line data.length → data ≠ [] →
      n + data.length ≤ maxBytes → LongLine maxBytes (n + data.length) rest →
      LongLine maxBytes n (line ++ data ++ [13, 10] ++ rest)

theorem chunkLine_le (h : line.length ≤ chunkLineLimit) : line.length ≤ headerLimit + 1 :=
  Nat.le_trans h (by decide)

theorem readChunked_sizeLine (h : SizeLine IntSize text line n) : readChunked maxBytes body (line ++ rest) =
    readChunk maxBytes body rest n := by
  obtain ⟨htext, hline, hsize, hlen⟩ := sizeText_sizeLine h
  rw [readChunked_line (readline_line hline (chunkLine_le hlen)), if_pos ⟨endsCrlf_line hline, hlen⟩, htext, hsize]

theorem readexactly_append (x y : Bytes) : readexactly x.length (x ++ y) = .ok (x, y) := by
  rw [readexactly, if_pos (by rw [List.length_append]; omega), List.take_left, List.drop_left]

theorem readChunk_last (h : body.length ≤ maxBytes) :
    readChunk maxBytes body rest 0 = (readTrailers 0 rest).map fun _ => body := by
  rw [readChunk, if_neg (by omega), if_pos rfl]

theorem readChunk_data (hne : data ≠ []) (hlen : body.length + data.length ≤ maxBytes) :
    readChunk maxBytes body (data ++ [13, 10] ++ rest) data.length = readChunked maxBytes (body ++ data) rest := by
  have hpos := List.length_pos_iff.mpr hne
  have hend : readexactly 2 ([13, 10] ++ rest) = .ok ([13, 10], rest) := readexactly_append [13, 10] rest
  rw [readChunk, if_neg (by omega), if_neg (by omega), Int.toNat_natCast, List.append_assoc, readexactly_append]
  simp only [bind, Except.bind, hend]
  simp

theorem readChunked_of_coded (h : Coded IntSize texts data enc) (hlen : body.length + data.length ≤ maxBytes)
    (rest : Bytes) :
    readChunked maxBytes body (enc ++ rest) = .ok (body ++ data) := by
  induction h generalizing body with
  | last hline htrailers =>
      rw [List.append_assoc, readChunked_sizeLine hline, Nat.cast_zero, readChunk_last hlen,
        readTrailers_of_trailers htrailers,
        List.append_nil]
      rfl
  | @chunk text line data _ rest' _ hline hne _ ih =>
      rw [List.length_append] at hlen
      have hstep : line ++ data ++ [13, 10] ++ rest' ++ rest = line ++ (data ++ [13, 10] ++ (rest' ++ rest)) := by simp
      rw [hstep, readChunked_sizeLine hline, readChunk_data hne (by omega), ih (by rw [List.length_append]; omega),
        List.append_assoc]

theorem readChunked_of_long (h : LongLine maxBytes n stream) (hn : body.length = n) :
    readChunked maxBytes body stream = .error .valueError := by
  induction h generalizing body with
  | here hlong => exact readChunked_error (readline_error_iff.mpr ⟨hlong, rfl⟩)
  | trailer hline hlen hlong =>
      rw [readChunked_sizeLine hline, Nat.cast_zero, readChunk_last (hn ▸ hlen), readTrailers_of_long hlong]
      rfl
  | @chunk n text line data rest hline hne hlen _ ih =>
      have hstep : line ++ data ++ [13, 10] ++ rest = line ++ (data ++ [13, 10] ++ rest) := by simp
      rw [hstep, readChunked_sizeLine hline, readChunk_data hne (hn ▸ hlen), ih (by rw [List.length_append, hn])]

theorem readChunked_nil_of_coded (h : Coded IntSize texts data enc) (hlen : data.length ≤ maxBytes) (rest : Bytes) :
    readChunked maxBytes [] (enc ++ rest) = .ok data :=
  readChunked_of_coded h (by rwa [List.length_nil, Nat.zero_add]) rest

theorem readChunked_nil_of_long (h : LongLine maxBytes 0 stream) : readChunked maxBytes [] stream = .error .valueError :=
  readChunked_of_long h rfl

theorem readexactly_cases (n : Nat) (stream : Bytes) :
    (∃ data rest, stream = data ++ rest ∧ data.length = n ∧ readexactly n stream = .ok (data, rest)) ∨
      readexactly n stream = .error .incompleteReadError := by
  rw [readexactly]
  split
  · rename_i hn
    exact Or.inl ⟨stream.take n, stream.drop n, (List.take_append_drop n stream).symm, List.length_take_of_le hn, rfl⟩
  · exact Or.inr rfl

theorem readChunked_cases (maxBytes : Nat) (body stream : Bytes) :
    (∃ texts data enc rest, stream = enc ++ rest ∧ Coded IntSize texts data enc ∧ body.length + data.length ≤ maxBytes ∧
      readChunked maxBytes body stream = .ok (body ++ data)) ∨
    (LongLine maxBytes body.length stream ∧ readChunked maxBytes body stream = .error .valueError) ∨
    ∃ e, e ≠ .valueError ∧ readChunked maxBytes body stream = .error e := by
  induction hn : stream.length using Nat.strong_induction_on generalizing body stream with
  | _ n ih =>
      subst hn
      cases hread : readline stream with
      | error e =>
          obtain ⟨hlong, rfl⟩ := readline_error_iff.mp hread
          exact Or.inr (Or.inl ⟨.here hlong, readChunked_error hread⟩)
      | ok x =>
          obtain ⟨line, rest⟩ := x
          by_cases hend : endsCrlf line ∧ line.length ≤ chunkLineLimit
          swap
          · exact Or.inr (Or.inr ⟨.webFetchError _, nofun, (readChunked_line hread).trans (if_neg hend)⟩)
          obtain ⟨rfl, hline, -⟩ := line_of_readline hread hend.1
          cases hsize : intBase16 (sizeText line) with
          | none =>
              exact Or.inr (Or.inr ⟨invalidResponse "chunk size is invalid", nofun, by
                rw [readChunked_line hread, if_pos hend, hsize]⟩)
          | some size =>
              have heq : readChunked maxBytes body (line ++ rest) = readChunk maxBytes body rest size := by
                rw [readChunked_line hread, if_pos hend, hsize]
              rw [heq]
              by_cases hlen : size < 0 ∨ (maxBytes : ℤ) < body.length + size
              · exact Or.inr (Or.inr ⟨.webFetchError _, nofun, if_pos hlen⟩)
              obtain ⟨k, rfl⟩ : ∃ k : ℕ, size = k := ⟨size.toNat, by omega⟩
              have hsizeLine : SizeLine IntSize (sizeText line) line k := sizeLine_of_line hline hend.2 hsize
              rcases Nat.eq_zero_or_pos k with rfl | hk
              · rw [Nat.cast_zero, readChunk_last (by omega)]
                rcases readTrailers_cases 0 rest with ⟨enc, rest', rfl, henc, hok⟩ | ⟨hlong, herr⟩ | ⟨message, herr⟩
                · refine Or.inl ⟨[sizeText line], [], line ++ enc, rest',
                    by rw [List.append_assoc], .last hsizeLine henc, ?_, ?_⟩
                  · simp only [List.length_nil]
                    omega
                  · rw [hok, List.append_nil]
                    rfl
                · exact Or.inr (Or.inl ⟨.trailer hsizeLine (by omega) hlong, by rw [herr]; rfl⟩)
                · exact Or.inr (Or.inr ⟨.webFetchError _, nofun, by rw [herr]; rfl⟩)
              · rw [readChunk, if_neg hlen, if_neg (by omega), Int.toNat_natCast]
                rcases readexactly_cases k rest with ⟨data, after, rfl, rfl, hdata⟩ | hdata
                swap
                · exact Or.inr (Or.inr ⟨.incompleteReadError, nofun, by rw [hdata]; rfl⟩)
                rcases readexactly_cases 2 after with ⟨terminator, after, rfl, hlen', hafter⟩ | hafter
                swap
                · exact Or.inr (Or.inr ⟨.incompleteReadError, nofun, by simp only [hdata, hafter, bind, Except.bind]⟩)
                simp only [hdata, hafter, bind, Except.bind]
                by_cases hcrlf : terminator = [13, 10]
                swap
                · exact Or.inr (Or.inr ⟨.webFetchError _, nofun, if_pos hcrlf⟩)
                rw [if_neg (not_not.mpr hcrlf)]
                subst hcrlf
                have hne : data ≠ [] := List.length_pos_iff.mp hk
                have hbound : (body ++ data).length ≤ maxBytes := by
                  rw [List.length_append]
                  omega
                have hlt : after.length < (line ++ (data ++ ([13, 10] ++ after))).length := by
                  simp only [List.length_append]
                  omega
                have hcut : ∀ s, line ++ (data ++ ([13, 10] ++ s)) = line ++ data ++ [13, 10] ++ s := fun s => by simp
                rw [List.length_append] at hbound
                rcases ih after.length hlt (body ++ data) after rfl with
                  ⟨texts, data', enc, rest, rfl, hcoded, hle, hok⟩ | ⟨hlong, herr⟩ | herr
                · refine Or.inl ⟨sizeText line :: texts, data ++ data', line ++ data ++ [13, 10] ++ enc, rest, ?_,
                    .chunk hsizeLine hne hcoded, ?_, ?_⟩
                  · rw [hcut, List.append_assoc (line ++ data ++ [13, 10])]
                  · rw [List.length_append] at hle ⊢
                    omega
                  · rw [hok, List.append_assoc]
                · rw [List.length_append] at hlong
                  exact Or.inr (Or.inl ⟨(hcut after).symm ▸ LongLine.chunk hsizeLine hne hbound hlong, herr⟩)
                · exact Or.inr (Or.inr herr)

end Etoeragcb.Web
