import Etoeragcb.Web.Lemmas.Chunks

/-!
# Sizes of chunks

What the grammar of the coding asks of a size and what `int` takes differ in the texts that are not hexadecimal digits all
along.
-/

namespace Etoeragcb.Web

open Lib

variable {stream line rest text data body enc : Bytes} {texts : List Bytes} {n m maxBytes : Nat}

/-- No sign, blank or underscore, and no `x` of a prefix. -/
def AllHex (text : Bytes) : Prop := ∀ b ∈ text, (hexByte b).isSome

instance (text : Bytes) : Decidable (AllHex text) := inferInstanceAs (Decidable (∀ b ∈ text, (hexByte b).isSome))

theorem readHexBytes_eq (h : AllHex text) (acc : Nat) : readHexBytes acc text = readHex acc (latin1 text) := by
  induction text generalizing acc with
  | nil => rfl
  | cons b s ih =>
      have hb := h b List.mem_cons_self
      have hne : b ≠ 95 := by
        rintro rfl
        exact absurd hb (by decide)
      have hs : AllHex s := fun x hx => h x (List.mem_cons_of_mem _ hx)
      rw [readHexBytes.eq_3 _ _ _ fun _ _ he _ => hne he, latin1, List.map_cons, readHex]
      change (hexByte b).bind _ = (hexByte b).bind _
      congr 1
      funext d
      exact ih hs _

theorem hexNumber_eq (h : AllHex text) (hne : text ≠ []) : hexNumber text = readHex 0 (latin1 text) := by
  cases text with
  | nil => exact absurd rfl hne
  | cons b s =>
      rw [hexNumber, latin1, List.map_cons, readHex]
      change (hexByte b).bind _ = (hexByte b).bind _
      congr 1
      funext d
      rw [Nat.mul_zero, Nat.zero_add]
      exact readHexBytes_eq (fun x hx => h x (List.mem_cons_of_mem _ hx)) d

theorem unsignedBase16_eq (h : AllHex text) (hne : text ≠ []) : unsignedBase16 text = readHex 0 (latin1 text) := by
  rw [← hexNumber_eq h hne]
  rw [unsignedBase16.eq_def]
  split
  · rename_i x s
    have hx := h x (List.mem_cons_of_mem _ List.mem_cons_self)
    have hno : ¬(x = 120 ∨ x = 88) := by
      rintro (rfl | rfl)
      · exact absurd hx (by decide)
      · exact absurd hx (by decide)
    rw [if_neg hno]
  · rfl

theorem isByteSpace_hex {b : UInt8} (h : (hexByte b).isSome) : isByteSpace b = false := by
  by_contra hs
  simp only [isByteSpace, Bool.or_eq_true, beq_iff_eq, Bool.and_eq_true, decide_eq_true_eq, Bool.not_eq_false] at hs
  have hcases : b = 32 ∨ b = 9 ∨ b = 10 ∨ b = 11 ∨ b = 12 ∨ b = 13 := by grind
  rcases hcases with rfl | rfl | rfl | rfl | rfl | rfl <;> exact absurd h (by decide)

theorem intBase16_hex (h : AllHex text) (hne : text ≠ []) : intBase16 text = (readHex 0 (latin1 text)).map (↑) := by
  have hleft : text.dropWhile isByteSpace = text := by
    cases text with
    | nil => rfl
    | cons b s => exact List.dropWhile_cons_of_neg (by rw [isByteSpace_hex (h b List.mem_cons_self)]; nofun)
  have hright : text.rdropWhile isByteSpace = text := by
    rw [List.rdropWhile_eq_self_iff]
    intro hl
    rw [isByteSpace_hex (h _ (List.getLast_mem hl))]
    nofun
  rw [intBase16, hleft, hright]
  split
  · exact absurd (h 45 List.mem_cons_self) (by decide)
  · exact absurd (h 43 List.mem_cons_self) (by decide)
  · rw [unsignedBase16_eq h hne]

theorem allHex_of_readHex {acc : Nat} (h : readHex acc (latin1 text) = some n) : AllHex text := by
  induction text generalizing acc with
  | nil => exact fun _ hb => absurd hb List.not_mem_nil
  | cons b s ih =>
      rw [latin1, List.map_cons, readHex, Option.bind_eq_some_iff] at h
      obtain ⟨d, hd, hs⟩ := h
      have hb : (hexByte b).isSome := Option.isSome_iff_exists.mpr ⟨d, hd⟩
      exact List.forall_mem_cons.mpr ⟨hb, ih hs⟩

theorem IntSize.ne_nil (h : IntSize text n) : text ≠ [] := by
  rintro rfl
  cases h

theorem hexSize_iff : HexSize text n ↔ IntSize text n ∧ AllHex text := by
  constructor
  · rintro ⟨hne, h⟩
    have hall := allHex_of_readHex h
    exact ⟨by rw [IntSize, intBase16_hex hall hne, h]; rfl, hall⟩
  · rintro ⟨h, hall⟩
    have hne := h.ne_nil
    rw [IntSize, intBase16_hex hall hne, Option.map_eq_some_iff] at h
    obtain ⟨m, hm, hmn⟩ := h
    exact ⟨hne, hm.trans (congrArg some (Int.ofNat_inj.mp hmn))⟩

theorem SizeLine.mono {size size' : Bytes → Nat → Prop} (h : SizeLine size text line n) (hs : size' text n) :
    SizeLine size' text line n := by
  obtain ⟨extension, hline, htext, hext, hmem, hlen, -⟩ := h
  exact ⟨extension, hline, htext, hext, hmem, hlen, hs⟩

/-- The two grammars agree where the sizes are hexadecimal digits. -/
theorem coded_hexSize_iff : Coded HexSize texts body enc ↔ Coded IntSize texts body enc ∧ ∀ text ∈ texts, AllHex text := by
  constructor
  · intro h
    induction h with
    | last hline htrailers =>
        obtain ⟨hint, hall⟩ := hexSize_iff.mp (sizeText_sizeLine hline).2.2.1
        exact ⟨.last (hline.mono hint) htrailers, List.forall_mem_singleton.mpr hall⟩
    | chunk hline hne _ ih =>
        obtain ⟨hint, hall⟩ := hexSize_iff.mp (sizeText_sizeLine hline).2.2.1
        exact ⟨.chunk (hline.mono hint) hne ih.1, List.forall_mem_cons.mpr ⟨hall, ih.2⟩⟩
  · rintro ⟨h, hall⟩
    induction h with
    | last hline htrailers =>
        have hhex := hexSize_iff.mpr ⟨(sizeText_sizeLine hline).2.2.1, List.forall_mem_singleton.mp hall⟩
        exact .last (hline.mono hhex) htrailers
    | chunk hline hne _ ih =>
        obtain ⟨htext, htexts⟩ := List.forall_mem_cons.mp hall
        exact .chunk (hline.mono (hexSize_iff.mpr ⟨(sizeText_sizeLine hline).2.2.1, htext⟩)) hne (ih htexts)

/-! ## One way to read a stream -/

theorem sizeLine_inj {text' line' rest' : Bytes} (h : SizeLine IntSize text line n) (h' : SizeLine IntSize text' line' m)
    (he : line ++ rest = line' ++ rest') : line = line' ∧ text = text' ∧ n = m ∧ rest = rest' := by
  obtain ⟨htext, hline, hsize, hlen⟩ := sizeText_sizeLine h
  obtain ⟨htext', hline', hsize', hlen'⟩ := sizeText_sizeLine h'
  have hread : readline (line ++ rest) = .ok (line, rest) := readline_line hline (chunkLine_le hlen)
  rw [he, readline_line hline' (chunkLine_le hlen')] at hread
  obtain ⟨rfl, rfl⟩ := Prod.mk.inj (Except.ok.inj hread)
  obtain rfl := htext.symm.trans htext'
  exact ⟨rfl, rfl, Int.ofNat_inj.mp (Option.some.inj (hsize.symm.trans hsize')), rfl⟩

theorem coded_texts_inj {texts' : List Bytes} {body' enc' rest' : Bytes} (h : Coded IntSize texts body enc)
    (h' : Coded IntSize texts' body' enc') (he : enc ++ rest = enc' ++ rest') : texts = texts' := by
  induction h generalizing texts' body' enc' rest' with
  | last hline _ =>
      cases h' with
      | last hline' _ =>
          rw [List.append_assoc, List.append_assoc] at he
          obtain ⟨-, rfl, -, -⟩ := sizeLine_inj hline hline' he
          rfl
      | chunk hline' hne' _ =>
          simp only [List.append_assoc] at he
          obtain ⟨-, -, hlen, -⟩ := sizeLine_inj hline hline' he
          exact absurd (List.length_eq_zero_iff.mp hlen.symm) hne'
  | chunk hline hne _ ih =>
      cases h' with
      | last hline' _ =>
          simp only [List.append_assoc] at he
          obtain ⟨-, -, hlen, -⟩ := sizeLine_inj hline hline' he
          exact absurd (List.length_eq_zero_iff.mp hlen) hne
      | chunk hline' _ hrest' =>
          simp only [List.append_assoc] at he
          obtain ⟨-, rfl, hlen, hdata⟩ := sizeLine_inj hline hline' he
          obtain ⟨-, hcrlf⟩ := List.append_inj hdata hlen
          rw [ih hrest' (List.append_cancel_left hcrlf)]

end Etoeragcb.Web
