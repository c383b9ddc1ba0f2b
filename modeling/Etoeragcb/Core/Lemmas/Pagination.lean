import Etoeragcb.Core.Pagination
import Etoeragcb.Documents.Lemmas.Tokens

/-!
# What a cursor says
-/

namespace Etoeragcb.Core

open Lib Documents

variable {h : Hmac} {codec : CursorCodec} {kind token : Text} {occurredAt : Aware} {resourceId : UUID}
    {position : CursorPosition}

theorem splitCursor_eq {s t : Text} (hs : ∀ c ∈ s, isBase64Url c = true) : splitCursor (s ++ '.' :: t) = some (s, t) := by
  have hne : ∀ c ∈ s, decide (c ≠ '.') = true := fun c hc => by
    refine decide_eq_true fun he => ?_
    have hurl := hs c hc
    rw [he] at hurl
    cases hurl
  rw [splitCursor, if_pos (by simp), List.takeWhile_append_of_pos hne, List.dropWhile_append_of_pos hne,
    List.takeWhile_cons_of_neg (by decide), List.dropWhile_cons_of_neg (by decide), List.append_nil]
  rfl

theorem loads_cursorBody (kind : Text) (position : CursorPosition) : loads (cursorBody kind position) =
    some (.obj [("at".toList, .str position.occurredAt.isoformatUtc), ("id".toList, .str position.resourceId.text),
      ("kind".toList, .str kind)]) := loads_encode _

def cursorToken (h : Hmac) (codec : CursorCodec) (kind : Text) (position : CursorPosition) : Text :=
  b64encode (cursorBody kind position) ++ '.' :: b64encode (h.digest codec.secret (cursorBody kind position))

theorem decode_cursorToken (expectedKind : Text) : codec.decode h (cursorToken h codec kind position) expectedKind =
    if kind = expectedKind then .ok position else .error .invalidCursor := by
  have hat : Json.get? [("at".toList, .str position.occurredAt.isoformatUtc), ("id".toList, .str position.resourceId.text),
      ("kind".toList, .str kind)] "at".toList = some (.str position.occurredAt.isoformatUtc) := rfl
  have hid : Json.get? [("at".toList, .str position.occurredAt.isoformatUtc), ("id".toList, .str position.resourceId.text),
      ("kind".toList, .str kind)] "id".toList = some (.str position.resourceId.text) := rfl
  have hkind : Json.get? [("at".toList, .str position.occurredAt.isoformatUtc), ("id".toList, .str position.resourceId.text),
      ("kind".toList, .str kind)] "kind".toList = some (.str kind) := rfl
  have hread : readOccurredAt (some (.str position.occurredAt.isoformatUtc)) = .ok position.occurredAt := by
    rw [readOccurredAt, Civil.fromisoformat_isoformatUtc]
    simp only [Aware.astimezoneUtc_utc]
    rfl
  have huuid : readResourceId (some (.str position.resourceId.text)) = .ok position.resourceId := by
    rw [readResourceId, UUID.ofText_text]
    rfl
  rw [CursorCodec.decode, cursorToken, splitCursor_eq (b64encode_body _).1]
  simp only [orRaise, b64decode_b64encode, bind, Except.bind, ne_eq, not_true_eq_false, if_false, loads_cursorBody, hat, hid,
    hkind, hread, huuid, hasKind, decide_eq_true_eq]
  rfl

theorem encode_eq_ok : codec.encode h kind occurredAt resourceId = .ok token ↔
    ∃ utc, occurredAt.astimezoneUtc = some utc ∧ token = cursorToken h codec kind ⟨utc, resourceId⟩ := by
  rw [CursorCodec.encode, bind_eq_ok]
  simp only [orRaise_eq_ok]
  refine exists_congr fun utc => and_congr_right fun _ => ?_
  exact pure_eq_ok.trans eq_comm

end Etoeragcb.Core
