import Etoeragcb.Content.Embedder
import Etoeragcb.Lib.Result

/-!
# Splitting a text that is too long
-/

namespace Etoeragcb.Content

open Lib

variable {text : Text} {p : Nat}

/-! ## The split -/

theorem mem_spacesIn {start stop : Nat} :
    p ∈ spacesIn text start stop ↔ start ≤ p ∧ p < stop ∧ text[p]? = some ' ' := by
  rw [spacesIn, List.mem_filter, List.mem_range'_1, decide_eq_true_eq, and_assoc]
  exact and_congr_right fun h => and_congr_left fun _ => by omega

theorem spacesIn_sorted (text : Text) (start stop : Nat) : (spacesIn text start stop).Pairwise (· < ·) :=
  List.Pairwise.filter _ List.pairwise_lt_range'

theorem getLast?_spacesIn {stop : Nat} (h : (spacesIn text 0 stop).getLast? = some p) :
    p < stop ∧ text[p]? = some ' ' ∧ ∀ i, p < i → i < stop → text[i]? ≠ some ' ' := by
  obtain ⟨-, hlt, hp⟩ := mem_spacesIn.mp (List.mem_of_getLast? h)
  refine ⟨hlt, hp, fun i hpi hi hs => ?_⟩
  have hmem : i ∈ spacesIn text 0 stop := mem_spacesIn.mpr ⟨Nat.zero_le i, hi, hs⟩
  obtain ⟨front, hfront⟩ := List.getLast?_eq_some_iff.mp h
  rw [hfront, List.mem_append, List.mem_singleton] at hmem
  have hsorted := spacesIn_sorted text 0 stop
  rw [hfront, List.pairwise_append] at hsorted
  rcases hmem with hmem | rfl
  · exact absurd (hsorted.2.2 i hmem p (List.mem_singleton_self p)) (by omega)
  · omega

theorem head?_spacesIn {start stop : Nat} (h : (spacesIn text start stop).head? = some p) :
    start ≤ p ∧ p < stop ∧ text[p]? = some ' ' ∧ ∀ i, start ≤ i → i < p → text[i]? ≠ some ' ' := by
  obtain ⟨hle, hlt, hp⟩ := mem_spacesIn.mp (List.mem_of_head? h)
  refine ⟨hle, hlt, hp, fun i hi hip hs => ?_⟩
  have hmem : i ∈ spacesIn text start stop := mem_spacesIn.mpr ⟨hi, hip.trans hlt, hs⟩
  obtain ⟨rest, hrest⟩ := List.head?_eq_some_iff.mp h
  rw [hrest, List.mem_cons] at hmem
  have hsorted := spacesIn_sorted text start stop
  rw [hrest, List.pairwise_cons] at hsorted
  rcases hmem with rfl | hmem
  · omega
  · exact absurd (hsorted.1 i hmem) (by omega)

theorem spacesIn_eq_nil {start stop : Nat} (h : spacesIn text start stop = []) {i : Nat} (hi : start ≤ i)
    (hstop : i < stop) :
    text[i]? ≠ some ' ' := fun hs => by
  have hmem : i ∈ spacesIn text start stop := mem_spacesIn.mpr ⟨hi, hstop, hs⟩
  rw [h] at hmem
  cases hmem

theorem before_cases {midpoint : Nat} (hm : midpoint ≤ text.length) :
    ((spacesIn text 0 midpoint).getLast?.toList.filter (fun i => 0 < i ∧ i < text.length) = [] ∧
        ∀ i, 0 < i → i < midpoint → text[i]? ≠ some ' ') ∨
      ∃ b, (spacesIn text 0 midpoint).getLast?.toList.filter (fun i => 0 < i ∧ i < text.length) = [b] ∧
        0 < b ∧ b < midpoint ∧ text[b]? = some ' ' := by
  cases hb : (spacesIn text 0 midpoint).getLast? with
  | none =>
      have hnil := List.getLast?_eq_none_iff.mp hb
      exact .inl ⟨rfl, fun i _ hi => spacesIn_eq_nil hnil (Nat.zero_le i) hi⟩
  | some b =>
      obtain ⟨hlt, hspace, hlast⟩ := getLast?_spacesIn hb
      by_cases hpos : 0 < b
      · refine .inr ⟨b, ?_, hpos, hlt, hspace⟩
        simp [hpos, hlt.trans_le hm]
      · refine .inl ⟨by simp [hpos], fun i hi => hlast i (by omega)⟩

theorem after_cases {midpoint : Nat} (hm : 0 < midpoint) :
    ((spacesIn text midpoint text.length).head?.toList.filter (fun i => 0 < i ∧ i < text.length) = [] ∧
        ∀ i, midpoint ≤ i → text[i]? ≠ some ' ') ∨
      ∃ a, (spacesIn text midpoint text.length).head?.toList.filter (fun i => 0 < i ∧ i < text.length) = [a] ∧
        midpoint ≤ a ∧ a < text.length ∧ text[a]? = some ' ' ∧ ∀ i, midpoint ≤ i → i < a → text[i]? ≠ some ' ' := by
  cases ha : (spacesIn text midpoint text.length).head? with
  | none =>
      have hnil := List.head?_eq_none_iff.mp ha
      refine .inl ⟨rfl, fun i hi hs => ?_⟩
      obtain ⟨hlt, -⟩ := List.getElem?_eq_some_iff.mp hs
      exact spacesIn_eq_nil hnil hi hlt hs
  | some a =>
      obtain ⟨hle, hlt, hspace, hfirst⟩ := head?_spacesIn ha
      refine .inr ⟨a, ?_, hle, hlt, hspace, hfirst⟩
      simp [hm.trans_le hle, hlt]

/-- The split is behind a space that is not the first character, or at the midpoint if there is none. It is behind the
last character only if that is the only one. -/
theorem safeSplit_cases (h : 2 ≤ text.length) :
    (safeSplit text = text.length / 2 ∧ ∀ i, 0 < i → text[i]? ≠ some ' ') ∨
      ∃ p, safeSplit text = p + 1 ∧ 0 < p ∧ text[p]? = some ' ' ∧
        (p + 1 = text.length → ∀ i, 0 < i → i < p → text[i]? ≠ some ' ') := by
  simp only [safeSplit, List.filter_append]
  have hm : 0 < text.length / 2 := by omega
  have hle : text.length / 2 ≤ text.length := Nat.div_le_self _ 2
  rcases before_cases hle with ⟨hb, hnone⟩ | ⟨b, hb, hpos, hlt, hspace⟩
  · rcases after_cases hm with ⟨ha, hnone'⟩ | ⟨a, ha, hle, hlt, hspace, hfirst⟩
    · refine .inl ⟨by rw [hb, ha]; rfl, fun i hi => ?_⟩
      exact (Nat.lt_or_ge i (text.length / 2)).elim (hnone i hi) (hnone' i)
    · refine .inr ⟨a, by rw [hb, ha]; rfl, by omega, hspace, fun _ i hi hia => ?_⟩
      exact (Nat.lt_or_ge i (text.length / 2)).elim (hnone i hi) fun hge => hfirst i hge hia
  · rcases after_cases hm with ⟨ha, -⟩ | ⟨a, ha, hle, hlt', hspace', -⟩
    · exact .inr ⟨b, by rw [hb, ha]; rfl, hpos, hspace, by omega⟩
    · simp only [hb, ha, List.singleton_append, closest]
      split
      · exact .inr ⟨a, rfl, by omega, hspace', by omega⟩
      · exact .inr ⟨b, rfl, hpos, hspace, by omega⟩

/-- The last character is the only space behind the first one. -/
def SpaceAtEnd (text : Text) : Prop := text.tail.getLast? = some ' ' ∧ ' ' ∉ text.tail.dropLast

instance (text : Text) : Decidable (SpaceAtEnd text) := inferInstanceAs (Decidable (_ ∧ _))

theorem mem_tail_iff : ' ' ∈ text.tail ↔ ∃ i, 0 < i ∧ text[i]? = some ' ' := by
  simp only [List.mem_iff_getElem?, List.getElem?_tail]
  exact ⟨fun ⟨i, hi⟩ => ⟨i + 1, Nat.succ_pos i, hi⟩, fun ⟨i, hpos, hi⟩ => ⟨i - 1, by rwa [Nat.sub_add_cancel hpos]⟩⟩

theorem spaceAtEnd_iff : SpaceAtEnd text ↔
    2 ≤ text.length ∧ text[text.length - 1]? = some ' ' ∧ ∀ i, 0 < i → i + 1 < text.length → text[i]? ≠ some ' ' := by
  cases text with
  | nil => simp [SpaceAtEnd]
  | cons c s =>
      have hmem : ' ' ∈ s.dropLast ↔ ∃ i, i + 1 < s.length ∧ s[i]? = some ' ' := by
        rw [List.dropLast_eq_take, List.mem_iff_getElem?]
        refine exists_congr fun i => ?_
        rw [List.getElem?_take, Option.ite_none_right_eq_some]
        exact and_congr_left fun _ => by omega
      rw [SpaceAtEnd, List.tail_cons, hmem, List.getLast?_eq_getElem?, List.length_cons, Nat.add_sub_cancel]
      constructor
      · rintro ⟨hlast, hnone⟩
        have hpos : 0 < s.length := by
          obtain ⟨hlt, -⟩ := List.getElem?_eq_some_iff.mp hlast
          omega
        refine ⟨by omega, ?_, fun i hi hlt hs => ?_⟩
        · rwa [← Nat.sub_add_cancel hpos, List.getElem?_cons_succ]
        · rw [← Nat.sub_add_cancel hi, List.getElem?_cons_succ] at hs
          exact hnone ⟨i - 1, by omega, hs⟩
      · rintro ⟨hlen, hlast, hnone⟩
        have hpos : 0 < s.length := by omega
        refine ⟨?_, fun ⟨i, hlt, hs⟩ => hnone (i + 1) (Nat.succ_pos i) (by omega) ?_⟩
        · rwa [← Nat.sub_add_cancel hpos, List.getElem?_cons_succ] at hlast
        · rwa [List.getElem?_cons_succ]

/-- The split leaves something on both sides if and only if the last character is not the only space to split behind. -/
theorem safeSplit_inside (h : 2 ≤ text.length) : (0 < safeSplit text ∧ safeSplit text < text.length) ↔ ¬SpaceAtEnd text := by
  rw [spaceAtEnd_iff]
  rcases safeSplit_cases h with ⟨hs, hnone⟩ | ⟨p, hs, hpos, hp, hend⟩
  · refine ⟨fun _ hlone => hnone (text.length - 1) (by omega) hlone.2.1, fun _ => ?_⟩
    omega
  · obtain ⟨hlt, -⟩ := List.getElem?_eq_some_iff.mp hp
    rw [hs]
    constructor
    · rintro ⟨-, hinside⟩ ⟨-, -, hnone⟩
      exact hnone p hpos hinside hp
    · intro hlone
      refine ⟨Nat.succ_pos p, Nat.lt_of_le_of_ne hlt fun he => hlone ⟨h, ?_, fun i hi hlt => ?_⟩⟩
      · rwa [← he, Nat.add_sub_cancel]
      · exact hend he i hi (by omega)

theorem safeSplit_of_spaceAtEnd (h : SpaceAtEnd text) : safeSplit text = text.length := by
  obtain ⟨hlen, hlast, hnone⟩ := spaceAtEnd_iff.mp h
  rcases safeSplit_cases hlen with ⟨-, hno⟩ | ⟨p, hs, hpos, hp, -⟩
  · exact absurd hlast (hno _ (by omega))
  · obtain ⟨hlt, -⟩ := List.getElem?_eq_some_iff.mp hp
    have hend : ¬p + 1 < text.length := fun hinside => hnone p hpos hinside hp
    omega

theorem mem_tail_take_safeSplit (h : ' ' ∈ text.tail) : ' ' ∈ (text.take (safeSplit text)).tail := by
  obtain ⟨i, hi, hspace⟩ := mem_tail_iff.mp h
  have hlen : 2 ≤ text.length := by
    obtain ⟨hlt, -⟩ := List.getElem?_eq_some_iff.mp hspace
    omega
  rcases safeSplit_cases hlen with ⟨-, hno⟩ | ⟨p, hs, hpos, hp, -⟩
  · exact absurd hspace (hno i hi)
  · refine mem_tail_iff.mpr ⟨p, hpos, ?_⟩
    rw [hs, List.getElem?_take_of_lt (Nat.lt_succ_self p), hp]

theorem mem_tail_of_spaceAtEnd {piece : Text} (hp : piece <:+: text) (h : SpaceAtEnd piece) : ' ' ∈ text.tail := by
  obtain ⟨before, after, rfl⟩ := hp
  obtain ⟨i, hi, hspace⟩ := mem_tail_iff.mp (List.mem_of_getLast? h.1)
  obtain ⟨hlt, -⟩ := List.getElem?_eq_some_iff.mp hspace
  refine mem_tail_iff.mpr ⟨before.length + i, by omega, ?_⟩
  rw [List.append_assoc, List.getElem?_append_right (Nat.le_add_right _ _), Nat.add_sub_cancel_left,
    List.getElem?_append_left hlt, hspace]

/-! ## Ends of the recursion -/

variable {service : Service} {n baseOffset fuel : Nat}

/-- The service refuses no part of a text that cannot be split. -/
def SplitsRefused (service : Service) (text : Text) : Prop :=
  ∀ n piece, piece <:+: text → SpaceAtEnd piece → post (service n piece) ≠ .error .tokenizationTooLong

theorem SplitsRefused.of_isInfix {piece : Text} (h : SplitsRefused service text) (hp : piece <:+: text) :
    SplitsRefused service piece := fun n _ hq => h n _ (hq.trans hp)

theorem tokenSpansFrom_isSome (hfuel : text.length < fuel) (h : SplitsRefused service text) :
    (tokenSpansFrom service fuel n baseOffset text).isSome := by
  induction fuel generalizing n baseOffset text with
  | zero => omega
  | succ fuel ih =>
      rw [tokenSpansFrom]
      cases hpost : post (service n text) with
      | ok payload => rfl
      | error e =>
          cases e with
          | embedding message => rfl
          | tokenizationTooLong =>
              simp only
              split
              · rfl
              · have hinside := (safeSplit_inside (by omega)).mpr fun hlone => h n text List.infix_rfl hlone hpost
                have hleft : ∀ n, (tokenSpansFrom service fuel n baseOffset (text.take (safeSplit text))).isSome := fun n =>
                  ih (by rw [List.length_take]; omega) (h.of_isInfix (List.take_prefix _ _).isInfix)
                have hright : ∀ n, (tokenSpansFrom service fuel n (baseOffset + safeSplit text)
                    (text.drop (safeSplit text))).isSome := fun n =>
                  ih (by rw [List.length_drop]; omega) (h.of_isInfix (List.drop_suffix _ _).isInfix)
                obtain ⟨⟨left, m⟩, hl⟩ := Option.isSome_iff_exists.mp (hleft (n + 1))
                rw [hl]
                cases left with
                | error => rfl
                | ok left =>
                    obtain ⟨⟨right, m⟩, hr⟩ := Option.isSome_iff_exists.mp (hright m)
                    simp only [hr]
                    cases right <;> rfl

theorem tokenSpansFrom_eq_none (hpost : post (service n text) = .error .tokenizationTooLong) (hlen : 2 ≤ text.length)
    (h : tokenSpansFrom service fuel (n + 1) baseOffset (text.take (safeSplit text)) = none) :
    tokenSpansFrom service (fuel + 1) n baseOffset text = none := by
  rw [tokenSpansFrom, hpost]
  simp only [Nat.not_lt.mpr hlen, if_false, h]

/-- A service that refuses every text but the shortest keeps the client busy with a text with a space. -/
theorem refused_forever (hrefuse : ∀ n piece, 2 ≤ piece.length → post (service n piece) = .error .tokenizationTooLong)
    (h : ' ' ∈ text.tail) : tokenSpansFrom service fuel n baseOffset text = none := by
  induction fuel generalizing n text with
  | zero => rfl
  | succ fuel ih =>
      have hlen : 2 ≤ text.length := by
        have hpos := List.length_pos_of_mem h
        rw [List.length_tail] at hpos
        omega
      exact tokenSpansFrom_eq_none (hrefuse n text hlen) hlen (ih (mem_tail_take_safeSplit h))

/-- A service that always refuses a text that cannot be split keeps the client busy with it. -/
theorem refused_again (hrefuse : ∀ n, post (service n text) = .error .tokenizationTooLong) (h : SpaceAtEnd text) :
    tokenSpansFrom service fuel n baseOffset text = none := by
  induction fuel generalizing n with
  | zero => rfl
  | succ fuel ih =>
      refine tokenSpansFrom_eq_none (hrefuse n) (spaceAtEnd_iff.mp h).1 ?_
      rw [safeSplit_of_spaceAtEnd h, List.take_length]
      exact ih

/-! ## Offsets -/

theorem lookup_cons_iff {b c : Int} {i j : Nat} {rest : List (Int × Nat)} :
    ((c, j) :: rest).lookup b = some i ↔ (b = c ∧ i = j) ∨ (b ≠ c ∧ rest.lookup b = some i) := by
  rw [List.lookup_cons]
  by_cases h : b = c
  · simp [h, eq_comm]
  · have hne : (b == c) = false := beq_false_of_ne h
    simp [h, hne]

theorem lookup_boundariesFrom {byteOffset characterOffset i : Nat} {b : Int} :
    (boundariesFrom byteOffset characterOffset text).lookup b = some i ↔
      ∃ k ≤ text.length, i = characterOffset + k ∧ b = byteOffset + (utf8 (text.take k)).length := by
  induction text generalizing byteOffset characterOffset with
  | nil => simp [boundariesFrom, lookup_cons_iff, utf8, and_comm]
  | cons c s ih =>
      have hpos : 0 < (String.utf8EncodeChar c).length := List.length_pos_iff.mpr String.utf8EncodeChar_ne_nil
      have hbytes : ∀ k, (utf8 ((c :: s).take (k + 1))).length =
          (String.utf8EncodeChar c).length + (utf8 (s.take k)).length :=
        fun k => by rw [List.take_succ_cons, utf8, List.flatMap_cons, List.length_append]; rfl
      rw [boundariesFrom, lookup_cons_iff, ih]
      constructor
      · rintro (⟨rfl, rfl⟩ | ⟨-, k, hk, rfl, rfl⟩)
        · exact ⟨0, Nat.zero_le _, rfl, by simp [utf8]⟩
        · refine ⟨k + 1, Nat.succ_le_succ hk, by omega, ?_⟩
          rw [hbytes]
          omega
      · rintro ⟨k, hk, rfl, rfl⟩
        cases k with
        | zero => exact .inl ⟨by simp [utf8], rfl⟩
        | succ k =>
            rw [hbytes]
            exact .inr ⟨by omega, k, Nat.le_of_succ_le_succ hk, by omega, by omega⟩

/-- The map leads from where a character begins in the bytes, and from their end, to how many characters are before. -/
theorem lookup_utf8BoundaryMap {b : Int} {i : Nat} :
    (utf8BoundaryMap text).lookup b = some i ↔ i ≤ text.length ∧ b = (utf8 (text.take i)).length := by
  rw [utf8BoundaryMap, lookup_boundariesFrom]
  simp

/-! ## Spans -/

def TokenSpan.moved (offset : Nat) (span : TokenSpan) : TokenSpan := ⟨offset + span.start, offset + span.stop⟩

def covered (text : Text) (span : TokenSpan) : Text := slice text span.start.toNat span.stop.toNat

theorem spanOf_moved (m : List (Int × Nat)) (token : Json) :
    spanOf m baseOffset token = (spanOf m 0 token).map (Option.map (.moved baseOffset)) := by
  cases token with
  | obj members =>
      simp only [spanOf]
      split
      · rfl
      · split
        · split
          · simp [Except.map, TokenSpan.moved]
          · rfl
        · rfl
  | _ => rfl

theorem spansOf_moved (m : List (Int × Nat)) (tokens : List Json) :
    spansOf m baseOffset tokens = (spansOf m 0 tokens).map (List.map (.moved baseOffset)) := by
  induction tokens with
  | nil => rfl
  | cons token tokens ih =>
      rw [spansOf, spansOf, spanOf_moved, ih]
      cases spanOf m 0 token with
      | error => rfl
      | ok span =>
          cases spansOf m 0 tokens with
          | error => rfl
          | ok spans => cases span <;> rfl

theorem answeredSpans_moved (payload : Json) :
    answeredSpans baseOffset text payload = (answeredSpans 0 text payload).map (List.map (.moved baseOffset)) := by
  rw [answeredSpans, answeredSpans]
  cases tokensOf payload with
  | error => rfl
  | ok tokens =>
      simp only [bind, Except.bind]
      rw [spansOf_moved]
      cases spansOf (utf8BoundaryMap text) 0 tokens with
      | error => rfl
      | ok spans =>
          simp only [Except.map, List.isEmpty_map]
          split <;> rfl

/-! ## Pieces -/

/-- A part of the text that the service has answered, with the spans that the answer stands for. -/
structure Leaf where
  offset : Nat
  piece : Text
  spans : List TokenSpan

/-- The pieces lie in the text one behind the other, from `offset` on. -/
inductive Tiles : Nat → Text → List Leaf → Prop
  | nil {offset : Nat} : Tiles offset [] []
  | cons {l : Leaf} {rest : Text} {leaves : List Leaf} (h : Tiles (l.offset + l.piece.length) rest leaves) :
      Tiles l.offset (l.piece ++ rest) (l :: leaves)

/-- The spans stand where the pieces with answers lie in the text. -/
structure Assembled (service : Service) (offset : Nat) (text : Text) (leaves : List Leaf) (spans : List TokenSpan) : Prop where
  answered : ∀ l ∈ leaves, ∃ n payload, post (service n l.piece) = .ok payload ∧
    answeredSpans 0 l.piece payload = .ok l.spans
  tiles : Tiles offset text leaves
  spans_eq : spans = leaves.flatMap fun l => l.spans.map (.moved l.offset)

variable {offset m : Nat} {left right : Text} {leaves others : List Leaf} {spans : List TokenSpan}

theorem Tiles.append (h : Tiles offset left leaves) (h' : Tiles (offset + left.length) right others) :
    Tiles offset (left ++ right) (leaves ++ others) := by
  induction h with
  | nil => exact h'
  | @cons l rest leaves _ ih =>
      rw [List.append_assoc, List.cons_append]
      refine .cons (ih ?_)
      rwa [Nat.add_assoc, ← List.length_append]

/-- What is returned is what a single answer stands for, or what the two parts of a refused text are returned with. -/
theorem tokenSpansFrom_eq_ok (h : tokenSpansFrom service (fuel + 1) n baseOffset text = some (.ok spans, m)) :
    (∃ payload, post (service n text) = .ok payload ∧ answeredSpans baseOffset text payload = .ok spans) ∨
      2 ≤ text.length ∧ ∃ first second k,
        tokenSpansFrom service fuel (n + 1) baseOffset (text.take (safeSplit text)) = some (.ok first, k) ∧
        tokenSpansFrom service fuel k (baseOffset + safeSplit text) (text.drop (safeSplit text)) = some (.ok second, m) ∧
        spans = first ++ second := by
  rw [tokenSpansFrom] at h
  split at h
  · rename_i payload hpost
    rw [Option.some.injEq, Prod.mk.injEq] at h
    exact .inl ⟨payload, hpost, h.1⟩
  · split at h
    · cases h
    · rename_i hlen
      simp only at h
      split at h
      · rename_i first k hfirst
        split at h
        · rename_i second _ hsecond
          cases h
          exact .inr ⟨Nat.not_lt.mp hlen, first, second, k, hfirst, hsecond, rfl⟩
        · rename_i hno
          exact absurd h (hno _ _)
      · rename_i hno
        exact absurd h (hno _ _)
  · cases h

theorem safeSplit_le (h : 2 ≤ text.length) : safeSplit text ≤ text.length := by
  rcases safeSplit_cases h with ⟨hs, -⟩ | ⟨p, hs, -, hp, -⟩
  · rw [hs]
    exact Nat.div_le_self _ 2
  · obtain ⟨hlt, -⟩ := List.getElem?_eq_some_iff.mp hp
    rw [hs]
    exact hlt

theorem tokenSpansFrom_assembled (h : tokenSpansFrom service fuel n baseOffset text = some (.ok spans, m)) :
    ∃ leaves, Assembled service baseOffset text leaves spans := by
  induction fuel generalizing n baseOffset text spans m with
  | zero => cases h
  | succ fuel ih =>
      rcases tokenSpansFrom_eq_ok h with ⟨payload, hpost, hspans⟩ | ⟨hlen, first, second, k, hfirst, hsecond, rfl⟩
      · rw [answeredSpans_moved, map_eq_ok] at hspans
        obtain ⟨answered, hlocal, rfl⟩ := hspans
        exact ⟨[⟨baseOffset, text, answered⟩], {
          answered := by
            rintro l hl
            rw [List.mem_singleton.mp hl]
            exact ⟨n, payload, hpost, hlocal⟩
          tiles := by
            have hone : Tiles baseOffset (text ++ []) [⟨baseOffset, text, answered⟩] :=
              .cons (l := ⟨baseOffset, text, answered⟩) .nil
            rwa [List.append_nil] at hone
          spans_eq := by simp }⟩
      · obtain ⟨leaves, hl⟩ := ih hfirst
        obtain ⟨others, ho⟩ := ih hsecond
        refine ⟨leaves ++ others, {
          answered := fun l hmem => (List.mem_append.mp hmem).elim (hl.answered l) (ho.answered l)
          tiles := ?_
          spans_eq := by rw [hl.spans_eq, ho.spans_eq, List.flatMap_append] }⟩
        have hlength : (text.take (safeSplit text)).length = safeSplit text := by
          rw [List.length_take, Nat.min_eq_left (safeSplit_le hlen)]
        rw [← List.take_append_drop (safeSplit text) text]
        exact hl.tiles.append (by rw [hlength]; exact ho.tiles)

/-! ## The pieces in the text -/

/-- The spans begin and end inside the text, each one behind the end of the one before. -/
structure OrderedWithin (spans : List TokenSpan) (start stop : Nat) : Prop where
  ordered : spans.Pairwise fun a b => a.stop ≤ b.start
  within : ∀ span ∈ spans, (start : Int) ≤ span.start ∧ span.start ≤ span.stop ∧ span.stop ≤ (stop : Int)

theorem OrderedWithin.moved {length : Nat} (h : OrderedWithin spans 0 length) :
    OrderedWithin (spans.map (.moved offset)) offset (offset + length) where
  ordered := by
    rw [List.pairwise_map]
    refine h.ordered.imp fun hab => ?_
    simp only [TokenSpan.moved]
    omega
  within span hspan := by
    obtain ⟨s, hs, rfl⟩ := List.mem_map.mp hspan
    have hin := h.within s hs
    simp only [TokenSpan.moved]
    omega

theorem OrderedWithin.append {start middle stop : Nat} {spans' : List TokenSpan} (h : OrderedWithin spans start middle)
    (h' : OrderedWithin spans' middle stop) (hle : start ≤ middle) (hle' : middle ≤ stop) :
    OrderedWithin (spans ++ spans') start stop where
  ordered := by
    refine List.pairwise_append.mpr ⟨h.ordered, h'.ordered, fun a ha b hb => ?_⟩
    exact (h.within a ha).2.2.trans (h'.within b hb).1
  within span hspan := by
    rcases List.mem_append.mp hspan with hs | hs
    · have hin := h.within span hs
      omega
    · have hin := h'.within span hs
      omega

theorem Tiles.orderedWithin (h : Tiles offset text leaves) (hin : ∀ l ∈ leaves, OrderedWithin l.spans 0 l.piece.length) :
    OrderedWithin (leaves.flatMap fun l => l.spans.map (.moved l.offset)) offset (offset + text.length) := by
  induction h with
  | nil => exact ⟨.nil, nofun⟩
  | @cons l rest leaves _ ih =>
      rw [List.forall_mem_cons] at hin
      rw [List.flatMap_cons, List.length_append, ← Nat.add_assoc]
      exact hin.1.moved.append (ih hin.2) (Nat.le_add_right _ _) (Nat.le_add_right _ _)

theorem Tiles.piece_isInfix (h : Tiles offset text leaves) {l : Leaf} (hl : l ∈ leaves) :
    ∃ before after, text = before ++ (l.piece ++ after) ∧ l.offset = offset + before.length := by
  induction h with
  | nil => cases hl
  | @cons first rest leaves _ ih =>
      rcases List.mem_cons.mp hl with rfl | hl
      · exact ⟨[], rest, rfl, rfl⟩
      · obtain ⟨before, after, rfl, hoffset⟩ := ih hl
        exact ⟨first.piece ++ before, after, (List.append_assoc _ _ _).symm,
          by rw [hoffset, List.length_append, Nat.add_assoc]⟩

theorem covered_moved {before piece after : Text} {i j : Nat} (hi : i ≤ piece.length) (hj : j ≤ piece.length) :
    covered (before ++ (piece ++ after)) (.moved before.length ⟨i, j⟩) = covered piece ⟨i, j⟩ := by
  have hcut : ((before.length : Int) + i).toNat = before.length + i := rfl
  have hcut' : ((before.length : Int) + j).toNat = before.length + j := rfl
  simp only [covered, TokenSpan.moved, hcut, hcut', Int.toNat_natCast, slice]
  rw [Nat.add_sub_add_left, ← List.drop_drop, List.drop_left, List.drop_append_of_le_length hi,
    List.take_append_of_le_length (by rw [List.length_drop]; omega)]

theorem spanOf_eq_some {byteToCharacter : List (Int × Nat)} {token : Json} {span : TokenSpan}
    (h : spanOf byteToCharacter 0 token = .ok (some span)) :
    ∃ (start stop : Int) (i j : Nat), byteToCharacter.lookup start = some i ∧ byteToCharacter.lookup stop = some j ∧
      span = ⟨i, j⟩ := by
  cases token with
  | obj members =>
      simp only [spanOf, Nat.zero_add] at h
      split at h
      · cases h
      · split at h
        · split at h
          · rename_i start stop _ _ _ _ i j hi hj
            cases h
            exact ⟨start, stop, i, j, hi, hj, rfl⟩
          · cases h
        · cases h
  | _ => cases h

theorem mem_spansOf {byteToCharacter : List (Int × Nat)} {tokens : List Json} {span : TokenSpan}
    (h : spansOf byteToCharacter 0 tokens = .ok spans) (hspan : span ∈ spans) :
    ∃ token ∈ tokens, spanOf byteToCharacter 0 token = .ok (some span) := by
  induction tokens generalizing spans with
  | nil =>
      cases h
      cases hspan
  | cons token tokens ih =>
      obtain ⟨first, hfirst, h⟩ := bind_eq_ok.mp h
      obtain ⟨rest, hrest, h⟩ := bind_eq_ok.mp h
      cases pure_eq_ok.mp h
      rcases List.mem_append.mp hspan with hs | hs
      · rw [Option.mem_toList.mp hs] at hfirst
        exact ⟨token, List.mem_cons_self, hfirst⟩
      · obtain ⟨t, ht, hspan⟩ := ih hrest hs
        exact ⟨t, List.mem_cons_of_mem _ ht, hspan⟩

theorem mem_answeredSpans {payload : Json} {span : TokenSpan} (h : answeredSpans 0 text payload = .ok spans)
    (hspan : span ∈ spans) : ∃ i j : Nat, span = ⟨i, j⟩ ∧ i ≤ text.length ∧ j ≤ text.length := by
  obtain ⟨tokens, -, h⟩ := bind_eq_ok.mp h
  obtain ⟨found, hfound, h⟩ := bind_eq_ok.mp h
  split at h
  · cases h
  · cases pure_eq_ok.mp h
    obtain ⟨token, -, htoken⟩ := mem_spansOf hfound hspan
    obtain ⟨start, stop, i, j, hi, hj, rfl⟩ := spanOf_eq_some htoken
    exact ⟨i, j, rfl, (lookup_utf8BoundaryMap.mp hi).1, (lookup_utf8BoundaryMap.mp hj).1⟩

theorem Assembled.covered_eq (h : Assembled service 0 text leaves spans) {l : Leaf} (hl : l ∈ leaves) {span : TokenSpan}
    (hspan : span ∈ l.spans) : covered text (.moved l.offset span) = covered l.piece span := by
  obtain ⟨n, payload, -, hanswer⟩ := h.answered l hl
  obtain ⟨i, j, rfl, hi, hj⟩ := mem_answeredSpans hanswer hspan
  obtain ⟨before, after, rfl, hoffset⟩ := h.tiles.piece_isInfix hl
  rw [hoffset, Nat.zero_add]
  exact covered_moved hi hj

end Etoeragcb.Content
