import Etoeragcb.Chat.Events
import Etoeragcb.Chat.Lemmas.Sanitizer
import Etoeragcb.Lib.Result

/-!
# What a client shows

The events of a stream, folded by the client, show what the sanitizer has emitted, unless a `replace` follows.
-/

namespace Etoeragcb.Chat

open Lib Models

variable {casefold : Text → Text} {isUuid : Nat → Bool} {safeExternalUrl : Text → Bool}
  {allowed : List SourceId} {raw em t message : Text} {p p' : Progress} {st : CitationStreamSanitizer}
  {usage : UsageSummary} {services : Services} {retrieval : CombinedRetrievalResult} {answered : Answered}

/-! ## The text on the screen -/

/-- The transcript is what has been emitted, and a client that has received it shows `t`. -/
structure Shows (isUuid : Nat → Bool) (safeExternalUrl : Text → Bool) (p : Progress) (t : Text) : Prop where
  same : p.emitted = p.transcript
  shown : (received isUuid safeExternalUrl p.emitted).answer = t

theorem received_concat (es : List StreamEvent) (e : StreamEvent) : received isUuid safeExternalUrl (es ++ [e]) =
    (received isUuid safeExternalUrl es).apply isUuid safeExternalUrl e := by
  simp [received]

theorem Shows.say (h : Shows isUuid safeExternalUrl p t) (e : StreamEvent) :
    Shows isUuid safeExternalUrl (p.say e)
      (({ ChatAccumulator.new with answer := t }).apply isUuid safeExternalUrl e).answer := by
  refine ⟨by simp [Progress.say, h.same], ?_⟩
  rw [Progress.say, received_concat, ← h.shown]
  cases e <;> rfl

theorem shows_opened (accepted : AcceptedChat) : Shows isUuid safeExternalUrl (opened accepted) [] := ⟨rfl, rfl⟩

theorem generate_spec (usage : UsageSummary) (chunks : List GenerationChunk) (hf : Fed allowed raw em st)
    (hs : Shows isUuid safeExternalUrl p em) :
    ∃ em', Fed allowed (raw ++ (chunks.map (·.content)).flatten) em' (generate st usage p chunks).1 ∧
      Shows isUuid safeExternalUrl (generate st usage p chunks).2.2 em' := by
  induction chunks generalizing raw em st usage p with
  | nil => exact ⟨em, by simpa [generate] using hf, hs⟩
  | cons chunk chunks ih =>
      unfold generate
      by_cases hc : chunk.content = []
      · simpa [hc] using ih (chunk.usage.getD usage) hf hs
      · have hs' : Shows isUuid safeExternalUrl
            (if (st.feed chunk.content).2 ≠ [] then p.say (.delta (st.feed chunk.content).2) else p)
            (em ++ (st.feed chunk.content).2) := by
          split
          · exact hs.say _
          · rename_i he
            simpa [not_not.mp he] using hs
        obtain ⟨em', hf', hs'⟩ := ih (chunk.usage.getD usage) (hf.feed chunk.content) hs'
        refine ⟨em', ?_, ?_⟩
        · simpa [hc] using hf'
        · simpa [hc] using hs'

/-! ## The final text -/

theorem getLast?_noAnswer (message : Text) : (noAnswer casefold message).getLast? = some '.' := by
  simp only [noAnswer]
  split <;> decide

theorem settle_cases {grounded : Bool} {sources : List PackedSource} {answer : SanitizedAnswer}
    (h : settle casefold message grounded sources usage answer = .ok answered) :
    (answered.finalText = answer.text ∧ answer.text ≠ [] ∧ (grounded → answer.citedSourceIds ≠ [])) ∨
    (answered.finalText = noAnswer casefold message ∧
      (answer.text = [] ∨ grounded ∧ answer.citedSourceIds = [])) := by
  have hor : ∀ x : Answered, (if x.finalText = [] then ⟨noAnswer casefold message, .noAnswer, usage, []⟩ else x) =
      answered → x.finalText = [] ∧ answered.finalText = noAnswer casefold message ∨
        x.finalText ≠ [] ∧ answered.finalText = x.finalText := by
    rintro x rfl
    split
    · rename_i he; exact Or.inl ⟨he, rfl⟩
    · rename_i he; exact Or.inr ⟨he, rfl⟩
  unfold settle routed at h
  split at h
  · rename_i hg
    simp only [Bool.and_eq_true, List.isEmpty_iff] at hg
    rcases hor _ (Except.ok.inj h) with ⟨-, he⟩ | ⟨-, he⟩ <;> exact Or.inr ⟨he, Or.inr hg⟩
  · rename_i hg
    cases hc : citationsForAnswer answer sources with
    | error f => rw [hc] at h; cases h
    | ok citations =>
        rw [hc] at h
        rcases hor _ (Except.ok.inj h) with ⟨he, hn⟩ | ⟨he, hn⟩
        · exact Or.inr ⟨hn, Or.inl he⟩
        · exact Or.inl ⟨hn, he, fun hgr hc => hg (by simp [hgr, hc])⟩

theorem orderedSourceIds_eq_nil_iff (s : Text) :
    orderedSourceIds s = [] ↔ ∀ ds, isCanonical ds → ¬markerOf ds <:+: s := by
  have hdup : ∀ l : List Text, l.eraseDups = [] ↔ l = [] := by
    intro l
    cases l with
    | nil => simp
    | cons a l => simp [List.eraseDups_cons]
  rw [orderedSourceIds, hdup, findAll_eq_nil_iff]
  constructor
  · rintro h ds hc ⟨x, y, hxy⟩
    have hm : marker? (markerOf ds ++ y) = some ds := marker?_eq_some.mpr ⟨hc, y, rfl⟩
    simpa [hm] using h (markerOf ds ++ y) ⟨x, by simp [← hxy]⟩ (by simp [markerOf])
  · intro h t ht _
    cases hm : marker? t with
    | none => rfl
    | some ds =>
        obtain ⟨hc, u, rfl⟩ := marker?_eq_some.mp hm
        exact absurd ((List.prefix_append _ _).isInfix.trans ht.isInfix) (h ds hc)

/-- A text that ends in `[` and that the repair leaves as it is, citing something if it has to. -/
structure NeedsNoRepair (grounded : Bool) (kept : Text) : Prop where
  head : ∀ c t, kept = c :: t → isSpace c = false
  single : ¬Repeats kept
  punctuation : ¬BlankBeforePunctuation kept
  blanks : ¬DoubleBlank kept
  cites : grounded → ∃ ds, isCanonical ds ∧ markerOf ds <:+: kept

theorem polish_eq_self_iff (hl : t.getLast? = some '[') :
    polish t = t ↔ (∀ c u, t = c :: u → isSpace c = false) ∧ ¬Repeats t ∧ ¬BlankBeforePunctuation t ∧ ¬DoubleBlank t := by
  constructor
  · intro h
    have hs := strip_polish t
    rw [← h]
    exact ⟨fun c u hc => strip_head (hs.trans hc), not_repeats_polish t, not_blankBeforePunctuation_polish t,
      not_doubleBlank_polish t⟩
  · rintro ⟨hh, hr, hp, hb⟩
    refine polish_eq_self (fun ds hds ⟨x, hx⟩ => ?_) hr hp hb (strip_eq_self hh fun c u hc => ?_)
    · rw [← hx, List.getLast?_append_of_ne_nil _ (by simp [incompleteOf])] at hl
      exact getLast?_incompleteOf hds hl
    · rw [hc, List.getLast?_concat, Option.some.injEq] at hl
      rw [hl]; rfl

/-- The output ends in a `[`, which is held back until the end, and no repair brings it to the client. -/
def Withheld (allowed : List SourceId) (grounded : Bool) (raw : Text) : Prop :=
  raw.getLast? = some '[' ∧ ∃ kept, Weeded allowed raw kept ∧ NeedsNoRepair grounded kept

/-- A `[` that is held back at the end gets lost exactly if nothing replaces the streamed text. -/
theorem withheld_iff {grounded : Bool} {sources : List PackedSource} (hf : Fed allowed raw em st)
    (h : settle casefold message grounded sources usage st.finish.2 = .ok answered) :
    Withheld allowed grounded raw ↔
      st.pending = ['['] ∧ answered.finalText = st.finish.1.streamedText := by
  obtain ⟨htext, hstreamed⟩ := hf.finish
  rw [repairCompleteAnswer_eq] at htext
  have hcited : st.finish.2.citedSourceIds = orderedSourceIds st.finish.2.text := rfl
  rw [hstreamed]
  constructor
  · rintro ⟨hl, kept, hw, hn⟩
    have hp := hf.opens.mpr hl
    have hk : weed allowed raw = em ++ ['['] := by rw [hf.weed_eq, hp]
    have hkl : (weed allowed raw).getLast? = some '[' := by rw [hk]; simp
    obtain rfl := hw.eq
    have hpol := (polish_eq_self_iff hkl).mpr ⟨hn.head, hn.single, hn.punctuation, hn.blanks⟩
    rw [hpol] at htext
    refine ⟨hp, ?_⟩
    rw [if_pos hp, ← hk, ← htext]
    rcases settle_cases h with ⟨he, -⟩ | ⟨-, he | ⟨hg, he⟩⟩
    · exact he
    · rw [htext, hk] at he; simp at he
    · rw [hcited, htext, orderedSourceIds_eq_nil_iff] at he
      obtain ⟨ds, hc, hm⟩ := hn.cites hg
      exact absurd hm (he ds hc)
  · rintro ⟨hp, he⟩
    have hl := hf.opens.mp hp
    have hk : weed allowed raw = em ++ ['['] := by rw [hf.weed_eq, hp]
    rw [if_pos hp, ← hk] at he
    have hkl : (weed allowed raw).getLast? = some '[' := by rw [hk]; simp
    rcases settle_cases h with ⟨he', -, hg⟩ | ⟨he', -⟩
    · have hpol : polish (weed allowed raw) = weed allowed raw := by rw [← htext, ← he', he]
      obtain ⟨hh, hr, hpu, hb⟩ := (polish_eq_self_iff hkl).mp hpol
      refine ⟨hl, _, weeded_weed raw, hh, hr, hpu, hb, fun hgr => ?_⟩
      have hc := hg hgr
      rw [hcited, htext, hpol, ne_eq, orderedSourceIds_eq_nil_iff] at hc
      simpa using hc
    · rw [← he, he', getLast?_noAnswer] at hkl
      cases hkl

theorem conclude_spec {grounded : Bool} {sources : List PackedSource} (hf : Fed allowed raw em st)
    (hs : Shows isUuid safeExternalUrl p em)
    (h : conclude casefold message grounded sources usage st p = (p', .ok answered)) :
    ∃ t, Shows isUuid safeExternalUrl p' t ∧ (t = answered.finalText ↔ ¬Withheld allowed grounded raw) := by
  unfold conclude at h
  simp only at h
  split at h
  · cases h
  · rename_i settled hset
    simp only [Prod.mk.injEq, Except.ok.injEq] at h
    obtain ⟨rfl, rfl⟩ := h
    rw [withheld_iff hf hset]
    split
    · rename_i hne
      exact ⟨_, hs.say _, by simpa [ChatAccumulator.apply] using fun _ => hne⟩
    · rename_i he
      have he := not_not.mp he
      refine ⟨em, hs, ?_⟩
      rw [and_iff_left he, he, hf.finish.2]
      split <;> simp [*]

/-! ## The whole stream -/

def rawOutput (chunks : List GenerationChunk) : Text := (chunks.map (·.content)).flatten

/-- A stream that generates an answer, the end of which is withheld. -/
def LosesBracket (retrieval : CombinedRetrievalResult) (chunks : List GenerationChunk) : Prop :=
  (retrieval.intent = .knowledge → retrieval.gateRoute = .answer) ∧
    Withheld retrieval.allowedSourceIds retrieval.grounded (rawOutput chunks)

/-- After an answer, a client shows the final text unless its last `[` is lost. -/
theorem respond_spec (hs : Shows isUuid safeExternalUrl p [])
    (h : respond casefold message retrieval services p = (p', .ok answered)) :
    ∃ t, Shows isUuid safeExternalUrl p' t ∧
      (t = answered.finalText ↔ ¬LosesBracket retrieval services.chunks) := by
  unfold respond at h
  split at h
  · rename_i hg
    simp only [CombinedRetrievalResult.grounded, Bool.and_eq_true, decide_eq_true_eq] at hg
    cases h
    refine ⟨_, hs.say _, iff_of_true rfl fun hl => hg.2 (hl.1 hg.1)⟩
  · rename_i hg
    have hgen : retrieval.intent = .knowledge → retrieval.gateRoute = .answer := by
      simpa [CombinedRetrievalResult.grounded] using hg
    simp only at h
    split at h
    · cases h
    · split at h
      · cases h
      · obtain ⟨em, hf, hsh⟩ := generate_spec ⟨0, 0, 0⟩ services.chunks
          (Fed.new retrieval.allowedSourceIds) (hs.say (.status .generating))
        obtain ⟨t, ht, hiff⟩ := conclude_spec hf hsh h
        refine ⟨t, ht, hiff.trans (not_congr ?_)⟩
        rw [List.nil_append]
        exact ⟨fun hw => ⟨hgen, hw⟩, fun hl => hl.2⟩

theorem events_persisted {accepted : AcceptedChat} {m : Persisted}
    (h : (events casefold accepted services).persisted = some m) :
    ∃ retrieval p answered, services.retrieval = .ok retrieval ∧
      respond casefold accepted.request.message retrieval services (opened accepted) = (p, .ok answered) ∧
      m.content = answered.finalText ∧
      (events casefold accepted services).emitted = p.emitted ++ [.citations answered.citations,
        .done services.assistantId answered.route answered.usage] ∧
      m.transcript = p.transcript ++ [.citations answered.citations,
        .done services.assistantId answered.route answered.usage] := by
  unfold events at h ⊢
  split at h
  · cases h
  · split at h
    · cases h
    · rename_i retrieval hr
      split at h
      · cases h
      · rename_i p answered hres
        simp only at h
        split at h
        · cases h
        · rename_i hper
          cases h
          refine ⟨retrieval, p, answered, hr, hres, rfl, ?_, rfl⟩
          simp [*]

theorem answer_finished (es : List StreamEvent) (items : List (Text × Citation)) (id : MessageId) (route : Route)
    (usage : UsageSummary) :
    (received isUuid safeExternalUrl (es ++ [.citations items, .done id route usage])).answer =
      (received isUuid safeExternalUrl es).answer := by
  rw [show es ++ [.citations items, .done id route usage] = es ++ [.citations items] ++ [.done id route usage] by simp,
    received_concat, received_concat]
  rfl

end Etoeragcb.Chat
