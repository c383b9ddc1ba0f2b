import Etoeragcb.Chat.Lemmas.Attempts
import Etoeragcb.Chat.Lemmas.Events
import Etoeragcb.Chat.Lemmas.History
import Mathlib.Algebra.Order.BigOperators.Group.List

/-!
# What a chat guarantees
-/

namespace Etoeragcb.Chat

open Lib Models Etoeragcb.Core

/-! ## Attempts -/

/-- Every client request has at most one user message and at most one answer, and a replay of its key is the
transcript of that answer. -/
structure ExactlyOnce (digest : RequestPayload → Text) (idempotencyTtl : Nat) (s : ChatState) : Prop where
  user : ∀ t u c, (messagesOf s.db.messages t u c).length ≤ 1
  answer : ∀ t u c, (s.db.messages.select fun _ m => Answers m t u c).length ≤ 1
  replay : ∀ t u q key id now db accepted replay,
    accept digest idempotencyTtl s.db t u q key id now = .ok (db, accepted) → accepted.replay = some replay →
      ∃ m, s.db.messages.get? replay.assistantMessageId = some m ∧ Answers m t u q.clientRequestId

def sampleUsers : Table UserId User := ⟨[(1, ⟨true, none⟩)], by decide⟩

def sampleSessions : Table SessionId ChatSession := ⟨[(1, ⟨1, 1, none⟩)], by decide⟩

def sampleRequest (c : ClientRequestId) : ChatRequest := ⟨1, ['h', 'i'], [], [], false, c⟩

def hexdigest (n : Nat) : Text := (List.range 64).map fun i => Nat.digitChar (n / 16 ^ (63 - i) % 16)

def firstDigest : Text := hexdigest 0x058ee3eb57cd947ed5a7b35d69e73aca389f8af566b7cf94ffb7b17228244874

def secondDigest : Text := hexdigest 0xcbcb93ed6b50bc00d8f653073622793d02f152ea40aea66560803df9a27d183e

/-- The SHA-256 digests of the canonical JSON of two requests, and longer strings for all others. -/
def sampleDigest (p : RequestPayload) : Text :=
  if p = requestPayload (sampleRequest 5) then firstDigest
  else if p = requestPayload (sampleRequest 6) then secondDigest
  else List.replicate (65 + p.clientRequestId) '0'

theorem sampleDigest_cases (p : RequestPayload) :
    (sampleDigest p = firstDigest ∧ p.clientRequestId = 5) ∨
      (sampleDigest p = secondDigest ∧ p.clientRequestId = 6) ∨
      sampleDigest p = List.replicate (65 + p.clientRequestId) '0' := by
  unfold sampleDigest
  split
  · rename_i h
    exact Or.inl ⟨rfl, by rw [h]; rfl⟩
  · split
    · rename_i h
      exact Or.inr (Or.inl ⟨rfl, by rw [h]; rfl⟩)
    · exact Or.inr (Or.inr rfl)

theorem length_hexdigest (n : Nat) : (hexdigest n).length = 64 := by simp [hexdigest]

theorem hexdigest_ne_replicate (n c : Nat) : hexdigest n ≠ List.replicate (65 + c) '0' := by
  intro h
  have hl := congrArg List.length h
  rw [length_hexdigest, List.length_replicate] at hl
  omega

theorem sampleDigest_collisionFree : CollisionFree sampleDigest := by
  intro p p' h
  rcases sampleDigest_cases p with ⟨e, c⟩ | ⟨e, c⟩ | e <;>
    rcases sampleDigest_cases p' with ⟨e', c'⟩ | ⟨e', c'⟩ | e' <;> rw [e, e'] at h
  · rw [c, c']
  · exact absurd h (by decide)
  · exact absurd h (hexdigest_ne_replicate _ _)
  · exact absurd h (by decide)
  · rw [c, c']
  · exact absurd h (hexdigest_ne_replicate _ _)
  · exact absurd h.symm (hexdigest_ne_replicate _ _)
  · exact absurd h.symm (hexdigest_ne_replicate _ _)
  · simpa using congrArg List.length h

def sampleKey : Text := ['a', 'b', 'c', 'd', 'e', 'f', 'g', 'h']

/-- An attempt outlives the record of its key, and stores its answer under the record that another request
has put there since. -/
def zombieRun : List ChatAction :=
  [.accept 0 1 1 (sampleRequest 5) sampleKey 50 0, .prune 100, .accept 1 1 1 (sampleRequest 6) sampleKey 60 100,
    .persist 0 51 ['o', 'k'] [.start 5 50 1 [] [] false] 101]

theorem not_exactlyOnce : ¬∀ digest idempotencyTtl users sessions s, CollisionFree digest →
    Run (chatStep digest idempotencyTtl) (fun _ _ => True) (.fresh users sessions) s →
      ExactlyOnce digest idempotencyTtl s := by
  intro hall
  have hrun : (exec (chatStep sampleDigest 10) (fun _ _ => True) (.fresh sampleUsers sampleSessions)
      zombieRun).map (fun s => (s.db.messages.get? 51,
        (accept sampleDigest 10 s.db 1 1 (sampleRequest 6) sampleKey 61 102).toOption.bind fun x =>
          x.2.replay.map (·.assistantMessageId))) =
      some (some ⟨1, 1, 1, .assistant, ['o', 'k'], some 5, none⟩, some 51) := by decide
  obtain ⟨s, hs, he⟩ := Option.map_eq_some_iff.mp hrun
  simp only [Prod.mk.injEq, Option.bind_eq_some_iff, Option.map_eq_some_iff] at he
  obtain ⟨hm, ⟨⟨db, accepted⟩, hok, replay, hrep, hid⟩⟩ := he
  have hacc : accept sampleDigest 10 s.db 1 1 (sampleRequest 6) sampleKey 61 102 = .ok (db, accepted) := by
    cases h : accept sampleDigest 10 s.db 1 1 (sampleRequest 6) sampleKey 61 102 with
    | error e => rw [h] at hok; cases hok
    | ok x => rw [h] at hok; cases hok; rfl
  obtain ⟨m, hm', ha⟩ := (hall sampleDigest 10 sampleUsers sampleSessions s sampleDigest_collisionFree
    (Run.of_exec hs)).replay 1 1 (sampleRequest 6) sampleKey 61 102 db accepted replay hacc hrep
  rw [hid, hm] at hm'; cases hm'
  exact absurd ha (by decide)

variable {digest : RequestPayload → Text} {idempotencyTtl : Nat} {users : Table UserId User}
  {sessions : Table SessionId ChatSession} {s : ChatState}

/-- If every answer is stored under a record of its own request, client requests are answered once. -/
theorem exactly_once (hcf : CollisionFree digest)
    (h : Run (chatStep digest idempotencyTtl) (fun s a => persistsOwn digest s a) (.fresh users sessions) s) :
    ExactlyOnce digest idempotencyTtl s := by
  have hinv := (attempting_of_run hcf h).sound
  constructor
  · intro t u c
    refine Table.select_length_le_one fun k k' r r' hr hr' hp hp' => ?_
    simp only [Bool.and_eq_true, decide_eq_true_eq] at hp hp'
    exact hinv.user_unique hr hr' hp.2 hp'.2 (hp.1.1.trans hp'.1.1.symm) (hp.1.2.trans hp'.1.2.symm)
  · intro t u c
    exact Table.select_length_le_one fun k k' r r' hr hr' hp hp' =>
      hinv.answer_unique hr hr' (of_decide_eq_true hp) (of_decide_eq_true hp')
  · intro t u q key id now db accepted replay hacc hrep
    obtain ⟨K, _, ⟨r, replay', id', hr, hh, hs, hresp, rfl, rfl⟩ | ⟨⟨id', rfl⟩, _⟩⟩ := accept_cases hacc
    · cases hrep
      obtain ⟨p, hp, hrec⟩ := hinv.record hr
      obtain ⟨replay', m, hresp', hm, ha⟩ := hrec.answered hs
      rw [hresp] at hresp'; cases hresp'
      have hc : (requestPayload q).clientRequestId = p.clientRequestId := hcf _ _ (hh.symm.trans hp)
      rw [← hc] at ha
      exact ⟨m, hm, ha⟩
    · cases hrep

/-- The first attempt fails and the second one, under the same key, answers. -/
theorem exactly_once_retry : ∃ s,
    exec (chatStep sampleDigest 10) (fun s a => persistsOwn sampleDigest s a)
        (.fresh sampleUsers sampleSessions)
        [.accept 0 1 1 (sampleRequest 5) sampleKey 50 0, .fail 0 1,
          .accept 1 1 1 (sampleRequest 5) sampleKey 52 2,
          .persist 1 53 ['o', 'k'] [.start 5 50 1 [] [] false] 3] = some s ∧
      s.db.messages.get? 53 = some ⟨1, 1, 1, .assistant, ['o', 'k'], some 5, none⟩ ∧
      ExactlyOnce sampleDigest 10 s := by
  have hrun : (exec (chatStep sampleDigest 10) (fun s a => persistsOwn sampleDigest s a)
      (.fresh sampleUsers sampleSessions)
      [.accept 0 1 1 (sampleRequest 5) sampleKey 50 0, .fail 0 1,
        .accept 1 1 1 (sampleRequest 5) sampleKey 52 2,
        .persist 1 53 ['o', 'k'] [.start 5 50 1 [] [] false] 3]).map (fun s => s.db.messages.get? 53) =
      some (some ⟨1, 1, 1, .assistant, ['o', 'k'], some 5, none⟩) := by decide
  obtain ⟨s, hs, he⟩ := Option.map_eq_some_iff.mp hrun
  exact ⟨s, hs, he, exactly_once sampleDigest_collisionFree (Run.of_exec hs)⟩

/-! ## Citation markers -/

/-- What `finish` returns after the fragments of a model output. -/
def sanitized (allowed : List SourceId) (fragments : List Text) : SanitizedAnswer :=
  ((CitationStreamSanitizer.new allowed).feedAll fragments).1.finish.2

/-- What `feed` has returned for the fragments, put together. -/
def emitted (allowed : List SourceId) (fragments : List Text) : Text :=
  ((CitationStreamSanitizer.new allowed).feedAll fragments).2

/-- However a model output is fragmented, its answer holds only complete markers of the allow-list, none of them
twice in a row, and repairing it again changes nothing; nor is any other complete marker streamed. -/
structure CitationSafe (allowed : List SourceId) (raw : Text) : Prop where
  listed : ∀ fragments, fragments.flatten = raw → ¬Fabricates allowed (sanitized allowed fragments).text
  complete : ∀ fragments, fragments.flatten = raw →
    ∀ ds, (∀ c ∈ ds, isDigit c) → ¬incompleteOf ds <:+ (sanitized allowed fragments).text
  single : ∀ fragments, fragments.flatten = raw →
    ∀ ds w, Digits ds → Spaces w → ¬markerOf ds ++ (w ++ markerOf ds) <:+: (sanitized allowed fragments).text
  fixpoint : ∀ fragments, fragments.flatten = raw →
    repairCompleteAnswer (sanitized allowed fragments).text allowed = (sanitized allowed fragments).text
  streamed : ∀ fragments : List Text, fragments.flatten = raw → ∀ n, ¬Fabricates allowed (emitted allowed (fragments.take n))

theorem sanitized_text (allowed : List SourceId) (fragments : List Text) :
    (sanitized allowed fragments).text = repairCompleteAnswer fragments.flatten allowed := by
  simpa [sanitized] using ((Fed.new allowed).feedAll fragments).finish.1

def sampleSource : SourceId := ⟨['1'], rfl⟩

/-- Taking `[S9]` out of `[S[S9]9]` makes a new `[S9]`. -/
theorem not_citationSafe : ¬∀ allowed raw, CitationSafe allowed raw := by
  intro hall
  have ht : (sanitized [sampleSource] [['[', 'S', '[', 'S', '9', ']', '9', ']']]).text = ['[', 'S', '9', ']'] := by
    decide
  have h := (hall [sampleSource] ['[', 'S', '[', 'S', '9', ']', '9', ']']).listed _ (List.flatten_singleton ..)
  rw [ht] at h
  exact h ⟨['9'], ⟨by simp, by simp [isDigit]⟩, by decide, [], [], rfl⟩

/-- The guarantees hold exactly for the outputs in which taking fabricated markers out neither makes a new one
nor leaves an incomplete one at the end. -/
theorem citation_safe_iff (allowed : List SourceId) (raw : Text) :
    CitationSafe allowed raw ↔ ¬Splices allowed raw ∧ ¬LeavesIncomplete allowed raw := by
  constructor
  · intro h
    refine ⟨fun hs => ?_, fun hi => ?_⟩
    · have hfed := (Fed.new allowed).feedAll [raw]
      rw [List.nil_append, List.nil_append] at hfed
      obtain ⟨ds, hds, hal, hm⟩ := fabricates_weed_of_splices hs
      have hraw : [raw].flatten = raw := by simp
      rw [← hraw, hfed.weed_eq] at hm
      exact h.streamed [raw] hraw 1 ⟨ds, hds, hal, marker_infix_of_held hfed.held hm⟩
    · obtain ⟨ds, hds, hend⟩ := incomplete_repair_iff.mpr hi
      refine h.complete [raw] (by simp) ds hds ?_
      simpa [sanitized_text] using hend
  · rintro ⟨hs, hi⟩
    have hf : ¬Fabricates allowed (repairCompleteAnswer raw allowed) := fun hf => hs (splices_of_fabricates_repair hf)
    constructor
    · rintro fragments rfl
      rwa [sanitized_text]
    · rintro fragments rfl ds hds hend
      rw [sanitized_text] at hend
      exact hi (incomplete_repair_iff.mp ⟨ds, hds, hend⟩)
    · rintro fragments rfl ds w hds hw hm
      rw [sanitized_text] at hm
      have hal : allows allowed ds := by
        by_contra hal
        exact hf ⟨ds, hds, by simpa using hal, (List.prefix_append _ _).isInfix.trans hm⟩
      rw [repairCompleteAnswer_eq] at hm
      exact not_repeats_polish _ ⟨ds, w, canonical_of_allows hal, hw, hm⟩
    · rintro fragments rfl
      rw [sanitized_text]
      exact repair_repair hf hi
    · rintro fragments rfl n ⟨ds, hds, hal, hm⟩
      have hfed := (Fed.new allowed).feedAll fragments
      rw [List.nil_append, List.nil_append] at hfed
      refine hs (splices_of_fabricates_weed ⟨ds, hds, hal, hm.trans ?_⟩)
      rw [hfed.weed_eq, emitted]
      conv_rhs => rw [← List.take_append_drop n fragments, feedAll_append, List.append_assoc]
      exact (List.prefix_append _ _).isInfix

/-! ## Fragments -/

/-- What has been emitted when `finish` has returned. -/
def streamed (allowed : List SourceId) (fragments : List Text) : Text :=
  ((CitationStreamSanitizer.new allowed).feedAll fragments).1.finish.1.streamedText

/-- The text `delta` goes on, behind the characters of `raw` that `em` has used, with those left and those of `more`. -/
def GoesOn (raw em more delta : Text) : Prop :=
  ∃ used rest, raw = used ++ rest ∧ em.Sublist used ∧ delta.Sublist (rest ++ more)

/-- Fragments are emitted and judged as the whole text is, and every delta goes on with the raw text in order. -/
theorem fragments_flatten (allowed : List SourceId) (fragments : List Text) :
    emitted allowed fragments = emitted allowed [fragments.flatten] ∧
      sanitized allowed fragments = sanitized allowed [fragments.flatten] ∧
      streamed allowed fragments = streamed allowed [fragments.flatten] ∧
      (∀ fragment, ∃ delta, emitted allowed (fragments ++ [fragment]) = emitted allowed fragments ++ delta ∧
        GoesOn fragments.flatten (emitted allowed fragments) fragment delta) ∧
      ∃ delta, streamed allowed fragments = emitted allowed fragments ++ delta ∧
        GoesOn fragments.flatten (emitted allowed fragments) [] delta := by
  have hmany := (Drains.new allowed).feedAll fragments
  have hone := (Drains.new allowed).feedAll [fragments.flatten]
  rw [List.flatten_singleton] at hone
  obtain ⟨hem, hanswer, hstreamed⟩ := hmany.finish_congr hone
  obtain ⟨used, hused, hsub⟩ := drainLoop_passes allowed false fragments.flatten
  rw [List.nil_append, List.nil_append] at hmany
  rw [hmany.drained] at hused hsub
  refine ⟨hem, hanswer, hstreamed, fun fragment => ?_, ?_⟩
  · refine ⟨(((CitationStreamSanitizer.new allowed).feedAll fragments).1.feed fragment).2, ?_, ?_⟩
    · rw [emitted, feedAll_append]
      simp [emitted, CitationStreamSanitizer.feedAll]
    · exact ⟨used, _, hused, hsub, feed_sublist _ fragment⟩
  · refine ⟨lastDelta allowed ((CitationStreamSanitizer.new allowed).feedAll fragments).1.pending, ?_, ?_⟩
    · rw [streamed, finish_streamedText, hmany.emitted_eq, hmany.allowed_eq, emitted]
    · refine ⟨used, _, hused, hsub, ?_⟩
      rw [List.append_nil]
      exact lastDelta_sublist allowed _

/-! ## Streamed and stored text -/

/-- A client that has received the stream shows the stored answer, and so does one that receives its replay. -/
def Rendered (casefold : Text → Text) (isUuid : Nat → Bool) (safeExternalUrl : Text → Bool)
    (accepted : AcceptedChat) (services : Services) (m : Persisted) : Prop :=
  (received isUuid safeExternalUrl (events casefold accepted services).emitted).answer = m.content ∧
    ∀ services', (received isUuid safeExternalUrl (events casefold
      { accepted with replay := some ⟨m.assistantId, m.transcript⟩ } services').emitted).answer = m.content

def sampleAccepted : AcceptedChat := ⟨sampleRequest 5, 1, 1, 50, sampleKey, none⟩

def sampleServices (content : Text) : Services :=
  ⟨.ok ⟨.smalltalk, .answer, []⟩, .ok (), [⟨content, none⟩], .ok (), 51, .ok ()⟩

def sampleTranscript (text : Text) : List StreamEvent :=
  [.start 5 50 1 [] [] false, .status .planning, .status .retrieving, .status .reranking, .status .generating,
    .delta text, .citations [], .done 51 .conversation ⟨0, 0, 0⟩]

theorem not_rendered : ¬∀ casefold isUuid safeExternalUrl accepted services m,
    (events casefold accepted services).persisted = some m →
      Rendered casefold isUuid safeExternalUrl accepted services m := by
  intro hall
  have h := (hall id (fun _ => true) (fun _ => true) sampleAccepted (sampleServices ['H', 'i', '['])
    ⟨51, ['H', 'i', '['], sampleTranscript ['H', 'i']⟩ (by decide)).1
  exact absurd h (by decide)

/-- The client shows what is stored unless a `[` at the end of the output is held back and nothing replaces the
streamed text. -/
theorem rendered_iff {casefold : Text → Text} {isUuid : Nat → Bool} {safeExternalUrl : Text → Bool}
    {accepted : AcceptedChat} {services : Services} {m : Persisted}
    (h : (events casefold accepted services).persisted = some m) :
    Rendered casefold isUuid safeExternalUrl accepted services m ↔
      ¬∃ retrieval, services.retrieval = .ok retrieval ∧ LosesBracket retrieval services.chunks := by
  obtain ⟨retrieval, p, answered, hr, hres, hc, he, ht⟩ := events_persisted h
  obtain ⟨t, hs, hiff⟩ : ∃ t, Shows isUuid safeExternalUrl p t ∧
      (t = answered.finalText ↔ ¬LosesBracket retrieval services.chunks) := respond_spec (shows_opened accepted) hres
  have hlose : (∃ retrieval, services.retrieval = .ok retrieval ∧ LosesBracket retrieval services.chunks) ↔
      LosesBracket retrieval services.chunks := by
    rw [hr]
    exact ⟨fun ⟨r, hrr, hl⟩ => by cases hrr; exact hl, fun hl => ⟨retrieval, rfl, hl⟩⟩
  have hfirst : (received isUuid safeExternalUrl (events casefold accepted services).emitted).answer = t := by
    rw [he, answer_finished, hs.shown]
  have hreplay : ∀ services', (received isUuid safeExternalUrl (events casefold
      { accepted with replay := some ⟨m.assistantId, m.transcript⟩ } services').emitted).answer = t := by
    intro services'
    show (received isUuid safeExternalUrl m.transcript).answer = t
    rw [ht, answer_finished, ← hs.same, hs.shown]
  rw [hlose, ← hiff, Rendered, hfirst, hc]
  exact ⟨fun h => h.1, fun h => ⟨h, fun services' => (hreplay services').trans h⟩⟩

theorem rendered_iff_hi : ∃ m, (events id sampleAccepted (sampleServices ['H', 'i'])).persisted = some m ∧
    m.content = ['H', 'i'] ∧
    (Rendered id (fun _ => true) (fun _ => true) sampleAccepted (sampleServices ['H', 'i']) m ↔
      ¬∃ retrieval, (sampleServices ['H', 'i']).retrieval = .ok retrieval ∧
        LosesBracket retrieval (sampleServices ['H', 'i']).chunks) :=
  ⟨⟨51, ['H', 'i'], sampleTranscript ['H', 'i']⟩, by decide, rfl, rendered_iff (by decide)⟩

/-! ## The history -/

/-- The messages that `_history` looks at, the newest one first. -/
def recentMessages (limits : HistoryLimits) (messages : Table MessageId StoredMessage) (accepted : AcceptedChat) :
    List ChatMessage := (historyRows limits messages accepted).map historyMessage

section History

variable (limits : HistoryLimits) (question : Text) (context : Rag.PackedContext) (grounded : Bool)
    (newest : List ChatMessage)

/-- The prompt holds the newest messages in the order of time: of the longest run that fits the history budget as many as
the prompt budget admits. -/
inductive SendsRecent : Except GenerationError (List ChatMessage) → Prop
  | sent (n : Nat) (hn : n ≤ longestFit (FitsHistory limits) newest)
      (hfits : FitsPrompt limits question context grounded (newest.take n).reverse)
      (hmore : ∀ m ≤ longestFit (FitsHistory limits) newest, n < m →
        ¬FitsPrompt limits question context grounded (newest.take m).reverse) :
      SendsRecent (.ok (generationMessages question context (newest.take n).reverse grounded))
  | tooLarge (hnone : ∀ n ≤ longestFit (FitsHistory limits) newest,
        ¬FitsPrompt limits question context grounded (newest.take n).reverse) :
      SendsRecent (.error ⟨"prompt_too_large", false⟩)

/-- Older messages that fit behind one that is left out have no place in the prompt, nor has the newest message without a
history budget. -/
def NoGap : Prop :=
  if limits.historyTokenBudget = 0 then
    ∀ item ∈ newest.head?, FitsHistory limits [item] → ¬FitsPrompt limits question context grounded [item]
  else
    ∀ item ∈ (newest.drop (longestFit (FitsHistory limits) newest)).find? fun item =>
        FitsHistory limits (item :: recentRun (FitsHistory limits) newest),
      ¬FitsPrompt limits question context grounded (item :: recentRun (FitsHistory limits) newest)

variable {limits question context grounded newest}

/-- One outcome is right: that of the longest run. -/
theorem sendsRecent_iff {result : Except GenerationError (List ChatMessage)} :
    SendsRecent limits question context grounded newest result ↔
      result = boundedGenerationMessages limits question context (recentRun (FitsHistory limits) newest) grounded := by
  rw [boundedGenerationMessages_eq]
  constructor
  · intro h
    cases h with
    | sent n hn hfits hmore => rw [shorten_recentRun_eq_some_iff.mpr ⟨n, hn, rfl, hfits, hmore⟩]
    | tooLarge hnone => rw [shorten_recentRun_eq_none_iff.mpr hnone]
  · rintro rfl
    cases hs : shorten (FitsPrompt limits question context grounded) (recentRun (FitsHistory limits) newest) with
    | none => exact .tooLarge (shorten_recentRun_eq_none_iff.mp hs)
    | some sent =>
        obtain ⟨n, hn, rfl, hfits, hmore⟩ := shorten_recentRun_eq_some_iff.mp hs
        exact .sent n hn hfits hmore

end History

def characterLimits (historyTokenBudget : Nat) : HistoryLimits where
  count := List.length
  countChat := fun messages => (messages.map (·.content.length)).sum
  historyTurns := 6
  historyTokenBudget := historyTokenBudget
  promptTokenBudget := 4096
  promptTokenBudget_pos := by decide

theorem characterLimits_monotone (historyTokenBudget : Nat) : MonotoneCounter (characterLimits historyTokenBudget) where
  count_le := fun _ _ h => h.length_le
  countChat_le := fun _ _ h => (h.map _).sum_le_sum fun _ _ => Nat.zero_le _

def sampleMessages : Table MessageId StoredMessage where
  rows := [(10, ⟨⟨1, 1, 1, .user, "Hi".toList, none, none⟩, 0⟩),
    (11, ⟨⟨1, 1, 1, .assistant, "Welcome".toList, none, none⟩, 1⟩),
    (50, ⟨⟨1, 1, 1, .user, "hi".toList, none, none⟩, 2⟩)]
  keys_nodup := by decide

def sampleContext : Rag.PackedContext := ⟨[], 0, 1, [], []⟩

/-- With a budget of ten characters the answer `Welcome` is left out and the question `Hi` before it is sent. -/
theorem not_sendsRecent : ¬∀ limits messages accepted question context grounded, MonotoneCounter limits →
    SendsRecent limits question context grounded (recentMessages limits messages accepted)
      (boundedGenerationMessages limits question context (history limits messages accepted) grounded) := by
  intro hall
  have hsent : boundedGenerationMessages (characterLimits 10) "hi".toList sampleContext
      (history (characterLimits 10) sampleMessages sampleAccepted) false =
        .ok (generationMessages "hi".toList sampleContext [⟨.user, "Hi".toList⟩] false) := by decide +kernel
  have hnone : longestFit (FitsHistory (characterLimits 10))
      (recentMessages (characterLimits 10) sampleMessages sampleAccepted) = 0 := by decide +kernel
  have h := hall (characterLimits 10) sampleMessages sampleAccepted "hi".toList sampleContext false (characterLimits_monotone 10)
  rw [hsent] at h
  generalize hmessages : generationMessages "hi".toList sampleContext [⟨.user, "Hi".toList⟩] false = messages at h
  cases h with
  | sent n hn =>
      have hzero : n = 0 := by omega
      subst hzero
      exact absurd (generationMessages_inj hmessages) (by decide)

/-- The prompt holds the newest messages exactly if what is passed over leaves no gap in it. -/
theorem sendsRecent_iff_noGap {limits : HistoryLimits} (hmono : MonotoneCounter limits)
    (messages : Table MessageId StoredMessage)
    (accepted : AcceptedChat) (question : Text) (context : Rag.PackedContext) (grounded : Bool) :
    SendsRecent limits question context grounded (recentMessages limits messages accepted)
      (boundedGenerationMessages limits question context (history limits messages accepted) grounded) ↔
        NoGap limits question context grounded (recentMessages limits messages accepted) := by
  rw [sendsRecent_iff, boundedGenerationMessages_eq_iff, NoGap, history]
  by_cases hbudget : limits.historyTokenBudget = 0
  · rw [if_pos (.inr hbudget), if_pos hbudget]
    exact shorten_nil_iff (.of_suffix hmono) (.of_suffix hmono) _
  · rw [if_neg hbudget]
    by_cases hturns : limits.historyTurns = 0
    · have hnil : recentMessages limits messages accepted = [] := by simp [recentMessages, historyRows, hturns]
      simp [hnil, recentRun, hturns]
    · rw [if_neg (by simp [hbudget, hturns]), historyLoop_eq]
      exact shorten_takeFitting_iff (.of_suffix hmono) (.of_suffix hmono) _

theorem sendsRecent_iff_noGap_welcome :
    SendsRecent (characterLimits 40) "hi".toList sampleContext false
      (recentMessages (characterLimits 40) sampleMessages sampleAccepted)
      (boundedGenerationMessages (characterLimits 40) "hi".toList sampleContext
        (history (characterLimits 40) sampleMessages sampleAccepted) false) :=
  (sendsRecent_iff_noGap (characterLimits_monotone 40) _ _ _ _ _).mpr (by
    rw [NoGap]
    decide +kernel)

end Etoeragcb.Chat
