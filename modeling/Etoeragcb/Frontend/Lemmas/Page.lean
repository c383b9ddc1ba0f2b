import Etoeragcb.Frontend.Lemmas.Sse
import Etoeragcb.Frontend.Page

/-!
# What the page reads

Bytes are read as the text they encode, a stream that is complete is read up to its last event, and one that is cut off
leaves the page to its next attempt.
-/

namespace Etoeragcb.Frontend

open Lib

variable {κ : Type} {v : Validator κ} {a : ChatAccumulator κ} {parser : SSEParser} {events : List StreamEvent}
  {es : List SSEEvent} {e : SSEEvent} {bytes : List (List UInt8)} {fragments : List Text} {ending : Ending}
  {status n i : Nat} {post : ChatPost} {response second : ByteResponse}

/-! ## Bytes -/

theorem readBytes_eq {decoder : TextDecoder} (h : (decoder.after bytes).flush = []) :
    readBytes v parser decoder a bytes ending = readBody v parser a (decoder.decodeAll bytes) ending := by
  induction bytes generalizing parser decoder a with
  | nil =>
      cases ending with
      | failed => rfl
      | closed =>
          have hflush : decoder.flush = [] := h
          rw [readBytes, hflush]
          rfl
  | cons fragment bytes ih =>
      rw [readBytes, TextDecoder.decodeAll, readBody]
      cases parser.feed (decoder.decode fragment).2 false with
      | error e => rfl
      | ok x =>
          simp only
          split
          · rfl
          · exact ih h

theorem consumeBytes_eq (hs : 200 ≤ status ∧ status ≤ 299) (h : (TextDecoder.new.after bytes).flush = []) :
    consumeBytes v a (.answered status (some (bytes, ending))) =
      readBody v .new a (TextDecoder.new.decodeAll bytes) ending := by
  rw [consumeBytes, if_neg (show status ≠ 425 by omega), if_pos hs]
  exact readBytes_eq h

/-! ## Complete streams -/

theorem lines_line {p : Fields} {l : Text} (h : Plain l) (hne : l ≠ []) (t : Text) :
    p.lines (cutLines (l ++ '\n' :: t)).1 = (p.setField l).lines (cutLines t).1 := by
  rw [cutLines_line h.no_break, Fields.lines, h.dropReturn, line_of_ne_nil hne]
  simp only [bind, Except.bind, pure, Except.pure]
  cases h : (p.setField l).lines (cutLines t).1 with
  | error e => rfl
  | ok x => rfl

theorem lines_event (e : StreamEvent) (i : Nat) (t : Text) : Fields.new.lines (cutLines (encodeEvent e i ++ t)).1 =
    (Fields.new.lines (cutLines t).1).map fun x => (x.1, e.received i :: x.2) := by
  have hcut : encodeEvent e i ++ t = idLine i ++ '\n' :: (nameLine e ++ '\n' :: (dataLine e ++ '\n' :: ([] ++ '\n' :: t))) := by
    rw [encodeEvent_eq]
    simp only [List.append_assoc, List.cons_append, List.nil_append]
  have hfields : ((Fields.new.setField (idLine i)).setField (nameLine e)) = pendingFields e i [] := by
    rw [setField_id, setField_name]
    rfl
  have hnil : dropReturn [] = [] := rfl
  have hflush : (pendingFields e i [(Json.obj e.data).encode]).line [] = .ok (.new, [e.received i]) := flush_complete e i
  rw [hcut, lines_line (plain_idLine i) (by simp [idLine, idKey]), lines_line (plain_nameLine e) (by simp [nameLine, eventKey]),
    hfields, lines_line (plain_dataLine e) (dataLine_ne_nil e), setField_dataLine, cutLines_line List.not_mem_nil, Fields.lines,
    hnil, hflush]
  simp only [bind, Except.bind, pure, Except.pure]
  cases h : Fields.new.lines (cutLines t).1 with
  | error e => rfl
  | ok x => rfl

def numbered : Nat → List StreamEvent → List SSEEvent
  | _, [] => []
  | i, event :: events => event.received (i + 1) :: numbered (i + 1) events

theorem lines_stream (i : Nat) (events : List StreamEvent) :
    Fields.new.lines (cutLines (encodedEvents i events)).1 = .ok (.new, numbered i events) := by
  induction events generalizing i with
  | nil => rfl
  | cons event events ih =>
      rw [encodedEvents, lines_event, ih]
      rfl

theorem buffer_feed {fragment : Text} {x : SSEParser × List SSEEvent} (h : parser.feed fragment false = .ok x) :
    '\n' ∉ x.1.buffer := by
  have hrest : ∀ s : Text, '\n' ∉ (cutLines s).2 := fun s => by
    induction s using lines_induction with
    | rest l hl => rw [cutLines_rest hl]; exact hl
    | line l t hl ih => rw [cutLines_line hl]; exact ih
  rw [SSEParser.feed] at h
  cases hlines : parser.fields.lines (cutLines (parser.buffer ++ fragment)).1 with
  | error e =>
      simp only [hlines, bind, Except.bind] at h
      cases h
  | ok y =>
      simp only [hlines, bind, Except.bind, pure, Except.pure, Bool.false_eq_true, ↓reduceIte, Except.ok.injEq] at h
      rw [← h]
      exact hrest _

theorem lines_feed (fragment t : Text) : parser.fields.lines (cutLines (parser.buffer ++ fragment ++ t)).1 = (do
    let (parser, events) ← parser.feed fragment false
    let (fields, rest) ← parser.fields.lines (cutLines (parser.buffer ++ t)).1
    return (fields, events ++ rest)) := by
  simp only [SSEParser.feed, cutLines_append (parser.buffer ++ fragment) t, lines_append, bind, Except.bind, pure,
    Except.pure, Bool.false_eq_true, ↓reduceIte]
  cases parser.fields.lines (cutLines (parser.buffer ++ fragment)).1 with
  | error e => rfl
  | ok x => rfl

theorem foldl_quiet {es : List SSEEvent} (hes : ∀ e ∈ es, e.Quiet) (ha : a.stops = false) :
    (es.foldl (ChatAccumulator.apply v) a).stops = false := by
  induction es generalizing a with
  | nil => exact ha
  | cons e es ih =>
      refine ih (fun e' he' => hes e' (List.mem_cons_of_mem e he')) ?_
      have he := hes e List.mem_cons_self
      unfold ChatAccumulator.apply
      split_ifs with _ _ _ _ _ hdone herror
      · rfl
      · exact ha
      · exact ha
      · exact ha
      · exact ha
      · exact absurd hdone he.1
      · exact absurd herror he.2
      · exact ha

theorem terminal_of_stops (h : a.stops = true) : a.terminal = true := by
  simp only [ChatAccumulator.stops, Bool.or_eq_true] at h
  rcases h with h | h
  · simp [ChatAccumulator.terminal, h]
  · cases hcode : a.errorCode with
    | none => rw [hcode] at h; cases h
    | some code => simp [ChatAccumulator.terminal, hcode]

/-- A stream whose last event stops the client is read as a whole, and what follows it is cancelled. -/
theorem readBody_whole {q : Fields} (hbuffer : '\n' ∉ parser.buffer)
    (hread : parser.fields.lines (cutLines (parser.buffer ++ fragments.flatten)).1 = .ok (q, es ++ [e]))
    (hes : ∀ e ∈ es, e.Quiet) (ha : a.stops = false)
    (hlast : (((es ++ [e]).foldl (ChatAccumulator.apply v) a)).stops = true) :
    readBody v parser a fragments ending = ((es ++ [e]).foldl (ChatAccumulator.apply v) a, ending.cancel true) := by
  induction fragments generalizing parser a es with
  | nil =>
      rw [List.flatten_nil, List.append_nil, cutLines_rest hbuffer] at hread
      have hnil := congrArg Prod.snd (Except.ok.inj hread)
      exact absurd hnil.symm (by simp)
  | cons fragment fragments ih =>
      rw [List.flatten_cons, ← List.append_assoc, lines_feed] at hread
      rw [readBody]
      cases hfeed : parser.feed fragment false with
      | error e =>
          rw [hfeed] at hread
          cases hread
      | ok x =>
          rw [hfeed] at hread
          cases hrest : x.1.fields.lines (cutLines (x.1.buffer ++ fragments.flatten)).1 with
          | error e =>
              simp only [bind, Except.bind, hrest] at hread
              cases hread
          | ok rest =>
              simp only [bind, Except.bind, hrest, pure, Except.pure, Except.ok.injEq, Prod.mk.injEq] at hread
              obtain ⟨hq, hevents⟩ := hread
              rcases List.eq_nil_or_concat' rest.2 with hnil | ⟨more, last, hmore⟩
              · rw [hnil, List.append_nil] at hevents
                simp only [hevents, hlast, ↓reduceIte, terminal_of_stops hlast]
              · rw [hmore, ← List.append_assoc] at hevents
                obtain ⟨hes', hlast'⟩ := List.append_inj' hevents rfl
                obtain rfl : last = e := List.singleton_inj.mp hlast'
                have hx : (x.2.foldl (ChatAccumulator.apply v) a).stops = false :=
                  foldl_quiet (fun e he => hes e (hes' ▸ List.mem_append_left more he)) ha
                have hfold : (es ++ [last]).foldl (ChatAccumulator.apply v) a =
                    (more ++ [last]).foldl (ChatAccumulator.apply v) (x.2.foldl (ChatAccumulator.apply v) a) := by
                  rw [← hes', List.append_assoc, List.foldl_append]
                rw [hfold] at hlast ⊢
                simp only [hx, Bool.false_eq_true, ↓reduceIte]
                refine ih (buffer_feed hfeed) ?_ (fun e he => hes e (hes' ▸ List.mem_append_right x.2 he)) hx hlast
                rw [hrest]
                exact congrArg Except.ok (Prod.ext hq hmore)

theorem numbered_append (i : Nat) (events : List StreamEvent) (last : StreamEvent) :
    numbered i (events ++ [last]) = numbered i events ++ [last.received (i + events.length + 1)] := by
  induction events generalizing i with
  | nil => rfl
  | cons event events ih =>
      rw [List.cons_append, numbered, ih, numbered, List.cons_append, List.length_cons, Nat.add_right_comm i 1,
        ← Nat.add_assoc i]

theorem mem_numbered (h : e ∈ numbered i events) : ∃ event ∈ events, ∃ k, e = event.received k := by
  induction events generalizing i with
  | nil => cases h
  | cons event events ih =>
      rcases List.mem_cons.mp h with rfl | h
      · exact ⟨event, List.mem_cons_self, _, rfl⟩
      · obtain ⟨event', hmem, k, rfl⟩ := ih h
        exact ⟨event', List.mem_cons_of_mem event hmem, k, rfl⟩

theorem head_encodedEvents (i : Nat) (events : List StreamEvent) (n : Nat) :
    ((encodedEvents i events).take n).head? ≠ some '\uFEFF' := by
  cases events with
  | nil => simp [encodedEvents]
  | cons event events =>
      have hcut : encodedEvents i (event :: events) = 'i' :: (encodedEvents i (event :: events)).tail := by
        rw [encodedEvents, encodeEvent_eq]
        rfl
      rw [hcut]
      cases n with
      | zero => simp
      | succ n => simp

theorem consumeBytes_whole {last : StreamEvent} (ending : Ending) (hs : 200 ≤ status ∧ status ≤ 299)
    (hbytes : bytes.flatten = utf8 (encodedEvents 0 (events ++ [last]))) (hquiet : ∀ event ∈ events, event.isTerminal = false)
    (ha : a.stops = false)
    (hlast : ((numbered 0 (events ++ [last])).foldl (ChatAccumulator.apply v) a).stops = true) :
    consumeBytes v a (.answered status (some (bytes, ending))) =
      ((numbered 0 (events ++ [last])).foldl (ChatAccumulator.apply v) a, ending.cancel true) := by
  have hhead := head_encodedEvents 0 (events ++ [last]) (encodedEvents 0 (events ++ [last])).length
  rw [List.take_length] at hhead
  obtain ⟨htext, hflush⟩ := TextDecoder.decodeAll_utf8 hhead hbytes
  rw [numbered_append] at hlast ⊢
  rw [consumeBytes_eq hs hflush]
  refine readBody_whole (q := .new) (List.not_mem_nil) ?_ (fun e he => ?_) ha hlast
  · rw [htext, ← numbered_append]
    exact lines_stream 0 (events ++ [last])
  · obtain ⟨event, hmem, k, rfl⟩ := mem_numbered he
    exact received_quiet (hquiet event hmem) k

/-! ## Interrupted streams -/

/-- A response that ends without a terminal event: the request is still in progress, or the stream has been cut off
between two fields. -/
inductive Interrupted : ByteResponse → Prop
  | early (body : Option (List (List UInt8) × Ending)) : Interrupted (.answered 425 body)
  | cut {status n : Nat} {events : List StreamEvent} {bytes : List (List UInt8)} (hs : 200 ≤ status ∧ status ≤ 299)
      (hbytes : bytes.flatten = utf8 ((encodedEvents 0 events).take n)) (hdata : splitsData 0 events n = false)
      (hquiet : ∀ x ∈ within 0 events n, x.1.isTerminal = false) : Interrupted (.answered status (some (bytes, .closed)))

theorem readBody_returned {b : Bool} {a' : ChatAccumulator κ} (h : readBody v parser a fragments ending = (a', .returned b)) :
    b = a'.terminal := by
  induction fragments generalizing parser a with
  | nil =>
      cases ending with
      | failed => cases h
      | closed =>
          rw [readBody] at h
          split at h
          · cases h
          · cases h
            rfl
  | cons fragment fragments ih =>
      rw [readBody] at h
      split at h
      · cases h
      · simp only at h
        split at h
        · rcases ending with _ | (_ | _) <;> cases h <;> rfl
        · exact ih h

theorem consumeBytes_interrupted (h : Interrupted response) (ha : a.terminal = false) :
    ∃ a', consumeBytes v a response = (a', .returned false) ∧ a'.terminal = false := by
  cases h with
  | early body => exact ⟨a, rfl, ha⟩
  | cut hs hbytes hdata hquiet =>
      rename_i status n events bytes
      obtain ⟨htext, hflush⟩ := TextDecoder.decodeAll_utf8 (head_encodedEvents 0 events n) hbytes
      have hread : SSEParser.new.fields.finish (SSEParser.new.buffer ++ (TextDecoder.new.decodeAll bytes).flatten) =
          .ok ((within 0 events n).map fun x => x.1.received x.2) := by
        have hfinish := finish_stream n 0 events
        rw [hdata] at hfinish
        rw [htext]
        exact hfinish
      have hreturned := readBody_quiet (v := v) .closed hread (fun e he => by
        obtain ⟨x, hx, rfl⟩ := List.mem_map.mp he
        exact received_quiet (hquiet x hx) x.2) ha
      rw [consumeBytes_eq hs hflush]
      obtain ⟨a', ha'⟩ : ∃ a', readBody v .new a (TextDecoder.new.decodeAll bytes) .closed = (a', .returned false) :=
        ⟨_, Prod.ext rfl hreturned⟩
      exact ⟨a', ha', (readBody_returned ha').symm⟩

/-! ## Attempts -/

/-- The error that is shown once a stream has been read as a whole: a failed `cancel` hides what the stream has said. -/
def Ending.chatError (ending : Ending) (a : ChatAccumulator κ) : ChatError :=
  if ending = .failed true then .interrupted else Frontend.chatError a

theorem attemptBytes_last {responses : List ByteResponse} {a' : ChatAccumulator κ}
    (h : consumeBytes v a response = (a', ending.cancel true)) :
    attemptBytes v post a (response :: responses) = ⟨[post], a', ending.chatError a'⟩ := by
  rw [attemptBytes, h]
  rcases ending with _ | (_ | _) <;> rfl

theorem sendBytes_first {a' : ChatAccumulator κ} (h : consumeBytes v (.new v) response = (a', ending.cancel true)) :
    sendBytes v post response second = ⟨[post], a', ending.chatError a'⟩ :=
  attemptBytes_last h

theorem sendBytes_second (h : Interrupted response) {a' : ChatAccumulator κ}
    (hsecond : ∀ a : ChatAccumulator κ, a.terminal = false → consumeBytes v a second = (a', ending.cancel true)) :
    sendBytes v post response second = ⟨[post, post], a', ending.chatError a'⟩ := by
  obtain ⟨a, ha, hterminal⟩ := consumeBytes_interrupted (v := v) (a := .new v) h rfl
  rw [sendBytes, attemptBytes, ha]
  simp only
  rw [attemptBytes_last (hsecond a hterminal)]
  rfl

end Etoeragcb.Frontend
