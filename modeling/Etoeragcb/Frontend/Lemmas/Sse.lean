import Etoeragcb.Frontend.Sse
import Etoeragcb.Lib.Lemmas.Json

/-!
# What the parser makes of a prefix of a stream

Fragments do not matter, complete events are read one after the other, and the rest of the prefix holds a part of one
more event.
-/

namespace Etoeragcb.Frontend

open Lib

variable {l s t : Text} {ls ls' : List Text} {p : Fields} {n i : Nat} {e : StreamEvent} {events : List StreamEvent}

/-! ## Lines -/

theorem cutLines_rest (h : '\n' ∉ l) : cutLines l = ([], l) := by
  simp [cutLines, List.splitOn_eq_singleton h]

theorem cutLines_line (h : '\n' ∉ l) (t : Text) : cutLines (l ++ '\n' :: t) = (l :: (cutLines t).1, (cutLines t).2) := by
  obtain ⟨x, xs, hx⟩ := List.exists_cons_of_ne_nil (List.splitOn_ne_nil '\n' t)
  simp [cutLines, List.splitOn_append_cons_self, List.splitOn_eq_singleton h, hx]

/-- Reasoning along the lines of a text. -/
theorem lines_induction {q : Text → Prop} (rest : ∀ l, '\n' ∉ l → q l) (line : ∀ l t, '\n' ∉ l → q t → q (l ++ '\n' :: t))
    (s : Text) : q s := by
  induction h : s.length using Nat.strong_induction_on generalizing s with
  | _ k ih =>
      subst h
      by_cases hs : '\n' ∈ s
      · obtain ⟨l, t, rfl, hl⟩ := List.eq_append_cons_of_mem hs
        exact line l t hl (ih t.length (by simp; omega) t rfl)
      · exact rest s hs

theorem cutLines_append (s t : Text) : cutLines (s ++ t) =
    ((cutLines s).1 ++ (cutLines ((cutLines s).2 ++ t)).1, (cutLines ((cutLines s).2 ++ t)).2) := by
  induction s using lines_induction with
  | rest l hl => simp [cutLines_rest hl]
  | line l s hl ih => rw [List.append_assoc, List.cons_append, cutLines_line hl, cutLines_line hl, ih]; rfl

def allLines (s : Text) : List Text := (cutLines s).1 ++ if (cutLines s).2 = [] then [] else [(cutLines s).2]

theorem allLines_line (h : '\n' ∉ l) (t : Text) : allLines (l ++ '\n' :: t) = l :: allLines t := by
  rw [allLines, cutLines_line h]
  rfl

theorem allLines_rest (h : '\n' ∉ l) : allLines l = if l = [] then [] else [l] := by
  rw [allLines, cutLines_rest h]
  rfl

theorem allLines_append (s t : Text) : allLines (s ++ t) = (cutLines s).1 ++ allLines ((cutLines s).2 ++ t) := by
  rw [allLines, cutLines_append, allLines, List.append_assoc]

/-! ## Fragments -/

theorem lines_append (p : Fields) (ls ls' : List Text) : p.lines (ls ++ ls') = (do
    let (p, events) ← p.lines ls
    let (p, events') ← p.lines ls'
    return (p, events ++ events')) := by
  induction ls generalizing p with
  | nil => cases h : p.lines ls' <;> simp [Fields.lines, h, bind, Except.bind, pure, Except.pure]
  | cons line ls ih =>
      cases h : p.line (dropReturn line) with
      | error e => simp [Fields.lines, h, bind, Except.bind]
      | ok x =>
          have hx := ih x.1
          cases h₁ : x.1.lines ls with
          | error e =>
              rw [h₁] at hx
              simp only [bind, Except.bind] at hx
              simp [Fields.lines, h, h₁, hx, bind, Except.bind]
          | ok y =>
              rw [h₁] at hx
              simp only [bind, Except.bind] at hx
              cases h₂ : y.1.lines ls' <;>
                simp [Fields.lines, h, h₁, h₂, hx, bind, Except.bind, pure, Except.pure, List.append_assoc]

def Fields.finish (p : Fields) (s : Text) : Except String (List SSEEvent) := do
  let (p, events) ← p.lines (allLines s)
  let (_, pending) ← p.flush
  return events ++ pending

theorem feed_final (parser : SSEParser) (fragment : Text) :
    (parser.feed fragment true).map Prod.snd = parser.fields.finish (parser.buffer ++ fragment) := by
  simp only [SSEParser.feed, Fields.finish, allLines, lines_append, bind, Except.bind, pure, Except.pure, ↓reduceIte]
  cases h₁ : parser.fields.lines (cutLines (parser.buffer ++ fragment)).1 with
  | error e => rfl
  | ok x =>
      simp only
      cases h₂ : x.1.lines (if (cutLines (parser.buffer ++ fragment)).2 = [] then [] else [(cutLines (parser.buffer ++ fragment)).2]) with
      | error e => rfl
      | ok y =>
          simp only
          cases h₃ : y.1.flush with
          | error e => rfl
          | ok z => rfl

theorem feed_more (parser : SSEParser) (fragment t : Text) : parser.fields.finish (parser.buffer ++ fragment ++ t) = (do
    let (parser, events) ← parser.feed fragment false
    let rest ← parser.fields.finish (parser.buffer ++ t)
    return events ++ rest) := by
  simp only [SSEParser.feed, Fields.finish, allLines_append (parser.buffer ++ fragment) t, lines_append, bind, Except.bind,
    pure, Except.pure, Bool.false_eq_true, ↓reduceIte]
  cases h₁ : parser.fields.lines (cutLines (parser.buffer ++ fragment)).1 with
  | error e => rfl
  | ok x =>
      simp only
      cases h₂ : x.1.lines (allLines ((cutLines (parser.buffer ++ fragment)).2 ++ t)) with
      | error e => rfl
      | ok y =>
          simp only
          cases h₃ : y.1.flush with
          | error e => rfl
          | ok z => simp [List.append_assoc]

/-- Fragments yield the events of the text that they make up. -/
theorem feedAll_eq {parser : SSEParser} {fragments : List Text} (h : fragments ≠ []) :
    parser.feedAll fragments = parser.fields.finish (parser.buffer ++ fragments.flatten) := by
  induction fragments generalizing parser with
  | nil => exact absurd rfl h
  | cons fragment fragments ih =>
      cases fragments with
      | nil => rw [SSEParser.feedAll, feed_final, List.flatten_cons, List.flatten_nil, List.append_nil]
      | cons f fs =>
          rw [SSEParser.feedAll, List.flatten_cons, ← List.append_assoc, feed_more]
          · simp only [ih (List.cons_ne_nil f fs)]
          · exact List.cons_ne_nil f fs

/-! ## Complete events -/

def Plain (l : Text) : Prop := ∀ c ∈ l, 32 ≤ c.toNat

theorem Plain.no_break (h : Plain l) : '\n' ∉ l := fun hc => absurd (h _ hc) (by decide)

theorem Plain.dropReturn (h : Plain l) : dropReturn l = l := by
  rw [Frontend.dropReturn, if_neg]
  intro hl
  exact absurd (h _ (List.mem_of_getLast? hl)) (by decide)

theorem Plain.take (h : Plain l) (n : Nat) : Plain (l.take n) := fun c hc => h c (List.mem_of_mem_take hc)

theorem plain_append (hs : Plain s) (ht : Plain t) : Plain (s ++ t) := List.forall_mem_append.mpr ⟨hs, ht⟩

theorem line_of_ne_nil (hne : l ≠ []) : p.line l = .ok (p.setField l, []) := if_neg hne

theorem finish_line (h : Plain l) (hne : l ≠ []) (t : Text) : p.finish (l ++ '\n' :: t) = (p.setField l).finish t := by
  simp only [Fields.finish, allLines_line h.no_break, Fields.lines, h.dropReturn, line_of_ne_nil hne, bind, Except.bind,
    pure, Except.pure]
  cases h₁ : (p.setField l).lines (allLines t) with
  | error e => rfl
  | ok x => rfl

theorem finish_rest (h : Plain l) (hne : l ≠ []) : p.finish l = (p.setField l).flush.map Prod.snd := by
  simp only [Fields.finish, allLines_rest h.no_break, if_neg hne, Fields.lines, h.dropReturn, line_of_ne_nil hne, bind,
    Except.bind, pure, Except.pure]
  cases h₁ : (p.setField l).flush with
  | error e => rfl
  | ok x => rfl

theorem finish_nil : p.finish [] = p.flush.map Prod.snd := by
  simp only [Fields.finish, allLines, cutLines_rest List.not_mem_nil, ↓reduceIte, List.append_nil, Fields.lines, bind,
    Except.bind, pure, Except.pure]
  cases h₁ : p.flush with
  | error e => rfl
  | ok x => rfl

/-! ## The lines of an event -/

def idKey : Text := ['i', 'd']

def eventKey : Text := ['e', 'v', 'e', 'n', 't']

def dataKey : Text := ['d', 'a', 't', 'a']

def idLine (i : Nat) : Text := idKey ++ ':' :: ' ' :: decimal i

def nameLine (e : StreamEvent) : Text := eventKey ++ ':' :: ' ' :: e.event.text

def dataLine (e : StreamEvent) : Text := dataKey ++ ':' :: ' ' :: (Json.obj e.data).encode

theorem encodeEvent_eq (e : StreamEvent) (i : Nat) :
    encodeEvent e i = idLine i ++ '\n' :: (nameLine e ++ '\n' :: (dataLine e ++ '\n' :: ['\n'])) := by
  have hid : "id: ".toList = idKey ++ [':', ' '] := by decide
  have hname : "\nevent: ".toList = '\n' :: (eventKey ++ [':', ' ']) := by decide
  have hdata : "\ndata: ".toList = '\n' :: (dataKey ++ [':', ' ']) := by decide
  have hsplit : encodeEvent e i = "id: ".toList ++ decimal i ++ "\nevent: ".toList ++ e.event.text ++ "\ndata: ".toList ++
      (Json.obj e.data).encode ++ ['\n', '\n'] := rfl
  rw [hid, hname, hdata] at hsplit
  rw [hsplit]
  simp only [idLine, nameLine, dataLine, List.append_assoc, List.cons_append, List.nil_append]

theorem plain_field {key value : Text} (hk : Plain key) (hv : Plain value) : Plain (key ++ ':' :: ' ' :: value) :=
  plain_append hk (List.forall_mem_cons.mpr ⟨by decide, List.forall_mem_cons.mpr ⟨by decide, hv⟩⟩)

theorem plain_idLine (i : Nat) : Plain (idLine i) := by
  refine plain_field (fun c => Json.ge_of_all (by decide)) fun c hc => ?_
  have hd := isDigit_of_mem_decimal hc
  simp only [isDigit, Bool.and_eq_true, decide_eq_true_eq] at hd
  exact le_trans (by decide) (Char.le_def.mp hd.1)

theorem plain_nameLine (e : StreamEvent) : Plain (nameLine e) := by
  have hname : ∀ name : EventName, Plain name.text := fun name c hc => by
    cases name <;> exact Json.ge_of_all (by decide) hc
  exact plain_field (fun c => Json.ge_of_all (by decide)) (hname e.event)

theorem plain_dataLine (e : StreamEvent) : Plain (dataLine e) :=
  plain_field (fun c => Json.ge_of_all (by decide)) fun _ => Json.encode_ge _

theorem splitField_append {key : Text} (hk : ':' ∉ key) (value : Text) : splitField (key ++ value) =
    (key ++ value.takeWhile (· ≠ ':'), if ((value.dropWhile (· ≠ ':')).drop 1).head? = some ' ' then
      ((value.dropWhile (· ≠ ':')).drop 1).drop 1 else (value.dropWhile (· ≠ ':')).drop 1) := by
  have hall : ∀ c ∈ key, decide (c ≠ ':') = true := fun c hc => decide_eq_true fun he => hk (he ▸ hc)
  rw [splitField, List.takeWhile_append_of_pos hall, List.dropWhile_append_of_pos hall]

theorem splitField_take {key : Text} (hk : ':' ∉ key) (value : Text) (n : Nat) :
    splitField (key ++ (':' :: ' ' :: value).take n) = (key, value.take (n - 2)) := by
  rw [splitField_append hk]
  match n with
  | 0 => simp
  | 1 => simp
  | n + 2 => simp

theorem splitField_value {key : Text} (hk : ':' ∉ key) (value : Text) :
    splitField (key ++ ':' :: ' ' :: value) = (key, value) := by
  rw [splitField_append hk]
  simp

theorem setField_eq {field value : Text} (hl : splitField l = (field, value)) (hne : l.head? ≠ some ':') : p.setField l =
    if field = "event".toList then { p with eventName := value }
    else if field = "id".toList ∧ '\x00' ∉ value then { p with eventId := some value }
    else if field = "data".toList then { p with dataLines := p.dataLines ++ [value] }
    else p := by
  rw [Fields.setField, if_neg hne, hl]

theorem setField_id (p : Fields) (i : Nat) : p.setField (idLine i) = { p with eventId := some (decimal i) } := by
  have hnull : '\x00' ∉ decimal i := fun h => absurd (isDigit_of_mem_decimal h) (by decide)
  rw [setField_eq (l := idLine i) (splitField_value (by decide) _) (by simp [idLine, idKey]), if_neg (by decide),
    if_pos ⟨by decide, hnull⟩]

theorem setField_name (p : Fields) (e : StreamEvent) : p.setField (nameLine e) = { p with eventName := e.event.text } := by
  rw [setField_eq (l := nameLine e) (splitField_value (by decide) _) (by simp [nameLine, eventKey]), if_pos (by decide)]

theorem setField_data (p : Fields) (value : Text) (n : Nat) :
    p.setField (dataKey ++ (':' :: ' ' :: value).take n) = { p with dataLines := p.dataLines ++ [value.take (n - 2)] } := by
  rw [setField_eq (splitField_take (by decide) _ _) (by simp [dataKey]), if_neg (by decide),
    if_neg (fun h => absurd h.1 (by decide)),
    if_pos (by decide)]

theorem setField_dataLines (h : l.takeWhile (· ≠ ':') ≠ dataKey) : (p.setField l).dataLines = p.dataLines := by
  have hkey : "data".toList = dataKey := by decide
  by_cases hhead : l.head? = some ':'
  · rw [Fields.setField, if_pos hhead]
  · have hfield : splitField l = (l.takeWhile (· ≠ ':'), (splitField l).2) := rfl
    rw [setField_eq hfield hhead, hkey, if_neg h]
    split_ifs <;> rfl

/-! ## A part of an event -/

theorem take_line (l t : Text) (n : Nat) : (l ++ '\n' :: t).take n =
    if n ≤ l.length then l.take n else l ++ '\n' :: t.take (n - l.length - 1) := by
  split
  · exact List.take_append_of_le_length ‹_›
  · obtain ⟨k, rfl⟩ : ∃ k, n = l.length + (k + 1) := ⟨n - l.length - 1, by omega⟩
    rw [List.take_length_add_append, List.take_succ_cons]
    congr 3
    omega

theorem finish_quiet (hl : Plain l) (hkey : l.takeWhile (· ≠ ':') ≠ dataKey) (hp : p.dataLines = []) :
    p.finish l = .ok [] := by
  have hflush : ∀ q : Fields, q.dataLines = [] → q.flush.map Prod.snd = .ok [] := fun q hq => by
    rw [Fields.flush, if_pos hq]
    rfl
  by_cases hne : l = []
  · rw [hne, finish_nil]
    exact hflush p hp
  · rw [finish_rest hl hne]
    exact hflush _ ((setField_dataLines hkey).trans hp)

theorem takeWhile_take_ne (k : Text) (c : Char) (hc : c ≠ 'd') (n : Nat) :
    ((c :: k).take n).takeWhile (· ≠ ':') ≠ dataKey := by
  intro h
  cases n with
  | zero => simp [dataKey] at h
  | succ n =>
      rw [List.take_succ_cons, List.takeWhile_cons] at h
      split at h
      · exact hc (List.cons.inj h).1
      · cases h

def pendingFields (e : StreamEvent) (i : Nat) (dataLines : List Text) : Fields :=
  ⟨e.event.text, some (decimal i), dataLines⟩

theorem flush_complete (e : StreamEvent) (i : Nat) :
    (pendingFields e i [(Json.obj e.data).encode]).flush = .ok (.new, [e.received i]) := by
  simp only [Fields.flush, pendingFields, List.cons_ne_nil, ↓reduceIte, Fields.dispatch, List.intercalate_singleton,
    Json.parse_encode]
  rfl

theorem flush_partial (e : StreamEvent) (i : Nat) {v : Text} (hv : v <+: (Json.obj e.data).encode)
    (hne : v ≠ (Json.obj e.data).encode) : (pendingFields e i [v]).flush = .error "invalid SSE JSON" := by
  simp only [Fields.flush, pendingFields, List.cons_ne_nil, ↓reduceIte, Fields.dispatch, List.intercalate_singleton,
    Json.parse_prefix hv hne]
  rfl

theorem take_ne_of_lt {v : Text} (h : n < v.length) : v.take n ≠ v := by
  intro he
  have hlen := congrArg List.length he
  rw [List.length_take] at hlen
  omega

theorem finish_data (e : StreamEvent) (i n : Nat) :
    (pendingFields e i []).finish (dataKey ++ (':' :: ' ' :: (Json.obj e.data).encode).take n) =
      if n < (Json.obj e.data).encode.length + 2 then .error "invalid SSE JSON" else .ok [e.received i] := by
  have hplain : Plain (dataKey ++ (':' :: ' ' :: (Json.obj e.data).encode).take n) := by
    refine plain_append (fun c => Json.ge_of_all (by decide)) (Plain.take ?_ n)
    exact List.forall_mem_cons.mpr ⟨by decide, List.forall_mem_cons.mpr ⟨by decide, fun _ => Json.encode_ge _⟩⟩
  rw [finish_rest hplain (by simp [dataKey]), setField_data]
  by_cases hlt : n < (Json.obj e.data).encode.length + 2
  · have hpos : 0 < (Json.obj e.data).encode.length := by
      obtain ⟨c, t, he, -⟩ := Json.encode_head (.obj e.data)
      rw [he]
      exact Nat.succ_pos _
    rw [if_pos hlt, show ({ pendingFields e i [] with dataLines := (pendingFields e i []).dataLines ++
      [(Json.obj e.data).encode.take (n - 2)] } : Fields) = pendingFields e i [(Json.obj e.data).encode.take (n - 2)] from rfl,
      flush_partial e i (List.take_prefix _ _) (take_ne_of_lt (by omega))]
    rfl
  · rw [if_neg hlt, List.take_of_length_le (show (Json.obj e.data).encode.length ≤ n - 2 by omega)]
    exact congrArg (Except.map Prod.snd) (flush_complete e i)

theorem finish_break (p : Fields) (t : Text) : p.finish ('\n' :: t) = (do
    let (p, events) ← p.flush
    let rest ← p.finish t
    return events ++ rest) := by
  have hline : allLines ('\n' :: t) = [] :: allLines t := allLines_line List.not_mem_nil t
  have hnil : p.line (dropReturn []) = p.flush := rfl
  simp only [Fields.finish, hline, Fields.lines, hnil, bind, Except.bind, pure, Except.pure]
  cases h₁ : p.flush with
  | error e => rfl
  | ok x =>
      simp only
      cases h₂ : x.1.lines (allLines t) with
      | error e => rfl
      | ok y =>
          simp only
          cases h₃ : y.1.flush with
          | error e => rfl
          | ok z => simp [List.append_assoc]

theorem dataLine_ne_nil (e : StreamEvent) : dataLine e ≠ [] := by simp [dataLine, dataKey]

theorem setField_dataLine (e : StreamEvent) (i : Nat) :
    (pendingFields e i []).setField (dataLine e) = pendingFields e i [(Json.obj e.data).encode] := by
  have h := setField_data (pendingFields e i []) (Json.obj e.data).encode ((Json.obj e.data).encode.length + 2)
  rw [List.take_of_length_le (by simp), List.take_of_length_le (by simp)] at h
  exact h

theorem finish_head (e : StreamEvent) (i : Nat) (t : Text) :
    Fields.new.finish (idLine i ++ '\n' :: (nameLine e ++ '\n' :: t)) = (pendingFields e i []).finish t := by
  rw [finish_line (plain_idLine i) (by simp [idLine, idKey]), finish_line (plain_nameLine e) (by simp [nameLine, eventKey]),
    setField_id, setField_name]
  rfl

theorem finish_event (e : StreamEvent) (i : Nat) (t : Text) : Fields.new.finish (encodeEvent e i ++ t) =
    (Fields.new.finish t).map (e.received i :: ·) := by
  have hcut : encodeEvent e i ++ t = idLine i ++ '\n' :: (nameLine e ++ '\n' :: (dataLine e ++ '\n' :: '\n' :: t)) := by
    rw [encodeEvent_eq]
    simp only [List.append_assoc, List.cons_append, List.nil_append]
  rw [hcut, finish_head, finish_line (plain_dataLine e) (dataLine_ne_nil e), setField_dataLine, finish_break, flush_complete]
  cases h : Fields.new.finish t <;> simp [h, bind, Except.bind, pure, Except.pure, Except.map]

theorem length_encodeEvent (e : StreamEvent) (i : Nat) : (encodeEvent e i).length =
    (idLine i).length + (nameLine e).length + (Json.obj e.data).encode.length + 10 := by
  rw [encodeEvent_eq]
  simp only [dataLine, dataKey, List.length_append, List.length_cons, List.length_nil]
  omega

/-- A part of an event yields the event if its data is complete, an error if its data line has begun, and else nothing. -/
theorem finish_take (e : StreamEvent) (i : Nat) (h : n < (encodeEvent e i).length) :
    Fields.new.finish ((encodeEvent e i).take n) =
      if (encodeEvent e i).length ≤ n + 2 then .ok [e.received i]
      else if (encodeEvent e i).length ≤ n + (Json.obj e.data).encode.length + 4 then .error "invalid SSE JSON"
      else .ok [] := by
  rw [length_encodeEvent] at h ⊢
  rw [encodeEvent_eq, take_line]
  by_cases hid : n ≤ (idLine i).length
  · rw [if_pos hid, if_neg (by omega), if_neg (by omega)]
    exact finish_quiet ((plain_idLine i).take n) (takeWhile_take_ne _ 'i' (by decide) n) rfl
  · rw [if_neg hid, take_line]
    by_cases hname : n - (idLine i).length - 1 ≤ (nameLine e).length
    · rw [if_pos hname, if_neg (by omega), if_neg (by omega),
        finish_line (plain_idLine i) (by simp [idLine, idKey]), setField_id]
      exact finish_quiet ((plain_nameLine e).take _) (takeWhile_take_ne _ 'e' (by decide) _) rfl
    · rw [if_neg hname, finish_head]
      obtain ⟨m, rfl⟩ : ∃ m, n = (idLine i).length + (nameLine e).length + 2 + m :=
        ⟨n - ((idLine i).length + (nameLine e).length + 2), by omega⟩
      have hm : (idLine i).length + (nameLine e).length + 2 + m - (idLine i).length - 1 - (nameLine e).length - 1 = m := by omega
      have hlen : (dataLine e).length = (Json.obj e.data).encode.length + 6 := by simp [dataLine, dataKey]
      rw [hm, take_line]
      by_cases hdata : m ≤ (dataLine e).length
      · rw [if_pos hdata]
        by_cases hkey : m < 4
        · rw [if_neg (by omega), if_neg (by omega)]
          refine finish_quiet ((plain_dataLine e).take m) (fun he => ?_) rfl
          have hle := (List.takeWhile_prefix (l := (dataLine e).take m) (· ≠ ':')).length_le
          rw [he, List.length_take] at hle
          have hfour : dataKey.length = 4 := rfl
          omega
        · obtain ⟨k, rfl⟩ : ∃ k, m = dataKey.length + k := ⟨m - 4, by simp [dataKey]; omega⟩
          have hfour : dataKey.length = 4 := rfl
          rw [dataLine, List.take_length_add_append, finish_data]
          by_cases hk : k < (Json.obj e.data).encode.length + 2
          · rw [if_pos hk, if_neg (by omega), if_pos (by omega)]
          · rw [if_neg hk, if_pos (by omega)]
      · have hone : m - (dataLine e).length - 1 = 0 := by omega
        rw [if_neg hdata, hone, List.take_zero, finish_line (plain_dataLine e) (dataLine_ne_nil e), setField_dataLine,
          finish_nil, flush_complete, if_pos (by omega)]
        rfl

/-! ## Prefixes of a stream -/

theorem within_zero : within i events 0 = [] := by
  cases events with
  | nil => rfl
  | cons e events =>
      have hlen := length_encodeEvent e (i + 1)
      rw [within]
      exact if_neg (by omega)

theorem finish_stream (n i : Nat) (events : List StreamEvent) : Fields.new.finish ((encodedEvents i events).take n) =
    if splitsData i events n then .error "invalid SSE JSON" else .ok ((within i events n).map fun x => x.1.received x.2) := by
  induction events generalizing n i with
  | nil =>
      rw [encodedEvents, List.take_nil, finish_nil]
      rfl
  | cons e events ih =>
      rw [encodedEvents, splitsData, within]
      by_cases hn : (encodeEvent e (i + 1)).length ≤ n
      · obtain ⟨m, rfl⟩ : ∃ m, n = (encodeEvent e (i + 1)).length + m := ⟨_, (Nat.add_sub_cancel' hn).symm⟩
        rw [List.take_length_add_append, finish_event, ih, if_pos hn,
          if_pos (show (encodeEvent e (i + 1)).length ≤ (encodeEvent e (i + 1)).length + m + 2 by omega), Nat.add_sub_cancel_left]
        cases splitsData (i + 1) events m <;> rfl
      · rw [List.take_append_of_le_length (by omega), finish_take e (i + 1) (by omega), if_neg hn,
          show n - (encodeEvent e (i + 1)).length = 0 by omega, within_zero]
        by_cases hdata : (encodeEvent e (i + 1)).length ≤ n + 2
        · simp [hdata, Nat.not_lt.mpr hdata]
        · by_cases hkey : (encodeEvent e (i + 1)).length ≤ n + (Json.obj e.data).encode.length + 4
          · simp [hdata, hkey, Nat.lt_of_not_le hdata]
          · simp [hdata, hkey]

/-! ## Reading a body -/

variable {κ : Type} {v : Validator κ} {a : ChatAccumulator κ}

/-- An event that ends no stream. -/
def SSEEvent.Quiet (e : SSEEvent) : Prop := e.event ≠ EventName.done.text ∧ e.event ≠ EventName.error.text

theorem text_quiet (name : EventName) (h : ¬(name = .done ∨ name = .error)) :
    name.text ≠ EventName.done.text ∧ name.text ≠ EventName.error.text := by
  revert h
  cases name <;> decide

theorem received_quiet (h : e.isTerminal = false) (i : Nat) : (e.received i).Quiet := by
  simp only [StreamEvent.isTerminal, Bool.or_eq_false_iff, decide_eq_false_iff_not] at h
  exact text_quiet e.event (not_or.mpr h)

theorem terminal_apply {e : SSEEvent} (he : e.Quiet) (ha : a.terminal = false) : (a.apply v e).terminal = false := by
  unfold ChatAccumulator.apply
  split_ifs with _ _ _ _ _ hdone herror
  · rfl
  · exact ha
  · exact ha
  · exact ha
  · exact ha
  · exact absurd hdone he.1
  · exact absurd herror he.2
  · exact ha

theorem terminal_foldl {es : List SSEEvent} (hes : ∀ e ∈ es, e.Quiet) (ha : a.terminal = false) :
    (es.foldl (ChatAccumulator.apply v) a).terminal = false := by
  induction es generalizing a with
  | nil => exact ha
  | cons e es ih =>
      exact ih (fun e' he' => hes e' (List.mem_cons_of_mem e he')) (terminal_apply (hes e List.mem_cons_self) ha)

theorem stops_of_terminal (ha : a.terminal = false) : a.stops = false := by
  simp only [ChatAccumulator.terminal, Bool.or_eq_false_iff, Option.isSome_eq_false_iff, Option.isNone_iff_eq_none] at ha
  simp [ChatAccumulator.stops, ha.1, ha.2]

theorem readBody_quiet {parser : SSEParser} {fragments : List Text} {es : List SSEEvent} (ending : Ending)
    (hread : parser.fields.finish (parser.buffer ++ fragments.flatten) = .ok es) (hes : ∀ e ∈ es, e.Quiet)
    (ha : a.terminal = false) : (readBody v parser a fragments ending).2 =
      match ending with
      | .closed => .returned false
      | .failed _ => .threw := by
  induction fragments generalizing parser a es with
  | nil =>
      cases ending with
      | failed => rfl
      | closed =>
          rw [List.flatten_nil, ← feed_final] at hread
          rw [readBody]
          cases hfeed : parser.feed [] true with
          | error e =>
              rw [hfeed] at hread
              cases hread
          | ok x =>
              rw [hfeed] at hread
              cases hread
              exact congrArg Outcome.returned (terminal_foldl hes ha)
  | cons fragment fragments ih =>
      rw [List.flatten_cons, ← List.append_assoc, feed_more] at hread
      rw [readBody]
      cases hfeed : parser.feed fragment false with
      | error e =>
          rw [hfeed] at hread
          cases hread
      | ok x =>
          rw [hfeed] at hread
          cases hrest : x.1.fields.finish (x.1.buffer ++ fragments.flatten) with
          | error e =>
              simp only [bind, Except.bind, hrest] at hread
              cases hread
          | ok rest =>
              simp only [bind, Except.bind, hrest, pure, Except.pure] at hread
              cases hread
              have hx : (x.2.foldl (ChatAccumulator.apply v) a).terminal = false :=
                terminal_foldl (fun e he => hes e (List.mem_append_left rest he)) ha
              simp only [stops_of_terminal hx, Bool.false_eq_true, ↓reduceIte]
              exact ih hrest (fun e he => hes e (List.mem_append_right x.2 he)) hx

theorem consume_answered {status : Nat} (hs : 200 ≤ status ∧ status ≤ 299) (fragments : List Text) (ending : Ending) :
    consume v a (.answered status (some (fragments, ending))) = readBody v .new a fragments ending := by
  rw [consume, if_neg (show status ≠ 425 by omega), if_pos hs]

theorem posts_last (v : Validator κ) (post : ChatPost) (a : ChatAccumulator κ) (response : Response) :
    (attempts v post a [response]).1 = [post] := by
  rw [attempts]
  split <;> rfl

theorem posts_again {response : Response} (h : (consume v (.new v) response).2 = .returned false) (post : ChatPost)
    (second : Response) : (send v post response second).1 = [post, post] := by
  obtain ⟨a, ha⟩ : ∃ a, consume v (.new v) response = (a, .returned false) := ⟨_, Prod.ext rfl h⟩
  rw [send, attempts, ha]
  exact congrArg (post :: ·) (posts_last v post a second)

end Etoeragcb.Frontend
