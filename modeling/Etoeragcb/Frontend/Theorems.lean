import Etoeragcb.Frontend.Lemmas.Gateway
import Etoeragcb.Frontend.Lemmas.Sse

/-!
# What the client makes of a stream that is cut off
-/

namespace Etoeragcb.Frontend

open Lib

/-! ## Streams -/

section Streams

variable {κ : Type} {v : Validator κ} {events : List StreamEvent} {fragments : List Text} {n : Nat}

theorem readsPrefix_iff (h : fragments ≠ []) (hcut : fragments.flatten = (encodedEvents 0 events).take n) :
    ReadsPrefix events n fragments ↔ splitsData 0 events n = false := by
  rw [ReadsPrefix, feedAll_eq h, hcut]
  refine ⟨fun hread => ?_, fun hdata => ?_⟩
  · have hfinish := (finish_stream n 0 events).symm.trans hread
    cases hdata : splitsData 0 events n with
    | false => rfl
    | true =>
        rw [hdata, if_pos rfl] at hfinish
        cases hfinish
  · have hfinish := finish_stream n 0 events
    rw [hdata] at hfinish
    exact hfinish

theorem consume_stream (hcut : fragments.flatten = (encodedEvents 0 events).take n) (hdata : splitsData 0 events n = false)
    (hquiet : ∀ x ∈ within 0 events n, x.1.isTerminal = false) {status : Nat} (hs : 200 ≤ status ∧ status ≤ 299)
    (ending : Ending) {a : ChatAccumulator κ} (ha : a.terminal = false) :
    (consume v a (.answered status (some (fragments, ending)))).2 =
      match ending with
      | .closed => .returned false
      | .failed _ => .threw := by
  have hread : SSEParser.new.fields.finish (SSEParser.new.buffer ++ fragments.flatten) =
      .ok ((within 0 events n).map fun x => x.1.received x.2) := by
    have hfinish := finish_stream n 0 events
    rw [hdata] at hfinish
    rw [hcut]
    exact hfinish
  rw [consume_answered hs]
  refine readBody_quiet ending hread (fun e he => ?_) ha
  obtain ⟨x, hx, rfl⟩ := List.mem_map.mp he
  exact received_quiet (hquiet x hx) x.2

def noCitations : Validator Unit := ⟨(), fun _ => ()⟩

/-- Where the answer is lost behind a data line, or the reading fails, no attempt follows. -/
theorem not_streamsRecover : ¬∀ (events : List StreamEvent) (n : Nat) (fragments : List Text) (ending : Ending),
    fragments ≠ [] → fragments.flatten = (encodedEvents 0 events).take n →
      ReadsPrefix events n fragments ∧
        Reconnects noCitations events n (.answered 200 (some (fragments, ending))) := by
  intro hall
  have hcut := hall [⟨.delta, []⟩] 26 [(encodedEvents 0 [⟨.delta, []⟩]).take 26] .closed (List.cons_ne_nil _ _)
    (List.append_nil _)
  have hread := (readsPrefix_iff (List.cons_ne_nil _ _) (List.append_nil _)).mp hcut.1
  exact absurd hread (by decide +kernel)

/-- Every prefix is read, and every loss of the stream leads to one more attempt, if and only if no data line is cut and
no reading fails in front of a terminal event. -/
theorem streamsRecover_iff (h : fragments ≠ []) (hcut : fragments.flatten = (encodedEvents 0 events).take n) {status : Nat}
    (hs : 200 ≤ status ∧ status ≤ 299) (ending : Ending) :
    ReadsPrefix events n fragments ∧ Reconnects v events n (.answered status (some (fragments, ending))) ↔
      splitsData 0 events n = false ∧ ∀ early, ending = .failed early → ∃ x ∈ within 0 events n, x.1.isTerminal = true := by
  rw [readsPrefix_iff h hcut]
  refine and_congr_right fun hdata => ⟨fun hrec early hfailed => ?_, fun hterminal hquiet => ?_⟩
  · by_contra hno
    have hquiet : ∀ x ∈ within 0 events n, x.1.isTerminal = false := fun x hx =>
      Bool.eq_false_iff.mpr fun hx' => hno ⟨x, hx, hx'⟩
    have hreturned := (hrec hquiet).1 (.new v) rfl
    rw [consume_stream hcut hdata hquiet hs ending rfl, hfailed] at hreturned
    cases hreturned
  · cases ending with
    | failed early =>
        obtain ⟨x, hx, hx'⟩ := hterminal early rfl
        exact absurd hx' (Bool.eq_false_iff.mp (hquiet x hx))
    | closed =>
        have hreturned := fun (a : ChatAccumulator κ) (ha : a.terminal = false) =>
            consume_stream (v := v) hcut hdata hquiet hs .closed ha
        exact ⟨hreturned, fun post second => posts_again (hreturned (.new v) rfl) post second⟩

/-- A whole event and the beginning of the next one, the first of them cut in its data line. -/
def halves : List Text := ["id: 1\nevent: status\nda".toList, "ta: {}\n\nid: 2\nevent: del".toList]

theorem streamsRecover_iff_status : ReadsPrefix [⟨.status, []⟩, ⟨.delta, []⟩] 46 halves ∧
    Reconnects noCitations [⟨.status, []⟩, ⟨.delta, []⟩] 46 (.answered 200 (some (halves, .closed))) :=
  (streamsRecover_iff (List.cons_ne_nil _ _) (by decide +kernel) ⟨by decide, by decide⟩ .closed).mpr
    ⟨by decide +kernel, fun _ h => by cases h⟩

end Streams

/-! ## The gateway -/

section Gateway

variable {κ : Type} [DecidableEq κ] {refreshHash : Text → κ} {s : Gateway κ}

/-- In every state that is reached, a token whose exchange is in flight or remembered is not sent again, and its calls end
as the exchange does. -/
theorem deduplicates_remembered (hrun : GatewayRun refreshHash .start s) : DeduplicatesRemembered refreshHash s := by
  have h : s.Sound refreshHash := Gateway.sound_run hrun Gateway.sound_start
  intro e x hx
  refine ⟨Gateway.sendsNothing_pending h hx, fun since payload hup hnow hrem => ?_⟩
  obtain ⟨hfailed, hafter⟩ := hrem
  have hends := Gateway.endsWith_upstream h hx hup
  rcases hout : x.outcome with _ | (error | bundle)
  · have hp := Exchange.pending_outcome hout
    exact ⟨Gateway.sendsNothing_pending h hx hp, Gateway.endsAs_pending h hx hp, hends⟩
  · exact absurd hout (hfailed error)
  · cases hat : x.storedAt with
    | none =>
        have hp := Exchange.pending_unstored hout hat
        exact ⟨Gateway.sendsNothing_pending h hx hp, Gateway.endsAs_pending h hx hp, hends⟩
    | some at_ =>
        have hafter : s.storedAfter e < maxRotatedResults := hafter.resolve_left (by rw [hat]; exact nofun)
        have hnow : s.now < at_ + refreshCacheMs :=
          Nat.lt_of_lt_of_le hnow (Nat.add_le_add_right ((h.stored e x hx at_ hat).2 since payload hup) _)
        exact ⟨Gateway.sendsNothing_kept h hx hat hout hnow hafter, Gateway.endsAs_kept h hx hat hout hnow hafter, hends⟩

def sessionBundle (n : Nat) : TokenBundle := ⟨[], [Char.ofNat n], [], 0, 0⟩

def sessionResponse : TokenResponse := ⟨[], ['x'], [], 900, 3600⟩

def answerSession (n : Nat) : List GatewayAction :=
  [.exchange n sessionResponse, .respond n (.answered sessionResponse), .store n]

/-- `n` calls at once, then their answers, then the end of the first call. -/
def afterSessions (n : Nat) : Option (Gateway Text) :=
  exec (Gateway.step id) (fun _ _ => True) .start
    ((List.range n).map (fun i => .refreshToken (sessionBundle i)) ++ (List.range n).flatMap answerSession ++ [.resume 0])

theorem deduplicates_remembered_sessions :
    ∃ s, afterSessions 2 = some s ∧ s.exchanges.length = 2 ∧ DeduplicatesRemembered id s := by
  have hlength : (afterSessions 2).map (fun s => s.exchanges.length) = some 2 := by decide +kernel
  obtain ⟨s, hs, hlength⟩ := Option.map_eq_some_iff.mp hlength
  exact ⟨s, hs, hlength, deduplicates_remembered (Run.of_exec hs)⟩

/-- What the gateway shows after 129 sessions have refreshed their tokens within one millisecond. -/
theorem afterSessions_forgets :
    (afterSessions 129).map (fun s => decide (s.now = 0 ∧
      s.exchanges[0]?.map (fun x => (x.oldBundle, x.upstream)) = some (sessionBundle 0, some (0, sessionResponse)) ∧
      (s.refreshToken id (sessionBundle 0)).exchanges.length ≠ s.exchanges.length)) = some true := by
  decide +kernel

/-- A token that 128 others follow is sent a second time at once. -/
theorem not_deduplicates : ¬∀ s : Gateway Text, GatewayRun id .start s → Deduplicates id s := by
  intro hall
  obtain ⟨s, hs, hview⟩ := Option.map_eq_some_iff.mp afterSessions_forgets
  obtain ⟨hnow, hexchange, hsends⟩ := of_decide_eq_true hview
  obtain ⟨x, hx, he⟩ := Option.map_eq_some_iff.mp hexchange
  obtain ⟨hold, hup⟩ := Prod.mk.inj he
  have hnothing := ((hall s (Run.of_exec hs) 0 x hx).2 0 sessionResponse hup (by rw [hnow]; decide)).1
  exact hsends (congrArg List.length (hnothing (sessionBundle 0) (by rw [hold])))

end Gateway

end Etoeragcb.Frontend
