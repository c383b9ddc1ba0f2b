import Etoeragcb.Web.Fetcher
import Etoeragcb.Web.Lemmas.Security

/-!
# The hops of a fetch
-/

namespace Etoeragcb.Web

open Lib SafePageFetcher

variable {u : Unicode} {fetcher : SafePageFetcher} {network : Network} {events events' : List FetchEvent}
    {visited : List Text}
  {v : ValidatedUrl} {redirectCounts : List Nat} {current : Text}

def calledUrls (events : List FetchEvent) : List ValidatedUrl :=
  events.filterMap fun
    | .fetchOnce url _ _ => some url
    | .resolve _ _ _ => none

/-- Complete hops, the last one at the end: each asks the first of the addresses that its own host has been resolved to, all
of them public, for a URL that has not been visited. -/
inductive Hops (u : Unicode) (fetcher : SafePageFetcher) : List FetchEvent → List Text → Prop
  | nil : Hops u fetcher [] []
  | hop {events visited v url address addresses} (answer) (h : Hops u fetcher events visited)
      (hurl : validateUrl u fetcher.idna fetcher.allowedPorts url = .ok v) (hnew : v.canonicalUrl ∉ visited)
      (hpublic : validatePublicAddresses (address :: addresses) = .ok ()) :
      Hops u fetcher (events ++ [.resolve v.host v.port (.ok (address :: addresses)), .fetchOnce v address answer])
        (v.canonicalUrl :: visited)

/-! ## The loop -/

theorem request_spec (network : Network) (events : List FetchEvent) (v : ValidatedUrl) :
    (∃ answer e, request network events v = (events ++ [.resolve v.host v.port answer], .error e)) ∨
    ∃ address addresses answer, validatePublicAddresses (address :: addresses) = .ok () ∧
      (request network events v).1 =
        events ++ [.resolve v.host v.port (.ok (address :: addresses)), .fetchOnce v address answer] := by
  rw [request]
  cases hresolve : network.resolve events v.host v.port with
  | error e => exact Or.inl ⟨_, e, rfl⟩
  | ok addresses =>
      cases hpublic : validatePublicAddresses addresses with
      | error e => exact Or.inl ⟨.ok addresses, .webFetchError e, by simp [hpublic]⟩
      | ok _ =>
          cases addresses with
          | nil => exact Or.inl ⟨.ok [], .raised "IndexError", by simp [hpublic]⟩
          | cons address addresses =>
              refine Or.inr ⟨address, addresses, network.fetchOnce
                (events ++ [.resolve v.host v.port (.ok (address :: addresses))]) v address, hpublic, ?_⟩
              simp [hpublic]

/-- The loop makes at most as many hops as there are redirect counts; behind them the resolver may have stopped it. -/
theorem followRedirects_hops (h : Hops u fetcher events visited) : ∃ done visited', Hops u fetcher done visited' ∧
    visited'.length ≤ visited.length + redirectCounts.length ∧
    ((followRedirects u fetcher network redirectCounts current visited events).1 = done ∨ ∃ host port answer,
      (followRedirects u fetcher network redirectCounts current visited events).1 =
        done ++ [.resolve host port answer]) := by
  induction redirectCounts generalizing current visited events with
  | nil => exact ⟨events, visited, h, Nat.le_refl _, Or.inl rfl⟩
  | cons redirectCount redirectCounts ih =>
      rw [followRedirects]
      split
      · exact ⟨events, visited, h, by simp, Or.inl rfl⟩
      rename_i v hurl
      split
      · exact ⟨events, visited, h, by simp, Or.inl rfl⟩
      rename_i hnew
      rcases request_spec network events v with ⟨answer, e, hrequest⟩ | ⟨address, addresses, answer, hpublic, hevents⟩
      · rw [hrequest]
        exact ⟨events, visited, h, by simp, Or.inr ⟨_, _, _, rfl⟩⟩
      · have hnext := Hops.hop answer h hurl hnew hpublic
        rw [← hevents] at hnext
        generalize request network events v = requested at hnext
        simp only
        split
        · exact ⟨requested.1, _, hnext, by simp, Or.inl rfl⟩
        · exact ⟨requested.1, _, hnext, by simp, Or.inl rfl⟩
        · obtain ⟨done, visited', hdone, hle, hend⟩ := ih hnext
          refine ⟨done, visited', hdone, hle.trans ?_, hend⟩
          simp only [List.length_cons]
          omega

/-! ## What the hops say -/

theorem Hops.calledUrls (h : Hops u fetcher events visited) :
    (Web.calledUrls events).map (·.canonicalUrl) = visited.reverse ∧ visited.Nodup := by
  induction h with
  | nil => exact ⟨rfl, List.nodup_nil⟩
  | hop answer h hurl hnew hpublic ih =>
      refine ⟨?_, List.nodup_cons.mpr ⟨hnew, ih.2⟩⟩
      rw [List.reverse_cons, ← ih.1]
      simp [Web.calledUrls]

theorem Hops.public (h : Hops u fetcher events visited) {host : Text} {port : Nat} {addresses : List IpAddress}
    (hmem : .resolve host port (.ok addresses) ∈ events) : validatePublicAddresses addresses = .ok () := by
  induction h with
  | nil => cases hmem
  | hop answer h hurl hnew hpublic ih =>
      rcases List.mem_append.mp hmem with hmem | hmem
      · exact ih hmem
      · simp only [List.mem_cons, FetchEvent.resolve.injEq, Except.ok.injEq, reduceCtorEq, List.not_mem_nil,
          or_false] at hmem
        rw [hmem.2.2]
        exact hpublic

theorem split_concat {α : Type} {xs before after : List α} {a e : α} (h : xs ++ [a] = before ++ e :: after) :
    (∃ after', xs = before ++ e :: after' ∧ after = after' ++ [a]) ∨ (xs = before ∧ a = e ∧ after = []) := by
  rcases List.eq_nil_or_concat' after with rfl | ⟨after', b, rfl⟩
  · obtain ⟨hxs, ha⟩ := List.append_inj' h rfl
    exact Or.inr ⟨hxs, by simpa using ha, rfl⟩
  · rw [← List.cons_append, ← List.append_assoc] at h
    obtain ⟨hxs, ha⟩ := List.append_inj' h rfl
    obtain rfl : a = b := by simpa using ha
    exact Or.inl ⟨after', hxs, rfl⟩

theorem Hops.fetched (h : Hops u fetcher events visited) {before after : List FetchEvent} {address : IpAddress}
    {answer : Except FetchError HttpResponse} (heq : events = before ++ .fetchOnce v address answer :: after) :
    (∃ url, validateUrl u fetcher.idna fetcher.allowedPorts url = .ok v) ∧
      ∃ earlier addresses, before = earlier ++ [.resolve v.host v.port (.ok addresses)] ∧ addresses.head? = some address ∧
        validatePublicAddresses addresses = .ok () := by
  induction h generalizing before after with
  | nil => simp at heq
  | @hop events visited v' url address' addresses answer' h hurl hnew hpublic ih =>
      rw [List.append_cons] at heq
      rcases split_concat heq with ⟨after', hinit, -⟩ | ⟨hinit, hlast, -⟩
      · rcases split_concat hinit with ⟨after'', hevents, -⟩ | ⟨-, hlast, -⟩
        · exact ih hevents
        · cases hlast
      · cases hlast
        exact ⟨⟨url, hurl⟩, events, _, hinit.symm, rfl, hpublic⟩

end Etoeragcb.Web
