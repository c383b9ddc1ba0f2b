import Etoeragcb.Frontend.Gateway

/-!
# The invariant of the gateway
-/

namespace Etoeragcb.Frontend

open Lib

variable {κ : Type} {refreshHash : Text → κ}

/-! ## Exchanges -/

abbrev Exchange.key (refreshHash : Text → κ) (x : Exchange) : κ := refreshHash x.oldBundle.refreshToken

namespace Exchange

variable {x : Exchange}

theorem pending_outcome (h : x.outcome = none) : x.pending = none := by
  simp [pending, h]

theorem pending_unstored {bundle : TokenBundle} (h : x.outcome = some (.ok bundle)) (hs : x.storedAt = none) :
    x.pending = none := by
  simp [pending, h, hs]

theorem pending_stored {bundle : TokenBundle} {since : Nat} (h : x.outcome = some (.ok bundle))
    (hs : x.storedAt = some since) : x.pending = some (.ok bundle) := by
  simp [pending, h, hs]

theorem pending_ok {bundle : TokenBundle} (h : x.pending = some (.ok bundle)) :
    x.outcome = some (.ok bundle) ∧ ∃ since, x.storedAt = some since := by
  unfold pending at h
  split at h
  · rename_i b hb
    split at h
    · rename_i hs
      cases h
      exact ⟨hb, Option.isSome_iff_exists.mp hs⟩
    · cases h
  · cases h
  · cases h

end Exchange

theorem performRefresh_ok {x : Exchange} {reply : Reply} {now : Nat} {bundle : TokenBundle} (hreply : reply.Genuine x)
    (h : performRefresh x.oldBundle now reply = .ok bundle) :
    ∃ since payload, x.upstream = some (since, payload) ∧ bundle = tokenBundle payload now := by
  cases reply with
  | answered payload =>
      obtain ⟨⟨since, payload'⟩, hup, he⟩ := Option.map_eq_some_iff.mp hreply
      cases he
      simp only [performRefresh] at h
      split at h
      · cases h
      · cases h
        exact ⟨since, payload', hup, rfl⟩
  | failed => cases h
  | notOk => cases h
  | invalid => cases h

theorem getElem?_set_some {α : Type} {l : List α} {e i : Nat} {x x' y : α} (hx : l[e]? = some x)
    (hy : (l.set e x')[i]? = some y) : (i = e ∧ y = x') ∨ (i ≠ e ∧ l[i]? = some y) := by
  have hlt : e < l.length := (List.getElem?_eq_some_iff.mp hx).1
  by_cases hi : i = e
  · subst hi
    rw [List.getElem?_set_self hlt, Option.some.injEq] at hy
    exact Or.inl ⟨rfl, hy.symm⟩
  · rw [List.getElem?_set_ne (Ne.symm hi)] at hy
    exact Or.inr ⟨hi, hy⟩

theorem getElem?_append_some {α : Type} {l : List α} {i : Nat} {x y : α} (h : (l ++ [x])[i]? = some y) :
    (i = l.length ∧ y = x) ∨ (i < l.length ∧ l[i]? = some y) := by
  rcases Nat.lt_trichotomy i l.length with hi | hi | hi
  · rw [List.getElem?_append_left hi] at h
    exact Or.inr ⟨hi, h⟩
  · subst hi
    rw [List.getElem?_concat_length, Option.some.injEq] at h
    exact Or.inl ⟨rfl, h.symm⟩
  · rw [List.getElem?_eq_none (by simp; omega)] at h
    cases h

/-! ## What a step does -/

namespace Gateway

variable [DecidableEq κ] {s t : Gateway κ}

theorem get?_pruneRotated (s : Gateway κ) (k : κ) :
    s.pruneRotated.rotated.get? k = (s.rotated.get? k).filter fun r => s.now < r.expiresAt := by
  simp only [pruneRotated, Table.get?_delete]
  congr 1
  funext r
  by_cases h : r.expiresAt ≤ s.now
  · simp [h]
  · simp [h, Nat.lt_of_not_le h]

theorem refreshToken_cases (refreshHash : Text → κ) (s : Gateway κ) (oldBundle : TokenBundle) :
    (∃ cached, s.rotated.get? (refreshHash oldBundle.refreshToken) = some cached ∧ s.now < cached.expiresAt ∧
      refreshToken refreshHash s oldBundle =
        { s.pruneRotated with calls := s.calls ++ [.ended (.ok cached.bundle)] }) ∨
    (s.pruneRotated.rotated.get? (refreshHash oldBundle.refreshToken) = none ∧
      ((∃ e, s.refreshes (refreshHash oldBundle.refreshToken) = some e ∧
        refreshToken refreshHash s oldBundle = { s.pruneRotated with calls := s.calls ++ [.shares e] }) ∨
      (s.refreshes (refreshHash oldBundle.refreshToken) = none ∧
        refreshToken refreshHash s oldBundle = { s.pruneRotated with
          exchanges := s.exchanges ++ [⟨oldBundle, none, none, none⟩]
          refreshes := Function.update s.refreshes (refreshHash oldBundle.refreshToken) (some s.exchanges.length)
          calls := s.calls ++ [.awaits s.exchanges.length] }))) := by
  have hfilter : (s.pruneRotated.rotated.get? (refreshHash oldBundle.refreshToken)).filter
      (fun cached => s.now < cached.expiresAt) = s.pruneRotated.rotated.get? (refreshHash oldBundle.refreshToken) := by
    rw [get?_pruneRotated, Option.filter_filter]
    simp
  unfold refreshToken
  simp only [show s.pruneRotated.now = s.now from rfl, hfilter]
  cases hget : s.pruneRotated.rotated.get? (refreshHash oldBundle.refreshToken) with
  | some cached =>
      rw [get?_pruneRotated, Option.filter_eq_some_iff] at hget
      exact Or.inl ⟨cached, hget.1, of_decide_eq_true hget.2, rfl⟩
  | none =>
      refine Or.inr ⟨rfl, ?_⟩
      simp only [show s.pruneRotated.refreshes = s.refreshes from rfl]
      cases s.refreshes (refreshHash oldBundle.refreshToken) with
      | some e => exact Or.inl ⟨e, rfl, rfl⟩
      | none => exact Or.inr ⟨rfl, rfl⟩

theorem step_exchange {e : Nat} {payload : TokenResponse} (h : step refreshHash s (.exchange e payload) = some t) :
    ∃ x, s.exchanges[e]? = some x ∧ x.upstream = none ∧
      t = { s with exchanges := s.exchanges.set e { x with upstream := some (s.now, payload) } } := by
  simp only [step, Option.bind_eq_bind, Option.bind_eq_some_iff, Option.guard_eq_some'] at h
  obtain ⟨x, hx, _, hup, h⟩ := h
  cases h
  exact ⟨x, hx, hup, rfl⟩

theorem step_respond {e : Nat} {reply : Reply} (h : step refreshHash s (.respond e reply) = some t) :
    ∃ x, s.exchanges[e]? = some x ∧ x.outcome = none ∧ reply.Genuine x ∧
      t = { s with
        exchanges := s.exchanges.set e { x with outcome := some (performRefresh x.oldBundle s.now reply) } } := by
  simp only [step, Option.bind_eq_bind, Option.bind_eq_some_iff, Option.guard_eq_some'] at h
  obtain ⟨x, hx, _, ⟨hout, hreply⟩, h⟩ := h
  cases h
  exact ⟨x, hx, hout, hreply, rfl⟩

theorem step_store {e : Nat} (h : step refreshHash s (.store e) = some t) :
    ∃ x bundle, s.exchanges[e]? = some x ∧ x.storedAt = none ∧ x.outcome = some (.ok bundle) ∧
      t = storeResult refreshHash s e x bundle := by
  simp only [step, Option.bind_eq_bind, Option.bind_eq_some_iff, Option.guard_eq_some'] at h
  obtain ⟨x, hx, _, hstored, h⟩ := h
  split at h
  · rename_i bundle hout
    cases h
    exact ⟨x, bundle, hx, hstored, hout, rfl⟩
  · cases h

theorem step_resume {c : Nat} (h : step refreshHash s (.resume c) = some t) :
    ∃ e x result, s.calls[c]? = some (.awaits e) ∧ s.exchanges[e]? = some x ∧ x.pending = some result ∧
      t = { s with
        refreshes := Function.update s.refreshes (refreshHash x.oldBundle.refreshToken) none
        calls := s.calls.set c (.ended result) } := by
  simp only [step] at h
  split at h
  · rename_i e hc
    simp only [Option.bind_eq_bind, Option.bind_eq_some_iff] at h
    obtain ⟨x, hx, result, hresult, h⟩ := h
    cases h
    exact ⟨e, x, result, hc, hx, hresult, rfl⟩
  · cases h

/-! ## The invariant -/

/-- What holds in every state that is reached. An exchange that has not ended stands in `refreshes`, a result in
`rotated` for ten seconds, behind the results that were stored before it. -/
structure Sound (refreshHash : Text → κ) (s : Gateway κ) : Prop where
  busy : ∀ (e : Nat) (x : Exchange), s.exchanges[e]? = some x → x.pending = none →
    s.refreshes (x.key refreshHash) = some e ∧ s.rotated.get? (x.key refreshHash) = none
  owner : ∀ c e : Nat, s.calls[c]? = some (.awaits e) →
    ∃ x, s.exchanges[e]? = some x ∧ s.refreshes (x.key refreshHash) = some e
  unique : ∀ c c' e : Nat, s.calls[c]? = some (.awaits e) → s.calls[c']? = some (.awaits e) → c = c'
  past : ∀ (e : Nat) (x : Exchange), s.exchanges[e]? = some x → ∀ since payload,
    x.upstream = some (since, payload) → since ≤ s.now
  answered : ∀ (e : Nat) (x : Exchange), s.exchanges[e]? = some x → ∀ bundle, x.outcome = some (.ok bundle) →
    ∃ since payload now, x.upstream = some (since, payload) ∧ bundle = tokenBundle payload now
  stored : ∀ (e : Nat) (x : Exchange), s.exchanges[e]? = some x → ∀ at_, x.storedAt = some at_ →
    (∃ bundle, x.outcome = some (.ok bundle)) ∧
      ∀ since payload, x.upstream = some (since, payload) → since ≤ at_
  kept : ∀ (e : Nat) (x : Exchange), s.exchanges[e]? = some x → ∀ at_ bundle, x.storedAt = some at_ →
    x.outcome = some (.ok bundle) → s.now < at_ + refreshCacheMs → s.storedAfter e < maxRotatedResults →
    s.rotated.Within (s.storedAfter e) (x.key refreshHash) ⟨bundle, at_ + refreshCacheMs⟩ ∧
      ∀ e', s.refreshes (x.key refreshHash) = some e' → e' = e

theorem sound_start : Sound refreshHash (start : Gateway κ) := by
  constructor <;> intros <;> simp_all [start]

theorem Sound.tick (h : Sound refreshHash s) (ms : Nat) : Sound refreshHash { s with now := s.now + ms } where
  busy := h.busy
  owner := h.owner
  unique := h.unique
  past e x hx since payload hup := (h.past e x hx since payload hup).trans (Nat.le_add_right _ _)
  answered := h.answered
  stored := h.stored
  kept e x hx at_ bundle hat hout hnow hafter := by
    have hearlier : s.now < at_ + refreshCacheMs := Nat.lt_of_le_of_lt (Nat.le_add_right _ _) hnow
    exact h.kept e x hx at_ bundle hat hout hearlier hafter

theorem Sound.pruneRotated (h : Sound refreshHash s) : Sound refreshHash s.pruneRotated where
  busy e x hx hp := by
    refine ⟨(h.busy e x hx hp).1, ?_⟩
    rw [get?_pruneRotated, (h.busy e x hx hp).2, Option.filter_none]
  owner := h.owner
  unique := h.unique
  past := h.past
  answered := h.answered
  stored := h.stored
  kept e x hx at_ bundle hat hout hnow hafter := by
    obtain ⟨hwithin, hrefresh⟩ := h.kept e x hx at_ bundle hat hout hnow hafter
    refine ⟨hwithin.delete (decide_eq_false ?_), hrefresh⟩
    exact Nat.not_le_of_lt hnow

theorem Sound.push (h : Sound refreshHash s) {status : CallStatus} (hstatus : ∀ e, status ≠ .awaits e) :
    Sound refreshHash { s with calls := s.calls ++ [status] } where
  busy := h.busy
  owner c e hc := by
    rcases getElem?_append_some hc with ⟨_, he⟩ | ⟨_, hc⟩
    · exact absurd he.symm (hstatus e)
    · exact h.owner c e hc
  unique c c' e hc hc' := by
    rcases getElem?_append_some hc with ⟨_, he⟩ | ⟨_, hc⟩
    · exact absurd he.symm (hstatus e)
    · rcases getElem?_append_some hc' with ⟨_, he⟩ | ⟨_, hc'⟩
      · exact absurd he.symm (hstatus e)
      · exact h.unique c c' e hc hc'
  past := h.past
  answered := h.answered
  stored := h.stored
  kept := h.kept

theorem Sound.begin (h : Sound refreshHash s) {oldBundle : TokenBundle}
    (hrotated : s.rotated.get? (refreshHash oldBundle.refreshToken) = none)
    (hrefresh : s.refreshes (refreshHash oldBundle.refreshToken) = none) :
    Sound refreshHash { s with
      exchanges := s.exchanges ++ [⟨oldBundle, none, none, none⟩]
      refreshes := Function.update s.refreshes (refreshHash oldBundle.refreshToken) (some s.exchanges.length)
      calls := s.calls ++ [.awaits s.exchanges.length] } where
  busy e x hx hp := by
    rcases getElem?_append_some hx with ⟨rfl, rfl⟩ | ⟨_, hx⟩
    · exact ⟨Function.update_self _ _ _, hrotated⟩
    · obtain ⟨hbusy, hget⟩ := h.busy e x hx hp
      have hkey : x.key refreshHash ≠ refreshHash oldBundle.refreshToken := fun he => by
        rw [he, hrefresh] at hbusy
        cases hbusy
      exact ⟨(Function.update_of_ne hkey _ _).trans hbusy, hget⟩
  owner c e hc := by
    rcases getElem?_append_some hc with ⟨_, he⟩ | ⟨_, hc⟩
    · cases he
      exact ⟨⟨oldBundle, none, none, none⟩, List.getElem?_concat_length, Function.update_self _ _ _⟩
    · obtain ⟨x, hx, howner⟩ := h.owner c e hc
      have hlt : e < s.exchanges.length := (List.getElem?_eq_some_iff.mp hx).1
      have hkey : x.key refreshHash ≠ refreshHash oldBundle.refreshToken := fun he => by
        rw [he, hrefresh] at howner
        cases howner
      exact ⟨x, (List.getElem?_append_left hlt).trans hx, (Function.update_of_ne hkey _ _).trans howner⟩
  unique c c' e hc hc' := by
    have hold : ∀ d : Nat, s.calls[d]? = some (.awaits e) → e < s.exchanges.length := fun d hd => by
      obtain ⟨x, hx, _⟩ := h.owner d e hd
      exact (List.getElem?_eq_some_iff.mp hx).1
    rcases getElem?_append_some hc with ⟨hd, he⟩ | ⟨_, hc⟩
    · rcases getElem?_append_some hc' with ⟨hd', _⟩ | ⟨_, hc'⟩
      · exact hd.trans hd'.symm
      · cases he
        exact absurd (hold c' hc') (Nat.lt_irrefl _)
    · rcases getElem?_append_some hc' with ⟨_, he⟩ | ⟨_, hc'⟩
      · cases he
        exact absurd (hold c hc) (Nat.lt_irrefl _)
      · exact h.unique c c' e hc hc'
  past e x hx since payload hup := by
    rcases getElem?_append_some hx with ⟨_, rfl⟩ | ⟨_, hx⟩
    · cases hup
    · exact h.past e x hx since payload hup
  answered e x hx bundle hout := by
    rcases getElem?_append_some hx with ⟨_, rfl⟩ | ⟨_, hx⟩
    · cases hout
    · exact h.answered e x hx bundle hout
  stored e x hx at_ hat := by
    rcases getElem?_append_some hx with ⟨_, rfl⟩ | ⟨_, hx⟩
    · cases hat
    · exact h.stored e x hx at_ hat
  kept e x hx at_ bundle hat hout hnow hafter := by
    rcases getElem?_append_some hx with ⟨_, rfl⟩ | ⟨_, hx⟩
    · cases hat
    · obtain ⟨hwithin, hrefresh'⟩ := h.kept e x hx at_ bundle hat hout hnow hafter
      have hkey : x.key refreshHash ≠ refreshHash oldBundle.refreshToken := fun he => by
        rw [← he, hwithin.get?] at hrotated
        cases hrotated
      exact ⟨hwithin, fun e' he' => hrefresh' e' ((Function.update_of_ne hkey _ _).symm.trans he')⟩

theorem Sound.refreshToken (h : Sound refreshHash s) (oldBundle : TokenBundle) :
    Sound refreshHash (refreshToken refreshHash s oldBundle) := by
  rcases refreshToken_cases refreshHash s oldBundle with ⟨cached, _, _, he⟩ | ⟨hrotated, ⟨e, _, he⟩ | ⟨hrefresh, he⟩⟩
  · rw [he]
    exact h.pruneRotated.push (fun _ => nofun)
  · rw [he]
    exact h.pruneRotated.push (fun _ => nofun)
  · rw [he]
    exact h.pruneRotated.begin hrotated hrefresh

theorem Sound.amend (h : Sound refreshHash s) {e : Nat} {x x' : Exchange} (hx : s.exchanges[e]? = some x)
    (hold : x'.oldBundle = x.oldBundle) (hstored : x'.storedAt = none)
    (hpending : x'.pending = none → x.pending = none)
    (hpast : ∀ since payload, x'.upstream = some (since, payload) → since ≤ s.now)
    (hanswered : ∀ bundle, x'.outcome = some (.ok bundle) →
      ∃ since payload now, x'.upstream = some (since, payload) ∧ bundle = tokenBundle payload now) :
    Sound refreshHash { s with exchanges := s.exchanges.set e x' } where
  busy i y hy hp := by
    rcases getElem?_set_some hx hy with ⟨rfl, rfl⟩ | ⟨_, hy⟩
    · rw [Exchange.key, hold]
      exact h.busy i x hx (hpending hp)
    · exact h.busy i y hy hp
  owner c i hc := by
    obtain ⟨y, hy, howner⟩ := h.owner c i hc
    by_cases hi : i = e
    · subst hi
      rw [hx] at hy
      cases hy
      refine ⟨x', List.getElem?_set_self (List.getElem?_eq_some_iff.mp hx).1, ?_⟩
      rw [Exchange.key, hold]
      exact howner
    · exact ⟨y, (List.getElem?_set_ne (Ne.symm hi)).trans hy, howner⟩
  unique := h.unique
  past i y hy since payload hup := by
    rcases getElem?_set_some hx hy with ⟨rfl, rfl⟩ | ⟨_, hy⟩
    · exact hpast since payload hup
    · exact h.past i y hy since payload hup
  answered i y hy bundle hout := by
    rcases getElem?_set_some hx hy with ⟨rfl, rfl⟩ | ⟨_, hy⟩
    · exact hanswered bundle hout
    · exact h.answered i y hy bundle hout
  stored i y hy at_ hat := by
    rcases getElem?_set_some hx hy with ⟨rfl, rfl⟩ | ⟨_, hy⟩
    · rw [hstored] at hat
      cases hat
    · exact h.stored i y hy at_ hat
  kept i y hy at_ bundle hat hout hnow hafter := by
    rcases getElem?_set_some hx hy with ⟨rfl, rfl⟩ | ⟨_, hy⟩
    · rw [hstored] at hat
      cases hat
    · exact h.kept i y hy at_ bundle hat hout hnow hafter

theorem Sound.exchange (h : Sound refreshHash s) {e : Nat} {payload : TokenResponse}
    (ht : step refreshHash s (.exchange e payload) = some t) : Sound refreshHash t := by
  obtain ⟨x, hx, hup, rfl⟩ := step_exchange ht
  have hnotok : ∀ bundle, x.outcome ≠ some (.ok bundle) := fun bundle hout => by
    obtain ⟨since, payload', now, hup', _⟩ := h.answered e x hx bundle hout
    rw [hup] at hup'
    cases hup'
  have hstored : x.storedAt = none := by
    cases hat : x.storedAt with
    | none => rfl
    | some at_ =>
        obtain ⟨⟨bundle, hout⟩, _⟩ := h.stored e x hx at_ hat
        exact absurd hout (hnotok bundle)
  refine h.amend hx rfl hstored id (fun since payload' hup' => ?_) (fun bundle hout => ?_)
  · cases hup'
    exact Nat.le_refl _
  · exact absurd hout (hnotok bundle)

theorem Sound.respond (h : Sound refreshHash s) {e : Nat} {reply : Reply}
    (ht : step refreshHash s (.respond e reply) = some t) : Sound refreshHash t := by
  obtain ⟨x, hx, hnone, hreply, rfl⟩ := step_respond ht
  have hstored : x.storedAt = none := by
    cases hat : x.storedAt with
    | none => rfl
    | some at_ =>
        obtain ⟨⟨bundle, hout⟩, _⟩ := h.stored e x hx at_ hat
        rw [hnone] at hout
        cases hout
  refine h.amend hx rfl hstored (fun _ => Exchange.pending_outcome hnone) (h.past e x hx) (fun bundle hout => ?_)
  obtain ⟨since, payload, hup, hb⟩ := performRefresh_ok hreply (Option.some.inj hout)
  exact ⟨since, payload, s.now, hup, hb⟩

theorem storedAfter_storeResult (s : Gateway κ) (e : Nat) (x : Exchange) (bundle : TokenBundle) (i : Nat) :
    (storeResult refreshHash s e x bundle).storedAfter i = if i = e then 0 else s.storedAfter i + 1 := by
  by_cases hi : i = e
  · simp [storedAfter, storeResult, hi]
  · simp [storedAfter, storeResult, hi, Ne.symm hi]

/-- The result of an exchange goes behind the others. It takes the room of none that is followed by fewer than there is
room for. -/
theorem Sound.store (h : Sound refreshHash s) {e : Nat} (ht : step refreshHash s (.store e) = some t) :
    Sound refreshHash t := by
  obtain ⟨x, bundle, hx, hnone, hout, rfl⟩ := step_store ht
  obtain ⟨hbusy, hfresh⟩ := h.busy e x hx (Exchange.pending_unstored hout hnone)
  have hget : ∀ k, k ≠ x.key refreshHash → s.rotated.get? k = none →
      (storeResult refreshHash s e x bundle).rotated.get? k = none := fun k hk hnone =>
    Table.get?_evict _ ((Table.get?_set _ hk).trans hnone)
  exact {
    busy := fun i y hy hp => by
      rcases getElem?_set_some hx hy with ⟨rfl, rfl⟩ | ⟨hi, hy⟩
      · exact absurd (hp.symm.trans (Exchange.pending_stored hout rfl)) nofun
      · obtain ⟨hbusy', hfresh'⟩ := h.busy i y hy hp
        refine ⟨hbusy', hget _ (fun he => hi ?_) hfresh'⟩
        rw [he, hbusy] at hbusy'
        exact (Option.some.inj hbusy').symm
    owner := fun c i hc => by
      obtain ⟨y, hy, howner⟩ := h.owner c i hc
      by_cases hi : i = e
      · subst hi
        rw [hx] at hy
        cases hy
        exact ⟨_, List.getElem?_set_self (List.getElem?_eq_some_iff.mp hx).1, howner⟩
      · exact ⟨y, (List.getElem?_set_ne (Ne.symm hi)).trans hy, howner⟩
    unique := h.unique
    past := fun i y hy since payload hup => by
      rcases getElem?_set_some hx hy with ⟨rfl, rfl⟩ | ⟨_, hy⟩
      · exact h.past i x hx since payload hup
      · exact h.past i y hy since payload hup
    answered := fun i y hy bundle' hout' => by
      rcases getElem?_set_some hx hy with ⟨rfl, rfl⟩ | ⟨_, hy⟩
      · exact h.answered i x hx bundle' hout'
      · exact h.answered i y hy bundle' hout'
    stored := fun i y hy at_ hat => by
      rcases getElem?_set_some hx hy with ⟨rfl, rfl⟩ | ⟨_, hy⟩
      · cases hat
        exact ⟨⟨bundle, hout⟩, h.past i x hx⟩
      · exact h.stored i y hy at_ hat
    kept := fun i y hy at_ bundle' hat hout' hnow hafter => by
      rw [storedAfter_storeResult] at hafter ⊢
      rcases getElem?_set_some hx hy with ⟨rfl, rfl⟩ | ⟨hi, hy⟩
      · cases hat
        rw [show bundle' = bundle by simpa [hout] using hout'.symm, if_pos rfl]
        exact ⟨(Table.within_set_fresh hfresh).evict (by decide), fun e' he' => Option.some.inj (he'.symm.trans hbusy)⟩
      · rw [if_neg hi] at hafter ⊢
        obtain ⟨hwithin, hrefresh⟩ := h.kept i y hy at_ bundle' hat hout' hnow (Nat.lt_of_succ_lt hafter)
        have hkey : y.key refreshHash ≠ x.key refreshHash := fun he => hi (hrefresh e (he ▸ hbusy)).symm
        exact ⟨(hwithin.set hkey _).evict hafter, hrefresh⟩ }

theorem Sound.resume (h : Sound refreshHash s) {c : Nat} (ht : step refreshHash s (.resume c) = some t) :
    Sound refreshHash t := by
  obtain ⟨e, x, result, hc, hx, hresult, rfl⟩ := step_resume ht
  obtain ⟨x', hx', howner⟩ := h.owner c e hc
  rw [hx] at hx'
  cases hx'
  have hwaits : ∀ d i : Nat, (s.calls.set c (.ended result))[d]? = some (.awaits i) →
      d ≠ c ∧ s.calls[d]? = some (.awaits i) := fun d i hd => by
    rcases getElem?_set_some hc hd with ⟨_, he⟩ | hd
    · cases he
    · exact hd
  exact {
    busy := fun i y hy hp => by
      obtain ⟨hbusy, hfresh⟩ := h.busy i y hy hp
      refine ⟨(Function.update_of_ne (fun he => ?_) _ _).trans hbusy, hfresh⟩
      have hie : i = e := Option.some.inj (hbusy.symm.trans ((congrArg s.refreshes he).trans howner))
      subst hie
      rw [hx] at hy
      cases hy
      rw [hp] at hresult
      cases hresult
    owner := fun d i hd => by
      obtain ⟨hne, hd⟩ := hwaits d i hd
      obtain ⟨y, hy, howner'⟩ := h.owner d i hd
      refine ⟨y, hy, (Function.update_of_ne (fun he => ?_) _ _).trans howner'⟩
      have hie : i = e := Option.some.inj (howner'.symm.trans ((congrArg s.refreshes he).trans howner))
      subst hie
      exact hne (h.unique d c i hd hc)
    unique := fun d d' i hd hd' => h.unique d d' i (hwaits d i hd).2 (hwaits d' i hd').2
    past := h.past
    answered := h.answered
    stored := h.stored
    kept := fun i y hy at_ bundle hat hout hnow hafter => by
      obtain ⟨hwithin, hrefresh⟩ := h.kept i y hy at_ bundle hat hout hnow hafter
      refine ⟨hwithin, fun e' he' => ?_⟩
      by_cases hkey : y.key refreshHash = x.key refreshHash
      · have hnone : Function.update s.refreshes (x.key refreshHash) none (y.key refreshHash) = some e' := he'
        rw [hkey, Function.update_self] at hnone
        cases hnone
      · exact hrefresh e' ((Function.update_of_ne hkey _ _).symm.trans he') }

theorem sound_step (a : GatewayAction) (h : Sound refreshHash s) (ht : step refreshHash s a = some t) :
    Sound refreshHash t := by
  cases a with
  | tick ms =>
      cases ht
      exact h.tick ms
  | refreshToken oldBundle =>
      cases ht
      exact h.refreshToken oldBundle
  | exchange e payload => exact h.exchange ht
  | respond e reply => exact h.respond ht
  | store e => exact h.store ht
  | resume c => exact h.resume ht

theorem sound_run (hrun : GatewayRun refreshHash s t) (h : Sound refreshHash s) : Sound refreshHash t :=
  hrun.invariant (fun _ a _ hs _ ht => sound_step a hs ht) h

/-! ## What stays as it is -/

/-- A call that waits for nothing of its own stays so. What the backend has exchanged and what a promise has settled with
do not change. -/
structure Later (s t : Gateway κ) : Prop where
  calls : ∀ (c : Nat) status, s.calls[c]? = some status → (∀ e, status ≠ .awaits e) → t.calls[c]? = some status
  exchanges : ∀ (e : Nat) (x : Exchange), s.exchanges[e]? = some x →
    ∃ y, t.exchanges[e]? = some y ∧ (∀ r, x.pending = some r → y.pending = some r) ∧
      ∀ u, x.upstream = some u → y.upstream = some u

omit [DecidableEq κ] in
theorem Later.refl (s : Gateway κ) : Later s s :=
  ⟨fun _ _ hc _ => hc, fun _ x hx => ⟨x, hx, fun _ hr => hr, fun _ hu => hu⟩⟩

omit [DecidableEq κ] in
theorem Later.trans {u : Gateway κ} (h : Later s t) (h' : Later t u) : Later s u where
  calls c status hc hstatus := h'.calls c status (h.calls c status hc hstatus) hstatus
  exchanges e x hx := by
    obtain ⟨y, hy, hpending, hup⟩ := h.exchanges e x hx
    obtain ⟨z, hz, hpending', hup'⟩ := h'.exchanges e y hy
    exact ⟨z, hz, fun r hr => hpending' r (hpending r hr), fun u hu => hup' u (hup u hu)⟩

omit [DecidableEq κ] in
theorem later_set {e : Nat} {x x' : Exchange} (hx : s.exchanges[e]? = some x)
    (hcalls : t.calls = s.calls) (hexchanges : t.exchanges = s.exchanges.set e x')
    (hpending : ∀ r, x.pending = some r → x'.pending = some r)
    (hup : ∀ u, x.upstream = some u → x'.upstream = some u) : Later s t where
  calls c status hc _ := by rw [hcalls, hc]
  exchanges i y hy := by
    rw [hexchanges]
    by_cases hi : i = e
    · subst hi
      rw [hx] at hy
      cases hy
      exact ⟨x', List.getElem?_set_self (List.getElem?_eq_some_iff.mp hx).1, hpending, hup⟩
    · exact ⟨y, (List.getElem?_set_ne (Ne.symm hi)).trans hy, fun _ hr => hr, fun _ hu => hu⟩

omit [DecidableEq κ] in
theorem later_append {cs : List CallStatus} {xs : List Exchange} (hcalls : t.calls = s.calls ++ cs)
    (hexchanges : t.exchanges = s.exchanges ++ xs) : Later s t where
  calls c status hc _ := by
    rw [hcalls, List.getElem?_append_left (List.getElem?_eq_some_iff.mp hc).1, hc]
  exchanges e x hx := by
    refine ⟨x, ?_, fun _ hr => hr, fun _ hu => hu⟩
    rw [hexchanges, List.getElem?_append_left (List.getElem?_eq_some_iff.mp hx).1, hx]

theorem later_step (a : GatewayAction) (ht : step refreshHash s a = some t) : Later s t := by
  cases a with
  | tick ms =>
      cases ht
      exact ⟨fun _ _ hc _ => hc, (Later.refl s).exchanges⟩
  | refreshToken oldBundle =>
      cases ht
      rcases refreshToken_cases refreshHash s oldBundle with ⟨_, _, _, he⟩ | ⟨_, ⟨_, _, he⟩ | ⟨_, he⟩⟩
      · rw [he]
        exact later_append rfl (List.append_nil _).symm
      · rw [he]
        exact later_append rfl (List.append_nil _).symm
      · rw [he]
        exact later_append rfl rfl
  | exchange e payload =>
      obtain ⟨x, hx, hup, rfl⟩ := step_exchange ht
      refine later_set hx rfl rfl (fun _ hr => hr) (fun u hu => ?_)
      rw [hup] at hu
      cases hu
  | respond e reply =>
      obtain ⟨x, hx, hnone, _, rfl⟩ := step_respond ht
      refine later_set hx rfl rfl (fun r hr => ?_) (fun _ hu => hu)
      rw [Exchange.pending_outcome hnone] at hr
      cases hr
  | store e =>
      obtain ⟨x, bundle, hx, hnone, hout, rfl⟩ := step_store ht
      refine later_set hx rfl rfl (fun r hr => ?_) (fun _ hu => hu)
      rw [Exchange.pending_unstored hout hnone] at hr
      cases hr
  | resume c =>
      obtain ⟨e, x, result, hc, _, _, rfl⟩ := step_resume ht
      refine ⟨fun d status hd hstatus => ?_, (Later.refl s).exchanges⟩
      by_cases hdc : d = c
      · subst hdc
        rw [hc] at hd
        exact absurd (Option.some.inj hd).symm (hstatus e)
      · exact (List.getElem?_set_ne (Ne.symm hdc)).trans hd

theorem later_run (hrun : GatewayRun refreshHash s t) : Later s t :=
  hrun.relation (p := fun _ => True) Later.refl (fun _ _ _ => Later.trans) (fun _ _ _ _ _ _ => trivial)
    (fun _ a _ _ _ ht => later_step a ht) trivial

/-! ## Calls of an exchanged token -/

variable {e : Nat} {x : Exchange} {oldBundle : TokenBundle}

theorem refreshToken_pending (h : Sound refreshHash s) (hx : s.exchanges[e]? = some x) (hp : x.pending = none)
    (hold : oldBundle.refreshToken = x.oldBundle.refreshToken) :
    refreshToken refreshHash s oldBundle = { s.pruneRotated with calls := s.calls ++ [.shares e] } := by
  obtain ⟨hbusy, hfresh⟩ := h.busy e x hx hp
  rw [Exchange.key, ← hold] at hbusy hfresh
  rcases refreshToken_cases refreshHash s oldBundle with ⟨cached, hcached, _, _⟩ | ⟨_, ⟨e', he', he⟩ | ⟨hnone, _⟩⟩
  · rw [hfresh] at hcached
    cases hcached
  · rw [hbusy] at he'
    cases he'
    exact he
  · rw [hbusy] at hnone
    cases hnone

theorem refreshToken_kept (h : Sound refreshHash s) (hx : s.exchanges[e]? = some x) {at_ : Nat} {bundle : TokenBundle}
    (hat : x.storedAt = some at_) (hout : x.outcome = some (.ok bundle)) (hnow : s.now < at_ + refreshCacheMs)
    (hafter : s.storedAfter e < maxRotatedResults) (hold : oldBundle.refreshToken = x.oldBundle.refreshToken) :
    refreshToken refreshHash s oldBundle = { s.pruneRotated with calls := s.calls ++ [.ended (.ok bundle)] } := by
  have hget := (h.kept e x hx at_ bundle hat hout hnow hafter).1.get?
  rw [Exchange.key, ← hold] at hget
  rcases refreshToken_cases refreshHash s oldBundle with ⟨cached, hcached, _, he⟩ | ⟨hnone, _⟩
  · rw [hget] at hcached
    cases hcached
    exact he
  · rw [get?_pruneRotated, hget, Option.filter_some, if_pos (decide_eq_true hnow)] at hnone
    cases hnone

theorem sendsNothing_pending (h : Sound refreshHash s) (hx : s.exchanges[e]? = some x) (hp : x.pending = none) :
    SendsNothing refreshHash s x := fun oldBundle hold => by
  rw [refreshToken_pending h hx hp hold]
  rfl

theorem endsAs_pending (h : Sound refreshHash s) (hx : s.exchanges[e]? = some x) (hp : x.pending = none) :
    EndsAs refreshHash s e x := fun oldBundle hold t hrun => by
  rw [refreshToken_pending h hx hp hold] at hrun
  have hcall := (later_run hrun).calls s.calls.length (.shares e) List.getElem?_concat_length (fun _ => nofun)
  rw [result, hcall]

theorem sendsNothing_kept (h : Sound refreshHash s) (hx : s.exchanges[e]? = some x) {at_ : Nat} {bundle : TokenBundle}
    (hat : x.storedAt = some at_) (hout : x.outcome = some (.ok bundle)) (hnow : s.now < at_ + refreshCacheMs)
    (hafter : s.storedAfter e < maxRotatedResults) : SendsNothing refreshHash s x := fun oldBundle hold => by
  rw [refreshToken_kept h hx hat hout hnow hafter hold]
  rfl

theorem endsAs_kept (h : Sound refreshHash s) (hx : s.exchanges[e]? = some x) {at_ : Nat} {bundle : TokenBundle}
    (hat : x.storedAt = some at_) (hout : x.outcome = some (.ok bundle)) (hnow : s.now < at_ + refreshCacheMs)
    (hafter : s.storedAfter e < maxRotatedResults) : EndsAs refreshHash s e x := fun oldBundle hold t hrun => by
  rw [refreshToken_kept h hx hat hout hnow hafter hold] at hrun
  have hlater := later_run hrun
  have hcall := hlater.calls s.calls.length (.ended (.ok bundle)) List.getElem?_concat_length (fun _ => nofun)
  obtain ⟨y, hy, hpending, _⟩ := hlater.exchanges e x hx
  rw [result, hcall, hy, Option.bind_some, hpending _ (Exchange.pending_stored hout hat)]

theorem endsWith_upstream (h : Sound refreshHash s) (hx : s.exchanges[e]? = some x) {since : Nat} {payload : TokenResponse}
    (hup : x.upstream = some (since, payload)) :
    EndsWith refreshHash s e fun r => ∀ bundle, r = .ok bundle → ∃ now, bundle = tokenBundle payload now := by
  intro t hrun r hr bundle hb
  subst hb
  obtain ⟨y, hy, _, hup'⟩ := (later_run hrun).exchanges e x hx
  rw [hy, Option.bind_some] at hr
  obtain ⟨since', payload', now, hup'', he⟩ := (sound_run hrun h).answered e y hy bundle (Exchange.pending_ok hr).1
  rw [hup' _ hup] at hup''
  cases hup''
  exact ⟨now, he⟩

end Gateway

end Etoeragcb.Frontend
