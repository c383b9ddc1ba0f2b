import Etoeragcb.Core.Lemmas.Pagination
import Etoeragcb.Sessions.Listing

/-!
# Following the cursors of a listing
-/

namespace Etoeragcb.Sessions

open Lib Models Etoeragcb.Core Documents

variable {h : Hmac} {codec : CursorCodec} {driver : Driver} {store : Store} {principal : Principal} {sessionId : UUID}

/-- A cursor stands before `rest` if it was issued for the item before that, and no cursor before everything. -/
def Stands {ρ : Type} (h : Hmac) (codec : CursorCodec) (kind : Text) (position : ρ → CursorPosition) (sorted : List ρ) :
    Option Text → List ρ → Prop
  | none, rest => sorted = rest
  | some cursor, rest => ∃ done last, sorted = done ++ last :: rest ∧ cursor = cursorToken h codec kind (position last)

theorem Stands.suffix {ρ : Type} {kind : Text} {position : ρ → CursorPosition} {sorted rest : List ρ} {cursor : Option Text}
    (hs : Stands h codec kind position sorted cursor rest) : ∃ done, sorted = done ++ rest := by
  cases cursor with
  | none => exact ⟨[], hs⟩
  | some cursor =>
      obtain ⟨done, last, hsorted, -⟩ := hs
      exact ⟨done ++ [last], by rw [hsorted, List.append_assoc]; rfl⟩

/-- A page of what a cursor stands before, and the cursor that it has. -/
theorem pageOf_serves {ρ β : Type} {kind : Text} {position : ρ → CursorPosition} {sorted rest : List ρ}
    {cursor : Option Text}
    {encode : ρ → Except CursorError Text} (hs : Stands h codec kind position sorted cursor rest)
    (hencode : ∀ x, encode x = .ok (cursorToken h codec kind (position x))) {limit : Nat} (hlimit : 1 ≤ limit) (response : ρ → β) :
    ∃ next, pageOf (rest.take (limit + 1)) limit response encode = .ok ⟨(rest.take limit).map response, next⟩ ∧
      ((rest.length ≤ limit ∧ next = none) ∨
        (limit < rest.length ∧ ∃ c, next = some c ∧ Stands h codec kind position sorted (some c) (rest.drop limit))) := by
  have htake : (rest.take (limit + 1)).take limit = rest.take limit :=
    by rw [List.take_take, Nat.min_eq_left (Nat.le_succ _)]
  rw [pageOf, htake]
  by_cases hlt : limit < rest.length
  · have hmore : limit < (rest.take (limit + 1)).length := by rw [List.length_take]; omega
    have hne : rest.take limit ≠ [] := fun hnil => by
      have hlength := congrArg List.length hnil
      rw [List.length_take, List.length_nil] at hlength
      omega
    obtain ⟨done, hsorted⟩ := hs.suffix
    have hfront := List.dropLast_append_getLast hne
    rw [if_pos hmore, List.getLast?_eq_some_getLast hne]
    dsimp only
    rw [hencode]
    refine ⟨_, rfl, Or.inr ⟨hlt, _, rfl, done ++ (rest.take limit).dropLast, (rest.take limit).getLast hne, ?_, rfl⟩⟩
    rw [hsorted, List.append_assoc, ← List.singleton_append, ← List.append_assoc _ _ (rest.drop limit), hfront,
      List.take_append_drop]
  · have hall : ¬limit < (rest.take (limit + 1)).length := by rw [List.length_take]; omega
    rw [if_neg hall]
    exact ⟨none, rfl, Or.inl ⟨Nat.not_lt.mp hlt, rfl⟩⟩

theorem encode_asUtc (driver : Driver) (kind : Text) (timestamp : Civil) (id : UUID) :
    codec.encode h kind (asUtc (driver.load timestamp)) id = .ok (cursorToken h codec kind ⟨timestamp, id⟩) := by
  have hutc : asUtc (driver.load timestamp) = ⟨timestamp, .utc⟩ := by cases driver <;> rfl
  rw [hutc, encode_eq_ok]
  exact ⟨timestamp, Aware.astimezoneUtc_utc timestamp, rfl⟩

theorem decodeCursor_cursorToken (kind expectedKind : Text) (position : CursorPosition) :
    decodeCursor h codec (cursorToken h codec kind position) expectedKind =
      if kind = expectedKind then .ok position else .error (.httpException 422 "Invalid cursor".toList) := by
  rw [decodeCursor, decode_cursorToken]
  by_cases hkind : kind = expectedKind
  · rw [if_pos hkind, if_pos hkind]
  · rw [if_neg hkind, if_neg hkind]

theorem id_inj {u v : UUID} (he : u.value = v.value) : u = v := by
  obtain ⟨_, _⟩ := u
  obtain ⟨_, _⟩ := v
  cases he
  rfl

/-! ## Sessions -/

def sessionPosition (s : ChatSession) : CursorPosition := ⟨s.updatedAt, s.id⟩

theorem sessionKey_lt {s t : ChatSession} : sessionKey s < sessionKey t ↔
    t.updatedAt.micros < s.updatedAt.micros ∨ (t.updatedAt.micros = s.updatedAt.micros ∧ t.id.value < s.id.value) := by
  rw [sessionKey, sessionKey, OrderDual.toDual_lt_toDual, Prod.Lex.toLex_lt_toLex]

theorem ownedSessions_nodup (store : Store) (principal : Principal) : ((ownedSessions store principal).map (·.id)).Nodup :=
  store.sessions_nodup.sublist (List.filter_sublist.map _)

theorem sessionKey_inj : ∀ s ∈ ownedSessions store principal, ∀ t ∈ ownedSessions store principal,
    sessionKey s = sessionKey t → s = t := by
  intro s hs t ht he
  have hid := (Prod.mk.inj (toLex.injective (OrderDual.toDual.injective he))).2
  exact List.inj_on_of_nodup_map (ownedSessions_nodup store principal) hs ht (id_inj hid)

theorem listSessions_serves : Serves (listSessions h codec driver store principal) (sessionResponse driver)
    (Stands h codec "sessions".toList sessionPosition (sortBy sessionKey (ownedSessions store principal))) := by
  intro cursor rest limit hs hlimit
  have hserve := pageOf_serves hs (fun s => encode_asUtc driver "sessions".toList s.updatedAt s.id) hlimit
    (sessionResponse driver)
  have hrows : listSessions h codec driver store principal cursor limit = pageOf (rest.take (limit + 1)) limit
      (sessionResponse driver) fun item => codec.encode h "sessions".toList (asUtc (driver.load item.updatedAt)) item.id := by
    cases cursor with
    | none =>
        have hsorted : sortBy sessionKey (ownedSessions store principal) = rest := hs
        rw [listSessions]
        simp only [pure, Except.pure, bind, Except.bind, hsorted]
    | some cursor =>
        obtain ⟨done, last, hsorted, rfl⟩ := hs
        have hbehind := sortBy_filter_behind sessionKey_inj (ownedSessions_nodup store principal).of_map hsorted
        simp only [sessionKey_lt] at hbehind
        rw [listSessions]
        simp only [decodeCursor_cursorToken, if_true, pure, Except.pure, bind, Except.bind, sessionPosition, hbehind]
  rw [hrows]
  exact hserve

/-! ## Messages -/

def messagePosition (m : ListedMessage) : CursorPosition := ⟨m.createdAt, m.id⟩

theorem messageKey_lt {m n : ListedMessage} : messageKey m < messageKey n ↔
    m.createdAt.micros < n.createdAt.micros ∨ (n.createdAt.micros = m.createdAt.micros ∧ m.id.value < n.id.value) := by
  rw [messageKey, messageKey, Prod.Lex.toLex_lt_toLex, eq_comm (a := m.createdAt.micros)]

theorem ownedMessages_nodup (store : Store) (principal : Principal) (sessionId : UUID) :
    ((ownedMessages store principal sessionId).map (·.id)).Nodup :=
  store.messages_nodup.sublist (List.filter_sublist.map _)

theorem messageKey_inj : ∀ m ∈ ownedMessages store principal sessionId, ∀ n ∈ ownedMessages store principal sessionId,
    messageKey m = messageKey n → m = n := by
  intro m hm n hn he
  have hid := (Prod.mk.inj (toLex.injective he)).2
  exact List.inj_on_of_nodup_map (ownedMessages_nodup store principal sessionId) hm hn (id_inj hid)

theorem listMessages_serves {session : ChatSession} (howned : loadOwnedSession store principal sessionId = .ok session) :
    Serves (listMessages h codec driver store principal sessionId) (messageResponse driver)
      (Stands h codec "messages".toList messagePosition (sortBy messageKey (ownedMessages store principal sessionId))) := by
  intro cursor rest limit hs hlimit
  have hserve := pageOf_serves hs (fun m => encode_asUtc driver "messages".toList m.createdAt m.id) hlimit
    (messageResponse driver)
  have hrows : listMessages h codec driver store principal sessionId cursor limit = pageOf (rest.take (limit + 1)) limit
      (messageResponse driver) fun item => codec.encode h "messages".toList (asUtc (driver.load item.createdAt)) item.id := by
    cases cursor with
    | none =>
        have hsorted : sortBy messageKey (ownedMessages store principal sessionId) = rest := hs
        rw [listMessages, howned]
        simp only [pure, Except.pure, bind, Except.bind, hsorted]
    | some cursor =>
        obtain ⟨done, last, hsorted, rfl⟩ := hs
        have hbehind := sortBy_filter_behind messageKey_inj (ownedMessages_nodup store principal sessionId).of_map hsorted
        simp only [messageKey_lt] at hbehind
        rw [listMessages, howned]
        simp only [decodeCursor_cursorToken, if_true, pure, Except.pure, bind, Except.bind, messagePosition, hbehind]
  rw [hrows]
  exact hserve

end Etoeragcb.Sessions
