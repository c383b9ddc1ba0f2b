import Etoeragcb.Sessions.Lemmas.Listing

/-!
# What a listing shows

The cursors of a listing lead through its rows, whatever the limits of the pages are.
-/

namespace Etoeragcb.Sessions

open Lib Models Etoeragcb.Core Documents

/-- The pages show every one of the owned rows once, in an order of all of them, and end. -/
structure Enumerates {ρ β : Type} (fetch : Option Text → ℕ → Except ListingError (Page β Text)) (response : ρ → β)
    (owned : List ρ) (before : ρ → ρ → Prop) (rows : List ρ) : Prop where
  perm : rows.Perm owned
  ordered : rows.Pairwise before
  followed : ∀ limits : ℕ → ℕ, (∀ i, 1 ≤ limits i ∧ limits i ≤ 100) → ∀ fuel, 1 ≤ fuel → owned.length ≤ fuel →
    follow fetch limits fuel none = some (.ok (rows.map response))

/-- Newest first, ties by id. -/
def SessionBefore (s t : ChatSession) : Prop :=
  t.updatedAt.micros < s.updatedAt.micros ∨ (t.updatedAt.micros = s.updatedAt.micros ∧ t.id.value < s.id.value)

/-- Oldest first, ties by id. -/
def MessageBefore (m n : ListedMessage) : Prop :=
  m.createdAt.micros < n.createdAt.micros ∨ (m.createdAt.micros = n.createdAt.micros ∧ m.id.value < n.id.value)

/-- The codec reads what it has written, for the listing that it was written for. -/
structure ReadsOwn (h : Hmac) (codec : CursorCodec) : Prop where
  own : ∀ kind occurredAt resourceId token, codec.encode h kind occurredAt resourceId = .ok token →
    ∃ position, codec.decode h token kind = .ok position ∧ (position.occurredAt.micros : ℤ) = occurredAt.instant ∧
      position.resourceId = resourceId
  other : ∀ kind expectedKind occurredAt resourceId token, codec.encode h kind occurredAt resourceId = .ok token →
    kind ≠ expectedKind → codec.decode h token expectedKind = .error .invalidCursor

variable {h : Hmac} {codec : CursorCodec} {driver : Driver} {store : Store} {principal : Principal} {sessionId : UUID}

theorem readsOwn (h : Hmac) (codec : CursorCodec) : ReadsOwn h codec := by
  constructor
  · intro kind occurredAt resourceId token htoken
    obtain ⟨utc, hutc, rfl⟩ := encode_eq_ok.mp htoken
    refine ⟨⟨utc, resourceId⟩, ?_, Aware.micros_astimezoneUtc hutc, rfl⟩
    rw [decode_cursorToken, if_pos rfl]
  · intro kind expectedKind occurredAt resourceId token htoken hne
    obtain ⟨utc, hutc, rfl⟩ := encode_eq_ok.mp htoken
    rw [decode_cursorToken, if_neg hne]

/-- Keys that tell the rows apart put them in an order of all of them. -/
theorem sortBy_ordered {ρ κ : Type} [LinearOrder κ] {key : ρ → κ} {owned : List ρ} (hnodup : owned.Nodup)
    (hinj : ∀ x ∈ owned, ∀ y ∈ owned, key x = key y → x = y) : (sortBy key owned).Pairwise fun x y => key x < key y := by
  have hdistinct : (sortBy key owned).Nodup := (sortBy_perm key owned).nodup_iff.mpr hnodup
  refine ((sortBy_pairwise key owned).and hdistinct).imp_of_mem fun {x y} hx hy hxy => ?_
  exact lt_of_le_of_ne hxy.1 fun he => hxy.2 (hinj x (mem_sortBy.mp hx) y (mem_sortBy.mp hy) he)

theorem listSessions_enumerates : Enumerates (listSessions h codec driver store principal) (sessionResponse driver)
    (ownedSessions store principal) SessionBefore (sortBy sessionKey (ownedSessions store principal)) := by
  refine ⟨sortBy_perm _ _, ?_, fun limits hlimits fuel hpos hfuel => ?_⟩
  · exact (sortBy_ordered (ownedSessions_nodup store principal).of_map sessionKey_inj).imp sessionKey_lt.mp
  · exact listSessions_serves.follow_eq (fun i => (hlimits i).1) rfl hpos (by rwa [length_sortBy])

theorem listMessages_enumerates {session : ChatSession} (howned : loadOwnedSession store principal sessionId = .ok session) :
    Enumerates (listMessages h codec driver store principal sessionId) (messageResponse driver)
      (ownedMessages store principal sessionId) MessageBefore (sortBy messageKey (ownedMessages store principal sessionId)) := by
  refine ⟨sortBy_perm _ _, ?_, fun limits hlimits fuel hpos hfuel => ?_⟩
  · refine (sortBy_ordered (ownedMessages_nodup store principal sessionId).of_map messageKey_inj).imp fun {m n} hlt => ?_
    exact (messageKey_lt.mp hlt).imp_right (And.imp_left Eq.symm)
  · exact (listMessages_serves howned).follow_eq (fun i => (hlimits i).1) rfl hpos (by rwa [length_sortBy])

/-- Both listings can be read to their end, and neither takes a cursor of the other one. -/
theorem listings_complete (h : Hmac) (codec : CursorCodec) (driver : Driver) (store : Store) (principal : Principal) :
    (∃ rows, Enumerates (listSessions h codec driver store principal) (sessionResponse driver)
      (ownedSessions store principal) SessionBefore rows) ∧
    (∀ sessionId session, loadOwnedSession store principal sessionId = .ok session →
      ∃ rows, Enumerates (listMessages h codec driver store principal sessionId) (messageResponse driver)
        (ownedMessages store principal sessionId) MessageBefore rows) ∧
    ReadsOwn h codec ∧
    ∀ occurredAt resourceId token limit,
      (codec.encode h "messages".toList occurredAt resourceId = .ok token →
        listSessions h codec driver store principal (some token) limit =
          .error (.httpException 422 "Invalid cursor".toList)) ∧
      (codec.encode h "sessions".toList occurredAt resourceId = .ok token →
        ∀ sessionId session, loadOwnedSession store principal sessionId = .ok session →
          listMessages h codec driver store principal sessionId (some token) limit =
            .error (.httpException 422 "Invalid cursor".toList)) := by
  refine ⟨⟨_, listSessions_enumerates⟩, fun sessionId session howned => ⟨_, listMessages_enumerates howned⟩,
    readsOwn h codec,
    fun occurredAt resourceId token limit => ⟨fun htoken => ?_, fun htoken sessionId session howned => ?_⟩⟩
  · obtain ⟨utc, -, rfl⟩ := encode_eq_ok.mp htoken
    rw [listSessions]
    simp only [decodeCursor_cursorToken, if_neg (show "messages".toList ≠ "sessions".toList by decide), bind, Except.bind]
  · obtain ⟨utc, -, rfl⟩ := encode_eq_ok.mp htoken
    rw [listMessages, howned]
    simp only [decodeCursor_cursorToken, if_neg (show "sessions".toList ≠ "messages".toList by decide), bind, Except.bind]

/-! ## A sample -/

def sampleTime : Civil where
  date := ⟨2026, 1, 2, by decide, by decide, by decide⟩
  hour := 3
  minute := 4
  second := 5
  microsecond := 6
  hour_lt := by decide
  minute_lt := by decide
  second_lt := by decide
  microsecond_lt := by decide

def sampleId (n : ℕ) (h : n < 10) : UUID := ⟨n, h.trans (by decide)⟩

def sampleStore : Store where
  sessions := [⟨sampleId 1 (by decide), 1, 1, "heat".toList, sampleTime, sampleTime, none⟩,
    ⟨sampleId 2 (by decide), 1, 1, "pump".toList, sampleTime, sampleTime, none⟩]
  messages := [⟨sampleId 3 (by decide), 1, sampleId 1 (by decide), 1, "user".toList, "heat".toList, [], none, sampleTime⟩]
  sessions_nodup := by decide
  messages_nodup := by decide

def samplePrincipal : Principal := ⟨1, 1⟩

def sampleCodec : CursorCodec := ⟨utf8 "cursor-secret".toList⟩

def sampleCode : List UInt8 :=
  [50, 76, 193, 205, 53, 84, 117, 230, 188, 106, 193, 39, 222, 107, 30, 181,
    13, 201, 180, 85, 182, 43, 243, 113, 70, 150, 179, 23, 65, 143, 190, 218]

def sampleHmac : Hmac where
  digest _ message :=
    if message = cursorBody "sessions".toList ⟨sampleTime, sampleId 2 (by decide)⟩ then sampleCode else List.replicate 32 0
  length_digest _ _ := by split <;> rfl

theorem listings_complete_sample :
    (∃ rows, Enumerates (listSessions sampleHmac sampleCodec .naive sampleStore samplePrincipal) (sessionResponse .naive)
      (ownedSessions sampleStore samplePrincipal) SessionBefore rows) ∧
    (∃ rows, Enumerates (listMessages sampleHmac sampleCodec .naive sampleStore samplePrincipal (sampleId 1 (by decide)))
      (messageResponse .naive) (ownedMessages sampleStore samplePrincipal (sampleId 1 (by decide))) MessageBefore rows) :=
  ⟨(listings_complete sampleHmac sampleCodec .naive sampleStore samplePrincipal).1,
    (listings_complete sampleHmac sampleCodec .naive sampleStore samplePrincipal).2.1 (sampleId 1 (by decide))
      ⟨sampleId 1 (by decide), 1, 1, "heat".toList, sampleTime, sampleTime, none⟩ (by decide)⟩

example : (follow (listSessions sampleHmac sampleCodec .naive sampleStore samplePrincipal) (fun _ => 1) 2 none).map
    (fun r => r.toOption.map fun items => items.map (·.id.value)) = some (some [2, 1]) := by decide +kernel

end Etoeragcb.Sessions
