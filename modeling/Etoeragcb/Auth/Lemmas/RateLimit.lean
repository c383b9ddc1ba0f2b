import Etoeragcb.Auth.RateLimit
import Etoeragcb.Lib.Lemmas.Json
import Etoeragcb.Lib.Split
import Mathlib.Data.List.Nodup
import Mathlib.Data.List.ProdSigma

/-!
# Every limit of every member has a counter of its own
-/

namespace Etoeragcb.Auth

open Lib

variable {scope : Text} {raws : List Text} {limits : List Limit} {calls : List RateCheck} {call : RateCheck} {redis : Redis}

/-! ## The limits -/

def Reads (raws : List Text) (limits : List Limit) : Prop := List.Forall₂ (fun raw limit => parseLimit raw = some limit) raws limits

theorem ofDecimal_pos {s : Text} (h : isPositive s = true) : 0 < ofDecimal s := by
  cases s with
  | nil => cases h
  | cons c s =>
      simp only [isPositive, Bool.and_eq_true, decide_eq_true_eq] at h
      have hc : '1'.toNat ≤ c.toNat := h.1.1
      have hzero : '0'.toNat < '1'.toNat := by decide
      rw [ofDecimal, Nat.ofDigitChars_cons, Nat.ofDigitChars_eq_ofDigitChars_zero]
      have hpos : 0 < 10 ^ s.length * (10 * 0 + (c.toNat - '0'.toNat)) := Nat.mul_pos (by positivity) (by omega)
      omega

theorem window_pos {raw : Text} {limit : Limit} (hvalid : isRateLimit raw = true) (h : parseLimit raw = some limit) :
    0 < limit.window := by
  simp only [isRateLimit, Bool.and_eq_true] at hvalid
  have hpos := ofDecimal_pos hvalid.2
  simp only [parseLimit, int, Option.bind_eq_bind, Option.ite_none_right_eq_some, Option.bind_eq_some_iff, Option.pure_def,
    Option.some.injEq] at h
  obtain ⟨-, _, -, window, ⟨-, rfl⟩, rfl⟩ := h
  exact hpos

theorem limits_pos (hvalid : validateRateLimits raws = .ok raws) (hread : Reads raws limits) :
    ∀ limit ∈ limits, 0 < limit.window := by
  have hall : ∀ raw ∈ raws, isRateLimit raw = true := by
    intro raw hraw
    by_contra hbad
    rw [validateRateLimits, if_pos (Or.inr ⟨raw, hraw, by simpa using hbad⟩)] at hvalid
    cases hvalid
  clear hvalid
  induction hread with
  | nil => intro limit h; cases h
  | cons h _ ih =>
      intro limit hlimit
      rcases List.mem_cons.mp hlimit with rfl | hlimit
      · exact window_pos (hall _ List.mem_cons_self) h
      · exact ih (fun raw hraw => hall raw (List.mem_cons_of_mem _ hraw)) limit hlimit

/-! ## The keys -/

/-- No two members of the calls have the same text. -/
def DistinctSubjects (calls : List RateCheck) : Prop :=
  ∀ call ∈ calls, ∀ call' ∈ calls, ∀ member ∈ call.identifiers, ∀ member' ∈ call'.identifiers,
    subject member = subject member' → member = member'

theorem bucket_inj {member member' : Text × Text} {window window' : Nat}
    (h : bucket scope member window = bucket scope member' window') : subject member = subject member' ∧
      window = window' := by
  rw [bucket, bucket, List.append_right_inj, List.cons_inj_right] at h
  obtain ⟨hsubject, hdecimal⟩ := append_cons_inj_right (colon_notMem_decimal window) (colon_notMem_decimal window') h
  exact ⟨hsubject, by rw [← ofDecimal_decimal window, hdecimal, ofDecimal_decimal]⟩

theorem distinctSubjects_of_labels (h : ∀ call ∈ calls, ∀ member ∈ call.identifiers, ':' ∉ member.1) :
    DistinctSubjects calls := by
  intro call hcall call' hcall' member hmember member' hmember' heq
  obtain ⟨hlabel, hidentifier⟩ := append_cons_inj_left (h call hcall member hmember) (h call' hcall' member' hmember') heq
  exact Prod.ext hlabel hidentifier

/-! ## The scripts of a call -/

/-- The pairs that a call runs the script for, in their order. -/
def visits (limits : List Limit) (call : RateCheck) : List ((Text × Text) × Limit) := call.identifiers ×ˢ limits

def hitOf (scope : Text) (call : RateCheck) (x : (Text × Text) × Limit) : Hit Text :=
  ⟨bucket scope x.1 x.2.window, x.2.span, call.time x.1 x.2⟩

/-- What a pair adds to `retry_after` if its counter is the one that `redis` holds. -/
def penalty (scope : Text) (redis : Redis) (call : RateCheck) (x : (Text × Text) × Limit) : Nat :=
  let counter := Counter.hit x.2.span (call.time x.1 x.2) (redis (bucket scope x.1 x.2.window))
  if x.2.maximum < counter.value then max 1 ((counter.expiresAt - call.time x.1 x.2 + 500) / 1000) else 0

def visit (scope : Text) (call : RateCheck) (s : Redis × Nat) (x : (Text × Text) × Limit) : Redis × Nat :=
  (hit s.1 (hitOf scope call x), max s.2 (penalty scope s.1 call x))

theorem checkLimit_some {raw : Text} {limit : Limit} (h : parseLimit raw = some limit) (member : Text × Text)
    (s : Redis × Nat) :
    checkLimit scope call member (s.1, some s.2) raw = (visit scope call s (member, limit)).map id some := by
  let counter := Counter.hit limit.span (call.time member limit) (s.1 (bucket scope member limit.window))
  have hturn : checkLimit scope call member (s.1, some s.2) raw = (hit s.1 (hitOf scope call (member, limit)),
      some (if limit.maximum < counter.value then
        max s.2 (max 1 ((counter.expiresAt - call.time member limit + 500) / 1000)) else s.2)) := by
    rw [checkLimit, h]
    rfl
  rw [hturn, visit, Prod.map_apply, penalty]
  by_cases hlt : limit.maximum < counter.value
  · rw [if_pos hlt, if_pos hlt]
    rfl
  · rw [if_neg hlt, if_neg hlt, Nat.max_zero]
    rfl

theorem foldl_checkLimit (hread : Reads raws limits) (member : Text × Text) (s : Redis × Nat) :
    raws.foldl (checkLimit scope call member) (s.1, some s.2) =
      ((limits.map (member, ·)).foldl (visit scope call) s).map id some := by
  induction hread generalizing s with
  | nil => rfl
  | cons h _ ih =>
      rw [List.foldl_cons, List.map_cons, List.foldl_cons, checkLimit_some h]
      exact ih (visit scope call s (member, _))

theorem check_eq (hread : Reads raws limits) (redis : Redis) (call : RateCheck) :
    RedisRateLimiter.check scope raws redis call = (((visits limits call).foldl (visit scope call) (redis, 0)).1,
      some ⟨((visits limits call).foldl (visit scope call) (redis, 0)).2 = 0,
        ((visits limits call).foldl (visit scope call) (redis, 0)).2⟩) := by
  have hloop : ∀ (members : List (Text × Text)) (s : Redis × Nat),
      members.foldl (fun s member => raws.foldl (checkLimit scope call member) s) (s.1, some s.2) =
        ((members ×ˢ limits).foldl (visit scope call) s).map id some := by
    intro members
    induction members with
    | nil => intro s; rfl
    | cons member members ih =>
        intro s
        rw [List.foldl_cons, foldl_checkLimit hread]
        exact (ih _).trans (by rw [List.product_cons, List.foldl_append])
  simp only [RedisRateLimiter.check, visits]
  rw [show (redis, some 0) = ((redis, 0).1, some (redis, 0).2) from rfl, hloop]
  rfl

variable (scope redis) in
theorem foldl_visit {xs : List ((Text × Text) × Limit)} (hkeys : (xs.map fun x => (hitOf scope call x).key).Nodup)
    (s : Redis × Nat) (hsame : ∀ x ∈ xs, s.1 (hitOf scope call x).key = redis (hitOf scope call x).key) :
    xs.foldl (visit scope call) s =
      ((xs.map (hitOf scope call)).foldl hit s.1, xs.foldl (fun n x => max n (penalty scope redis call x)) s.2) := by
  induction xs generalizing s with
  | nil => rfl
  | cons x xs ih =>
      obtain ⟨hfresh, hkeys⟩ := List.nodup_cons.mp hkeys
      have hx := hsame x List.mem_cons_self
      rw [List.foldl_cons, ih hkeys]
      · have hpenalty : penalty scope s.1 call x = penalty scope redis call x := by
          simp only [penalty]
          rw [show s.1 (bucket scope x.1 x.2.window) = redis (bucket scope x.1 x.2.window) from hx]
        rw [List.map_cons, List.foldl_cons, List.foldl_cons, visit, hpenalty]
      · intro y hy
        have hne : (hitOf scope call y).key ≠ (hitOf scope call x).key := fun heq =>
          hfresh (List.mem_map.mpr ⟨y, hy, heq⟩)
        exact (Function.update_of_ne hne _ _).trans (hsame y (List.mem_cons_of_mem _ hy))

/-! ## The counters of a run -/

/-- When the calls count for a member and a limit. -/
def countedAt (calls : List RateCheck) (member : Text × Text) (limit : Limit) : List Nat :=
  (calls.filter fun call => member ∈ call.identifiers).map (·.time member limit)

section Distinct

variable (hwindows : (limits.map (·.window)).Nodup) (hdistinct : DistinctSubjects calls)

include hwindows hdistinct

theorem key_inj {call call' : RateCheck} (hcall : call ∈ calls) (hcall' : call' ∈ calls) {x y : (Text × Text) × Limit}
    (hx : x ∈ visits limits call) (hy : y ∈ visits limits call')
    (h : (hitOf scope call x).key = (hitOf scope call' y).key) : x = y := by
  obtain ⟨hmember, hlimit⟩ := List.mem_product.mp hx
  obtain ⟨hmember', hlimit'⟩ := List.mem_product.mp hy
  obtain ⟨hsubject, hwindow⟩ := bucket_inj h
  exact Prod.ext (hdistinct call hcall call' hcall' _ hmember _ hmember' hsubject)
    (List.inj_on_of_nodup_map hwindows hlimit hlimit' hwindow)

omit hdistinct in
theorem visits_nodup (call : RateCheck) : (visits limits call).Nodup :=
  (List.Nodup.of_map _ call.labels_nodup).product (List.Nodup.of_map _ hwindows)

theorem keys_nodup {call : RateCheck} (hcall : call ∈ calls) :
    ((visits limits call).map fun x => (hitOf scope call x).key).Nodup :=
  List.Nodup.map_on (fun _ hx _ hy h => key_inj hwindows hdistinct hcall hcall hx hy h) (visits_nodup hwindows call)

theorem hitTimes_call {call call' : RateCheck} (hcall : call ∈ calls) (hcall' : call' ∈ calls) {x : (Text × Text) × Limit}
    (hx : x ∈ visits limits call') :
    hitTimes ((visits limits call).map (hitOf scope call)) (hitOf scope call' x).key =
      if x.1 ∈ call.identifiers then [call.time x.1 x.2] else [] := by
  have hfilter : (visits limits call).filter (fun y => decide ((hitOf scope call y).key = (hitOf scope call' x).key)) =
      (visits limits call).filter (· = x) := by
    refine List.filter_congr fun y hy => ?_
    rw [decide_eq_decide]
    exact ⟨key_inj hwindows hdistinct hcall hcall' hy hx, fun h => by rw [h]; rfl⟩
  have hmem : x ∈ visits limits call ↔ x.1 ∈ call.identifiers := by
    rw [visits, show x = (x.1, x.2) from rfl, List.mem_product]
    exact and_iff_left (List.mem_product.mp hx).2
  rw [hitTimes, List.filter_map, List.map_map]
  simp only [Function.comp_def, hfilter, List.filter_eq, (visits_nodup hwindows call).count, hmem]
  split <;> rfl

variable (scope) in
theorem hitTimes_calls {history : List RateCheck} (hsub : history ⊆ calls) {call' : RateCheck} (hcall' : call' ∈ calls)
    {x : (Text × Text) × Limit} (hx : x ∈ visits limits call') :
    hitTimes (history.flatMap fun call => (visits limits call).map (hitOf scope call)) (hitOf scope call' x).key =
      countedAt history x.1 x.2 := by
  induction history with
  | nil => rfl
  | cons call history ih =>
      have happend : ∀ hits hits' : List (Hit Text), hitTimes (hits ++ hits') (hitOf scope call' x).key =
          hitTimes hits (hitOf scope call' x).key ++ hitTimes hits' (hitOf scope call' x).key := fun _ _ => by
        simp [hitTimes]
      rw [List.flatMap_cons, happend, ih fun c hc => hsub (List.mem_cons_of_mem _ hc),
        hitTimes_call hwindows hdistinct (hsub List.mem_cons_self) hcall' hx, countedAt, countedAt]
      by_cases hmember : x.1 ∈ call.identifiers <;> simp [hmember]

theorem checks_eq (hread : Reads raws limits) {history : List RateCheck} (hsub : history ⊆ calls) :
    checks scope raws history =
      (history.flatMap fun call => (visits limits call).map (hitOf scope call)).foldl hit fun _ => none := by
  induction history using List.reverseRecOn with
  | nil => rfl
  | append_singleton history call ih =>
      have hcall : call ∈ calls := hsub (List.mem_append_right _ (List.mem_singleton_self _))
      have hstep := foldl_visit scope (checks scope raws history) (keys_nodup hwindows hdistinct hcall)
        (checks scope raws history, 0) fun _ _ => rfl
      rw [checks, List.foldl_append, List.foldl_cons, List.foldl_nil, ← checks, check_eq hread, hstep,
        List.flatMap_append, List.foldl_append, ← ih fun c hc => hsub (List.mem_append_left _ hc), List.flatMap_singleton]

end Distinct

/-- A member meets the calls that count for it in the order of the run. -/
def InTime (calls : List RateCheck) : Prop :=
  calls.Pairwise fun call call' => ∀ member ∈ call.identifiers, member ∈ call'.identifiers →
    ∀ limit, call.time member limit ≤ call'.time member limit

theorem countedAt_pairwise (h : InTime calls) (member : Text × Text) (limit : Limit) :
    (countedAt calls member limit).Pairwise (· ≤ ·) := by
  rw [countedAt, List.pairwise_map, List.pairwise_filter]
  exact h.imp fun hle hmember hmember' => hle member (of_decide_eq_true hmember) (of_decide_eq_true hmember') limit

theorem countedAt_append {history : List RateCheck} {member : Text × Text} (hmember : member ∈ call.identifiers)
    (limit : Limit) :
    countedAt (history ++ [call]) member limit = countedAt history member limit ++ [call.time member limit] := by
  simp [countedAt, hmember]

variable (scope) in
theorem summary_countedAt {history : List RateCheck} (hread : Reads raws limits)
    (hwindows : (limits.map (·.window)).Nodup) (hpos : ∀ limit ∈ limits, 0 < limit.window)
    (hdistinct : DistinctSubjects (history ++ [call])) (htime : InTime (history ++ [call])) {x : (Text × Text) × Limit}
    (hx : x ∈ visits limits call) :
    summary x.2.span (countedAt (history ++ [call]) x.1 x.2) =
      some (Counter.hit x.2.span (call.time x.1 x.2) (checks scope raws history (hitOf scope call x).key)) := by
  obtain ⟨hmember, hlimit⟩ := List.mem_product.mp hx
  have hspan : 0 < x.2.span := Nat.mul_pos (by decide) (hpos x.2 hlimit)
  have hcall : call ∈ history ++ [call] := List.mem_append_right _ (List.mem_singleton_self _)
  have horder := countedAt_pairwise htime x.1 x.2
  rw [countedAt_append hmember] at horder ⊢
  rw [hit_summary hspan horder, checks_eq hwindows hdistinct hread (List.subset_append_left _ _)]
  have htimes := hitTimes_calls scope hwindows hdistinct (List.subset_append_left _ _) hcall hx
  have hsame : ∀ y ∈ history.flatMap fun call => (visits limits call).map (hitOf scope call),
      y.key = (hitOf scope call x).key → y.span = x.2.span := by
    intro y hy hkey
    obtain ⟨call', hcall', hy⟩ := List.mem_flatMap.mp hy
    obtain ⟨z, hz, rfl⟩ := List.mem_map.mp hy
    rw [← key_inj hwindows hdistinct (List.mem_append_left _ hcall') hcall hz hx hkey]
    rfl
  rw [hits_summary hspan hsame (htimes ▸ (List.pairwise_append.mp horder).1), htimes]

/-! ## The decision -/

theorem le_foldl_max {α : Type} (f : α → Nat) (xs : List α) (n : Nat) :
    n ≤ xs.foldl (fun m x => max m (f x)) n ∧ ∀ x ∈ xs, f x ≤ xs.foldl (fun m x => max m (f x)) n := by
  induction xs generalizing n with
  | nil => exact ⟨Nat.le_refl n, fun x hx => absurd hx List.not_mem_nil⟩
  | cons x xs ih =>
      obtain ⟨hle, hall⟩ := ih (max n (f x))
      refine ⟨(Nat.le_max_left _ _).trans hle, fun y hy => ?_⟩
      rcases List.mem_cons.mp hy with rfl | hy
      · exact (Nat.le_max_right _ _).trans hle
      · exact hall y hy

theorem foldl_max_mem {α : Type} (f : α → Nat) (xs : List α) (n : Nat) :
    xs.foldl (fun m x => max m (f x)) n = n ∨ ∃ x ∈ xs, xs.foldl (fun m x => max m (f x)) n = f x := by
  induction xs generalizing n with
  | nil => exact Or.inl rfl
  | cons x xs ih =>
      rw [List.foldl_cons]
      rcases ih (max n (f x)) with h | ⟨y, hy, h⟩
      · rcases max_choice n (f x) with hmax | hmax
        · exact Or.inl (h.trans hmax)
        · exact Or.inr ⟨x, List.mem_cons_self, h.trans hmax⟩
      · exact Or.inr ⟨y, List.mem_cons_of_mem _ hy, h⟩

variable (scope) in
/-- A limit that is exceeded makes the call wait, for what is left of its window at most. -/
theorem penalty_spec {history : List RateCheck} (hread : Reads raws limits) (hwindows : (limits.map (·.window)).Nodup)
    (hpos : ∀ limit ∈ limits, 0 < limit.window) (hdistinct : DistinctSubjects (history ++ [call]))
    (htime : InTime (history ++ [call])) {x : (Text × Text) × Limit} (hx : x ∈ visits limits call) :
    (penalty scope (checks scope raws history) call x = 0 ↔
      inWindow x.2.span (countedAt (history ++ [call]) x.1 x.2) ≤ x.2.maximum) ∧
    penalty scope (checks scope raws history) call x ≤
      (windowLeft x.2.span (countedAt (history ++ [call]) x.1 x.2) (call.time x.1 x.2) + 999) / 1000 := by
  obtain ⟨hmember, hlimit⟩ := List.mem_product.mp hx
  have hspan : 0 < x.2.span := Nat.mul_pos (by decide) (hpos x.2 hlimit)
  have hsummary := summary_countedAt scope hread hwindows hpos hdistinct htime hx
  obtain ⟨start, hstart, hcounter⟩ := Option.map_eq_some_iff.mp hsummary
  have hnow : call.time x.1 x.2 < start + x.2.span :=
    lt_windowEnd hspan (countedAt_pairwise htime x.1 x.2) hstart (by simp [countedAt_append hmember])
  have hpenalty : penalty scope (checks scope raws history) call x =
      if x.2.maximum < inWindow x.2.span (countedAt (history ++ [call]) x.1 x.2) then
        max 1 ((start + x.2.span - call.time x.1 x.2 + 500) / 1000) else 0 := by
    rw [penalty]
    simp only [show bucket scope x.1 x.2.window = (hitOf scope call x).key from rfl, ← hcounter]
  rw [hpenalty, windowLeft, hstart, Option.getD_some]
  split
  · constructor <;> omega
  · constructor <;> omega

/-- What a decision says of the limits: the call is allowed if and only if it exceeds none, and otherwise it waits
for what is
left of the window of one that it exceeds. -/
structure Counts (limits : List Limit) (history : List RateCheck) (call : RateCheck) (decision : RateLimitDecision) : Prop where
  allowed_iff : decision.allowed = true ↔ ∀ member ∈ call.identifiers, ∀ limit ∈ limits,
    inWindow limit.span (countedAt (history ++ [call]) member limit) ≤ limit.maximum
  retryAfter : decision.allowed = false → 1 ≤ decision.retryAfter ∧ ∃ member ∈ call.identifiers, ∃ limit ∈ limits,
    limit.maximum < inWindow limit.span (countedAt (history ++ [call]) member limit) ∧ decision.retryAfter ≤
      (windowLeft limit.span (countedAt (history ++ [call]) member limit) (call.time member limit) + 999) / 1000

theorem check_spec {history : List RateCheck} (hread : Reads raws limits) (hwindows : (limits.map (·.window)).Nodup)
    (hpos : ∀ limit ∈ limits, 0 < limit.window) (hdistinct : DistinctSubjects (history ++ [call]))
    (htime : InTime (history ++ [call])) :
    ∃ decision, (RedisRateLimiter.check scope raws (checks scope raws history) call).2 = some decision ∧
      Counts limits history call decision := by
  have hcall : call ∈ history ++ [call] := List.mem_append_right _ (List.mem_singleton_self _)
  have hfold := foldl_visit scope (checks scope raws history) (keys_nodup hwindows hdistinct hcall)
    (checks scope raws history, 0) fun _ _ => rfl
  have hpenalty := fun x (hx : x ∈ visits limits call) =>
    penalty_spec scope hread hwindows hpos hdistinct htime hx
  rw [check_eq hread, hfold]
  obtain ⟨-, hmax⟩ := le_foldl_max (penalty scope (checks scope raws history) call) (visits limits call) 0
  have hmem := foldl_max_mem (penalty scope (checks scope raws history) call) (visits limits call) 0
  generalize (visits limits call).foldl (fun n x => max n (penalty scope (checks scope raws history) call x)) 0 = n at hmax hmem
  refine ⟨_, rfl, ⟨?_, fun hdenied => ?_⟩⟩
  · rw [decide_eq_true_eq]
    constructor
    · intro hn member hmember limit hlimit
      have hx : (member, limit) ∈ visits limits call := List.mem_product.mpr ⟨hmember, hlimit⟩
      exact (hpenalty _ hx).1.mp (Nat.le_zero.mp (hn ▸ hmax _ hx))
    · intro hall
      rcases hmem with hn | ⟨x, hx, hn⟩
      · exact hn
      · obtain ⟨hmember, hlimit⟩ := List.mem_product.mp hx
        exact hn.trans ((hpenalty x hx).1.mpr (hall x.1 hmember x.2 hlimit))
  · have hn : n ≠ 0 := of_decide_eq_false hdenied
    rcases hmem with h | ⟨x, hx, h⟩
    · exact absurd h hn
    · obtain ⟨hmember, hlimit⟩ := List.mem_product.mp hx
      refine ⟨Nat.pos_of_ne_zero hn, x.1, hmember, x.2, hlimit, ?_, ?_⟩
      · exact Nat.lt_of_not_le fun hle => hn (h.trans ((hpenalty x hx).1.mpr hle))
      · exact h.le.trans (hpenalty x hx).2

end Etoeragcb.Auth
