import Etoeragcb.Lib.Lemmas.Url
import Etoeragcb.Lib.Result
import Etoeragcb.Web.Security

/-!
# What a validated URL is
-/

namespace Etoeragcb.Web

open Lib

variable {u : Unicode} {idna : Text → Option Text} {allowedPorts : List Nat} {s host url : Text} {v : ValidatedUrl}

/-- A URL that may be asked for: its authority is a host and an allowed port without credentials. -/
structure Cleared (allowedPorts : List Nat) (v : ValidatedUrl) : Prop where
  scheme : v.scheme = "http".toList ∨ v.scheme = "https".toList
  credentials : '@' ∉ v.hostHeader
  port : v.port ∈ allowedPorts
  form : ∃ path query, v = canonicalForm v.scheme v.host v.port path query
  canonicalUrl : v.canonicalUrl = v.scheme ++ "://".toList ++ v.hostHeader ++ v.requestTarget

/-- No character but `@` has it in its small form. -/
def KeepsAt (u : Unicode) : Prop := ∀ c, '@' ∈ u.lowerChar c → c = '@'

/-! ## The host -/

theorem at_notMem_lowerFrom (hu : KeepsAt u) (before : Text) (h : '@' ∉ s) : '@' ∉ u.lowerFrom before s := by
  induction s generalizing before with
  | nil => exact List.not_mem_nil
  | cons c s ih =>
      rw [List.mem_cons, not_or] at h
      rw [Unicode.lowerFrom, List.mem_append, not_or]
      refine ⟨?_, ih _ h.2⟩
      split
      · split <;> decide
      · exact fun hc => h.1 (hu c hc).symm

theorem at_notMem_hostLabel (h : isHostLabel s = true) : '@' ∉ s := by
  intro hmem
  simp only [isHostLabel, Bool.and_eq_true, List.all_eq_true] at h
  exact absurd (h.1.2 '@' hmem) (by decide)

theorem at_notMem_normalizeHost (hu : KeepsAt u) (h : normalizeHost u idna s = .ok host) (hs : '@' ∉ s) : '@' ∉ host := by
  have hcandidate : '@' ∉ u.lower (s.rdropWhile (· = '.')) :=
    at_notMem_lowerFrom hu [] fun hc => hs ((List.rdropWhile_prefix _ _).subset hc)
  rw [normalizeHost] at h
  split at h
  · rename_i address haddress
    cases h
    intro hc
    rcases mem_compressed haddress hc with hc | hc | hc
    · exact absurd hc (by decide)
    · cases hc
    · exact hcandidate hc
  · split at h
    · cases h
    · rename_i candidate hidna
      split at h
      · cases h
      · rename_i hlabels
        cases h
        rw [not_or] at hlabels
        intro hc
        have heq : ['.'].intercalate (host.splitOn '.') = host := List.intercalate_splitOn '.'
        rw [← heq] at hc
        rcases mem_intercalate hc with hc | ⟨label, hlabel, hc⟩
        · cases hc
        · refine at_notMem_hostLabel ?_ hc
          simpa using List.all_eq_true.mp (by simpa using hlabels.2) label hlabel

theorem at_notMem_hostname (hu : KeepsAt u) {parsed : SplitResult} {hostname : Text} (huser : parsed.username = none)
    (h : parsed.hostname u = some hostname) : '@' ∉ hostname := by
  have hnetloc : '@' ∉ parsed.netloc := fun hc => by
    rw [SplitResult.username, if_pos hc] at huser
    cases huser
  have hinfo : parsed.hostinfo.1 ⊆ parsed.netloc := by
    intro c hc
    refine (rpartition_subset '@' parsed.netloc).2 ?_
    rw [SplitResult.hostinfo] at hc
    split at hc
    · exact (partition_subset '[' _).2 ((partition_subset ']' _).1 hc)
    · exact (partition_subset ':' _).1 hc
  have hhost : '@' ∉ parsed.hostinfo.1 := fun hc => hnetloc (hinfo hc)
  rw [SplitResult.hostname] at h
  split at h
  · cases h
  · cases h
    intro hc
    rcases List.mem_append.mp hc with hc | hc
    · exact at_notMem_lowerFrom hu [] (fun hc => hhost ((partition_subset '%' _).1 hc)) hc
    · split at hc
      · rcases List.mem_cons.mp hc with hc | hc
        · cases hc
        · exact hhost ((partition_subset '%' _).2 hc)
      · cases hc

/-! ## The URL -/

theorem at_notMem_authority {scheme path query : Text} {port : Nat} (h : '@' ∉ host) :
    '@' ∉ (canonicalForm scheme host port path query).hostHeader := by
  have hbracketed : '@' ∉ (if ':' ∈ host then '[' :: host ++ [']'] else host) := by
    split
    · simpa using h
    · exact h
  simp only [canonicalForm]
  split
  · exact hbracketed
  · simp only [List.mem_append, List.mem_cons, not_or]
    exact ⟨hbracketed, by decide, fun hc => absurd (isDigit_of_mem_decimal hc) (by decide)⟩

theorem canonicalForm_canonicalUrl {scheme path query : Text} {port : Nat} (hscheme : scheme ≠ [])
    (hpath : path.head? = some '/') :
    (canonicalForm scheme host port path query).canonicalUrl = scheme ++ "://".toList ++
      (canonicalForm scheme host port path query).hostHeader ++ (canonicalForm scheme host port path query).requestTarget := by
  simp only [canonicalForm, urlunsplit, hscheme, hpath, or_true, if_true, if_false, List.append_nil, List.append_assoc]
  rfl

theorem validateParts_cleared (hu : KeepsAt u) {parsed : SplitResult} {port : Option Nat}
    (h : validateParts u idna allowedPorts parsed port = .ok v) : Cleared allowedPorts v := by
  simp only [validateParts] at h
  generalize quote pathSafe (if parsed.path = [] then ['/'] else parsed.path) = path at h
  split at h
  · cases h
  rename_i hscheme
  split at h
  · cases h
  rename_i hcredentials
  rw [not_or, not_not] at hcredentials
  split at h
  · cases h
  rename_i hostname hhostname
  obtain ⟨host, hhost, h⟩ := bind_eq_ok.mp h
  split at h
  · cases h
  rename_i hallowed
  split at h
  · cases h
  rename_i hpath
  cases h
  have hscheme : u.lower parsed.scheme = "http".toList ∨ u.lower parsed.scheme = "https".toList := by
    by_contra hne
    exact hscheme (not_or.mp hne)
  refine ⟨hscheme, ?_, not_not.mp hallowed, ⟨path, _, rfl⟩, ?_⟩
  · exact at_notMem_authority (at_notMem_normalizeHost hu hhost (at_notMem_hostname hu hcredentials.1 hhostname))
  · refine canonicalForm_canonicalUrl ?_ (not_not.mp hpath)
    rcases hscheme with he | he <;> rw [he] <;> decide

theorem validateUrl_cleared (hu : KeepsAt u) (h : validateUrl u idna allowedPorts url = .ok v) : Cleared allowedPorts v := by
  rw [validateUrl] at h
  split at h
  · cases h
  · split at h
    · cases h
    · split at h
      · cases h
      · exact validateParts_cleared hu h

end Etoeragcb.Web
