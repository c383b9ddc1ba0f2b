import Etoeragcb.Lib.Url

/-!
# The characters of addresses and of the parts of a URL
-/

namespace Etoeragcb.Lib

variable {c sep : Char} {s : Text} {ss : List Text} {n value : Nat}

theorem mem_intercalate (h : c ∈ [sep].intercalate ss) : c = sep ∨ ∃ s ∈ ss, c ∈ s := by
  induction ss with
  | nil => simp at h
  | cons s ss ih =>
      cases ss with
      | nil => exact Or.inr ⟨s, List.mem_cons_self, by simpa using h⟩
      | cons s' ss =>
          rw [List.intercalate_cons_cons, List.mem_append, List.mem_append, List.mem_singleton] at h
          rcases h with (h | h) | h
          · exact Or.inr ⟨s, List.mem_cons_self, h⟩
          · exact Or.inl h
          · exact (ih h).imp_right fun ⟨t, ht, hc⟩ => ⟨t, List.mem_cons_of_mem _ ht, hc⟩

/-! ## The text of an address -/

def isAddressChar (c : Char) : Bool := isUuidChar c || c == '.' || c == ':'

theorem isAddressChar_of_isDigit (h : isDigit c = true) : isAddressChar c = true := by
  simp [isAddressChar, isUuidChar, h]

theorem mem_hextetText (h : c ∈ hextetText n) : isAddressChar c = true := by
  rw [hextetText] at h
  split at h
  · rw [List.mem_singleton.mp h]
    decide
  · have hmem := mem_hexDigits ((List.dropWhile_suffix _).subset h)
    simp [isAddressChar, hmem.1]

theorem mem_ipv4Text {ip : BitVec 32} (h : c ∈ ipv4Text ip) : isAddressChar c = true := by
  rcases mem_intercalate h with rfl | ⟨s, hs, hc⟩
  · decide
  · obtain ⟨n, -, rfl⟩ := List.mem_map.mp hs
    exact isAddressChar_of_isDigit (isDigit_of_mem_decimal hc)

theorem mem_compressHextets {parts : List Nat} (hs : s ∈ compressHextets parts) (h : c ∈ s) : isAddressChar c = true := by
  have htext : s = [] ∨ s ∈ parts.map hextetText := by
    rw [compressHextets] at hs
    grind [List.mem_of_mem_take, List.mem_of_mem_drop]
  rcases htext with rfl | hs
  · cases h
  · obtain ⟨n, -, rfl⟩ := List.mem_map.mp hs
    exact mem_hextetText h

theorem mem_ipv6Text {ip : BitVec 128} (h : c ∈ ipv6Text ip) : isAddressChar c = true := by
  rcases mem_intercalate h with rfl | ⟨s, hs, hc⟩
  · decide
  · exact mem_compressHextets hs hc

theorem partition_subset (c : Char) (s : Text) : (partition c s).1 ⊆ s ∧ (partition c s).2 ⊆ s :=
  ⟨(List.takeWhile_prefix _).subset, fun _ h => (List.dropWhile_suffix _).subset (List.mem_of_mem_tail h)⟩

theorem rpartition_subset (c : Char) (s : Text) : (rpartition c s).1 ⊆ s ∧ (rpartition c s).2 ⊆ s :=
  ⟨fun _ h => (List.rdropWhile_prefix _ _).subset (List.mem_of_mem_dropLast h), (List.rtakeWhile_suffix _ _).subset⟩

theorem ipAddress_zone {ip : BitVec 128} {scopeId : Text} (h : ipAddress s = some (.v6 ip (some scopeId))) :
    scopeId = (partition '%' s).2 := by
  rw [ipAddress] at h
  split at h
  · cases h
  · obtain ⟨⟨ip', scope⟩, hx, hip⟩ := Option.map_eq_some_iff.mp h
    cases hip
    rw [ipv6Address] at hx
    split at hx
    · cases hx
    · simp only at hx
      split at hx
      · obtain ⟨y, -, hy⟩ := Option.map_eq_some_iff.mp hx
        cases hy
      · split at hx
        · cases hx
        · obtain ⟨y, -, hy⟩ := Option.map_eq_some_iff.mp hx
          cases hy
          rfl

/-- What is not a character of addresses comes from the zone of the text that is read. -/
theorem mem_compressed {address : IpAddress} (ha : ipAddress s = some address) (h : c ∈ address.compressed) :
    isAddressChar c = true ∨ c = '%' ∨ c ∈ s := by
  cases address with
  | v4 ip => exact Or.inl (mem_ipv4Text h)
  | v6 ip scopeId =>
      unfold IpAddress.compressed at h
      rcases List.mem_append.mp h with h | h
      · refine Or.inl ?_
        split at h
        · exact mem_ipv6Text h
        · rcases List.mem_append.mp h with h | h
          · exact mem_ipv6Text h
          · rcases List.mem_cons.mp h with rfl | h
            · decide
            · exact mem_ipv4Text h
      · refine Or.inr ?_
        cases scopeId with
        | none => cases h
        | some scopeId =>
            rcases List.mem_cons.mp h with rfl | h
            · exact Or.inl rfl
            · rw [ipAddress_zone ha] at h
              exact Or.inr ((partition_subset '%' s).2 h)

end Etoeragcb.Lib
