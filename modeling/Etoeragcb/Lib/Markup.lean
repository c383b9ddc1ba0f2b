import Etoeragcb.Lib.Replace

/-!
# Markup

Texts that are made of plain characters and of whole tokens, and what may be done to them without cutting a token.
-/

namespace Etoeragcb.Lib

/-- A concatenation of plain characters and tokens. -/
inductive Markup (plain : Char → Prop) (token : Text → Prop) : Text → Prop
  | nil : Markup plain token []
  | plain {c : Char} {s : Text} (hc : plain c) (hs : Markup plain token s) : Markup plain token (c :: s)
  | token {t s : Text} (ht : token t) (hs : Markup plain token s) : Markup plain token (t ++ s)

namespace Markup

variable {plain : Char → Prop} {token token' : Text → Prop} {s t u w : Text} {c : Char}

theorem mono (h : ∀ t, token t → token' t) (hs : Markup plain token s) : Markup plain token' s := by
  induction hs with
  | nil => exact .nil
  | plain hc _ ih => exact .plain hc ih
  | token ht _ ih => exact .token (h _ ht) ih

theorem append (hs : Markup plain token s) (ht : Markup plain token t) : Markup plain token (s ++ t) := by
  induction hs with
  | nil => exact ht
  | plain hc _ ih => exact .plain hc ih
  | token ht' _ ih =>
      rw [List.append_assoc]
      exact .token ht' ih

theorem of_token (h : token t) : Markup plain token t := List.append_nil t ▸ .token h .nil

theorem of_plain (h : ∀ c ∈ s, plain c) : Markup plain token s := by
  induction s with
  | nil => exact .nil
  | cons c s ih =>
      rw [List.forall_mem_cons] at h
      exact .plain h.1 (ih h.2)

theorem flatMap {α : Type} {f : α → Text} {l : List α} (h : ∀ a ∈ l, Markup plain token (f a)) :
    Markup plain token (l.flatMap f) := by
  induction l with
  | nil => exact .nil
  | cons a l ih =>
      rw [List.forall_mem_cons] at h
      exact h.1.append (ih h.2)

/-- A character that no token contains is a place where the text may be cut. -/
theorem cut (hc : ∀ t, token t → c ∉ t) (h : Markup plain token (u ++ c :: w)) :
    Markup plain token u ∧ plain c ∧ Markup plain token w := by
  generalize hs : u ++ c :: w = s at h
  induction h generalizing u with
  | nil => exact absurd hs (by simp)
  | @plain d s hd hrest ih =>
      cases u with
      | nil =>
          obtain ⟨rfl, rfl⟩ := List.cons.inj hs
          exact ⟨.nil, hd, hrest⟩
      | cons e u =>
          obtain ⟨rfl, hrest⟩ := List.cons.inj hs
          obtain ⟨hu, hw⟩ := ih hrest
          exact ⟨.plain hd hu, hw⟩
  | @token t s ht hrest ih =>
      rcases List.append_eq_append_iff.mp hs with ⟨v, hv, hw⟩ | ⟨v, hv, hw⟩
      · cases v with
        | nil =>
            rw [List.append_nil] at hv
            obtain ⟨-, hplain, hmore⟩ := ih (u := []) hw
            exact ⟨hv ▸ of_token ht, hplain, hmore⟩
        | cons d v =>
            obtain ⟨rfl, -⟩ := List.cons.inj hw
            exact absurd (hv ▸ List.mem_append_right u List.mem_cons_self) (hc t ht)
      · obtain ⟨hv', hplain, hmore⟩ := ih hw.symm
        exact ⟨hv ▸ .token ht hv', hplain, hmore⟩

theorem cut_delimiter {d : Text} (hd : d ≠ []) (hc : ∀ c ∈ d, ∀ t, token t → c ∉ t) (h : Markup plain token (u ++ (d ++ w))) :
    Markup plain token u ∧ Markup plain token w := by
  induction d generalizing u with
  | nil => exact absurd rfl hd
  | cons c d ih =>
      rw [List.forall_mem_cons] at hc
      obtain ⟨hu, -, hw⟩ := cut hc.1 h
      cases d with
      | nil => exact ⟨hu, hw⟩
      | cons c' d => exact ⟨hu, (ih (u := []) (List.cons_ne_nil c' d) hc.2 hw).2⟩

/-- A character in front of which no token begins. -/
theorem tail (hc : ∀ t, token t → t.head? ≠ some c) (hne : ¬token []) (h : Markup plain token (c :: s)) :
    plain c ∧ Markup plain token s := by
  generalize heq : c :: s = r at h
  cases h with
  | nil => cases heq
  | plain hp hs =>
      obtain ⟨rfl, rfl⟩ := List.cons.inj heq
      exact ⟨hp, hs⟩
  | @token t s' ht hs =>
      cases t with
      | nil => exact absurd ht hne
      | cons d t =>
          obtain ⟨rfl, -⟩ := List.cons.inj heq
          exact absurd rfl (hc _ ht)

/-- A pass keeps what each of its replacements keeps in every context. -/
theorem rewrite_context {α : Type} {rule : Rule α} {p : List α → Prop}
    (h : ∀ x c s r n, rule (c :: s) = some (r, n) → p (x ++ c :: s) → p (x ++ (r ++ s.drop (n - 1)))) (x s : List α)
    (hs : p (x ++ s)) : p (x ++ rewrite rule s) := by
  revert x
  refine rewrite_induction (p := fun s r => ∀ x, p (x ++ s) → p (x ++ r)) (fun x hx => hx) ?_ ?_ s
  · intro c s _ ih x hx
    have hmore := ih (x ++ [c]) (by rwa [List.append_assoc])
    rwa [List.append_assoc] at hmore
  · intro c s r n hrule ih x hx
    have hmore := ih (x ++ r) (by
      rw [List.append_assoc]
      exact h x c s r n hrule hx)
    rwa [List.append_assoc] at hmore

theorem replaceAll (hc : ∀ t, token t → c ∉ t) (ht : Markup plain token t) (hs : Markup plain token s) :
    Markup plain token (Lib.replaceAll c t s) := by
  induction hs with
  | nil => exact .nil
  | @plain d s hd _ ih =>
      rw [Lib.replaceAll, List.flatMap_cons]
      refine append ?_ ih
      split
      · exact ht
      · exact of_plain fun e he => List.mem_singleton.mp he ▸ hd
  | @token u s hu _ ih =>
      rw [Lib.replaceAll, List.flatMap_append]
      refine append ?_ ih
      have hsame : u.flatMap (fun d => if d = c then t else [d]) = u := by
        have hcongr : u.flatMap (fun d => if d = c then t else [d]) = u.flatMap fun d => [d] :=
          List.flatMap_congr fun d hd => by
            have hdc : d ≠ c := fun hdc => hc u hu (hdc ▸ hd)
            simp only [if_neg hdc]
        rw [hcongr, List.flatMap_singleton']
      rw [hsame]
      exact of_token hu

/-- The expansion of a replacement leaves the token as it is. -/
def Inert (t : Text) : Prop :=
  ∀ before matched after s, expand before matched after (t ++ s) = t ++ expand before matched after s

/-- A replacement that is markup expands to markup, if its tokens are inert and what begins with an ampersand is plain
behind it. -/
theorem expand {before matched after : Text} (hbefore : Markup plain token before) (hmatched : Markup plain token matched)
    (hplain : ¬plain '&' ∧ ¬plain '\x27') (hinert : ∀ t, token t → Inert t) (hne : ¬token [])
    (hhead : ∀ t, token t → t.head? ≠ some '$' ∧ t.head? ≠ some '\x60' ∧ t.head? ≠ some '\x27')
    (hampersand : ∀ t, token ('&' :: t) → ∀ c ∈ t, plain c) (hs : Markup plain token s) :
    Markup plain token (Lib.expand before matched after s) := by
  induction h : s.length using Nat.strong_induction_on generalizing s with
  | _ k ih =>
      subst h
      cases hs with
      | nil => exact .nil
      | @token t s ht hs =>
          have hpos : 0 < t.length := List.length_pos_of_ne_nil fun ht' => hne (ht' ▸ ht)
          rw [hinert t ht]
          exact .token ht (ih s.length (by rw [List.length_append]; omega) hs rfl)
      | @plain c s hc hs =>
          by_cases hdollar : c = '$'
          · subst hdollar
            cases s with
            | nil => exact .plain hc .nil
            | cons d s =>
                rw [Lib.expand, if_pos rfl]
                split
                · rename_i hd
                  have htail := hs.tail (fun t ht => hd ▸ (hhead t ht).1) hne
                  exact .plain hc (ih s.length (by simp only [List.length_cons]; omega) htail.2 rfl)
                · split
                  · rename_i hd
                    subst hd
                    refine hmatched.append ?_
                    generalize heq : '&' :: s = r at hs
                    cases hs with
                    | nil => cases heq
                    | plain hp => exact absurd ((List.cons.inj heq).1 ▸ hp) hplain.1
                    | @token t s' ht hs' =>
                        cases t with
                        | nil => exact absurd ht hne
                        | cons e t =>
                            obtain ⟨rfl, rfl⟩ := List.cons.inj heq
                            have hmore : Markup plain token (t ++ s') := (of_plain (hampersand t ht)).append hs'
                            exact ih _ (by simp only [List.length_cons]; omega) hmore rfl
                  · split
                    · rename_i hd
                      have htail := hs.tail (fun t ht => hd ▸ (hhead t ht).2.1) hne
                      exact hbefore.append (ih s.length (by simp only [List.length_cons]; omega) htail.2 rfl)
                    · split
                      · rename_i hd
                        exact absurd (hd ▸ (hs.tail (fun t ht => hd ▸ (hhead t ht).2.2) hne).1) hplain.2
                      · exact .plain hc (ih (d :: s).length (Nat.lt_succ_self _) hs rfl)
          · rw [expand_cons hdollar]
            exact .plain hc (ih s.length (Nat.lt_succ_self _) hs rfl)

end Markup

end Etoeragcb.Lib
