import Etoeragcb.Rag.Boundary

/-!
# Where the lines of a context come from
-/

namespace Etoeragcb.Rag

open Lib Models

variable {x y : RerankedEvidence × Nat} {i j n : Nat} {web : List Nat} {r : Reader} {ls : List Text}

/-! ## Lines -/

theorem lines_append (s t : Text) : lines (s ++ '\n' :: t) = lines s ++ lines t := List.splitOn_append_cons_self s t

theorem lines_eq_singleton {s : Text} (h : '\n' ∉ s) : lines s = [s] := List.splitOn_eq_singleton h

theorem natStr_inj (h : natStr i = natStr j) : i = j := by
  have hback := congrArg (Nat.ofDigitChars 10 · 0) h
  simpa [natStr, Nat.ofDigitChars_toDigits] using hback

theorem natStr_isDigit {c : Char} (h : c ∈ natStr i) :
    c.isDigit = true := Nat.isDigit_of_mem_toDigits (by decide) (le_refl _) h

theorem break_notMem_natStr (i : Nat) : '\n' ∉ natStr i := fun h => absurd (natStr_isDigit h) (by decide)

theorem break_notMem_marker {before after : Text} (hb : '\n' ∉ before) (ha : '\n' ∉ after) (i : Nat) :
    '\n' ∉ before ++ ('S' :: natStr i) ++ after := by
  intro h
  rcases List.mem_append.mp h with h | h
  · rcases List.mem_append.mp h with h | h
    · exact hb h
    · rcases List.mem_cons.mp h with h | h
      · exact absurd h (by decide)
      · exact break_notMem_natStr i h
  · exact ha h

theorem break_notMem_beginLine (i : Nat) : '\n' ∉ beginLine i := break_notMem_marker (by decide) (by decide) i

theorem break_notMem_endLine (i : Nat) : '\n' ∉ endLine i := break_notMem_marker (by decide) (by decide) i

theorem marker_inj {before after : Text} (h : before ++ ('S' :: natStr i) ++ after = before ++ ('S' :: natStr j) ++ after) :
    i = j := natStr_inj (List.cons.inj (List.append_cancel_left (List.append_cancel_right h))).2

theorem endLine_inj (h : endLine i = endLine j) : i = j := marker_inj h

theorem beginLine_inj (h : beginLine i = beginLine j) : i = j := marker_inj h

theorem marker_getElem? {before after : Text} {k : Nat} (h : k < before.length) (i : Nat) :
    (before ++ ('S' :: natStr i) ++ after)[k]? = before[k]? := by
  rw [List.append_assoc, List.getElem?_append_left h]

theorem beginLine_ne_endLine (i j : Nat) : beginLine i ≠ endLine j := by
  intro h
  have hb : (beginLine i)[4]? = some 'B' := (marker_getElem? (by decide) i).trans (by decide)
  have he : (endLine j)[4]? = some 'E' := (marker_getElem? (by decide) j).trans (by decide)
  rw [h, he] at hb
  exact absurd hb (by decide)

theorem endLine_ne_nil (i : Nat) : endLine i ≠ [] := by
  intro h
  have he : (endLine i)[4]? = some 'E' := (marker_getElem? (by decide) i).trans (by decide)
  rw [h] at he
  cases he

/-! ## Blocks -/

def contentLines (x : RerankedEvidence × Nat) : List Text :=
  if x.1.isWeb then beginLine x.2 :: (lines x.1.candidate.textOriginal ++ [endLine x.2])
  else lines x.1.candidate.textOriginal

theorem enclosed_eq (b e a m t : Text) : b ++ m ++ a ++ '\n' :: (t ++ '\n' :: (e ++ m ++ a)) =
    b ++ m ++ (a ++ ['\n']) ++ t ++ '\n' :: e ++ m ++ a := by
  simp

theorem formatSource_eq (x : RerankedEvidence × Nat) : formatSource x = headerText x ++ '\n' ::
    match x.1.candidate.sourceType with
    | .web => "--- BEGIN UNTRUSTED WEB SOURCE ".toList ++ ('S' :: natStr x.2) ++ " ---\n".toList ++
        x.1.candidate.textOriginal ++ "\n--- END UNTRUSTED WEB SOURCE ".toList ++ ('S' :: natStr x.2) ++ " ---".toList
    | .document => x.1.candidate.textOriginal :=
  rfl

theorem lines_formatSource (x : RerankedEvidence × Nat) :
    lines (formatSource x) = lines (headerText x) ++ contentLines x := by
  obtain ⟨x, i⟩ := x
  cases hw : x.candidate.sourceType with
  | document =>
      have h : formatSource (x, i) = headerText (x, i) ++ '\n' :: x.candidate.textOriginal := by
        rw [formatSource_eq, hw]
      rw [h, lines_append]
      simp [contentLines, RerankedEvidence.isWeb, hw]
  | web =>
      have h : formatSource (x, i) = headerText (x, i) ++ '\n' ::
          (beginLine i ++ '\n' :: (x.candidate.textOriginal ++ '\n' :: endLine i)) := by
        have hbegin : " ---\n".toList = " ---".toList ++ ['\n'] := by decide
        have hend : "\n--- END UNTRUSTED WEB SOURCE ".toList = '\n' :: "--- END UNTRUSTED WEB SOURCE ".toList := by decide
        have hcontent : beginLine i ++ '\n' :: (x.candidate.textOriginal ++ '\n' :: endLine i) =
            "--- BEGIN UNTRUSTED WEB SOURCE ".toList ++ ('S' :: natStr i) ++ " ---\n".toList ++
              x.candidate.textOriginal ++ "\n--- END UNTRUSTED WEB SOURCE ".toList ++ ('S' :: natStr i) ++
                " ---".toList := by
          rw [hbegin, hend]
          exact enclosed_eq _ _ _ _ _
        rw [hcontent, formatSource_eq, hw]
      rw [h, lines_append, lines_append, lines_append, lines_eq_singleton (break_notMem_beginLine i),
        lines_eq_singleton (break_notMem_endLine i)]
      simp [contentLines, RerankedEvidence.isWeb, hw]

/-! ## The context -/

/-- The lines behind a source, where `r` are the sources after it. -/
def linesAfter (r : List (RerankedEvidence × Nat)) : List Text := r.flatMap fun y => [] :: lines (formatSource y)

theorem lines_break (t : Text) : lines ('\n' :: t) = [] :: lines t := lines_append [] t

theorem lines_intercalate (y : RerankedEvidence × Nat) (ys : List (RerankedEvidence × Nat)) :
    lines (['\n', '\n'].intercalate ((y :: ys).map formatSource)) = lines (formatSource y) ++ linesAfter ys := by
  induction ys generalizing y with
  | nil => simp [linesAfter]
  | cons z ys ih =>
      have hcut : ['\n', '\n'].intercalate ((y :: z :: ys).map formatSource) =
          formatSource y ++ '\n' :: '\n' :: ['\n', '\n'].intercalate ((z :: ys).map formatSource) := by
        simp [List.intercalate]
      rw [hcut, lines_append, lines_break, ih z]
      rfl

theorem linesBefore_append (l : List (RerankedEvidence × Nat)) (x : RerankedEvidence × Nat)
    (r : List (RerankedEvidence × Nat)) :
    lines (['\n', '\n'].intercalate ((l ++ x :: r).map formatSource)) =
      linesBefore l ++ (lines (formatSource x) ++ linesAfter r) := by
  induction l with
  | nil => exact lines_intercalate x r
  | cons y l ih =>
      cases hl : l ++ x :: r with
      | nil => simp at hl
      | cons z ys =>
          rw [hl] at ih
          have hcut : lines (formatSource y) ++ linesAfter (z :: ys) =
              (lines (formatSource y) ++ [[]]) ++ lines (['\n', '\n'].intercalate ((z :: ys).map formatSource)) := by
            rw [lines_intercalate, linesAfter, List.flatMap_cons]
            simp [linesAfter]
          rw [List.cons_append, hl, lines_intercalate, hcut, ih]
          simp [linesBefore]

theorem lines_formatContext {candidates : List RerankedEvidence} {l r : List (RerankedEvidence × Nat)}
    (h : candidates.zipIdx 1 = l ++ x :: r) : lines (formatContext candidates) =
      linesBefore l ++ (lines (headerText x) ++ (contentLines x ++ linesAfter r)) := by
  have hsep : "\n\n".toList = ['\n', '\n'] := by decide
  rw [formatContext, h, hsep, linesBefore_append, lines_formatSource, List.append_assoc]

/-! ## Where an end line stands -/

/-- No line of the header or of the passage of `y` is the end line of the web source `i`. -/
def Free (i : Nat) (y : RerankedEvidence × Nat) : Prop :=
  endLine i ∉ lines (headerText y) ∧ endLine i ∉ lines y.1.candidate.textOriginal

theorem endLine_notMem_source (hne : y.2 ≠ i) : endLine i ∉ lines (formatSource y) ↔ Free i y := by
  have hcontent : endLine i ∈ contentLines y ↔ endLine i ∈ lines y.1.candidate.textOriginal := by
    unfold contentLines
    split
    · have hb : endLine i ≠ beginLine y.2 := (beginLine_ne_endLine _ _).symm
      have he : endLine i ≠ endLine y.2 := fun h => hne (endLine_inj h).symm
      simp [hb, he]
    · rfl
  rw [lines_formatSource, List.mem_append, hcontent, not_or, Free]

theorem endLine_notMem_before {l : List (RerankedEvidence × Nat)} (hne : ∀ y ∈ l, y.2 ≠ i) :
    endLine i ∉ linesBefore l ↔ ∀ y ∈ l, Free i y := by
  have hnil := endLine_ne_nil i
  simp only [linesBefore, List.mem_flatMap, List.mem_append, List.mem_singleton, not_exists, not_and, not_or]
  refine forall₂_congr fun y hy => ?_
  rw [endLine_notMem_source (hne y hy)]
  exact and_iff_left hnil

theorem endLine_notMem_after {r : List (RerankedEvidence × Nat)} (hne : ∀ y ∈ r, y.2 ≠ i) :
    endLine i ∉ linesAfter r ↔ ∀ y ∈ r, Free i y := by
  have hnil := endLine_ne_nil i
  simp only [linesAfter, List.mem_flatMap, List.mem_cons, not_exists, not_and, not_or]
  refine forall₂_congr fun y hy => ?_
  rw [endLine_notMem_source (hne y hy)]
  exact and_iff_right hnil

section Cut

variable {candidates : List RerankedEvidence} {before after : List (RerankedEvidence × Nat)}

theorem number_ne (h : candidates.zipIdx 1 = before ++ x :: after) : ∀ y ∈ before ++ after, y.2 ≠ x.2 := by
  have hn : ((candidates.zipIdx 1).map Prod.snd).Nodup := by
    rw [List.zipIdx_map_snd]
    exact List.nodup_range'
  rw [h, List.map_append, List.map_cons, List.nodup_middle] at hn
  intro y hy he
  refine (List.nodup_cons.mp hn).1 ?_
  rw [← he, ← List.map_append]
  exact List.mem_map_of_mem hy

theorem count_eq_one {α : Type} [BEq α] [LawfulBEq α] {a : α} {l r : List α} :
    (l ++ a :: r).count a = 1 ↔ a ∉ l ∧ a ∉ r := by
  rw [List.count_append, List.count_cons_self, ← List.count_eq_zero, ← List.count_eq_zero]
  omega

theorem lines_around (h : candidates.zipIdx 1 = before ++ x :: after) (hw : x.1.isWeb = true) :
    lines (formatContext candidates) = (linesBefore before ++ lines (headerText x)) ++ beginLine x.2 ::
      (lines x.1.candidate.textOriginal ++ endLine x.2 :: linesAfter after) := by
  rw [lines_formatContext h, contentLines, if_pos hw]
  simp

theorem endLine_once_iff (h : candidates.zipIdx 1 = before ++ x :: after) (hw : x.1.isWeb = true) :
    (lines (formatContext candidates)).count (endLine x.2) = 1 ↔ ∀ y ∈ candidates.zipIdx 1, Free x.2 y := by
  have hne := number_ne h
  have hcut : lines (formatContext candidates) = (linesBefore before ++ (lines (headerText x) ++ beginLine x.2 ::
      lines x.1.candidate.textOriginal)) ++ endLine x.2 :: linesAfter after := by
    rw [lines_around h hw]
    simp
  have hbefore := endLine_notMem_before fun y hy => hne y (List.mem_append_left _ hy)
  have hafter := endLine_notMem_after fun y hy => hne y (List.mem_append_right _ hy)
  have hbegin : endLine x.2 ≠ beginLine x.2 := (beginLine_ne_endLine _ _).symm
  rw [hcut, count_eq_one, h]
  simp only [List.mem_append, List.mem_cons, not_or, hbefore, hafter, hbegin, not_false_eq_true, true_and]
  constructor
  · rintro ⟨⟨hb, hx⟩, ha⟩ y (hy | rfl | hy)
    · exact hb y hy
    · exact hx
    · exact ha y hy
  · intro hall
    exact ⟨⟨fun y hy => hall y (Or.inl hy), hall x (Or.inr (Or.inl rfl))⟩, fun y hy => hall y (Or.inr (Or.inr hy))⟩

end Cut

/-! ## Reading -/

/-- What a whole web block does to a reader, whatever its passage. -/
def Reader.pass (r : Reader) (i : Nat) : Reader :=
  { r with inside := r.inside.filter (· ≠ i) }

theorem readLine_stays {k : Nat} (hr : r.inside = some k) (h : endLine k ∉ ls) : ls.foldl (readLine web) r = r := by
  induction ls with
  | nil => rfl
  | cons l ls ih =>
      simp only [List.mem_cons, not_or] at h
      have hstep : readLine web r l = r := by
        simp [readLine, hr, Ne.symm h.1]
      rw [List.foldl_cons, hstep]
      exact ih h.2

theorem readLine_begin (hr : r.inside = none) (hi : i ∈ web) :
    readLine web r (beginLine i) = { r with inside := some i } := by
  have hfind : (web.find? fun j => beginLine i = beginLine j) = some i := by
    cases hf : web.find? fun j => beginLine i = beginLine j with
    | none =>
        have h := List.find?_eq_none.mp hf i hi
        simp at h
    | some j =>
        have h := List.find?_some hf
        rw [beginLine_inj (of_decide_eq_true h)]
  simp [readLine, hr, hfind]

theorem read_block (hi : i ∈ web) (hinside : ∀ k, r.inside = some k → k ∈ web) (hfree : ∀ k ∈ web, endLine k ∉ ls) :
    (beginLine i :: (ls ++ [endLine i])).foldl (readLine web) r = r.pass i := by
  have hend : ∀ r : Reader, r.inside = some i → readLine web r (endLine i) = { r with inside := none } := by
    intro r hr
    simp [readLine, hr]
  cases hr : r.inside with
  | none =>
      rw [List.foldl_cons, readLine_begin hr hi, List.foldl_append, readLine_stays rfl (hfree i hi)]
      simp [hend, Reader.pass, hr]
  | some k =>
      have hk := hinside k hr
      have hstay : (beginLine i :: ls).foldl (readLine web) r = r := by
        refine readLine_stays hr ?_
        simp only [List.mem_cons, not_or]
        exact ⟨(beginLine_ne_endLine _ _).symm, hfree k hk⟩
      rw [← List.cons_append, List.foldl_append, hstay, List.foldl_cons, List.foldl_nil, readLine, hr]
      dsimp only
      obtain ⟨inside, shown⟩ := r
      subst hr
      by_cases hki : k = i
      · subst hki
        simp [Reader.pass, Option.filter]
      · have hne : endLine i ≠ endLine k := fun h => hki (endLine_inj h).symm
        rw [if_neg hne]
        simp [Reader.pass, Option.filter, hki]

theorem readLine_inside (h : ∀ k, r.inside = some k → k ∈ web) (l : Text) :
    ∀ k, (readLine web r l).inside = some k → k ∈ web := by
  intro k hk
  unfold readLine at hk
  split at hk
  · split at hk
    · cases hk
    · exact h k hk
  · split at hk
    · rename_i j hj
      cases hk
      exact List.mem_of_find?_eq_some hj
    · exact h k hk

theorem read_inside (h : ∀ k, r.inside = some k → k ∈ web) (ls : List Text) :
    ∀ k, (ls.foldl (readLine web) r).inside = some k → k ∈ web := by
  induction ls generalizing r with
  | nil => exact h
  | cons l ls ih => exact ih (readLine_inside h l)

/-! ## Contexts that differ in passages -/

/-- The two are shown alike, but for the passage when they are web sources. -/
structure AlikeButPassage (x y : RerankedEvidence) : Prop where
  sourceType : x.candidate.sourceType = y.candidate.sourceType
  title : x.candidate.title = y.candidate.title
  sourceFilename : x.candidate.sourceFilename = y.candidate.sourceFilename
  pageStart : x.candidate.pageStart = y.candidate.pageStart
  pageEnd : x.candidate.pageEnd = y.candidate.pageEnd
  uri : x.candidate.uri = y.candidate.uri
  textOriginal : x.isWeb = false → x.candidate.textOriginal = y.candidate.textOriginal

variable {a b : RerankedEvidence} {as bs : List RerankedEvidence}

theorem AlikeButPassage.isWeb (h : AlikeButPassage a b) : b.isWeb = a.isWeb := by
  rw [RerankedEvidence.isWeb, RerankedEvidence.isWeb, h.sourceType]

theorem AlikeButPassage.headerText (h : AlikeButPassage a b) (i : Nat) : headerText (b, i) = headerText (a, i) := by
  simp only [Rag.headerText, h.sourceType, h.title, h.sourceFilename, h.pageStart, h.pageEnd, h.uri]

theorem AlikeButPassage.read (h : AlikeButPassage a b) (hweb : a.isWeb = true → i ∈ web)
    (hinside : ∀ k, r.inside = some k → k ∈ web) (ha : ∀ k ∈ web, Free k (a, i)) (hb : ∀ k ∈ web, Free k (b, i)) :
    (lines (formatSource (a, i))).foldl (readLine web) r = (lines (formatSource (b, i))).foldl (readLine web) r := by
  rw [lines_formatSource, lines_formatSource, h.headerText, List.foldl_append, List.foldl_append]
  cases hw : a.isWeb with
  | false =>
      rw [contentLines, contentLines, if_neg (by simp [hw]), if_neg (by simp [h.isWeb, hw])]
      rw [h.textOriginal hw]
  | true =>
      have hr := read_inside hinside (lines (Rag.headerText (a, i)))
      rw [contentLines, contentLines, if_pos hw, if_pos (h.isWeb.trans hw)]
      rw [read_block (hweb hw) hr fun k hk => (ha k hk).2, read_block (hweb hw) hr fun k hk => (hb k hk).2]

theorem read_linesAfter (h : List.Forall₂ AlikeButPassage as bs) (hweb : ∀ x ∈ as.zipIdx n, x.1.isWeb = true → x.2 ∈ web)
    (hinside : ∀ k, r.inside = some k → k ∈ web) (has : ∀ k ∈ web, ∀ x ∈ as.zipIdx n, Free k x)
    (hbs : ∀ k ∈ web, ∀ x ∈ bs.zipIdx n, Free k x) :
    (linesAfter (as.zipIdx n)).foldl (readLine web) r = (linesAfter (bs.zipIdx n)).foldl (readLine web) r := by
  induction h generalizing n r with
  | nil => rfl
  | @cons a b as bs hab _ ih =>
      simp only [List.zipIdx_cons, List.mem_cons, forall_eq_or_imp] at hweb has hbs
      simp only [linesAfter, List.zipIdx_cons, List.flatMap_cons, List.cons_append, List.foldl_cons, List.foldl_append]
      have hr := readLine_inside hinside []
      rw [hab.read hweb.1 hr (fun k hk => (has k hk).1) fun k hk => (hbs k hk).1]
      exact ih hweb.2 (read_inside hr _) (fun k hk => (has k hk).2) fun k hk => (hbs k hk).2

theorem mem_webNumbers : i ∈ webNumbers as ↔ ∃ x ∈ as.zipIdx 1, x.1.isWeb = true ∧ x.2 = i := by
  simp [webNumbers, and_assoc]

theorem webNumbers_alike (h : List.Forall₂ AlikeButPassage as bs) : webNumbers as = webNumbers bs := by
  have hgo : ∀ n, ((as.zipIdx n).filter fun x => x.1.isWeb).map Prod.snd =
      ((bs.zipIdx n).filter fun x => x.1.isWeb).map Prod.snd := by
    induction h with
    | nil => exact fun _ => rfl
    | @cons a b as bs hab _ ih =>
        intro n
        cases hw : a.isWeb <;> simp [List.zipIdx_cons, hw, hab.isWeb, ih]
  exact hgo 1

theorem formatContext_cons (a : RerankedEvidence) (as : List RerankedEvidence) :
    lines (formatContext (a :: as)) = lines (formatSource (a, 1)) ++ linesAfter (as.zipIdx 2) := by
  rw [lines_formatSource, List.append_assoc]
  exact lines_formatContext (l := []) rfl

theorem shownOutside_alike (h : List.Forall₂ AlikeButPassage as bs)
    (has : ∀ k ∈ webNumbers as, ∀ x ∈ as.zipIdx 1, Free k x) (hbs : ∀ k ∈ webNumbers bs, ∀ x ∈ bs.zipIdx 1, Free k x) :
    shownOutside (webNumbers as) (formatContext as) = shownOutside (webNumbers bs) (formatContext bs) := by
  rw [← webNumbers_alike h] at hbs ⊢
  cases h with
  | nil => rfl
  | @cons a b as bs hab htail =>
      have hweb : ∀ x ∈ (a :: as).zipIdx 1, x.1.isWeb = true → x.2 ∈ webNumbers (a :: as) :=
        fun x hx hw => mem_webNumbers.mpr ⟨x, hx, hw, rfl⟩
      simp only [List.zipIdx_cons, List.mem_cons, forall_eq_or_imp] at hweb has hbs
      simp only [shownOutside, formatContext_cons, List.foldl_append]
      have hr : ∀ k, (⟨none, []⟩ : Reader).inside = some k → k ∈ webNumbers (a :: as) := fun _ hk => by cases hk
      rw [hab.read hweb.1 hr (fun k hk => (has k hk).1) fun k hk => (hbs k hk).1,
        read_linesAfter htail hweb.2 (read_inside hr _) (fun k hk => (has k hk).2) fun k hk => (hbs k hk).2]

end Etoeragcb.Rag
