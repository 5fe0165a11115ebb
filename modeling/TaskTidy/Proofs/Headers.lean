import TaskTidy.Proofs.Frames

/-!
# Headers of block scalars

A line opens a block scalar if the value of its key is a mark with its indicators and at most a
comment. Such a line is an item or a parameter, and it stays a header when the rest of its comment
is written anew.
-/

namespace TaskTidy

namespace Text

variable {p : Char → Bool} {s t : List Char} {c : Char}

theorem dropEndWhile_append_of_pos (ht : ∀ x ∈ t, p x = true) :
    dropEndWhile p (s ++ t) = dropEndWhile p s := by
  rw [dropEndWhile, List.reverse_append, List.dropWhile_append_of_pos (by simpa using ht),
    dropEndWhile]

theorem dropWhile_append_cons (hc : p c = false) :
    (s ++ c :: t).dropWhile p = s.dropWhile p ++ c :: t := by
  induction s with
  | nil => exact List.dropWhile_cons_of_neg (by simp [hc])
  | cons x rest ih =>
      by_cases hx : p x = true
      · simpa [hx] using ih
      · simp [hx]

theorem dropEndWhile_append_cons (hc : p c = false) :
    dropEndWhile p (s ++ c :: t) = s ++ c :: dropEndWhile p t := by
  simp [dropEndWhile, dropWhile_append_cons hc]

theorem getLast?_dropEndWhile (hc : p c = false) (ht : ∀ x ∈ t, p x = true) :
    (dropEndWhile p (s ++ [c] ++ t)).getLast? = some c := by
  rw [dropEndWhile_append_of_pos ht, dropEndWhile_append_of_last hc, List.getLast?_concat]

/-- A text is its trimmed part between blanks. -/
theorem exists_eq_append_trim_append (s : List Char) :
    ∃ front back, s = front ++ trim s ++ back ∧ (∀ x ∈ front, isBlank x = true) ∧
      ∀ x ∈ back, isBlank x = true := by
  refine ⟨s.takeWhile isBlank, takeEndWhile isBlank (trimStart s), ?_, ?_, ?_⟩
  · rw [trim, trimEnd, List.append_assoc, dropEndWhile_append_takeEndWhile, trimStart,
      List.takeWhile_append_dropWhile]
  · exact fun x hx => List.mem_takeWhile_imp hx
  · exact fun x hx => of_mem_takeEndWhile hx

/-- The numbers of the blank characters. -/
def blankNumbers : List Nat :=
  [9, 10, 11, 12, 13, 0x20, 0x85, 0xA0, 0x1680, 0x2000, 0x2001, 0x2002, 0x2003, 0x2004, 0x2005,
    0x2006, 0x2007, 0x2008, 0x2009, 0x200A, 0x2028, 0x2029, 0x202F, 0x205F, 0x3000]

/-- A class of characters holds no blank if it holds none of these numbers. -/
theorem eq_false_of_isBlank (hp : (blankNumbers.all fun n => !p (Char.ofNat n)) = true)
    (h : isBlank c = true) : p c = false := by
  have hmem : c.toNat ∈ blankNumbers := by
    simp only [isBlank] at h
    generalize c.toNat = n at h
    simp [blankNumbers] at h ⊢
    omega
  have hc := List.all_eq_true.1 hp c.toNat hmem
  rwa [Char.ofNat_toNat, Bool.not_eq_true'] at hc

theorem isBlank_eq_false (hp : (blankNumbers.all fun n => !p (Char.ofNat n)) = true)
    (h : p c = true) : isBlank c = false := by
  rw [← Bool.not_eq_true]
  intro hblank
  rw [eq_false_of_isBlank hp hblank] at h
  cases h

theorem trim_eq_nil (h : allBlank s = true) : trim s = [] := by
  have hnil : s.dropWhile isBlank = [] := by
    induction s with
    | nil => rfl
    | cons x rest ih =>
        rw [allBlank, List.all_cons, Bool.and_eq_true] at h
        rw [List.dropWhile_cons_of_pos h.1]
        exact ih h.2
  rw [trim, trimStart, hnil]
  rfl

/-- Blanks around a text do not change what is left of it. -/
theorem trim_append_append (hs : ∀ x ∈ s, isBlank x = true) (ht : ∀ x ∈ t, isBlank x = true)
    (hc : isBlank c = false) (u : List Char) :
    trim (s ++ c :: u ++ t) = c :: dropEndWhile isBlank u := by
  have hstart : trimStart (s ++ c :: u ++ t) = c :: u ++ t := by
    rw [trimStart, List.append_assoc, List.dropWhile_append_of_pos hs]
    exact List.dropWhile_cons_of_neg (by simp [hc])
  rw [trim, hstart, trimEnd, dropEndWhile_append_of_pos ht]
  exact dropEndWhile_append_cons (s := []) hc

theorem trim_append_cons (hs : ∀ x ∈ s, isBlank x = true) (hc : isBlank c = false)
    (u : List Char) : trim (s ++ c :: u) = c :: dropEndWhile isBlank u := by
  have htrim := trim_append_append (t := []) hs (by simp) hc u
  rwa [List.append_nil] at htrim

theorem trim_cons (hc : isBlank c = false) (u : List Char) :
    trim (c :: u) = c :: dropEndWhile isBlank u :=
  trim_append_cons (s := []) (by simp) hc u

/-- A trimmed text does not start with a blank. -/
theorem isBlank_of_trim {u : List Char} (h : trim s = c :: u) : isBlank c = false := by
  have hcut := dropEndWhile_append_takeEndWhile isBlank (trimStart s)
  rw [← trimEnd, ← trim, h] at hcut
  have hhead := List.head?_dropWhile_not isBlank s
  rw [← trimStart, ← hcut] at hhead
  simpa using hhead

theorem trim_trim (s : List Char) : trim (trim s) = trim s := by
  obtain ⟨front, back, hs, hfront, hback⟩ := exists_eq_append_trim_append s
  cases htrim : trim s with
  | nil => rfl
  | cons c u =>
      have hc := isBlank_of_trim htrim
      rw [htrim] at hs
      have hself := trim_append_append hfront hback hc u
      rw [← hs, htrim] at hself
      rw [trim_cons hc, ← hself]

end Text

namespace Line

variable {l : Line} {s : List Char}

theorem isScalarHeader_trim (s : List Char) : isScalarHeader (Text.trim s) = isScalarHeader s := by
  rw [isScalarHeader, isScalarHeader, Text.trim_trim]

theorem isScalarHeader_eq_false (h : Text.allBlank s = true) : isScalarHeader s = false := by
  rw [isScalarHeader, Text.trim_eq_nil h]

/-- The characters of a header in front of its comment that are no blanks. -/
def isHeaderMark (c : Char) : Bool :=
  c == '|' || c == '>' || isScalarHeader.isIndicator c

theorem isBlank_of_isHeaderMark {c : Char} (h : isHeaderMark c = true) :
    Text.isBlank c = false :=
  Text.isBlank_eq_false (by decide +kernel) h

/-- A header is a mark, indicators, blanks, and nothing more or a comment. -/
theorem exists_of_isScalarHeader (h : isScalarHeader s = true) :
    ∃ front mark marks gap tail, s = front ++ mark :: (marks ++ gap) ++ tail ∧
      (∀ c ∈ front, Text.isBlank c = true) ∧ (mark = '|' ∨ mark = '>') ∧
      (∀ c ∈ marks, isScalarHeader.isIndicator c = true) ∧
      (∀ c ∈ gap, Text.isIndent c = true) ∧
      ((∀ c ∈ tail, Text.isBlank c = true) ∨
        ∃ text back, tail = '#' :: (text ++ back) ∧ '\n' ∉ text ∧
          ∀ c ∈ back, Text.isBlank c = true) := by
  obtain ⟨front, back, hs, hfront, hback⟩ := Text.exists_eq_append_trim_append s
  unfold isScalarHeader at h
  split at h
  · cases h
  next mark rest htrim =>
    rw [htrim] at hs
    simp only [Bool.and_eq_true, Bool.or_eq_true, beq_iff_eq] at h
    obtain ⟨hmark, hrest⟩ := h
    have hcut := List.takeWhile_append_dropWhile (p := isScalarHeader.isIndicator) (l := rest)
    have hmarks : ∀ c ∈ rest.takeWhile isScalarHeader.isIndicator,
        isScalarHeader.isIndicator c = true :=
      fun c hc => List.mem_takeWhile_imp hc
    generalize rest.takeWhile isScalarHeader.isIndicator = marks at hcut hmarks
    generalize rest.dropWhile isScalarHeader.isIndicator = rest' at hcut hrest
    have hcut' := List.takeWhile_append_dropWhile (p := Text.isIndent) (l := rest')
    have hgap : ∀ c ∈ rest'.takeWhile Text.isIndent, Text.isIndent c = true :=
      fun c hc => List.mem_takeWhile_imp hc
    generalize rest'.takeWhile Text.isIndent = gap at hcut' hgap
    generalize rest'.dropWhile Text.isIndent = last at hcut' hrest
    refine ⟨front, mark, marks, gap, last ++ back, ?_, hfront, hmark, hmarks, hgap, ?_⟩
    · rw [hs, ← hcut, ← hcut']
      simp
    · split at hrest
      · exact Or.inl hback
      · next c text =>
          simp only [Bool.and_eq_true, beq_iff_eq, List.all_eq_true, bne_iff_ne] at hrest
          obtain ⟨rfl, htext⟩ := hrest
          exact Or.inr ⟨text, back, rfl, fun hmem => htext _ hmem rfl, hback⟩

/-- Without a comment a header ends with its mark or an indicator. -/
theorem exists_last_of_isScalarHeader (h : isScalarHeader s = true) (hhash : '#' ∉ s) :
    ∃ start c tail, s = start ++ [c] ++ tail ∧ isHeaderMark c = true ∧
      ∀ x ∈ tail, Text.isBlank x = true := by
  obtain ⟨front, mark, marks, gap, tail, rfl, _, hmark, hmarks, hgap, htail⟩ :=
    exists_of_isScalarHeader h
  have hblank : ∀ x ∈ gap ++ tail, Text.isBlank x = true := by
    intro x hx
    rcases List.mem_append.1 hx with hx | hx
    · exact Text.isBlank_of_isIndent (hgap x hx)
    · rcases htail with htail | ⟨text, back, rfl, _⟩
      · exact htail x hx
      · exact absurd (by simp) hhash
  rcases List.eq_nil_or_concat marks with rfl | ⟨init, c, rfl⟩
  · refine ⟨front, mark, gap ++ tail, by simp, ?_, hblank⟩
    rcases hmark with rfl | rfl <;> rfl
  · refine ⟨front ++ mark :: init, c, gap ++ tail, by simp, ?_, hblank⟩
    simp [isHeaderMark, hmarks c (by simp)]

/-- A mark with a comment is a header, whatever the comment says. -/
theorem isScalarHeader_comment {front marks gap text : List Char} {mark : Char}
    (hfront : ∀ c ∈ front, Text.isBlank c = true) (hmark : mark = '|' ∨ mark = '>')
    (hmarks : ∀ c ∈ marks, isScalarHeader.isIndicator c = true)
    (hgap : ∀ c ∈ gap, Text.isIndent c = true) (htext : '\n' ∉ Text.trimEnd text) :
    isScalarHeader (front ++ mark :: (marks ++ gap) ++ '#' :: text) = true := by
  have hsolid : Text.isBlank mark = false := by
    rcases hmark with rfl | rfl <;> decide
  have htrim : Text.trim (front ++ mark :: (marks ++ gap) ++ '#' :: text) =
      mark :: (marks ++ gap ++ '#' :: Text.trimEnd text) := by
    calc Text.trim (front ++ mark :: (marks ++ gap) ++ '#' :: text)
        = Text.trim (front ++ mark :: (marks ++ gap ++ '#' :: text)) := by simp
      _ = mark :: Text.dropEndWhile Text.isBlank (marks ++ gap ++ '#' :: text) :=
          Text.trim_append_cons hfront hsolid _
      _ = _ := by rw [Text.dropEndWhile_append_cons (by decide), Text.trimEnd]
  have hdrop : (marks ++ gap ++ '#' :: Text.trimEnd text).dropWhile
      isScalarHeader.isIndicator = gap ++ '#' :: Text.trimEnd text := by
    rw [List.append_assoc, List.dropWhile_append_of_pos hmarks]
    cases gap with
    | nil => rfl
    | cons c gap =>
        refine List.dropWhile_cons_of_neg ?_
        rcases Text.isIndent_iff.1 (hgap c List.mem_cons_self) with rfl | rfl <;> decide
  have hgapped : (gap ++ '#' :: Text.trimEnd text).dropWhile Text.isIndent =
      '#' :: Text.trimEnd text := by
    rw [List.dropWhile_append_of_pos hgap]
    rfl
  have hkept : ∀ c ∈ Text.trimEnd text, c ≠ '\n' := by
    rintro c hc rfl
    exact htext hc
  rw [isScalarHeader, htrim]
  simp only [hdrop, hgapped, Bool.and_eq_true, Bool.or_eq_true, beq_iff_eq]
  exact ⟨hmark, by simpa using hkept⟩

/-! ### Keys -/

theorem isBlank_of_isKeyStart {c : Char} (h : isKeyStart c = true) : Text.isBlank c = false :=
  Text.isBlank_eq_false (by decide +kernel) h

/-- A key starts with a character that is no blank, no dash and no hash. -/
theorem exists_cons_of_entryOf? {entry : Entry} (h : entryOf? s = some entry) :
    ∃ x rest, s = x :: rest ∧ Text.isBlank x = false ∧ x ≠ '-' ∧ x ≠ '#' := by
  obtain ⟨blanks, after, hsplit, _⟩ := exists_colon_of_entryOf? h
  rw [append_of_splitKey? hsplit]
  rcases splitKey?_cases hsplit with ⟨mark, inside, hmark, _, hkey⟩ | ⟨c, rest, hstart, _, hkey, _⟩
  · rw [hkey]
    refine ⟨mark, _, rfl, ?_⟩
    rcases hmark with rfl | rfl <;> decide
  · rw [hkey]
    refine ⟨c, _, rfl, isBlank_of_isKeyStart hstart, ?_, ?_⟩ <;> rintro rfl <;> cases hstart

theorem startsBody_of_entryOf? {entry : Entry} (h : entryOf? s = some entry) :
    startsBody s = true := by
  obtain ⟨x, rest, rfl, hblank, hdash, _⟩ := exists_cons_of_entryOf? h
  simp [startsBody, isIndent_of_isBlank hblank, hdash]

/-- A line with a key at its content column is an item or a parameter. -/
theorem isEntry_of_entryOf? {entry : Entry} (h : entryOf? l.body = some entry) :
    l.kind.isEntry = true := by
  obtain ⟨x, rest, hbody, hblank, hdash, hhash⟩ := exists_cons_of_entryOf? h
  have hmem : x ∈ l.body := by
    rw [hbody]
    exact List.mem_cons_self
  rcases Nat.lt_or_eq_of_le l.depth_le_column with hlt | heq
  · rw [kind_of_depth_lt_column hlt hmem hblank]
    rfl
  · have hu : l.unindented = x :: rest := by rw [← hbody, body, ← heq, drop_depth]
    have hsolid : Text.allBlank (x :: rest) = false := allBlank_eq_false List.mem_cons_self hblank
    have hkey : (entryOf? (x :: rest)).isSome = true := by rw [← hbody, h, Option.isSome_some]
    rw [kind, hu, if_neg (by simp [hsolid])]
    split
    · next hcons =>
        cases hcons
        exact absurd rfl hhash
    · next hcons =>
        cases hcons
        exact absurd rfl hdash
    · rw [if_pos hkey]
      rfl

/-- A line opens a block scalar if the text behind its key is a header. -/
theorem opensScalar_iff :
    l.opensScalar = true ↔
      ∃ entry, entryOf? l.body = some entry ∧ isScalarHeader entry.rest = true := by
  unfold opensScalar value?
  cases hentry : entryOf? l.body with
  | none => simp
  | some entry =>
      by_cases hblank : Text.allBlank entry.rest = true
      · simp [hblank, isScalarHeader_eq_false hblank]
      · simp [hblank, isScalarHeader_trim]

/-- A header stands behind the key and the colon of its line. -/
theorem exists_header_of_opensScalar (h : l.opensScalar = true) :
    ∃ key blanks c rest, l.body = key ++ (blanks ++ [':', c]) ++ rest ∧
      (∀ x ∈ blanks, Text.isIndent x = true) ∧ Text.isIndent c = true ∧
      isScalarHeader rest = true ∧
      (∃ more, splitKey? l.body = some (key, more)) ∧
      ∀ rest', entryOf? (key ++ (blanks ++ [':', c]) ++ rest') = some ⟨key, rest'⟩ := by
  obtain ⟨entry, hentry, hheader⟩ := opensScalar_iff.1 h
  have hrest : entry.rest ≠ [] := by
    intro hnil
    rw [hnil] at hheader
    cases hheader
  obtain ⟨blanks, c, hbody, hblanks, hc, hfree⟩ := exists_lead_of_entryOf? hentry hrest
  refine ⟨entry.key, blanks, c, entry.rest, hbody, hblanks, hc, hheader, ?_, hfree⟩
  obtain ⟨_, _, hsplit, _⟩ := exists_colon_of_entryOf? hentry
  exact ⟨_, hsplit⟩

theorem isEntry_of_opensScalar (h : l.opensScalar = true) : l.kind.isEntry = true := by
  obtain ⟨entry, hentry, _⟩ := opensScalar_iff.1 h
  exact isEntry_of_entryOf? hentry

end Line

end TaskTidy
