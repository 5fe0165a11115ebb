import Mathlib.Data.List.TakeWhile
import TaskTidy.Line.Entry

/-!
# Reading an entry

Behind a key stand blanks and a colon, and a blank behind the colon unless the text ends there. What
stands behind that blank does not matter to the key.
-/

namespace TaskTidy.Line

variable {s : List Char}

/-- A bare key goes as far as its characters do. -/
theorem splitKey?_of_isKeyStart {x : Char} (hx : isKeyStart x = true) (rest : List Char) :
    splitKey? (x :: rest) =
      some (x :: rest.takeWhile isKeyChar, rest.dropWhile isKeyChar) := by
  have hquote : ¬(x = '"' ∨ x = '\'') := by
    rintro (rfl | rfl)
    · cases hx
    · cases hx
  rw [splitKey?, if_neg hquote, if_pos hx]

/-- A quoted key goes as far as the next mark of its kind. -/
theorem splitKey?_of_mark {mark : Char} {inside : List Char} (hmark : mark = '"' ∨ mark = '\'')
    (hinside : mark ∉ inside) (more : List Char) :
    splitKey? (mark :: inside ++ mark :: more) = some (mark :: inside ++ [mark], more) := by
  have hall : ∀ x ∈ inside, (x != mark) = true := fun x hx => by
    rw [bne_iff_ne]
    rintro rfl
    exact hinside hx
  rw [List.cons_append, splitKey?, if_pos hmark, List.dropWhile_append_of_pos hall,
    List.takeWhile_append_of_pos hall]
  simp

/-- A key is a text in quotes, or a bare text that ends in front of a character no key holds. -/
theorem splitKey?_cases {key more : List Char} (h : splitKey? s = some (key, more)) :
    (∃ mark inside, (mark = '"' ∨ mark = '\'') ∧ mark ∉ inside ∧ key = mark :: inside ++ [mark]) ∨
      ∃ x rest, isKeyStart x = true ∧ (∀ y ∈ rest, isKeyChar y = true) ∧ key = x :: rest ∧
        ∀ y ∈ more.head?, isKeyChar y = false := by
  unfold splitKey? at h
  split at h
  · cases h
  next c rest =>
    split at h
    · next hmark =>
        split at h
        · cases h
        · next close more' hclose =>
            cases h
            obtain rfl : close = c := by
              have hhead := List.head?_dropWhile_not (· != c) rest
              rw [hclose] at hhead
              simpa using hhead
            refine Or.inl ⟨close, _, hmark, fun hmem => ?_, rfl⟩
            simpa using List.mem_takeWhile_imp hmem
    · split at h
      · next hstart =>
          obtain ⟨rfl, rfl⟩ := Prod.mk.inj (Option.some.inj h)
          refine Or.inr ⟨c, _, hstart, fun y hy => List.mem_takeWhile_imp hy, rfl, fun y hy => ?_⟩
          have hhead := List.head?_dropWhile_not isKeyChar rest
          rw [hy] at hhead
          simpa using hhead
      · cases h

/-- A key is read off the text down to the first character behind it. -/
theorem splitKey?_append {key more : List Char} {x : Char}
    (h : splitKey? s = some (key, x :: more)) (more' : List Char) :
    splitKey? (key ++ x :: more') = some (key, x :: more') := by
  rcases splitKey?_cases h with ⟨mark, inside, hmark, hinside, rfl⟩ |
    ⟨c, rest, hc, hrest, rfl, hend⟩
  · rw [List.append_assoc]
    exact splitKey?_of_mark hmark hinside _
  · have hx : ¬isKeyChar x = true := Bool.eq_false_iff.1 (hend x rfl)
    rw [List.cons_append, splitKey?_of_isKeyStart hc, List.takeWhile_append_of_pos hrest,
      List.dropWhile_append_of_pos hrest, List.takeWhile_cons_of_neg hx,
      List.dropWhile_cons_of_neg hx, List.append_nil]

/-- The value of a key is the text behind its colon and a blank. -/
theorem entryOf?_append {key : List Char} {c : Char}
    (hkey : splitKey? (key ++ [':']) = some (key, [':'])) (hc : Text.isIndent c = true)
    (rest : List Char) : entryOf? (key ++ ':' :: c :: rest) = some ⟨key, rest⟩ := by
  have hcolon : (':' :: c :: rest).dropWhile Text.isIndent = ':' :: c :: rest :=
    List.dropWhile_cons_of_neg (by decide)
  simp only [entryOf?, splitKey?_append hkey, hcolon, if_pos hc]

/-- Behind a key stand blanks and a colon, and a blank behind the colon unless the text ends there.
The text after that blank is free. -/
theorem exists_colon_of_entryOf? {entry : Entry} (h : entryOf? s = some entry) :
    ∃ blanks after, splitKey? s = some (entry.key, blanks ++ ':' :: after) ∧
      (∀ x ∈ blanks, Text.isIndent x = true) ∧
      (after = [] ∧ entry.rest = [] ∨ ∃ c, Text.isIndent c = true ∧ after = c :: entry.rest) ∧
      ∀ c rest, Text.isIndent c = true →
        entryOf? (entry.key ++ (blanks ++ ':' :: c :: rest)) = some ⟨entry.key, rest⟩ := by
  unfold entryOf? at h
  split at h
  · cases h
  next key more hsplit =>
    have hblanks : ∀ x ∈ more.takeWhile Text.isIndent, Text.isIndent x = true :=
      fun x hx => List.mem_takeWhile_imp hx
    have hmore := List.takeWhile_append_dropWhile (p := Text.isIndent) (l := more)
    generalize more.takeWhile Text.isIndent = blanks at hblanks hmore
    have hfree {after : List Char} (hcolon : more.dropWhile Text.isIndent = ':' :: after) (c : Char)
        (rest : List Char) (hc : Text.isIndent c = true) :
        entryOf? (key ++ (blanks ++ ':' :: c :: rest)) = some ⟨key, rest⟩ := by
      rw [← hmore, hcolon] at hsplit
      have hagain : splitKey? (key ++ (blanks ++ ':' :: c :: rest)) =
          some (key, blanks ++ ':' :: c :: rest) := by
        cases blanks with
        | nil => exact splitKey?_append hsplit _
        | cons x blanks => exact splitKey?_append hsplit _
      simp only [entryOf?, hagain]
      rw [List.dropWhile_append_of_pos hblanks, List.dropWhile_cons_of_neg (by decide)]
      simp [hc]
    split at h
    · next hcolon =>
        cases h
        refine ⟨blanks, [], ?_, hblanks, .inl ⟨rfl, rfl⟩, hfree hcolon⟩
        rw [hsplit, ← hmore, hcolon]
    · next c rest hcolon =>
        split at h
        · next hc =>
            cases h
            refine ⟨blanks, c :: rest, ?_, hblanks, .inr ⟨c, hc, rfl⟩, hfree hcolon⟩
            rw [hsplit, ← hmore, hcolon]
        · cases h
    · cases h

/-- Behind a key with a value stand blanks, a colon and a blank; the text after that is free. -/
theorem exists_lead_of_entryOf? {entry : Entry} (h : entryOf? s = some entry)
    (hrest : entry.rest ≠ []) :
    ∃ blanks c, s = entry.key ++ (blanks ++ [':', c]) ++ entry.rest ∧
      (∀ x ∈ blanks, Text.isIndent x = true) ∧ Text.isIndent c = true ∧
      ∀ rest, entryOf? (entry.key ++ (blanks ++ [':', c]) ++ rest) = some ⟨entry.key, rest⟩ := by
  obtain ⟨blanks, after, hsplit, hblanks, hafter, hfree⟩ := exists_colon_of_entryOf? h
  obtain ⟨_, hnil⟩ | ⟨c, hc, rfl⟩ := hafter
  · exact absurd hnil hrest
  · refine ⟨blanks, c, ?_, hblanks, hc, fun rest => ?_⟩
    · rw [append_of_splitKey? hsplit]
      simp
    · rw [← hfree c rest hc]
      simp

end TaskTidy.Line
