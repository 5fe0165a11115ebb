/-!
# Searching and splitting text

Searching for a literal text, splitting at a separator and stripping a literal beginning. A split
keeps every character but the separators, so joining the pieces gives the text back.
-/

namespace TaskTidy.Text

/-- Whether `needle` occurs in the text as a contiguous piece. -/
def contains (needle : List Char) : List Char → Bool
  | [] => needle.isEmpty
  | c :: rest => needle.isPrefixOf (c :: rest) || contains needle rest

/-- Searching decides whether the needle is a contiguous piece of the text. -/
theorem contains_iff {needle : List Char} {s : List Char} :
    contains needle s = true ↔ needle <:+: s := by
  induction s with
  | nil => simp [contains]
  | cons c rest ih =>
      simp [contains, List.infix_cons_iff, ih]

/-- The text before and after the first occurrence of `needle`. -/
def splitAtFirst? (needle : List Char) : List Char → Option (List Char × List Char)
  | [] => if needle.isEmpty then some ([], []) else none
  | c :: rest =>
      if needle.isPrefixOf (c :: rest) then some ([], (c :: rest).drop needle.length)
      else (splitAtFirst? needle rest).map fun parts => (c :: parts.1, parts.2)

/-- The rest of the text after the literal beginning `start`. -/
def strip? (start s : List Char) : Option (List Char) :=
  if start.isPrefixOf s then some (s.drop start.length) else none

/-- Stripping succeeds exactly on the texts that begin with `start`. -/
theorem strip?_eq_some_iff {start s rest : List Char} :
    strip? start s = some rest ↔ s = start ++ rest := by
  unfold strip?
  split
  · next h =>
      obtain ⟨t, rfl⟩ := List.isPrefixOf_iff_prefix.1 h
      simp
  · next h =>
      constructor
      · intro h'
        cases h'
      · rintro rfl
        exact absurd (List.isPrefixOf_iff_prefix.2 (List.prefix_append _ _)) h

/-- The pieces of a text between the separators: one more than there are separators. -/
def pieces (sep : Char) : List Char → List (List Char)
  | [] => [[]]
  | c :: rest =>
      if c = sep then [] :: pieces sep rest
      else match pieces sep rest with
        | [] => [[c]]
        | piece :: more => (c :: piece) :: more

theorem pieces_ne_nil (sep : Char) (s : List Char) : pieces sep s ≠ [] := by
  cases s with
  | nil => simp [pieces]
  | cons c rest =>
      unfold pieces
      split
      · simp
      · split <;> simp

/-- Join pieces with a text between any two neighbours. -/
def joinWith (sep : List Char) : List (List Char) → List Char
  | [] => []
  | [piece] => piece
  | piece :: next :: more => piece ++ sep ++ joinWith sep (next :: more)

/-- Joining the pieces of a text with the separator gives the text back. -/
theorem joinWith_pieces (sep : Char) (s : List Char) : joinWith [sep] (pieces sep s) = s := by
  induction s with
  | nil => rfl
  | cons c rest ih =>
      unfold pieces
      split
      · next h =>
          cases hp : pieces sep rest with
          | nil => exact absurd hp (pieces_ne_nil sep rest)
          | cons piece more => simp [joinWith, ← hp, ih, h]
      · cases hp : pieces sep rest with
        | nil => exact absurd hp (pieces_ne_nil sep rest)
        | cons piece more =>
            rw [hp] at ih
            cases more <;> simp_all [joinWith]

/-- The keys of a literal list of names. -/
def keys (names : List String) : List (List Char) :=
  names.map String.toList

end TaskTidy.Text
