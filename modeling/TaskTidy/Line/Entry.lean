import TaskTidy.Text.Blank
import TaskTidy.Text.Word

/-!
# Keys at the start of a text

An entry is a key, a colon, and a space, a tab or the end of the text. A key is bare or stands
between quotes; a bare key starts with an ASCII letter, a digit, an underscore or a dollar sign.
-/

namespace TaskTidy

/-- A line is its text without a terminator. -/
abbrev Line := List Char

namespace Line

/-- A key and the text after its colon and the blank that follows. -/
structure Entry where
  key : List Char
  rest : List Char
  deriving DecidableEq

/-- The first character of a bare key. -/
def isKeyStart (c : Char) : Bool :=
  c.isAlphanum || c == '_' || c == '$'

/-- Any later character of a bare key. -/
def isKeyChar (c : Char) : Bool :=
  Text.isWord c || c == '.' || c == '$' || c == '/' || c == '-'

/-- The key at the start of a text and the text after it. -/
def splitKey? : List Char → Option (List Char × List Char)
  | [] => none
  | c :: rest =>
      if c = '"' ∨ c = '\'' then
        match rest.dropWhile (· != c) with
        | [] => none
        | close :: more => some (c :: rest.takeWhile (· != c) ++ [close], more)
      else if isKeyStart c then some (c :: rest.takeWhile isKeyChar, rest.dropWhile isKeyChar)
      else none

/-- A key and the rest of the text make up the text. -/
theorem append_of_splitKey? {s key rest : List Char} (h : splitKey? s = some (key, rest)) :
    s = key ++ rest := by
  unfold splitKey? at h
  split at h
  · cases h
  · next c tail =>
      split at h
      · split at h
        · cases h
        · next close more hd =>
            have happ := List.takeWhile_append_dropWhile (p := (· != c)) (l := tail)
            rw [hd] at happ
            simp only [Option.some.injEq, Prod.mk.injEq] at h
            rw [← h.1, ← h.2]
            simpa using happ.symm
      · split at h
        · simp only [Option.some.injEq, Prod.mk.injEq] at h
          rw [← h.1, ← h.2]
          simp [List.takeWhile_append_dropWhile]
        · cases h

/-- The entry at the start of a text. -/
def entryOf? (s : List Char) : Option Entry :=
  match splitKey? s with
  | none => none
  | some (key, more) =>
      match more.dropWhile Text.isIndent with
      | [':'] => some ⟨key, []⟩
      | ':' :: c :: rest => if Text.isIndent c then some ⟨key, rest⟩ else none
      | _ => none

end Line

end TaskTidy
