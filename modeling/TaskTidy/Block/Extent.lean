import TaskTidy.Line.Basic

/-!
# Blocks of a document

A block is a start line with every following line that is deeper than it or blank. The extent of a
block is found downwards; the parent of a line, the nearest significant line above it that is
shallower, is found upwards.
-/

namespace TaskTidy

/-- Why a question about the structure of a document has no answer. -/
inductive StructuralError
  | outOfRange (index lines : Nat)
  deriving DecidableEq, Repr

/-- The wording of a structural error. -/
def StructuralError.message : StructuralError → String
  | .outOfRange index lines =>
      s!"line index {index} is out of range for a document of {lines} lines"

/-- A block as a half-open range of line indexes, its start line included. -/
structure Extent where
  start : Nat
  stop : Nat
  deriving DecidableEq, Repr

/-- The indexes below the start line. -/
def Extent.interior (e : Extent) : List Nat :=
  List.range' (e.start + 1) (e.stop - (e.start + 1))

theorem Extent.mem_interior {e : Extent} {i : Nat} :
    i ∈ e.interior ↔ e.start < i ∧ i < e.stop := by
  simp only [interior, List.mem_range'_1]
  omega

/-- Whether an index belongs to the block. -/
def Extent.contains (e : Extent) (i : Nat) : Bool :=
  e.start ≤ i && i < e.stop

namespace Line

/-- Whether a line below a start line of depth `base` still belongs to its block. -/
def isInside (base : Nat) (l : Line) : Bool :=
  Text.allBlank l || base < l.depth

end Line

namespace Buffer

/-- The lines after index `i` up to the first that fails `p`. -/
def runAfter (b : Buffer) (i : Nat) (p : Line → Bool) : List Line :=
  (b.drop (i + 1)).takeWhile p

/-- The index just past the last line of a run after `i` that is not blank. -/
def lastContent (i : Nat) (run : List Line) : Nat :=
  i + 1 + (run.reverse.dropWhile Text.allBlank).length

/-- The index just past the block that starts at `i`. -/
def stopOf (b : Buffer) (i : Nat) : Nat :=
  i + 1 + (b.runAfter i (Line.isInside (b.line i).depth)).length

/-- The block that starts at an index. -/
def extentOf (b : Buffer) (i : Nat) : Except StructuralError Extent :=
  if i < b.length then .ok ⟨i, b.stopOf i⟩ else .error (.outOfRange i b.length)

/-- A block exists exactly at the lines of the document. -/
theorem extentOf_eq_ok_iff {b : Buffer} {i : Nat} {e : Extent} :
    b.extentOf i = .ok e ↔ i < b.length ∧ e = ⟨i, b.stopOf i⟩ := by
  unfold extentOf
  split
  · next h =>
      constructor
      · intro he
        cases he
        exact ⟨h, rfl⟩
      · rintro ⟨_, rfl⟩
        rfl
  · next h =>
      constructor
      · intro he
        cases he
      · rintro ⟨hi, _⟩
        exact absurd hi h

/-- The lines of an extent below its start line. -/
def interiorLines (b : Buffer) (e : Extent) : List Line :=
  (b.drop (e.start + 1)).take (e.stop - (e.start + 1))

/-- The lines of an extent. -/
def blockLines (b : Buffer) (e : Extent) : List Line :=
  (b.drop e.start).take (e.stop - e.start)

/-- The index just past the last line of the interior that is not blank; without one, the index
after the start line. -/
def contentEnd (b : Buffer) (e : Extent) : Nat :=
  lastContent e.start (b.interiorLines e)

/-- The lines above index `i`, nearest first. -/
def above (b : Buffer) (i : Nat) : List Line :=
  (b.take i).reverse

theorem above_succ {b : Buffer} {i : Nat} (h : i < b.length) :
    b.above (i + 1) = b.line i :: b.above i := by
  rw [above, above, List.take_add_one, List.getElem?_eq_getElem h, line_eq_getElem b i h]
  simp

theorem above_of_length_le {b : Buffer} {i : Nat} (h : b.length ≤ i) :
    b.above i = b.above b.length := by
  rw [above, above, List.take_of_length_le h, List.take_length]

theorem length_above {b : Buffer} {i : Nat} (h : i ≤ b.length) : (b.above i).length = i := by
  simp [above, h]

/-- The index of the nearest of the lines above that satisfies `p`. The index of a line is the
number of lines above it. -/
def nearest? (p : Line → Bool) : List Line → Option Nat
  | [] => none
  | l :: above => if p l then some above.length else nearest? p above

/-- The nearest line above `i` that satisfies `p`. -/
def lastBefore? (b : Buffer) (p : Line → Bool) (i : Nat) : Option Nat :=
  nearest? p (b.above i)

theorem lastBefore?_succ {b : Buffer} {p : Line → Bool} {i : Nat} (h : i < b.length) :
    b.lastBefore? p (i + 1) = if p (b.line i) then some i else b.lastBefore? p i := by
  simp only [lastBefore?, above_succ h, nearest?, length_above (Nat.le_of_lt h)]

theorem lastBefore?_lt {b : Buffer} {p : Line → Bool} {i j : Nat}
    (h : b.lastBefore? p i = some j) : j < i := by
  have of_nearest : ∀ above : List Line, nearest? p above = some j → j < above.length := by
    intro above
    induction above with
    | nil => simp [nearest?]
    | cons l above ih =>
        unfold nearest?
        split
        · rintro ⟨⟩
          simp
        · intro hj
          exact Nat.lt_succ_of_lt (ih hj)
  have hlen : (b.above i).length ≤ i := by
    rw [above, List.length_reverse, List.length_take]
    exact Nat.min_le_left _ _
  exact Nat.lt_of_lt_of_le (of_nearest _ h) hlen

/-- Whether a line can be the parent of a line of depth `d`. -/
def encloses (d : Nat) (l : Line) : Bool :=
  l.kind.isSignificant && l.depth < d

/-- The nearest significant line above `i` that is shallower than it. -/
def parent? (b : Buffer) (i : Nat) : Option Nat :=
  b.lastBefore? (encloses (b.line i).depth) i

theorem parent?_lt {b : Buffer} {i j : Nat} (h : b.parent? i = some j) : j < i :=
  lastBefore?_lt h

/-- The lines above that are significant and shallower than `d` and than every such line below them,
nearest first. -/
def ancestorsAmong (d : Nat) : List Line → List Nat
  | [] => []
  | l :: above =>
      if encloses d l then above.length :: ancestorsAmong l.depth above
      else ancestorsAmong d above

/-- The parent of a line, the parent of that, and so on. -/
def ancestors (b : Buffer) (i : Nat) : List Nat :=
  ancestorsAmong (b.line i).depth (b.above i)

private theorem ancestorsAmong_above {b : Buffer} {i : Nat} (d : Nat) (hi : i ≤ b.length) :
    ancestorsAmong d (b.above i) =
      match b.lastBefore? (encloses d) i with
      | none => []
      | some j => j :: b.ancestors j := by
  induction i with
  | zero => rfl
  | succ i ih =>
      have h : i < b.length := hi
      rw [above_succ h, lastBefore?_succ h]
      unfold ancestorsAmong
      by_cases hd : encloses d (b.line i) = true
      · simp [hd, length_above (Nat.le_of_lt h), ancestors]
      · simp only [hd, Bool.false_eq_true, if_false]
        exact ih (Nat.le_of_lt h)

/-- The ancestors are the chain of parents. -/
theorem ancestors_eq (b : Buffer) (i : Nat) :
    b.ancestors i =
      match b.parent? i with
      | none => []
      | some j => j :: b.ancestors j := by
  rcases Nat.le_total i b.length with h | h
  · exact ancestorsAmong_above _ h
  · simp only [ancestors, parent?, lastBefore?, above_of_length_le h]
    exact ancestorsAmong_above _ (Nat.le_refl _)

end Buffer

end TaskTidy
