import Mathlib.Algebra.Order.BigOperators.Group.Finset
import Mathlib.Data.Prod.Lex
import TaskTidy.Proofs.Frames

/-!
# The rank of a document

Documents are ranked by their number of lines, then by what no rewrite takes away from a line, then
by how far the one-way rewrites have come, and last by the weight of the text. A line climbs when it
is rewritten so that its frame stays and its part of the rank does not fall.
-/

namespace TaskTidy

namespace Line

/-- Whether the line ends without a space and without a tab. -/
def isStripped (l : Line) : Bool :=
  l.getLast?.all fun c => !Text.isIndent c

/-- What no rewrite takes away from a line: its ampersands, and that it is stripped. -/
def marks (l : Line) : Nat :=
  l.count '&' + l.isStripped.toNat

/-- Whether the line is a name of a unit as the rules for units write it. -/
def namesUnit (l : Line) : Bool :=
  RuleSets.unitRules.any fun r => l.unindented == "name: ".toList ++ r.2.2.2.toList

/-- The key that the set for ignored errors rewrites, without its colon. -/
def ignoreKey : List Char :=
  "ignore_errors".toList

/-- How far the rewrites that only go one way have come. A line at the level of an item never loses
its collection and never gets the name of a unit. -/
def stage (own : Bool) (l : Line) : Nat :=
  (!ignoreKey.isPrefixOf l.unindented).toNat +
    if own then 0
    else (!RuleSets.builtinCollection.isPrefixOf l.unindented).toNat + l.namesUnit.toNat

/-- The length of a line, with a bonus for capitals that is worth less than a character. -/
def weight (l : Line) : Nat :=
  4 * l.length + l.countP fun c => !Text.isLowercase c

/-- The line is rewritten in its frame, and no part of its rank falls. `own` says whether the line
is at the level of an item. -/
structure Climbs (own : Bool) (l l' : Line) : Prop where
  sameFrame : SameFrame l l'
  marks_le : l.marks ≤ l'.marks
  stage_le : l.stage own ≤ l'.stage own
  lt : l' = l ∨ l.marks < l'.marks ∨ l.stage own < l'.stage own ∨ l.weight < l'.weight

end Line

namespace Buffer

variable {b c : Buffer} {i : Nat} {l : Line}

/-- The marks of all lines. -/
def marks (b : Buffer) : Nat :=
  ∑ i ∈ Finset.range b.length, (b.line i).marks

/-- The stages of all lines. -/
def stage (b : Buffer) : Nat :=
  ∑ i ∈ Finset.range b.length, (b.line i).stage (b.isItemLevel i)

/-- The weight of all lines. -/
def weight (b : Buffer) : Nat :=
  ∑ i ∈ Finset.range b.length, (b.line i).weight

/-- The rank of a document: an earlier part outweighs all later ones. -/
def rank (b : Buffer) : Nat ×ₗ Nat ×ₗ Nat ×ₗ Nat :=
  toLex (b.length, toLex (b.marks, toLex (b.stage, b.weight)))

theorem rank_lt_of_length (h : b.length < c.length) : b.rank < c.rank :=
  Prod.Lex.toLex_lt_toLex.2 (Or.inl h)

theorem rank_lt_of_marks (hlen : b.length = c.length) (h : b.marks < c.marks) :
    b.rank < c.rank :=
  Prod.Lex.toLex_lt_toLex.2 (Or.inr ⟨hlen, Prod.Lex.toLex_lt_toLex.2 (Or.inl h)⟩)

/-- A document of the same length ranks higher if no part falls and one of them rises. -/
theorem rank_lt_of_le (hlen : b.length = c.length) (hmarks : b.marks ≤ c.marks)
    (hstage : b.stage ≤ c.stage)
    (h : b.marks < c.marks ∨ b.stage < c.stage ∨ b.weight < c.weight) : b.rank < c.rank := by
  rcases Nat.lt_or_eq_of_le hmarks with hlt | hmarks
  · exact rank_lt_of_marks hlen hlt
  · refine Prod.Lex.toLex_lt_toLex.2 (Or.inr ⟨hlen, ?_⟩)
    refine Prod.Lex.toLex_lt_toLex.2 (Or.inr ⟨hmarks, ?_⟩)
    rw [Prod.Lex.toLex_lt_toLex]
    dsimp only
    omega

section

variable {f g : Nat → Nat} {n : Nat}

private theorem sum_le_of_ne (hne : ∀ j < n, j ≠ i → g j = f j) (h : f i ≤ g i) :
    ∑ j ∈ Finset.range n, f j ≤ ∑ j ∈ Finset.range n, g j := by
  apply Finset.sum_le_sum
  intro j hj
  by_cases hji : j = i
  · rwa [hji]
  · rw [hne j (Finset.mem_range.1 hj) hji]

private theorem sum_lt_of_ne (hi : i < n) (hne : ∀ j < n, j ≠ i → g j = f j) (h : f i < g i) :
    ∑ j ∈ Finset.range n, f j < ∑ j ∈ Finset.range n, g j := by
  refine Finset.sum_lt_sum (fun j hj => ?_) ⟨i, Finset.mem_range.2 hi, h⟩
  by_cases hji : j = i
  · rw [hji]
    exact Nat.le_of_lt h
  · rw [hne j (Finset.mem_range.1 hj) hji]

end

/-- A line that gains marks raises the rank, whatever the other lines make of it. -/
theorem rank_lt_set_of_marks (hi : i < b.length) (h : (b.line i).marks < l.marks) :
    b.rank < Buffer.rank (b.set i l) := by
  apply rank_lt_of_marks List.length_set.symm
  rw [marks, marks, List.length_set]
  refine sum_lt_of_ne hi (fun j _ hji => ?_) ?_
  · rw [line_set_of_ne hji]
  · rwa [line_set_self hi]

/-- A line that climbs raises the rank, because all other lines keep their parts of it. -/
theorem rank_lt_set_of_climbs (hi : i < b.length) (h : (b.line i).Climbs (b.isItemLevel i) l) :
    b.set i l = b ∨ b.rank < Buffer.rank (b.set i l) := by
  have hlevel {j : Nat} (hj : j < b.length) :=
    isItemLevel_set hi h.sameFrame hj
  have hmarks : ∀ j < b.length, j ≠ i →
      (Buffer.line (b.set i l) j).marks = (b.line j).marks := fun j _ hji => by
    rw [line_set_of_ne hji]
  have hstage : ∀ j < b.length, j ≠ i →
      (Buffer.line (b.set i l) j).stage (Buffer.isItemLevel (b.set i l) j) =
        (b.line j).stage (b.isItemLevel j) := fun j hj hji => by
    rw [line_set_of_ne hji, hlevel hj]
  have hweight : ∀ j < b.length, j ≠ i →
      (Buffer.line (b.set i l) j).weight = (b.line j).weight := fun j _ hji => by
    rw [line_set_of_ne hji]
  by_cases hl : l = b.line i
  · left
    rw [hl, line_eq_getElem b i hi, List.set_getElem_self]
  · right
    have hself := line_set_self hi (l := l)
    refine rank_lt_of_le List.length_set.symm ?_ ?_ ?_
    · rw [marks, marks, List.length_set]
      exact sum_le_of_ne hmarks (by rw [hself]; exact h.marks_le)
    · rw [stage, stage, List.length_set]
      exact sum_le_of_ne hstage (by rw [hself, hlevel hi]; exact h.stage_le)
    · rw [marks, marks, stage, stage, weight, weight, List.length_set]
      rcases h.lt.resolve_left hl with hlt | hlt | hlt
      · exact Or.inl (sum_lt_of_ne hi hmarks (by rwa [hself]))
      · exact Or.inr (Or.inl (sum_lt_of_ne hi hstage (by rwa [hself, hlevel hi])))
      · exact Or.inr (Or.inr (sum_lt_of_ne hi hweight (by rwa [hself])))

end Buffer

end TaskTidy
