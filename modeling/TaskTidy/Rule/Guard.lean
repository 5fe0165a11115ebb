import TaskTidy.Block.Ownership
import TaskTidy.Rule.Basic

/-!
# Guards

A guard is a condition on the surroundings of a line. A guarded line rule answers only where all its
guards allow it.
-/

namespace TaskTidy

/-- A condition on the surroundings of a line. -/
inductive Guard
  | itemLevel
  | taskList
  | nested
  | ownerLacks (key : List Char)
  | notAfterComment
  | outsideScalar
  deriving DecidableEq

namespace Guard

/-- Whether the line above `i` is a comment. -/
def followsComment (b : Buffer) : Nat → Bool
  | 0 => false
  | i + 1 => (Text.trimStart (b.line i)).head? == some '#'

/-- Whether the guard allows line `i`. -/
def allows (b : Buffer) (i : Nat) : Guard → Bool
  | .itemLevel => b.isItemLevel i
  | .taskList => b.inTaskList i
  | .nested => b.isNested i
  | .ownerLacks key => !b.ownerHas i key
  | .notAfterComment => !followsComment b i
  | .outsideScalar => !b.inScalar i

end Guard

namespace LineRule

/-- A line rule that answers with `f` where all guards allow it. -/
def guarded (name : String) (guards : List Guard) (f : Buffer → Nat → Option Rewrite) :
    LineRule where
  name := name
  rewrite b i :=
    match f b i with
    | none => none
    | some answer => if guards.all (Guard.allows b i) then some answer else none

/-- A guarded rule that replaces a line by a function of its text. -/
def replacing (name : String) (guards : List Guard) (f : Line → Option Line) : LineRule :=
  guarded name guards fun b i => (f (b.line i)).map Rewrite.replace

/-- A guarded rule that deletes the lines whose text satisfies `p`. -/
def deleting (name : String) (guards : List Guard) (p : Line → Bool) : LineRule :=
  guarded name guards fun b i => if p (b.line i) then some .delete else none

theorem guarded_rewrite_eq_some_iff {name : String} {guards : List Guard}
    {f : Buffer → Nat → Option Rewrite} {b : Buffer} {i : Nat} {answer : Rewrite} :
    (guarded name guards f).rewrite b i = some answer ↔
      f b i = some answer ∧ ∀ g ∈ guards, g.allows b i = true := by
  simp only [guarded]
  split
  · next h => simp [h]
  · next a h =>
      rw [h, ← List.all_eq_true]
      by_cases hg : guards.all (Guard.allows b i) = true <;> simp [hg]

end LineRule

end TaskTidy
