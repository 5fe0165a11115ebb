import Std.Data.HashMap
import TaskTidy.Text.Search

/-!
# Edit scripts

A script turns a list of old lines into a list of new lines by runs that are kept, deleted or
inserted. It is found by splitting both lists at a middle point of a shortest path, where a search
from the start meets a search from the end.
-/

namespace TaskTidy.Diff

/-- What a run of lines does. -/
inductive Action
  | keep
  | delete
  | insert
  deriving DecidableEq, Repr

/-- A run of lines: where it starts on both sides, and how long it is. -/
structure Run where
  action : Action
  old : Nat
  new : Nat
  length : Nat
  deriving DecidableEq, Repr

namespace Run

/-- The number of old lines of a run. -/
def oldLength (r : Run) : Nat :=
  if r.action = .insert then 0 else r.length

/-- The number of new lines of a run. -/
def newLength (r : Run) : Nat :=
  if r.action = .delete then 0 else r.length

end Run

/-- The lines of both sides. -/
structure Sides where
  old : Array (List Char)
  new : Array (List Char)

namespace Sides

/-- Whether an old line equals a new line. -/
def same (s : Sides) (i j : Nat) : Bool :=
  match s.old[i]?, s.new[j]? with
  | some a, some b => a == b
  | _, _ => false

/-- The number of equal lines from `i` and `j` on, `limit` at most. -/
def commonStart (s : Sides) (i j : Nat) : Nat → Nat
  | 0 => 0
  | limit + 1 => if s.same i j then commonStart s (i + 1) (j + 1) limit + 1 else 0

/-- The number of equal lines before `i` and `j`, `limit` at most. -/
def commonEnd (s : Sides) (i j : Nat) : Nat → Nat
  | 0 => 0
  | limit + 1 =>
      if i = 0 ∨ j = 0 then 0
      else if s.same (i - 1) (j - 1) then commonEnd s (i - 1) (j - 1) limit + 1
      else 0

end Sides

/-- A part of both sides. -/
structure Window where
  old : Nat
  oldLength : Nat
  new : Nat
  newLength : Nat

/-- The farthest points reached on the diagonals of a search. -/
abbrev Frontier := Std.HashMap Int Int

/-- The point reached on a diagonal. -/
def reached (f : Frontier) (k : Int) : Int :=
  f.getD k 0

/-- The point from which a search goes on along diagonal `k` after `d - 1` edits. -/
def entering (f : Frontier) (d k : Int) : Int :=
  if k = -d ∨ (k ≠ d ∧ reached f (k - 1) < reached f (k + 1)) then reached f (k + 1)
  else reached f (k - 1) + 1

/-- The equal lines that a search passes from a point, forwards or backwards. -/
def sliding (s : Sides) (w : Window) (backwards : Bool) (x y : Int) : Int :=
  let n := w.oldLength
  let m := w.newLength
  if x < n ∧ 0 ≤ y ∧ y < m then
    let i := x.toNat
    let j := y.toNat
    if backwards then s.commonEnd (w.old + n - i) (w.new + m - j) (min (n - i) (m - j))
    else s.commonStart (w.old + i) (w.new + j) (min (n - i) (m - j))
  else 0

/-- Advance a search over the diagonals `ks`. It stops where it meets the search from the other end,
and returns the meeting point counted from the start of the window. -/
def advance (s : Sides) (w : Window) (backwards : Bool) (other : Frontier) (d : Int) :
    List Int → Frontier → Frontier × Option (Int × Int)
  | [], own => (own, none)
  | k :: ks, own =>
      let n : Int := w.oldLength
      let m : Int := w.newLength
      let delta := n - m
      let start := entering own d k
      let x := start + sliding s w backwards start (start - k)
      let next := own.insert k x
      let near := if backwards then d else d - 1
      let meets := decide (delta % 2 = 0) = backwards ∧ (k - delta).natAbs ≤ near ∧
        n ≤ x + reached other (delta - k)
      if meets then
        (next, some (if backwards then (n - x, m - (x - k)) else (start, start - k)))
      else advance s w backwards other d ks next

/-- The diagonals of round `d`, from the highest down. -/
def diagonals (d : Nat) : List Int :=
  (List.range (d + 1)).map fun (i : Nat) => (d : Int) - 2 * (i : Int)

/-- Search from both ends in turn until the searches meet. -/
def meetFrom (s : Sides) (w : Window) : Nat → Nat → Frontier → Frontier → Option (Int × Int)
  | 0, _, _, _ => none
  | fuel + 1, d, forwards, backwards =>
      match advance s w false backwards d (diagonals d) forwards with
      | (_, some point) => some point
      | (forwards, none) =>
          match advance s w true forwards d (diagonals d) backwards with
          | (_, some point) => some point
          | (backwards, none) => meetFrom s w fuel (d + 1) forwards backwards

/-- The frontier from which the first diagonal is entered. -/
def outset : Frontier :=
  (∅ : Frontier).insert 1 0

/-- A point at which a shortest path through the window can be split. -/
def meet (s : Sides) (w : Window) : Option (Int × Int) :=
  meetFrom s w (w.oldLength + w.newLength + 1) 0 outset outset

/-- A run, unless it is empty. -/
def runOf (action : Action) (old new length : Nat) : List Run :=
  if length = 0 then [] else [⟨action, old, new, length⟩]

/-- The script of a window; `fuel` bounds the depth of the splits. -/
def scriptOf (s : Sides) : Nat → Window → List Run
  | 0, w =>
      runOf .delete w.old w.new w.oldLength ++ runOf .insert (w.old + w.oldLength) w.new w.newLength
  | fuel + 1, w =>
      let start := s.commonStart w.old w.new (min w.oldLength w.newLength)
      let n := w.oldLength - start
      let m := w.newLength - start
      let final := s.commonEnd (w.old + w.oldLength) (w.new + w.newLength) (min n m)
      let core : Window := ⟨w.old + start, n - final, w.new + start, m - final⟩
      let middle :=
        if core.newLength = 0 then runOf .delete core.old core.new core.oldLength
        else if core.oldLength = 0 then runOf .insert core.old core.new core.newLength
        else match meet s core with
          | none =>
              runOf .delete core.old core.new core.oldLength ++
                runOf .insert core.old core.new core.newLength
          | some (x, y) =>
              let i := x.toNat
              let j := y.toNat
              scriptOf s fuel ⟨core.old, i, core.new, j⟩ ++
                scriptOf s fuel ⟨core.old + i, core.oldLength - i, core.new + j, core.newLength - j⟩
      runOf .keep w.old w.new start ++ middle ++
        runOf .keep (core.old + core.oldLength) (core.new + core.newLength) final

/-- A shortest script between both sides. -/
def script (s : Sides) : List Run :=
  scriptOf s (s.old.size + s.new.size + 1) ⟨0, s.old.size, 0, s.new.size⟩

end TaskTidy.Diff
