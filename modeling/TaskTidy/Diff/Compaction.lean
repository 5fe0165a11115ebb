import TaskTidy.Diff.Script

/-!
# Compact scripts

Runs of the same action are brought together: a deletion or an insertion first moves up as far as it
can, over runs of the opposite action and, for an insertion, over kept lines that repeat its end;
then it moves down in the same way. All deletions are moved before the insertions.
-/

namespace TaskTidy.Diff

/-- A script with a run in focus; the runs above it are in reverse. -/
structure Focus where
  above : List Run
  run : Run
  below : List Run

/-- Whether two runs change opposite sides. -/
def opposite (a b : Run) : Bool :=
  a.action != .keep && b.action != .keep && a.action != b.action

/-- Move the run in focus up, `fuel` steps at most. -/
def shiftUp (s : Sides) : Nat → Focus → Focus
  | 0, f => f
  | fuel + 1, f =>
      match f.above with
      | [] => f
      | previous :: above =>
          if previous.action = f.run.action then
            let joined := { previous with length := previous.length + f.run.length }
            shiftUp s fuel ⟨above, joined, f.below⟩
          else if opposite previous f.run then
            shiftUp s fuel ⟨above, f.run, previous :: f.below⟩
          else
            let shared :=
              if f.run.action = .insert then
                s.commonEnd (previous.old + previous.length) (f.run.new + f.run.length)
                  (min previous.length f.run.length)
              else 0
            if shared = 0 then
              if previous.length = 0 then shiftUp s fuel ⟨above, f.run, f.below⟩ else f
            else
              let below := match f.below with
                | ⟨.keep, old, new, length⟩ :: rest =>
                    ⟨.keep, old - shared, new - shared, length + shared⟩ :: rest
                | rest =>
                    ⟨.keep, previous.old + previous.length - shared,
                      f.run.new + f.run.length - shared, shared⟩ :: rest
              let shrunk := { previous with length := previous.length - shared }
              let run := { f.run with old := f.run.old - shared, new := f.run.new - shared }
              shiftUp s fuel ⟨if shrunk.length = 0 then above else shrunk :: above, run, below⟩

/-- Move the run in focus down, `fuel` steps at most. -/
def shiftDown (s : Sides) : Nat → Focus → Focus
  | 0, f => f
  | fuel + 1, f =>
      match f.below with
      | [] => f
      | next :: below =>
          if next.action = f.run.action then
            shiftDown s fuel ⟨f.above, { f.run with length := f.run.length + next.length }, below⟩
          else if opposite next f.run then
            shiftDown s fuel ⟨next :: f.above, f.run, below⟩
          else
            let shared :=
              if f.run.action = .insert then
                s.commonStart next.old f.run.new (min next.length f.run.length)
              else 0
            if shared = 0 then
              if next.length = 0 then shiftDown s fuel ⟨f.above, f.run, below⟩ else f
            else
              let above := match f.above with
                | ⟨.keep, old, new, length⟩ :: rest => ⟨.keep, old, new, length + shared⟩ :: rest
                | rest => ⟨.keep, next.old, f.run.new, shared⟩ :: rest
              let shrunk : Run :=
                ⟨.keep, next.old + shared, next.new + shared, next.length - shared⟩
              let run := { f.run with old := f.run.old + shared, new := f.run.new + shared }
              shiftDown s fuel ⟨above, run, if shrunk.length = 0 then below else shrunk :: below⟩

/-- Walk down a script and shift every run of an action up and then down. -/
def shiftAll (s : Sides) (limit : Nat) (action : Action) : Nat → List Run → List Run → List Run
  | 0, above, below => above.reverse ++ below
  | _ + 1, above, [] => above.reverse
  | fuel + 1, above, run :: below =>
      if run.action = action then
        let f := shiftDown s limit (shiftUp s limit ⟨above, run, below⟩)
        shiftAll s limit action fuel (f.run :: f.above) f.below
      else shiftAll s limit action fuel (run :: above) below

/-- A script with its deletions and then its insertions shifted. Every step of a shift passes a line
or a run, and every step of a walk passes a run. -/
def compact (s : Sides) (runs : List Run) : List Run :=
  let limit := 4 * (s.old.size + s.new.size + runs.length + 1)
  let shifted := shiftAll s limit .delete limit [] runs
  shiftAll s limit .insert limit [] shifted

end TaskTidy.Diff
