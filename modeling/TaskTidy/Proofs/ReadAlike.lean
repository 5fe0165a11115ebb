import TaskTidy.Proofs.CommandTexts
import TaskTidy.Proofs.InjectingSets
import TaskTidy.Proofs.Resemblance

/-!
# Lines that marks do not tell apart

A task gets its mark by what it belongs to, by the keys of its block, and by whether its command
only reads state. Two lines read alike if none of this tells them apart. When one takes the place of
the other, every task gets the mark that it got before, in the same place.
-/

namespace TaskTidy

open RuleSets

namespace Line

variable {l l' : Line}

/-- What a mark depends on in the value of a key: whether it opens a block scalar and whether it is
a command that reads state. -/
def valueReading? (l : Line) : Option (Bool × Bool) :=
  l.value?.map fun value => (isScalarHeader value, readsState value)

/-- Two lines that the marks do not tell apart, whether they are read as entries or as lines of a
script. -/
structure ReadsAlike (l l' : Line) : Prop extends SameEntry l l' where
  valueReading?_eq : l'.valueReading? = l.valueReading?
  holdsCommand_eq : holdsCommand l' = holdsCommand l
  readsState_eq : readsState (Text.trim l') = readsState (Text.trim l)

namespace ReadsAlike

theorem refl (l : Line) : ReadsAlike l l :=
  ⟨.refl l, rfl, rfl, rfl⟩

theorem resembles (h : ReadsAlike l l') (keys : List (List Char)) : Resembles keys l l' where
  toSharesKeys := h.sharesKeys keys
  isNone_value?_eq := by
    have hvalue := congrArg Option.isNone h.valueReading?_eq
    rwa [valueReading?, valueReading?, Option.isNone_map, Option.isNone_map] at hvalue

end ReadsAlike

end Line

namespace Buffer

variable {b : Buffer} {i j : Nat} {l : Line}

section

variable (hj : j < b.length) (hl : (b.line j).ReadsAlike l)

include hj hl

/-- Every line reads like the one in its place. -/
theorem readsAlike_line_set (k : Nat) : (b.line k).ReadsAlike (Buffer.line (b.set j l) k) :=
  rel_line_set hj hl Line.ReadsAlike.refl k

/-! ### Places -/

theorem fieldEnd_set (k : Nat) : Buffer.fieldEnd (b.set j l) k = b.fieldEnd k :=
  fieldEnd_set_of_isSome hj hl.toSameEntry
    ((readsAlike_line_set hj hl k).resembles []).isSome_value?_eq

/-! ### Commands -/

/-- The command of a module stands where it stood and reads as it read. -/
theorem map_commandLine?_set (k : Nat) :
    (Buffer.commandLine? (b.set j l) k).map (fun c => (c.index, readsState c.text)) =
      (b.commandLine? k).map fun c => (c.index, readsState c.text) := by
  have hresembles := hl.resembles ["cmd".toList]
  rw [commandLine?, commandLine?, commandKey?_set hj hresembles (by decide)]
  cases b.commandKey? k with
  | none => rfl
  | some key =>
      have hline := readsAlike_line_set hj hl
      have hvalue := (hline key).valueReading?_eq
      have hcommand (m : Nat) := (hline m).holdsCommand_eq
      simp only [Line.valueReading?, holdsCommand] at hvalue hcommand
      cases hb : (b.line key).value? with
      | none =>
          rw [hb, Option.map_none, Option.map_eq_none_iff] at hvalue
          simp only [hvalue, hb]
      | some value =>
          rw [hb] at hvalue
          obtain ⟨value', hvalue', hreading⟩ := Option.map_eq_some_iff.1 hvalue
          obtain ⟨hheader, hreads⟩ := Prod.mk.inj hreading
          simp only [hb, hvalue', hheader, valueLines_set hj hresembles.toSharesKeys, hcommand]
          split
          · simp only [Option.map_map, Function.comp_def, (hline _).readsState_eq]
          · simp only [Option.map_some, hreads]

end

end Buffer

namespace RuleSets

open Buffer

variable {b : Buffer} {i j : Nat} {l : Line}

/-- A task only reads state if the command found through its module reads state and no line of it
names a file that it creates or removes. -/
theorem isReadOnlyTask_eq_any (b : Buffer) (e : Extent) :
    isReadOnlyTask b e = (b.isTask e &&
      (!((b.blockLines e).any fun l => l.hasKeyIn (Text.keys ["creates", "removes"])) &&
        (b.findKey? e commandModules).any fun found =>
          !(found.index = e.start && (b.line e.start).value?.isNone) &&
            (b.commandLine? found.index).any fun command => readsState command.text)) := by
  rw [isReadOnlyTask]
  split
  · next htask =>
      rw [htask, Bool.true_and]
      cases b.findKey? e commandModules with
      | none => rw [Option.any_none, Bool.and_false]
      | some found =>
          rw [Option.any_some]
          dsimp only
          split
          · next hstart => simp [hstart]
          · next hstart =>
              have hother : (found.index = e.start && (b.line e.start).value?.isNone) = false := by
                rwa [← Bool.not_eq_true, Bool.and_eq_true, decide_eq_true_eq]
              rw [hother, Bool.not_false, Bool.true_and]
              cases b.commandLine? found.index with
              | none => rw [Option.any_none, Bool.and_false]
              | some command =>
                  rw [Option.any_some, readsState, Bool.and_left_comm, ← Bool.and_assoc]
  · next htask => rw [Bool.eq_false_iff.2 htask, Bool.false_and]

/-- A block has keys of effects as before when a line takes the place of one that shares them. -/
theorem any_hasKeyIn_set {keys : List (List Char)} (hl : (b.line j).SharesKeys keys l)
    (e : Extent) : (Buffer.blockLines (b.set j l) e).any (fun l => l.hasKeyIn keys) =
      (b.blockLines e).any fun l => l.hasKeyIn keys :=
  any_blockLines_set (hl.hasKeyIn_eq (List.Subset.refl _)) e

section

variable (hj : j < b.length) (hl : (b.line j).ReadsAlike l) (hi : i < b.length)

include hj hl hi

theorem isReadOnlyTask_set {stop : Nat} :
    isReadOnlyTask (b.set j l) ⟨i, stop⟩ = isReadOnlyTask b ⟨i, stop⟩ := by
  have hcommand (k : Nat) :
      (Buffer.commandLine? (b.set j l) k).any (fun command => readsState command.text) =
        (b.commandLine? k).any fun command => readsState command.text := by
    have hmap := congrArg (Option.any Prod.snd) (map_commandLine?_set hj hl k)
    rwa [Option.any_map, Option.any_map] at hmap
  have htask := isTask_set hj (hl.resembles taskListKeys) (List.Subset.refl _) (e := ⟨i, stop⟩) hi
  simp only [isReadOnlyTask_eq_any, htask, any_hasKeyIn_set (hl.sharesKeys _),
    findKey?_set hj (hl.sharesKeys _) (List.Subset.refl _),
    ((readsAlike_line_set hj hl i).resembles []).isNone_value?_eq, hcommand]

/-- The mark for a block stays when a line takes the place of one that reads alike. -/
theorem answer?_set_readOnlyCommand :
    readOnlyCommand.toBlockRule.answer? (b.set j l) i =
      readOnlyCommand.toBlockRule.answer? b i := by
  refine answer?_set_of_value? hj hl.toSameEntry ?_ ?_ fun f _ => fieldEnd_set hj hl f.index
  · exact selects_set hj (hl.sharesKeys commandModules) (List.Subset.refl _) i
  · intro _
    simp only [readOnlyCommand, isReadOnlyTask_set hj hl hi]

end

end RuleSets

end TaskTidy
