import TaskTidy.Settings.Basic

/-!
# Values under a layer

A layer of a configuration gives a leaf a value if one of its entries leads to it; of several such
entries the last one counts. What is laid over a lower value then holds at a leaf the value that the
layer gives it, or else the value that was there before. So in tables that are laid over each other
a leaf has the value of the last table that gives it one.
-/

namespace TaskTidy.Toml

/-- The steps to a leaf: the key of each table on the way, and the place of that key if an array
stands for the table. -/
abbrev Trail := List (String × Nat)

namespace Value

/-- Whether a value can stand at a leaf: a scalar or an array. -/
def isLeaf : Value → Bool
  | .missing | .table _ => false
  | _ => true

/-- The value at the end of a trail. -/
def at? : Trail → Option Value → Option Value
  | [], v => v
  | (key, place) :: rest, v => at? rest (v.bind (Settings.valueAt? key place))

@[simp]
theorem at?_none (trail : Trail) : at? trail none = none := by
  induction trail with
  | nil => rfl
  | cons step rest ih => exact ih

end Value

mutual

/-- The value that a value of a layer gives to the leaf at the end of a trail. An array gives it as
a whole or by its places, a table by its entries. -/
def Value.leaf? : Value → Trail → Option Value
  | .table entries, (key, _) :: rest => entries.leaf? key rest
  | v, trail => (Value.at? trail (some v)).filter Value.isLeaf

/-- The value that the entries of a table give to the leaf behind one of their keys. The last entry
that leads to the leaf counts. -/
def Entries.leaf? : Entries → String → Trail → Option Value
  | .nil, _, _ => none
  | .cons name value more, key, rest =>
      (more.leaf? key rest).or (if Settings.foldKey name = key then value.leaf? rest else none)

end

/-- The entries of the table at a place; without a table there are none. -/
def entriesOf (v : Option Value) : Entries :=
  (v.getD .missing).entries

section

variable {key other : String} {place : Nat} {trail rest : Trail} {own old : Option Value}
  {value v : Value}

/-- What comes after a value that may be missing can be changed. -/
theorem or_eq_some_of_imp {α : Type} {first second third : Option α} {a : α}
    (h : first.or second = some a) (himp : second = some a → third = some a) :
    first.or third = some a := by
  cases first with
  | none => exact himp h
  | some b => exact h

/-- Only a table hands an entry on. -/
theorem Value.at?_cons_of_entriesOf (h : Value.at? rest ((entriesOf old).get? key) = some v) :
    Value.at? ((key, place) :: rest) old = some v := by
  have hnone : Value.at? rest none ≠ some v := by
    rw [Value.at?_none]
    exact nofun
  cases old with
  | none => exact absurd h hnone
  | some w =>
      cases w with
      | table entries => exact h
      | _ => exact absurd h hnone

/-- An entry that gets a value has it from that value, or is another entry and keeps its own. -/
theorem Entries.or_of_get?_set {t : Entries}
    (h : Value.at? rest ((t.set other value).get? key) = some v)
    (hvalue : other = key → Value.at? rest (some value) = some v →
      own.or (Value.at? rest (t.get? key)) = some v) :
    (if other = key then own else none).or (Value.at? rest (t.get? key)) = some v := by
  by_cases heq : other = key
  · rw [if_pos heq]
    subst heq
    rw [Entries.get?_set_self] at h
    exact hvalue rfl h
  · rw [if_neg heq, Option.none_or]
    rwa [Entries.get?_set_of_ne _ heq] at h

/-- A value that replaces what was there gives the leaf itself. -/
theorem Value.leaf?_or_of_replaced (hv : v.isLeaf = true)
    (hleaf : value.leaf? trail = (Value.at? trail (some value)).filter Value.isLeaf)
    (h : Value.at? trail (some value) = some v) :
    (value.leaf? trail).or (Value.at? trail old) = some v := by
  rw [hleaf, h, Option.filter_some, if_pos hv]
  rfl

/-- At its own place a value gives itself. -/
theorem Value.leaf?_nil (hv : v.isLeaf = true) : v.leaf? [] = some v := by
  have hleaf : v.leaf? [] = (some v).filter Value.isLeaf := by
    cases v <;> rfl
  rw [hleaf, Option.filter_some, if_pos hv]

/-- A table holds no leaf at its own place. -/
theorem Value.at?_nil_table_ne {t : Entries} (hv : v.isLeaf = true) :
    Value.at? [] (some (.table t)) ≠ some v := by
  intro h
  cases h
  cases hv

/-- A table with entries makes a table of what was there. -/
theorem Value.over_table_cons {more : Entries} (old : Option Value) :
    Value.over (.table (.cons key value more)) old =
      .table ((Entries.cons key value more).over (entriesOf old)) := by
  cases old with
  | none => rfl
  | some old => cases old <;> rfl

/-- A table without entries leaves what was there, and gives no leaf. -/
theorem Value.at?_of_over_emptyTable (hv : v.isLeaf = true)
    (h : Value.at? trail (some (Value.over (.table .nil) old)) = some v) :
    Value.at? trail old = some v := by
  cases old with
  | some w => exact h
  | none =>
      cases trail with
      | nil => exact absurd h (Value.at?_nil_table_ne hv)
      | cons step rest =>
          have hnone : Value.at? (step :: rest) (some (.table .nil)) = none := Value.at?_none rest
          exact absurd (hnone.symm.trans h) nofun

end

mutual

/-- A leaf of what is laid over an old value is the layer's, or else the old one. -/
theorem Value.leaf?_or_of_over {v : Value} (hv : v.isLeaf = true) {trail : Trail}
    {old : Option Value} : (value : Value) →
      Value.at? trail (some (value.over old)) = some v →
        (value.leaf? trail).or (Value.at? trail old) = some v
  | .missing | .boolean _ | .integer _ | .decimal _ | .string _ | .array _ =>
      Value.leaf?_or_of_replaced hv (by cases trail <;> rfl)
  | .table .nil => by
      intro h
      have hnone : Value.leaf? (.table .nil) trail = none := by
        cases trail <;> rfl
      rw [hnone, Option.none_or]
      exact Value.at?_of_over_emptyTable hv h
  | .table (.cons key value more) => by
      intro h
      rw [Value.over_table_cons] at h
      cases trail with
      | nil => exact absurd h (Value.at?_nil_table_ne hv)
      | cons step rest =>
          apply or_eq_some_of_imp (Entries.leaf?_or_of_over hv (.cons key value more) h)
          exact Value.at?_cons_of_entriesOf

/-- A leaf behind an entry of what is laid over a table is the layer's, or else the table's. -/
theorem Entries.leaf?_or_of_over {v : Value} (hv : v.isLeaf = true) {key : String} {rest : Trail}
    {base : Entries} : (entries : Entries) →
      Value.at? rest ((entries.over base).get? key) = some v →
        (entries.leaf? key rest).or (Value.at? rest (base.get? key)) = some v
  | .nil => id
  | .cons name value more => by
      intro h
      rw [Entries.leaf?, Option.or_assoc]
      apply or_eq_some_of_imp (Entries.leaf?_or_of_over hv more h)
      intro hset
      apply Entries.or_of_get?_set hset
      intro heq hvalue
      rw [heq] at hvalue
      exact Value.leaf?_or_of_over hv value hvalue

end

/-! ### Tables over each other -/

/-- Tables laid over each other, the last on top. -/
def Entries.overlay (tables : List Entries) : Entries :=
  tables.foldl (fun base t => t.over base) .nil

/-- The value that tables give to a leaf: that of the last one that gives one. -/
def lastLeaf? (tables : List Entries) (trail : Trail) : Option Value :=
  tables.reverse.findSome? fun t => Value.leaf? (.table t) trail

section

variable {tables more : List Entries} {t base : Entries} {trail : Trail} {v : Value}

theorem lastLeaf?_append :
    lastLeaf? (tables ++ more) trail = (lastLeaf? more trail).or (lastLeaf? tables trail) := by
  rw [lastLeaf?, List.reverse_append, List.findSome?_append]
  rfl

theorem lastLeaf?_cons :
    lastLeaf? (t :: tables) trail = (lastLeaf? tables trail).or (Value.leaf? (.table t) trail) := by
  rw [← List.singleton_append, lastLeaf?_append]
  exact congrArg _ List.findSome?_singleton

theorem lastLeaf?_eq_none (h : ∀ t ∈ tables, Value.leaf? (.table t) trail = none) :
    lastLeaf? tables trail = none :=
  List.findSome?_eq_none_iff.2 fun t ht => h t (List.mem_reverse.1 ht)

/-- Where only one value is given, it does not matter which table comes last. -/
theorem lastLeaf?_eq_some (ht : t ∈ tables) (hv : Value.leaf? (.table t) trail = some v)
    (hall : ∀ u ∈ tables, ∀ w, Value.leaf? (.table u) trail = some w → w = v) :
    lastLeaf? tables trail = some v := by
  cases h : lastLeaf? tables trail with
  | none =>
      have hnone := List.findSome?_eq_none_iff.1 h t (List.mem_reverse.2 ht)
      exact absurd (hnone.symm.trans hv) nofun
  | some w =>
      obtain ⟨u, hu, hw⟩ := List.exists_of_findSome?_eq_some h
      rw [hall u (List.mem_reverse.1 hu) w hw]

/-- A leaf of what is laid over a table is the upper table's, or else the lower one's. -/
theorem Entries.leaf?_or_of_overTable (hv : v.isLeaf = true)
    (h : Value.at? trail (some (.table (t.over base))) = some v) :
    (Value.leaf? (.table t) trail).or (Value.at? trail (some (.table base))) = some v := by
  cases trail with
  | nil => exact absurd h (Value.at?_nil_table_ne hv)
  | cons step rest => exact Entries.leaf?_or_of_over hv t h

theorem lastLeaf?_or_of_foldl (hv : v.isLeaf = true)
    (h : Value.at? trail (some (.table (tables.foldl (fun base t => t.over base) base))) = some v) :
    (lastLeaf? tables trail).or (Value.at? trail (some (.table base))) = some v := by
  induction tables generalizing base with
  | nil => exact h
  | cons t rest ih =>
      rw [lastLeaf?_cons, Option.or_assoc]
      apply or_eq_some_of_imp (ih h)
      exact Entries.leaf?_or_of_overTable hv

/-- A leaf of tables laid over each other is that of the last table that gives one. -/
theorem lastLeaf?_of_overlay (hv : v.isLeaf = true)
    (h : Value.at? trail (some (.table (Entries.overlay tables))) = some v) :
    lastLeaf? tables trail = some v := by
  have hor := lastLeaf?_or_of_foldl hv h
  have hnil : Value.at? trail (some (.table .nil)) ≠ some v := by
    cases trail with
    | nil => exact Value.at?_nil_table_ne hv
    | cons step rest =>
        have hnone : Value.at? (step :: rest) (some (.table .nil)) = none := Value.at?_none rest
        rw [hnone]
        exact nofun
  cases hlast : lastLeaf? tables trail with
  | none =>
      rw [hlast] at hor
      exact absurd hor hnil
  | some w =>
      rw [hlast] at hor
      exact hor

end

/-! ### Values below keys -/

/-- A value below keys: the tables on the way hold nothing else. -/
def Value.nest (value : Value) : List String → Value
  | [] => value
  | key :: rest => .table (.cons key (value.nest rest) .nil)

/-- A value below keys gives a leaf behind these keys what it gives to the rest of the way. -/
theorem Value.leaf?_nest (value : Value) (keys : List String) (trail : Trail) :
    (value.nest keys).leaf? trail =
      if keys.map Settings.foldKey <+: trail.map Prod.fst
        then value.leaf? (trail.drop keys.length) else none := by
  induction keys generalizing trail with
  | nil => rw [List.map_nil, if_pos List.nil_prefix]; rfl
  | cons key keys ih =>
      cases trail with
      | nil => rw [if_neg (by simp)]; rfl
      | cons first rest =>
          rw [nest, Value.leaf?, Entries.leaf?, Entries.leaf?, Option.none_or, ih]
          by_cases heq : Settings.foldKey key = first.1
          · simp [heq, List.cons_prefix_cons]
          · simp [heq, List.cons_prefix_cons]

end TaskTidy.Toml
