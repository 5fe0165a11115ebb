import TaskTidy.Toml.Decimal

/-!
# Configuration values

A value is a scalar, an array or a table. The entries of a table are a list of keys and values with
one value for a key.
-/

namespace TaskTidy.Toml

mutual

/-- A value of a configuration. -/
inductive Value
  /-- A place of an array that nothing has filled. -/
  | missing
  | boolean (b : Bool)
  | integer (n : Int)
  | decimal (x : Decimal)
  | string (s : String)
  | array (items : List Value)
  | table (entries : Entries)

/-- The entries of a table, in the order in which their keys first appeared. -/
inductive Entries
  | nil
  | cons (key : String) (value : Value) (rest : Entries)

end

namespace Entries

/-- The value of a key. -/
def get? (key : String) : Entries → Option Value
  | .nil => none
  | .cons k v rest => if k = key then some v else get? key rest

/-- Give a key a value, in place if it has one. -/
def set (key : String) (value : Value) : Entries → Entries
  | .nil => .cons key value .nil
  | .cons k v rest => if k = key then .cons k value rest else .cons k v (set key value rest)

@[simp]
theorem get?_set_self (key : String) (value : Value) :
    (t : Entries) → (t.set key value).get? key = some value
  | .nil => by simp [set, get?]
  | .cons k v rest => by
      unfold set
      split
      · next h => simp [get?, h]
      · next h => simpa [get?, h] using get?_set_self key value rest

theorem get?_set_of_ne {key other : String} (value : Value) (h : key ≠ other) :
    (t : Entries) → (t.set key value).get? other = t.get? other
  | .nil => by simp [set, get?, h]
  | .cons k v rest => by
      unfold set
      split
      · next hk => simp [get?, hk, h]
      · by_cases ho : k = other
        · simp [get?, ho]
        · simpa [get?, ho] using get?_set_of_ne value h rest

/-- A table from a list of keys and values. -/
def ofList : List (String × Value) → Entries
  | [] => .nil
  | (key, value) :: rest => .cons key value (ofList rest)

end Entries

namespace Value

/-- The entries of a table; any other value has none. -/
def entries : Value → Entries
  | .table entries => entries
  | _ => .nil

/-- The items of an array; any other value has none. -/
def items : Value → List Value
  | .array items => items
  | _ => []

end Value

end TaskTidy.Toml
