import Mathlib.Data.List.Basic
import TaskTidy.Proofs.LaidValues

/-!
# Merged tables

What is asked of a backend is that a merged table has the leaves of the sources laid over each other
in their order, with the overrides on top. Of overrides with the same text the last one counts;
nothing is asked about the order of the others. The standard backend does that as long as every key
at the top of a file stands for itself and every override is a list of keys with dots between them.
-/

namespace TaskTidy.Settings

open Toml

/-- The keys between the dots of a text. -/
def keysOf (text : String) : List String :=
  (Text.pieces '.' text.toList).map String.ofList

/-- The table that an override stands for: its value below its keys. -/
def overrideTable (override : String × Value) : Entries :=
  (override.2.nest (keysOf override.1)).entries

/-- The same overrides in some order, where each text has the value that was set last. -/
def IsOrderOf (order overrides : List (String × Value)) : Prop :=
  ∀ text value, (text, value) ∈ order ↔ overrides.reverse.lookup text = some value

/-- Both tables have the same leaves. -/
def SameLeaves (t u : Entries) : Prop :=
  ∀ trail v, v.isLeaf = true →
    (Value.at? trail (some (.table t)) = some v ↔ Value.at? trail (some (.table u)) = some v)

/-- The sources are merged table by table in their order, and the overrides are applied last. -/
def IsMerged (sources : List Entries) (overrides : List (String × Value)) (merged : Entries) :
    Prop :=
  ∃ order, IsOrderOf order overrides ∧
    SameLeaves merged (Entries.overlay (sources ++ order.map overrideTable))

/-- The backend merges the files and overrides of a loader over the defaults, table by table in the
order in which they were added, with the overrides last. -/
def Loader.MergesInOrder (l : Loader) (b : Backend) : Prop :=
  ∀ files merged, tables b l.layers = .ok files →
    b.merge (defaults :: files) l.overrides = .ok merged →
      IsMerged (defaults :: files) l.overrides merged

section

variable {order overrides : List (String × Value)} {text : String} {value : Value}

theorem IsOrderOf.mem (h : IsOrderOf order overrides) (hmem : (text, value) ∈ order) :
    (text, value) ∈ overrides := by
  obtain ⟨before, after, heq, -⟩ := List.lookup_eq_some_iff.1 ((h text value).1 hmem)
  rw [← List.mem_reverse, heq]
  simp

/-- An override counts if no other one has its text. -/
theorem IsOrderOf.mem_of_unique (h : IsOrderOf order overrides) (hmem : (text, value) ∈ overrides)
    (hunique : ∀ other, (text, other) ∈ overrides → other = value) : (text, value) ∈ order := by
  rw [h]
  cases hlookup : overrides.reverse.lookup text with
  | none =>
      have hne := List.lookup_eq_none_iff.1 hlookup (text, value) (List.mem_reverse.2 hmem)
      simp at hne
  | some other => rw [hunique other (h.mem ((h text other).2 hlookup))]

/-- The override that was set last counts. -/
theorem IsOrderOf.mem_last (h : IsOrderOf order (overrides ++ [(text, value)])) :
    (text, value) ∈ order := by
  rw [h, List.reverse_append, List.reverse_singleton, List.singleton_append, List.lookup_cons_self]

theorem IsOrderOf.eq_of_last {other : Value} (h : IsOrderOf order (overrides ++ [(text, value)]))
    (hmem : (text, other) ∈ order) : other = value := by
  rw [h, List.reverse_append, List.reverse_singleton, List.singleton_append,
    List.lookup_cons_self] at hmem
  exact (Option.some.inj hmem).symm

end

/-! ### The standard backend -/

/-- No key at the top is a route of several steps. -/
def hasPlainKeys : Entries → Bool
  | .nil => true
  | .cons key _ rest =>
      decide ((Route.read? key).getD ⟨foldKey key, []⟩ = ⟨foldKey key, []⟩) && hasPlainKeys rest

/-- The route along keys. -/
def routeOf? : List String → Option Route
  | [] => none
  | key :: rest => some ⟨foldKey key, rest.map fun key => .key (foldKey key)⟩

/-- A text is read as the route along the keys between its dots. -/
def IsDotted (text : String) : Prop :=
  Route.read? text = routeOf? (keysOf text)

instance (text : String) : Decidable (IsDotted text) :=
  inferInstanceAs (Decidable (_ = _))

theorem layFile_eq_over {t : Entries} (h : hasPlainKeys t = true) (base : Entries) :
    layFile t base = t.over base := by
  induction t using hasPlainKeys.induct generalizing base with
  | case1 => rfl
  | case2 key value rest ih =>
      rw [hasPlainKeys, Bool.and_eq_true, decide_eq_true_eq] at h
      rw [layFile, h.1, ih h.2, Entries.over]
      rfl

theorem layAt_keys (value : Value) (keys : List String) (old : Option Value) :
    value.layAt (keys.map fun key => .key (foldKey key)) old = (value.nest keys).over old := by
  induction keys generalizing old with
  | nil => rfl
  | cons key rest ih =>
      rw [List.map_cons, Value.layAt, Value.nest, Value.over_table_cons, ih]
      rfl

/-- To lay a value over the end of its keys is to lay its table over the rest. -/
theorem layAt_eq_over {override : String × Value} {route : Route}
    (h : routeOf? (keysOf override.1) = some route) (base : Entries) :
    base.layAt route override.2 = (overrideTable override).over base := by
  rw [overrideTable]
  cases hkeys : keysOf override.1 with
  | nil =>
      rw [hkeys] at h
      cases h
  | cons key rest =>
      rw [hkeys] at h
      cases h
      rw [Entries.layAt, layAt_keys]
      rfl

theorem eq_foldl_of_layOverrides {overrides : List (String × Value)}
    (hdotted : ∀ override ∈ overrides, IsDotted override.1) {base merged : Entries}
    (h : layOverrides overrides base = .ok merged) :
    merged = (overrides.map overrideTable).foldl (fun base t => t.over base) base := by
  induction overrides generalizing base with
  | nil =>
      cases h
      rfl
  | cons override rest ih =>
      obtain ⟨hfirst, hrest⟩ := List.forall_mem_cons.1 hdotted
      rw [layOverrides, hfirst] at h
      cases hroute : routeOf? (keysOf override.1) with
      | none =>
          rw [hroute] at h
          cases h
      | some route =>
          rw [hroute] at h
          rw [List.map_cons, List.foldl_cons, ← layAt_eq_over hroute]
          exact ih hrest h

theorem lastOverrides_sublist (overrides : List (String × Value)) :
    (lastOverrides overrides).Sublist overrides := by
  induction overrides with
  | nil => exact List.Sublist.refl _
  | cons override rest ih =>
      rw [lastOverrides]
      split
      · exact ih.cons override
      · exact ih.cons_cons override

section

variable {override : String × Value} {rest : List (String × Value)} {text : String}

/-- An override does not count beside a later one with its text. -/
theorem lookup_reverse_cons_of_later (h : rest.any (fun later => later.1 == override.1) = true) :
    (override :: rest).reverse.lookup text = rest.reverse.lookup text := by
  rw [List.reverse_cons, List.lookup_append]
  cases hlookup : rest.reverse.lookup text with
  | some value => rfl
  | none =>
      obtain ⟨later, hmem, htext⟩ := List.any_eq_true.1 h
      have hne := List.lookup_eq_none_iff.1 hlookup later (List.mem_reverse.2 hmem)
      rw [eq_of_beq htext] at hne
      rw [Option.none_or]
      exact List.lookup_eq_none_iff.2 (List.forall_mem_singleton.2 hne)

/-- An override counts if no later one has its text. -/
theorem lookup_reverse_cons_of_last (h : ¬rest.any (fun later => later.1 == override.1) = true)
    {value : Value} :
    (override :: rest).reverse.lookup text = some value ↔
      (text, value) = override ∨ rest.reverse.lookup text = some value := by
  have hrest : rest.reverse.lookup override.1 = none := by
    rw [List.lookup_eq_none_iff]
    intro later hmem
    rw [bne_iff_ne]
    intro heq
    exact h (List.any_eq_true.2 ⟨later, List.mem_reverse.1 hmem, beq_iff_eq.2 heq.symm⟩)
  rw [List.reverse_cons, List.lookup_append]
  by_cases heq : text = override.1
  · subst heq
    rw [hrest, Option.none_or, List.lookup_cons_self]
    simp [Prod.ext_iff, eq_comm]
  · have hsingle : [override].lookup text = none :=
      List.lookup_eq_none_iff.2 (List.forall_mem_singleton.2 (by simpa using heq))
    rw [hsingle, Option.or_none]
    simp [Prod.ext_iff, heq]

end

/-- What is left of overrides are those that were set last. -/
theorem isOrderOf_lastOverrides (overrides : List (String × Value)) :
    IsOrderOf (lastOverrides overrides) overrides := by
  intro text value
  induction overrides with
  | nil => simp [lastOverrides]
  | cons override rest ih =>
      rw [lastOverrides]
      split
      · next hlater => rw [ih, lookup_reverse_cons_of_later hlater]
      · next hlast => rw [lookup_reverse_cons_of_last hlast, List.mem_cons, ih]

/-- The standard backend merges files with plain keys at the top, and overrides that are keys
between dots. -/
theorem Loader.mergesInOrder_standard {l : Loader}
    (hfiles : ((tables .standard l.layers).toOption.getD []).all hasPlainKeys = true)
    (hdotted : ∀ override ∈ l.overrides, IsDotted override.1) : l.MergesInOrder .standard := by
  intro files merged htables hmerge
  rw [htables] at hfiles
  refine ⟨lastOverrides l.overrides, isOrderOf_lastOverrides l.overrides, ?_⟩
  have hplain : ∀ t ∈ defaults :: files, hasPlainKeys t = true :=
    List.forall_mem_cons.2 ⟨by decide +kernel, List.all_eq_true.1 hfiles⟩
  have heq := eq_foldl_of_layOverrides
    (fun override hmem => hdotted override ((lastOverrides_sublist _).subset hmem)) hmerge
  have hsources : (defaults :: files).foldl (fun base t => layFile t base) .nil =
      Entries.overlay (defaults :: files) :=
    List.foldl_ext _ _ _ fun base t ht => layFile_eq_over (hplain t ht) base
  rw [hsources] at heq
  rw [Entries.overlay, List.foldl_append]
  exact fun trail v _ => by rw [heq]; rfl

end TaskTidy.Settings
