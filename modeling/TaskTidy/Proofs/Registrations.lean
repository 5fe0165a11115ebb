import Mathlib.Data.List.Dedup
import Mathlib.Data.List.Induction
import Mathlib.Data.String.Basic
import TaskTidy.Registry

/-!
# Registrations

A registry keeps two records: the sets under their names, and the names in the order of their first
registration. A registration changes the first at one name, and the second only if that name is new.
So after any registrations both records agree, and every question to the registry is answered by the
sequence of the sets that were registered.
-/

namespace TaskTidy

namespace Registry

variable {r : Registry} {registered : List RuleSet} {stored : List (String × RuleSet)}
  {s : RuleSet} {name : String}

/-! ### Sets under names -/

theorem lookup_cons_eq (first : String) (s : RuleSet) (rest : List (String × RuleSet))
    (name : String) :
    ((first, s) :: rest).lookup name = if first = name then some s else rest.lookup name := by
  rw [List.lookup_cons]
  by_cases h : first = name
  · rw [if_pos h, beq_iff_eq.2 h.symm]
  · rw [if_neg h, beq_eq_false_iff_ne.2 (Ne.symm h)]

/-- Under different names each set is found by its own. -/
theorem mem_iff_lookup (hnodup : (stored.map Prod.fst).Nodup) :
    (name, s) ∈ stored ↔ stored.lookup name = some s := by
  induction stored with
  | nil => simp
  | cons first rest ih =>
      obtain ⟨hnew, hrest⟩ := List.nodup_cons.1 hnodup
      rw [List.mem_cons, ih hrest, lookup_cons_eq]
      by_cases h : first.1 = name
      · have hnone : rest.lookup name ≠ some s := by
          intro hsome
          apply hnew
          rw [h]
          exact List.mem_map_of_mem ((ih hrest).2 hsome)
        rw [if_pos h, ← h]
        simp [Prod.ext_iff, h, hnone, eq_comm]
      · simp [Prod.ext_iff, h, Ne.symm h]

theorem lookup_filter_of_ne {other : String} (h : other ≠ name) :
    (stored.filter fun entry => entry.1 != other).lookup name = stored.lookup name := by
  induction stored with
  | nil => rfl
  | cons first rest ih =>
      rw [List.filter_cons, lookup_cons_eq]
      split
      · rw [lookup_cons_eq, ih]
      · next hsame =>
          have hfirst : first.1 = other := by simpa using hsame
          rw [ih, if_neg (hfirst ▸ h)]

/-! ### One registration -/

/-- A registration changes what its own name stands for, and no other. -/
theorem get?_register (r : Registry) (s : RuleSet) (name : String) :
    (r.register s).get? name = if s.name = name then some s else r.get? name := by
  rw [get?, register, lookup_cons_eq]
  split
  · rfl
  · next h => exact lookup_filter_of_ne h

/-- A registration appends its name to the order if that name is new. -/
theorem order_register (r : Registry) (s : RuleSet) :
    (r.register s).order = if (r.get? s.name).isSome then r.order else r.order ++ [s.name] := by
  rw [register, get?]
  cases r.sets.lookup s.name <;> rfl

/-- A registration leaves no second set under its name. -/
theorem nodup_keys_register (h : (r.sets.map Prod.fst).Nodup) (s : RuleSet) :
    ((r.register s).sets.map Prod.fst).Nodup := by
  rw [register, List.map_cons, List.nodup_cons]
  constructor
  · simp
  · exact h.sublist (List.filter_sublist.map Prod.fst)

/-! ### Sequences of registrations -/

/-- The set that was registered last under a name. -/
def latest? (registered : List RuleSet) (name : String) : Option RuleSet :=
  registered.reverse.find? (·.name == name)

/-- The names of the sets, in the order in which each name was registered first. -/
def firstNames (registered : List RuleSet) : List String :=
  (registered.map RuleSet.name).eraseDups

theorem latest?_concat (registered : List RuleSet) (s : RuleSet) (name : String) :
    latest? (registered ++ [s]) name =
      if s.name = name then some s else latest? registered name := by
  rw [latest?, List.reverse_concat, List.find?_cons]
  by_cases h : s.name = name
  · rw [if_pos h, beq_iff_eq.2 h]
  · rw [if_neg h, beq_eq_false_iff_ne.2 h, latest?]

theorem name_of_latest? (h : latest? registered name = some s) : s.name = name := by
  simpa using List.find?_some h

theorem latest?_isSome_iff :
    (latest? registered name).isSome = true ↔ ∃ s ∈ registered, s.name = name := by
  simp [latest?, List.find?_isSome]

theorem mem_firstNames : name ∈ firstNames registered ↔ ∃ s ∈ registered, s.name = name := by
  simp [firstNames]

theorem firstNames_concat (registered : List RuleSet) (s : RuleSet) :
    firstNames (registered ++ [s]) =
      if s.name ∈ firstNames registered then firstNames registered
      else firstNames registered ++ [s.name] := by
  simp only [firstNames, List.map_append, List.map_cons, List.map_nil, List.eraseDups_append,
    List.mem_eraseDups]
  by_cases h : s.name ∈ registered.map RuleSet.name
  · have hold : [s.name].removeAll (registered.map RuleSet.name) = [] := by
      rw [List.removeAll, List.filter_eq_nil_iff]
      simpa using h
    rw [if_pos h, hold, List.eraseDups_nil, List.append_nil]
  · have hnew : [s.name].removeAll (registered.map RuleSet.name) = [s.name] := by
      rw [List.removeAll, List.filter_eq_self]
      simpa using h
    rw [if_neg h, hnew]
    rfl

theorem latest?_eq_none_iff :
    latest? registered name = none ↔ ∀ s ∈ registered, s.name ≠ name := by
  simp [latest?]

theorem nodup_firstNames (registered : List RuleSet) : (firstNames registered).Nodup := by
  induction registered using List.reverseRecOn with
  | nil => exact List.nodup_nil
  | append_singleton registered s ih =>
      rw [firstNames_concat]
      split
      · exact ih
      · next hnew =>
          rw [← List.concat_eq_append, List.nodup_concat]
          exact ⟨hnew, ih⟩

/-! ### Names that are resolved -/

theorem resolve_cons (r : Registry) (name : String) (rest : List String) :
    r.resolve (name :: rest) = match r.get? name with
      | none => .error (.unknownRuleSet name)
      | some s => (r.resolve rest).map (s :: ·) := rfl

/-- Names are resolved in their order, and as often as they are given. -/
theorem resolve_eq_ok_iff (r : Registry) (names : List String) (sets : List RuleSet) :
    r.resolve names = .ok sets ↔ names.map r.get? = sets.map some := by
  induction names generalizing sets with
  | nil => cases sets <;> simp [resolve]
  | cons name rest ih =>
      rw [resolve_cons]
      cases hname : r.get? name with
      | none => cases sets <;> simp [hname]
      | some s =>
          cases hrest : r.resolve rest with
          | error cause =>
              cases sets with
              | nil => simp [Except.map]
              | cons t more =>
                  have hmore := mt (ih more).2 (by simp [hrest])
                  simp [Except.map, hmore]
          | ok found =>
              cases sets with
              | nil => simp [Except.map]
              | cons t more =>
                  have hmore := ih more
                  rw [hrest, Except.ok.injEq] at hmore
                  simp [Except.map, hname, hmore]

/-- The failure is about the first name that is not registered. -/
theorem resolve_eq_error_iff (r : Registry) (names : List String) (cause : RegistryError) :
    r.resolve names = .error cause ↔ ∃ before name after, names = before ++ name :: after ∧
      (∀ other ∈ before, (r.get? other).isSome = true) ∧ r.get? name = none ∧
        cause = .unknownRuleSet name := by
  induction names with
  | nil => simp [resolve]
  | cons first rest ih =>
      rw [resolve_cons]
      constructor
      · intro h
        cases hfirst : r.get? first with
        | none =>
            rw [hfirst] at h
            exact ⟨[], first, rest, rfl, List.forall_mem_nil _, hfirst, (Except.error.inj h).symm⟩
        | some s =>
            have hrest : r.resolve rest = .error cause := by
              rw [hfirst] at h
              cases hrest : r.resolve rest with
              | ok found => simp [hrest, Except.map] at h
              | error other => simpa [hrest, Except.map] using h
            obtain ⟨before, name, after, rfl, hbefore, hname, hcause⟩ := ih.1 hrest
            refine ⟨first :: before, name, after, rfl, ?_, hname, hcause⟩
            exact List.forall_mem_cons.2 ⟨Option.isSome_of_eq_some hfirst, hbefore⟩
      · rintro ⟨before, name, after, hnames, hbefore, hname, rfl⟩
        cases before with
        | nil =>
            obtain ⟨rfl, rfl⟩ := List.cons.inj hnames
            rw [hname]
        | cons other before =>
            obtain ⟨rfl, rfl⟩ := List.cons.inj hnames
            obtain ⟨hfirst, hbefore⟩ := List.forall_mem_cons.1 hbefore
            obtain ⟨s, hs⟩ := Option.isSome_iff_exists.1 hfirst
            have hrest := ih.2 ⟨before, name, after, rfl, hbefore, hname, rfl⟩
            rw [hs, hrest]
            rfl

theorem exists_resolve_iff (r : Registry) (names : List String) :
    (∃ sets, r.resolve names = .ok sets) ↔ ∀ name ∈ names, (r.get? name).isSome = true := by
  constructor
  · rintro ⟨sets, hsets⟩ name hname
    have hmem : r.get? name ∈ sets.map some :=
      (resolve_eq_ok_iff r names sets).1 hsets ▸ List.mem_map_of_mem hname
    obtain ⟨s, -, hs⟩ := List.mem_map.1 hmem
    exact Option.isSome_of_eq_some hs.symm
  · intro h
    cases hresolve : r.resolve names with
    | ok sets => exact ⟨sets, rfl⟩
    | error cause =>
        obtain ⟨before, name, after, rfl, -, hname, -⟩ :=
          (resolve_eq_error_iff r _ cause).1 hresolve
        have hsome := h name (by simp)
        rw [hname] at hsome
        cases hsome

/-! ### Registries after registrations -/

/-- The two records of a registry are those of a sequence of registrations: the order of its names
is that of their first registrations, and each name stands for its last one. -/
structure ReadsAs (r : Registry) (registered : List RuleSet) : Prop where
  order_eq : r.order = firstNames registered
  get?_eq : ∀ name, r.get? name = latest? registered name
  nodup_keys : (r.sets.map Prod.fst).Nodup

theorem readsAs_empty : ReadsAs empty [] :=
  ⟨rfl, fun _ => rfl, List.nodup_nil⟩

theorem ReadsAs.register (h : ReadsAs r registered) (s : RuleSet) :
    ReadsAs (r.register s) (registered ++ [s]) where
  order_eq := by
    rw [order_register, firstNames_concat, h.get?_eq, h.order_eq]
    simp only [latest?_isSome_iff, mem_firstNames]
  get?_eq name := by rw [get?_register, latest?_concat, h.get?_eq]
  nodup_keys := nodup_keys_register h.nodup_keys s

theorem ReadsAs.foldl_register (h : ReadsAs r registered) (sets : List RuleSet) :
    ReadsAs (sets.foldl Registry.register r) (registered ++ sets) := by
  induction sets generalizing r registered with
  | nil => simpa using h
  | cons s rest ih => simpa using ih (h.register s)

theorem readsAs_builtin (options : RuleOptions) :
    ReadsAs (builtin options) (builtinSets options) :=
  readsAs_empty.foldl_register (builtinSets options)

namespace ReadsAs

theorem mem_sets_iff (h : ReadsAs r registered) (name : String) (s : RuleSet) :
    (name, s) ∈ r.sets ↔ latest? registered name = some s := by
  rw [mem_iff_lookup h.nodup_keys, ← h.get?_eq]
  rfl

/-- The names in the order are those of the stored sets. -/
theorem mem_order_iff (h : ReadsAs r registered) (name : String) :
    name ∈ r.order ↔ name ∈ r.sets.map Prod.fst := by
  rw [h.order_eq, mem_firstNames, ← latest?_isSome_iff, Option.isSome_iff_exists]
  simp [h.mem_sets_iff]

theorem mem_listAll_iff (h : ReadsAs r registered) (s : RuleSet) :
    s ∈ r.listAll ↔ latest? registered s.name = some s := by
  rw [listAll, List.mem_mergeSort, List.mem_map]
  constructor
  · rintro ⟨⟨name, s⟩, hmem, rfl⟩
    have hlatest := (h.mem_sets_iff name s).1 hmem
    rwa [name_of_latest? hlatest]
  · intro hlatest
    exact ⟨(s.name, s), (h.mem_sets_iff s.name s).2 hlatest, rfl⟩

/-- All sets are listed by strictly ascending names. -/
theorem pairwise_listAll (h : ReadsAs r registered) :
    (r.listAll.map RuleSet.name).Pairwise (· < ·) := by
  have hle : (r.listAll.map RuleSet.name).Pairwise (· ≤ ·) := by
    rw [List.pairwise_map]
    have htrans (a b c : RuleSet) (h : decide (a.name ≤ b.name) = true)
        (h' : decide (b.name ≤ c.name) = true) : decide (a.name ≤ c.name) = true :=
      decide_eq_true (le_trans (of_decide_eq_true h) (of_decide_eq_true h'))
    have htotal (a b : RuleSet) :
        (decide (a.name ≤ b.name) || decide (b.name ≤ a.name)) = true := by
      simpa using le_total a.name b.name
    exact (List.pairwise_mergeSort htrans htotal _).imp of_decide_eq_true
  have hkeys : (r.sets.map Prod.snd).map RuleSet.name = r.sets.map Prod.fst := by
    rw [List.map_map]
    apply List.map_congr_left
    rintro ⟨name, s⟩ hmem
    exact name_of_latest? ((h.mem_sets_iff name s).1 hmem)
  have hperm : (r.listAll.map RuleSet.name).Perm (r.sets.map Prod.fst) :=
    hkeys ▸ (List.mergeSort_perm _ _).map RuleSet.name
  have hne : (r.listAll.map RuleSet.name).Pairwise (· ≠ ·) := hperm.nodup_iff.2 h.nodup_keys
  exact (hle.and hne).imp fun h => lt_of_le_of_ne h.1 h.2

end ReadsAs

/-- What a registry answers after registrations. The order holds each name once, the sets are stored
under different names, and these are the names in the order. A name stands for the set that was
registered last under it. All sets are listed by ascending names, one for each name. The sets that
run by default are all but the molecule set, in the order of their first registrations. Names are
resolved in their order and as often as they are given, and the first that is not registered is the
failure. -/
structure Answers (r : Registry) (registered : List RuleSet) : Prop where
  nodup_order : r.order.Nodup
  nodup_keys : (r.sets.map Prod.fst).Nodup
  mem_order_iff : ∀ name, name ∈ r.order ↔ name ∈ r.sets.map Prod.fst
  order_eq : r.order = firstNames registered
  mem_sets_iff : ∀ name s, (name, s) ∈ r.sets ↔ latest? registered name = some s
  get?_eq : ∀ name, r.get? name = latest? registered name
  pairwise_listAll : (r.listAll.map RuleSet.name).Pairwise (· < ·)
  mem_listAll_iff : ∀ s, s ∈ r.listAll ↔ latest? registered s.name = some s
  defaultEnabled_eq : r.defaultEnabled = (firstNames registered).filter (· != "molecule")
  exists_resolve_iff : ∀ names, (∃ sets, r.resolve names = .ok sets) ↔
    ∀ name ∈ names, ∃ s ∈ registered, s.name = name
  resolve_eq_ok_iff : ∀ names sets, r.resolve names = .ok sets ↔
    names.map (latest? registered) = sets.map some
  resolve_eq_error_iff : ∀ names cause, r.resolve names = .error cause ↔
    ∃ before name after, names = before ++ name :: after ∧
      (∀ other ∈ before, ∃ s ∈ registered, s.name = other) ∧
      (∀ s ∈ registered, s.name ≠ name) ∧ cause = .unknownRuleSet name

theorem ReadsAs.answers (h : ReadsAs r registered) : Answers r registered where
  nodup_order := h.order_eq ▸ nodup_firstNames registered
  nodup_keys := h.nodup_keys
  mem_order_iff := h.mem_order_iff
  order_eq := h.order_eq
  mem_sets_iff := h.mem_sets_iff
  get?_eq := h.get?_eq
  pairwise_listAll := h.pairwise_listAll
  mem_listAll_iff := h.mem_listAll_iff
  defaultEnabled_eq := by rw [defaultEnabled, h.order_eq]; rfl
  exists_resolve_iff names := by
    simp only [Registry.exists_resolve_iff, h.get?_eq, latest?_isSome_iff]
  resolve_eq_ok_iff names sets := by
    rw [Registry.resolve_eq_ok_iff, funext h.get?_eq]
  resolve_eq_error_iff names cause := by
    simp only [Registry.resolve_eq_error_iff, h.get?_eq, latest?_isSome_iff, latest?_eq_none_iff]

/-- A registry that was empty or held the built-in sets answers from the sequence of the sets that
were registered. -/
theorem answers_foldl_register (options : RuleOptions) (sets : List RuleSet) :
    Answers (sets.foldl register empty) sets ∧
      Answers (sets.foldl register (builtin options)) (builtinSets options ++ sets) :=
  ⟨(readsAs_empty.foldl_register sets).answers,
    ((readsAs_builtin options).foldl_register sets).answers⟩

end Registry

end TaskTidy
