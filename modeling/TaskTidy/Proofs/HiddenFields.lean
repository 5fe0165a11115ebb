import TaskTidy.Proofs.OtherFields

/-!
# Hidden fields

A block with an entry has every field that is injected into it. A block without one gets the field
behind its content, and a shallower line above hides it there. From then on the block measures its
fields, so no other field of it is hidden, and no injection takes a field away from any block.
-/

namespace TaskTidy

namespace Buffer

variable {b : Buffer} {i j p : Nat} {e : Extent} {key : List Char}

/-- A block hides a new field if it has no entry and a significant line in it is shallower than the
field. -/
def HidesField (b : Buffer) (e : Extent) : Prop :=
  b.fieldDepth? e = none ∧
    ∃ j ∈ e.interior, (b.line j).kind.isSignificant = true ∧ (b.line j).depth < b.childDepth e

instance : Decidable (b.HidesField e) :=
  inferInstanceAs (Decidable (_ ∧ _))

/-- Without an entry a new field goes behind the content. -/
theorem insertionIndex_of_unmeasured (hd : b.fieldDepth? e = none) (a : Anchors) :
    b.insertionIndex e a = b.contentEnd e := by
  have hfields : b.fields e = [] := by
    simp only [fields, hd]
  simp only [insertionIndex, hfields, hd]
  rfl

theorem exists_line_of_mem {l : Line} (hp : p ≤ b.length)
    (hl : l ∈ (b.drop (i + 1)).take (p - (i + 1))) : ∃ k, i < k ∧ k < p ∧ b.line k = l := by
  obtain ⟨k, hk, rfl⟩ := List.getElem_of_mem hl
  rw [List.length_take, List.length_drop] at hk
  rw [List.getElem_take, List.getElem_drop, ← line_eq_getElem]
  exact ⟨_, by omega, by omega, rfl⟩

/-- A block without an entry hides its new field exactly if a line above leaves the run of the
field. -/
theorem all_inRun_contentEnd_iff (hi : i < b.length)
    (hd : b.fieldDepth? ⟨i, b.stopOf i⟩ = none) :
    ((b.drop (i + 1)).take (b.contentEnd ⟨i, b.stopOf i⟩ - (i + 1))).all
        (Line.inRun (b.line i).depth (b.childDepth ⟨i, b.stopOf i⟩)) = true ↔
      ¬b.HidesField ⟨i, b.stopOf i⟩ := by
  have hplace := isPlace_contentEnd hd
  have hlen := hplace.le_length hi
  rw [List.all_eq_true]
  constructor
  · rintro hall ⟨_, j, hj, hsig, hdepth⟩
    obtain ⟨hij, hjs⟩ := Extent.mem_interior.1 hj
    rcases Nat.lt_or_ge j (b.contentEnd ⟨i, b.stopOf i⟩) with hjp | hpj
    · have := Line.le_depth_of_inRun (hall _ (line_mem_of_lt hlen hij hjp)) hsig
      omega
    · rw [contentEnd_eq] at hpj
      rw [Line.kind_of_allBlank (allBlank_of_lastContent_le hpj hjs)] at hsig
      cases hsig
  · intro hshows l hl
    obtain ⟨k, hik, hkp, rfl⟩ := exists_line_of_mem hlen hl
    have hks := Nat.lt_of_lt_of_le hkp hplace.2.1
    have hinside := ((lt_stopOf_iff hik).1 hks).2 k hik (Nat.le_refl k)
    rw [Line.inRun, hinside, Bool.true_and, Bool.or_eq_true, Bool.not_eq_true',
      decide_eq_true_eq]
    by_contra hnot
    rw [not_or, Bool.not_eq_false, Nat.not_le] at hnot
    exact hshows ⟨hd, k, Extent.mem_interior.2 ⟨hik, hks⟩, hnot⟩

/-- A block has the field that is injected into it, unless it hides the field. -/
theorem hasField_insertIdx_iff (hi : i < b.length) (hkey : isBareKey key = true) (a : Anchors)
    (value : List Char) :
    Buffer.hasField (b.injectField ⟨i, b.stopOf i⟩ a key value)
        ⟨i, Buffer.stopOf (b.injectField ⟨i, b.stopOf i⟩ a key value) i⟩ key = true ↔
      ¬b.HidesField ⟨i, b.stopOf i⟩ := by
  have hplace := b.isPlace_insertionIndex i a
  have hlen := hplace.le_length hi
  have hbase := b.depth_lt_childDepth i
  rw [injectField]
  have hkind := kind_fieldLine hkey (b.childDepth ⟨i, b.stopOf i⟩) value
  have hdepth := depth_fieldLine hkey (b.childDepth ⟨i, b.stopOf i⟩) value
  have hline := key?_fieldLine hkey (b.childDepth ⟨i, b.stopOf i⟩) value
  generalize fieldLine (b.childDepth ⟨i, b.stopOf i⟩) key value = x at *
  cases hd : b.fieldDepth? ⟨i, b.stopOf i⟩ with
  | some d =>
      have hshows : ¬b.HidesField ⟨i, b.stopOf i⟩ := by
        rintro ⟨hnone, _⟩
        rw [hd] at hnone
        cases hnone
      rw [childDepth, hd] at hdepth
      obtain ⟨above, below, _, _, _, hfields⟩ :=
        hplace.exists_fields_insertIdx hd hi hkind hdepth hline
      refine iff_of_true ?_ hshows
      rw [hasField, hfields]
      simp
  | none =>
      rw [insertionIndex_of_unmeasured hd] at hplace hlen ⊢
      have hinside : ((b.drop (i + 1)).take (b.contentEnd ⟨i, b.stopOf i⟩ - (i + 1))).all
          (Line.isInside (b.line i).depth) = true :=
        List.all_eq_true.2 (all_take_of_le_runAfter hplace.2.1)
      rw [hasField_eq, line_insertIdx_of_lt hlen x hplace.1, drop_insertIdx_of_lt hlen x hplace.1,
        isSome_fieldBelow?_of_unmeasured hkind
          (by rw [← drop_of_lt hplace.1, ← fieldDepth?_eq, hd]) hinside (by rwa [hdepth]) hline,
        hdepth]
      exact all_inRun_contentEnd_iff hi hd

end Buffer

namespace Injects.At

open Buffer

variable {r : FieldInjection} {b : Buffer} {i j p : Nat} {x : Line} {key : List Char}
  (hx : At r b i p x) (hbare : Buffer.isBareKey r.field = true)

include hx hbare

/-- A block measures its fields once it has got one. -/
theorem isSome_fieldDepth?_self :
    (Buffer.fieldDepth? (b.insertIdx p x)
      ⟨i, Buffer.stopOf (b.insertIdx p x) i⟩).isSome = true := by
  have hip := hx.isPlace.1
  have hmem : p ∈ Extent.interior ⟨i, Buffer.stopOf (b.insertIdx p x) i⟩ := by
    refine Extent.mem_interior.2 ⟨hip, ?_⟩
    rw [lt_stopOf_insertIdx_self hx.le_length hip]
    refine ⟨hx.isPlace.2.1, ?_⟩
    have := hx.depth_lt hbare
    simp [Line.isInside, this]
  rw [fieldDepth?, Option.isSome_map, List.find?_isSome]
  refine ⟨p, hmem, ?_⟩
  rw [line_insertIdx_self hx.le_length, hx.kind_eq hbare]
  rfl

/-- A block with measured fields has the field that it gets, and those that it had. -/
theorem hasField_self (hd : (b.fieldDepth? ⟨i, b.stopOf i⟩).isSome = true)
    (h : key = r.field ∨ b.hasField ⟨i, b.stopOf i⟩ key = true) :
    Buffer.hasField (b.insertIdx p x) ⟨i, Buffer.stopOf (b.insertIdx p x) i⟩ key = true := by
  obtain ⟨d, hd⟩ := Option.isSome_iff_exists.1 hd
  have hdepth : x.depth = d := by
    rw [hx.depth_eq hbare, childDepth, hd]
  obtain ⟨above, below, hsplit, _, _, hfields⟩ :=
    hx.isPlace.exists_fields_insertIdx hd hx.lt_length (hx.kind_eq hbare) hdepth (hx.key?_eq hbare)
  rw [hasField, hfields]
  rcases h with rfl | h
  · simp
  · rw [hasField, hsplit, List.any_append, Bool.or_eq_true] at h
    simp only [List.any_append, List.any_cons, List.any_map, Bool.or_eq_true]
    exact h.imp_right Or.inr

variable (hentry : (b.line j).kind.isEntry = true)

include hentry

/-- A block that measures its fields goes on to do so. -/
theorem isSome_fieldDepth?_shift (hd : (b.fieldDepth? ⟨j, b.stopOf j⟩).isSome = true) :
    (Buffer.fieldDepth? (b.insertIdx p x)
      ⟨shift p j, Buffer.stopOf (b.insertIdx p x) (shift p j)⟩).isSome = true := by
  by_cases hij : i = j
  · subst hij
    rw [shift_of_lt hx.isPlace.1]
    exact hx.isSome_fieldDepth?_self hbare
  · rwa [hx.fieldDepth?_shift hbare hentry hij]

/-- No block loses a field. -/
theorem hasField_shift (h : b.hasField ⟨j, b.stopOf j⟩ key = true) :
    Buffer.hasField (b.insertIdx p x)
      ⟨shift p j, Buffer.stopOf (b.insertIdx p x) (shift p j)⟩ key = true := by
  by_cases hij : i = j
  · subst hij
    rw [shift_of_lt hx.isPlace.1]
    obtain ⟨f, hf, _⟩ := hasField_iff.1 h
    obtain ⟨d, hd, _⟩ := of_mem_fields hf
    exact hx.hasField_self hbare (by rw [hd]; rfl) (Or.inr h)
  · rw [hasField, List.any_eq_true] at h ⊢
    obtain ⟨f, hf, hkey⟩ := h
    rw [hx.fields_insertIdx hbare hentry hij]
    exact ⟨f.shift p, List.mem_map_of_mem hf, hkey⟩

end Injects.At

end TaskTidy
