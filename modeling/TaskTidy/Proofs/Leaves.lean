import TaskTidy.Block.Placement
import TaskTidy.Proofs.Shift

/-!
# Lines without a value

A line that is inserted as a leaf takes no line below it for its value: the next line that counts
is neither deeper nor an item at the depth of the new line. What the lines below belong to is then
the same as before.
-/

namespace TaskTidy.Buffer

variable {b : Buffer} {p j : Nat} {x : Line}

/-- The first line from `p` on that satisfies a predicate, down to a line that does. -/
theorem exists_find?_drop {P : Line → Bool} (hnil : P [] = false) (hpj : p ≤ j)
    (hj : P (b.line j) = true) :
    ∃ k, p ≤ k ∧ k ≤ j ∧ (b.drop p).find? P = some (b.line k) ∧ P (b.line k) = true ∧
      ∀ m, p ≤ m → m < k → P (b.line m) = false := by
  have hlen : j < b.length := by
    by_contra hlen
    rw [line_of_length_le (Nat.le_of_not_lt hlen), hnil] at hj
    cases hj
  have hmem : b.line j ∈ b.drop p := by
    refine List.mem_of_getElem? (i := j - p) ?_
    rw [List.getElem?_drop, Nat.add_sub_cancel' hpj, List.getElem?_eq_getElem hlen,
      line_eq_getElem b j hlen]
  obtain ⟨l, hl⟩ := Option.isSome_iff_exists.1 (List.find?_isSome.2 ⟨_, hmem, hj⟩)
  obtain ⟨hP, n, hn, rfl, hbefore⟩ := List.find?_eq_some_iff_getElem.1 hl
  have hline : (b.drop p)[n] = b.line (p + n) := by
    rw [List.length_drop] at hn
    rw [List.getElem_drop, line_eq_getElem b (p + n) (by omega)]
  rw [hline] at hP hl
  rw [List.length_drop] at hn
  refine ⟨p + n, Nat.le_add_right p n, ?_, hl, hP, fun m hpm hm => ?_⟩
  · by_contra hjn
    have hfirst := hbefore (j - p) (by omega)
    rw [List.getElem_drop] at hfirst
    simp only [Nat.add_sub_cancel' hpj] at hfirst
    rw [line_eq_getElem b j hlen] at hj
    rw [hj] at hfirst
    cases hfirst
  · have hfirst := hbefore (m - p) (by omega)
    rw [List.getElem_drop] at hfirst
    simp only [Nat.add_sub_cancel' hpm] at hfirst
    rw [line_eq_getElem b m (by omega)]
    simpa using hfirst

/-- The line `x` at `p` has no value: the next line that counts is neither deeper nor an item at its
depth. -/
def IsLeaf (b : Buffer) (p : Nat) (x : Line) : Prop :=
  ∀ l ∈ (b.drop p).find? (fun l => l.kind.isSignificant), isInsideSequence x.depth l = false

instance (b : Buffer) (p : Nat) (x : Line) : Decidable (b.IsLeaf p x) :=
  inferInstanceAs (Decidable (∀ l ∈ (b.drop p).find? (fun l => l.kind.isSignificant),
    isInsideSequence x.depth l = false))

/-- A search that ends at line `j` at the latest looks at the lines down to it only. -/
theorem find?_drop_of_le {P : Line → Bool} (hpj : p ≤ j) (hj : j < b.length)
    (hP : P (b.line j) = true) : (b.drop p).find? P = ((b.take (j + 1)).drop p).find? P := by
  have hlen : (b.take (j + 1)).length = j + 1 := by
    rw [List.length_take, Nat.min_eq_left hj]
  have hsplit : b.drop p = (b.take (j + 1)).drop p ++ b.drop (j + 1) := by
    conv_lhs => rw [← List.take_append_drop (j + 1) b]
    rw [List.drop_append_of_le_length (by omega)]
  have hmem : b.line j ∈ (b.take (j + 1)).drop p := by
    refine List.mem_of_getElem? (i := j - p) ?_
    rw [List.getElem?_drop, Nat.add_sub_cancel' hpj, List.getElem?_take_of_lt (Nat.lt_succ_self j),
      List.getElem?_eq_getElem hj, line_eq_getElem b j hj]
  obtain ⟨l, hl⟩ := Option.isSome_iff_exists.1 (List.find?_isSome.2 ⟨_, hmem, hP⟩)
  rw [hsplit, List.find?_append, hl, Option.some_or]

namespace IsLeaf

/-- A line that is inserted below a line that counts leaves a leaf further up. -/
theorem insertIdx {q : Nat} {y : Line} (h : b.IsLeaf p x) (hpj : p ≤ j) (hjq : j < q)
    (hq : q ≤ b.length) (hsig : (b.line j).kind.isSignificant = true) :
    IsLeaf (b.insertIdx q y) p x := by
  have hlen : (b.insertIdx q y).length = b.length + 1 := List.length_insertIdx_of_le_length hq y
  have hline : Buffer.line (b.insertIdx q y) j = b.line j := line_insertIdx_of_lt hq y hjq
  have hfind := find?_drop_of_le (P := fun l => l.kind.isSignificant) hpj
    (show j < (b.insertIdx q y).length by omega) (by rwa [hline])
  rw [take_insertIdx hq y hjq, ← find?_drop_of_le hpj (by omega) hsig] at hfind
  rw [IsLeaf, hfind]
  exact h

/-- The next line that counts is no deeper than a leaf, and shallower if it is an item. -/
theorem exists_line (h : b.IsLeaf p x) (hpj : p ≤ j)
    (hsig : (b.line j).kind.isSignificant = true) :
    ∃ k, p ≤ k ∧ k ≤ j ∧ (b.line k).kind.isSignificant = true ∧ (b.line k).depth ≤ x.depth ∧
      ((b.line k).kind = .item → (b.line k).depth < x.depth) := by
  obtain ⟨k, hpk, hkj, hfind, hk, _⟩ :=
    exists_find?_drop (P := fun l => l.kind.isSignificant) rfl hpj hsig
  have hvalue := h _ hfind
  simp only [isInsideSequence, Line.isInside, Bool.or_eq_false_iff, decide_eq_false_iff_not,
    Bool.and_eq_false_imp, decide_eq_true_eq] at hvalue
  obtain ⟨⟨_, hdeep⟩, hitem⟩ := hvalue
  exact ⟨k, hpk, hkj, hk, by omega, fun hkind => by
    have := hitem hkind
    omega⟩

variable (h : b.IsLeaf p x) (hp : p ≤ b.length)

include h hp

theorem parent?_eq (hpj : p ≤ j) (hsig : (b.line j).kind.isSignificant = true) :
    Buffer.parent? (b.insertIdx p x) (j + 1) = (b.parent? j).map (shift p) := by
  refine parent?_insertIdx_of_encloses hp hpj fun hx => ?_
  obtain ⟨k, hpk, hkj, hk, hdepth, _⟩ := h.exists_line hpj hsig
  have hne : k ≠ j := by
    rintro rfl
    omega
  refine ⟨k, hpk, by omega, ?_⟩
  rw [encloses, hk, Bool.true_and, decide_eq_true_eq]
  omega

theorem listKey?_eq (hpj : p ≤ j) (hitem : (b.line j).kind = .item) :
    Buffer.listKey? (b.insertIdx p x) (j + 1) = (b.listKey? j).map (shift p) := by
  have hsig : (b.line j).kind.isSignificant = true := by
    rw [hitem]
    rfl
  refine listKey?_insertIdx_of_endsList hp hpj (h.parent?_eq hp hpj hsig) fun hx => ?_
  obtain ⟨k, hpk, hkj, hk, hdepth, hends⟩ := h.exists_line hpj hsig
  have hne : k ≠ j := by
    rintro rfl
    have := hends hitem
    omega
  refine ⟨k, hpk, by omega, hk, by omega, fun hkind => ?_⟩
  have := hends hkind
  omega

/-- What a line below belongs to does not depend on a leaf. -/
theorem isTask_eq (hpj : p ≤ j) (hsig : (b.line j).kind.isSignificant = true) {stop stop' : Nat} :
    Buffer.isTask (b.insertIdx p x) ⟨j + 1, stop'⟩ = b.isTask ⟨j, stop⟩ := by
  have howner := owner?_insertIdx hp hpj (h.parent?_eq hp hpj hsig)
  exact isTask_insertIdx_of_owner? hp howner fun item ho hitem =>
    h.listKey?_eq hp hitem (of_owner? ho).2

end IsLeaf

end TaskTidy.Buffer
