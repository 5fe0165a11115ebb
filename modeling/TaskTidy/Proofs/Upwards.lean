import TaskTidy.Rule.Guard

/-!
# Looking upwards

The parent, the owner and the ancestors of a line are found among the lines above it. So what a
guard says about a line is already decided by the lines down to it, except when the guard asks for
the other fields of the owner.
-/

namespace TaskTidy

namespace Buffer

variable {b : Buffer} {i n : Nat}

theorem line_of_length_le (h : b.length ≤ i) : b.line i = [] := by
  rw [line, List.getD_eq_getElem?_getD, List.getElem?_eq_none h, Option.getD_none]

/-- A line of text stands in the document. -/
theorem lt_length_of_text (h : Text.allBlank (b.line i) = false) : i < b.length := by
  apply Nat.lt_of_not_le
  intro hi
  rw [line_of_length_le hi] at h
  cases h

/-- The lines down to an index are the lines of any longer beginning. -/
theorem line_take (b : Buffer) (h : i < n) : Buffer.line (b.take n) i = b.line i := by
  simp [line, List.getD_eq_getElem?_getD, h]

theorem above_take (b : Buffer) (h : i ≤ n) : Buffer.above (b.take n) i = b.above i := by
  rw [above, above, List.take_take, Nat.min_eq_left h]

theorem lastBefore?_take (b : Buffer) (p : Line → Bool) (h : i ≤ n) :
    Buffer.lastBefore? (b.take n) p i = b.lastBefore? p i := by
  rw [lastBefore?, lastBefore?, above_take b h]

theorem parent?_take (b : Buffer) (h : i < n) : Buffer.parent? (b.take n) i = b.parent? i := by
  rw [parent?, parent?, line_take b h, lastBefore?_take b _ (Nat.le_of_lt h)]

theorem owner?_take (b : Buffer) (h : i < n) : Buffer.owner? (b.take n) i = b.owner? i := by
  simp only [owner?, line_take b h, parent?_take b h]
  cases hp : b.parent? i with
  | none => rfl
  | some j =>
      have hj : j < n := Nat.lt_trans (parent?_lt hp) h
      simp only [Option.filter_some, line_take b hj]

/-- An owner is an item at or above its line. -/
theorem of_owner? {j : Nat} (h : b.owner? i = some j) : j ≤ i ∧ (b.line j).kind = .item := by
  simp only [owner?] at h
  split at h
  · next hi =>
      cases h
      exact ⟨Nat.le_refl _, hi⟩
  · obtain ⟨hp, hj⟩ := Option.filter_eq_some_iff.1 h
    simp only [Bool.and_eq_true, decide_eq_true_eq] at hj
    exact ⟨Nat.le_of_lt (parent?_lt hp), hj.1⟩

theorem isItemLevel_take (b : Buffer) (h : i < n) :
    Buffer.isItemLevel (b.take n) i = b.isItemLevel i := by
  rw [isItemLevel, isItemLevel, owner?_take b h]

/-- A line ends the search for the key of a list at depth `d`: it is no deeper and no item of the
list. -/
def EndsList (d : Nat) (l : Line) : Prop :=
  l.kind.isSignificant = true ∧ l.depth ≤ d ∧ (l.kind = .item → l.depth < d)

theorem encloses_eq_false_of_not_endsList {d : Nat} {l : Line} (h : ¬EndsList d l) :
    encloses d l = false := by
  rw [← Bool.not_eq_true]
  intro hencloses
  simp only [encloses, Bool.and_eq_true, decide_eq_true_eq] at hencloses
  exact h ⟨hencloses.1, Nat.le_of_lt hencloses.2, fun _ => hencloses.2⟩

/-- Whatever stands above a line, the search for the key of a list goes past it, ends with it, or
ends there without a key. It goes past the lines that do not end the list. -/
theorem listKeyAmong?_cons_cases (d : Nat) (l : Line) :
    (¬EndsList d l ∧ ∀ above, listKeyAmong? d (l :: above) = listKeyAmong? d above) ∨
      (∀ above, listKeyAmong? d (l :: above) = some above.length) ∨
      ∀ above, listKeyAmong? d (l :: above) = none := by
  by_cases hskip : (!l.kind.isSignificant || decide (d < l.depth)) = true
  · refine Or.inl ⟨?_, fun above => by rw [listKeyAmong?, if_pos hskip]⟩
    rintro ⟨hsig, hle, _⟩
    simp only [hsig, Bool.not_true, Bool.false_or, decide_eq_true_eq] at hskip
    omega
  · by_cases hshallow : l.depth < d
    · exact Or.inr (Or.inl fun above => by rw [listKeyAmong?, if_neg hskip, if_pos hshallow])
    · simp only [listKeyAmong?, if_neg hskip, if_neg hshallow]
      cases hkind : l.kind with
      | item => exact Or.inl ⟨fun hends => hshallow (hends.2.2 hkind), fun _ => rfl⟩
      | parameter =>
          cases l.value?.isNone with
          | true => exact Or.inr (Or.inl fun _ => rfl)
          | false => exact Or.inr (Or.inr fun _ => rfl)
      | _ => exact Or.inr (Or.inr fun _ => rfl)

theorem listKeyAmong?_lt {d j : Nat} {above : List Line}
    (h : listKeyAmong? d above = some j) : j < above.length := by
  induction above with
  | nil => cases h
  | cons l above ih =>
      rcases listKeyAmong?_cons_cases d l with ⟨_, hpast⟩ | hkey | hnone
      · rw [hpast] at h
        exact Nat.lt_succ_of_lt (ih h)
      · rw [hkey] at h
        cases h
        exact Nat.lt_succ_self _
      · rw [hnone] at h
        cases h

theorem listKey?_lt {j : Nat} (h : b.listKey? i = some j) : j < i := by
  have hlen : (b.above i).length ≤ i := by
    rw [above, List.length_reverse, List.length_take]
    exact Nat.min_le_left _ _
  unfold listKey? at h
  split at h
  · next k hk =>
      cases h
      exact Nat.lt_of_lt_of_le (listKeyAmong?_lt hk) hlen
  · exact parent?_lt h

theorem listKey?_take (b : Buffer) (h : i < n) : Buffer.listKey? (b.take n) i = b.listKey? i := by
  simp only [listKey?, line_take b h, above_take b (Nat.le_of_lt h), parent?_take b h]

theorem inTaskList_take (b : Buffer) (h : i < n) :
    Buffer.inTaskList (b.take n) i = b.inTaskList i := by
  simp only [inTaskList, owner?_take b h]
  cases ho : b.owner? i with
  | none => rfl
  | some item =>
      have hitem : item < n := Nat.lt_of_le_of_lt (of_owner? ho).1 h
      simp only [listKey?_take b hitem]
      cases hk : b.listKey? item with
      | none => rfl
      | some key => simp only [line_take b (Nat.lt_trans (listKey?_lt hk) hitem)]

theorem isNested_take (b : Buffer) (h : i < n) :
    Buffer.isNested (b.take n) i = b.isNested i := by
  simp only [isNested, parent?_take b h, line_take b h]
  cases hp : b.parent? i with
  | none => rfl
  | some j => simp only [line_take b (Nat.lt_trans (parent?_lt hp) h)]

private theorem lt_of_mem_ancestorsAmong {d j : Nat} {above : List Line}
    (h : j ∈ ancestorsAmong d above) : j < above.length := by
  induction above generalizing d with
  | nil => cases h
  | cons l above ih =>
      unfold ancestorsAmong at h
      split at h
      · rcases List.mem_cons.1 h with rfl | h
        · simp
        · exact Nat.lt_succ_of_lt (ih h)
      · exact Nat.lt_succ_of_lt (ih h)

theorem lt_of_mem_ancestors {j : Nat} (h : j ∈ b.ancestors i) : j < i := by
  apply Nat.lt_of_lt_of_le (lt_of_mem_ancestorsAmong h)
  rw [above, List.length_reverse, List.length_take]
  exact Nat.min_le_left _ _

theorem ancestors_take (b : Buffer) (h : i < n) :
    Buffer.ancestors (b.take n) i = b.ancestors i := by
  rw [ancestors, ancestors, line_take b h, above_take b (Nat.le_of_lt h)]

theorem inScalar_take (b : Buffer) (h : i < n) :
    Buffer.inScalar (b.take n) i = b.inScalar i := by
  simp only [inScalar, ancestors_take b h, line_take b h]
  rw [Bool.eq_iff_iff, List.any_eq_true, List.any_eq_true]
  have hline {j : Nat} (hj : j ∈ b.ancestors i) : Buffer.line (b.take n) j = b.line j :=
    line_take b (Nat.lt_trans (lt_of_mem_ancestors hj) h)
  constructor
  · rintro ⟨j, hj, hs⟩
    exact ⟨j, hj, by rwa [hline hj] at hs⟩
  · rintro ⟨j, hj, hs⟩
    exact ⟨j, hj, by rwa [hline hj]⟩

end Buffer

namespace Guard

variable {b : Buffer} {i n : Nat}

/-- Whether the guard asks only for the lines down to its own line. -/
def looksUp : Guard → Bool
  | .ownerLacks _ => false
  | _ => true

theorem followsComment_take (b : Buffer) (h : i < n) :
    followsComment (b.take n) i = followsComment b i := by
  cases i with
  | zero => rfl
  | succ i => simp only [followsComment, Buffer.line_take b (Nat.lt_of_succ_lt h)]

theorem allows_take (b : Buffer) {g : Guard} (hg : g.looksUp = true) (h : i < n) :
    g.allows (b.take n) i = g.allows b i := by
  cases g with
  | itemLevel => exact Buffer.isItemLevel_take b h
  | taskList => exact Buffer.inTaskList_take b h
  | nested => exact Buffer.isNested_take b h
  | ownerLacks key => cases hg
  | notAfterComment => simp only [allows, followsComment_take b h]
  | outsideScalar => simp only [allows, Buffer.inScalar_take b h]

/-- Documents with the same lines down to `i` get the same answer there. -/
theorem allows_congr {c : Buffer} {g : Guard} (hg : g.looksUp = true)
    (h : b.take (i + 1) = c.take (i + 1)) : g.allows b i = g.allows c i := by
  rw [← allows_take b hg (Nat.lt_succ_self i), h, allows_take c hg (Nat.lt_succ_self i)]

end Guard

end TaskTidy
