import TaskTidy.Proofs.Columns
import TaskTidy.Proofs.Entries
import TaskTidy.Proofs.Upwards

/-!
# Replacing a line

A line that is replaced by one of the same depth, neither of them blank, leaves every block with the
same lines but one. The parent of the line stays, and with it what the line belongs to.
-/

namespace TaskTidy

namespace Line

variable {l l' : Line}

/-- Two lines that belong to the same blocks: they are equally deep, and both blank or both not. -/
def SameExtent (l l' : Line) : Prop :=
  l'.depth = l.depth ∧ Text.allBlank l' = Text.allBlank l

theorem SameExtent.isInside_eq (h : SameExtent l l') (base : Nat) :
    l'.isInside base = l.isInside base := by
  rw [isInside, isInside, h.1, h.2]

theorem allBlank_eq_false {c : Char} (hc : c ∈ l) (hblank : Text.isBlank c = false) :
    Text.allBlank l = false := by
  rw [Text.allBlank, List.all_eq_false]
  exact ⟨c, hc, by simp [hblank]⟩

/-- Lines of one depth belong to the same blocks if each holds text. -/
theorem SameExtent.of_mem {c d : Char} (hdepth : l'.depth = l.depth) (hc : c ∈ l)
    (hblank : Text.isBlank c = false) (hd : d ∈ l') (hblank' : Text.isBlank d = false) :
    SameExtent l l' :=
  ⟨hdepth, by rw [allBlank_eq_false hc hblank, allBlank_eq_false hd hblank']⟩

/-- A key stands at the start of the body. -/
theorem isPrefix_body_of_key? {key : List Char} (h : l.key? = some key) : key <+: l.body := by
  unfold key? at h
  split at h
  · obtain ⟨entry, hentry, rfl⟩ := Option.map_eq_some_iff.1 h
    obtain ⟨_, _, hsplit, _⟩ := exists_colon_of_entryOf? hentry
    exact ⟨_, (append_of_splitKey? hsplit).symm⟩
  · cases h

theorem hasKeyIn_iff {keys : List (List Char)} :
    l.hasKeyIn keys = true ↔ ∃ key ∈ keys, l.key? = some key := by
  unfold hasKeyIn
  cases l.key? with
  | none => simp
  | some key => simp

theorem exists_key?_of_hasKeyIn {keys : List (List Char)} (h : l.hasKeyIn keys = true) :
    ∃ key, l.key? = some key := by
  obtain ⟨key, _, hkey⟩ := hasKeyIn_iff.1 h
  exact ⟨key, hkey⟩

/-- A line that carries a key is an item or a parameter. -/
theorem isEntry_of_hasKeyIn {keys : List (List Char)} (h : l.hasKeyIn keys = true) :
    l.kind.isEntry = true := by
  obtain ⟨key, hkey⟩ := exists_key?_of_hasKeyIn h
  unfold key? at hkey
  split at hkey
  · next hentry => exact hentry
  · cases hkey

theorem hasKey_eq_false {key : List Char} (h : ¬ key <+: l.body) : l.hasKey key = false := by
  rw [← Bool.not_eq_true, hasKey, beq_iff_eq]
  intro hkey
  exact h (isPrefix_body_of_key? hkey)

/-- Without a dash the body is all the text. -/
theorem body_of_startsBody (h : startsBody l.unindented = true) : l.body = l.unindented := by
  rw [body_eq, dashWidth_of_startsBody h, List.drop_zero]

theorem column_of_startsBody (h : startsBody l.unindented = true) : l.column = l.depth := by
  rw [column_eq, dashWidth_of_startsBody h, Nat.add_zero]

/-- The content of a list item starts behind its dash. -/
theorem depth_lt_column_of_item (h : l.kind = .item) : l.depth < l.column := by
  obtain ⟨after, hu, _, hstarts⟩ := describes_of_kind h
  rw [column, hu]
  simp only [hstarts, if_true]
  omega

/-- A blank line carries nothing. -/
theorem kind_of_allBlank (h : Text.allBlank l = true) : l.kind = .blank := by
  have hblank : Text.allBlank l.unindented = true := by
    rw [Text.allBlank, List.all_eq_true] at h ⊢
    intro c hc
    exact h c ((List.dropWhile_sublist _).mem hc)
  rw [kind, if_pos hblank]

theorem allBlank_of_kind_ne (h : l.kind ≠ .blank) : Text.allBlank l = false := by
  rw [← Bool.not_eq_true]
  exact fun hblank => h (kind_of_allBlank hblank)

theorem allBlank_of_isSignificant (h : l.kind.isSignificant = true) : Text.allBlank l = false := by
  apply allBlank_of_kind_ne
  intro hblank
  rw [hblank] at h
  cases h

/-- A line of text is inside a block if it is deeper. -/
theorem isInside_iff {base : Nat} (htext : Text.allBlank l = false) :
    l.isInside base = true ↔ base < l.depth := by
  rw [isInside, htext, Bool.false_or, decide_eq_true_eq]

theorem kind_ne_item_of_column_eq (h : l.column = l.depth) : l.kind ≠ .item := fun hitem =>
  Nat.ne_of_gt (depth_lt_column_of_item hitem) h

end Line

namespace Buffer

variable {b c : Buffer} {i j : Nat} {l : Line}

theorem line_set_self (h : i < b.length) (l : Line) : Buffer.line (b.set i l) i = l := by
  simp [line, List.getD_eq_getElem?_getD, h]

theorem line_set_of_ne (h : j ≠ i) (l : Line) : Buffer.line (b.set i l) j = b.line j := by
  simp [line, List.getD_eq_getElem?_getD, List.getElem?_set_ne h.symm]

/-- A line that is replaced by a related one leaves every line related to the one in its place. -/
theorem rel_line_set {R : Line → Line → Prop} (hi : i < b.length) (hl : R (b.line i) l)
    (hrefl : ∀ x, R x x) (j : Nat) : R (b.line j) (Buffer.line (b.set i l) j) := by
  by_cases hji : j = i
  · rwa [hji, line_set_self hi]
  · rw [line_set_of_ne hji]
    exact hrefl _

theorem map_line_set {α : Type} {f : Line → α} (hi : i < b.length) (hl : f l = f (b.line i))
    (j : Nat) : f (Buffer.line (b.set i l) j) = f (b.line j) :=
  rel_line_set (R := fun x y => f y = f x) hi hl (fun _ => rfl) j

theorem above_set (h : j ≤ i) (l : Line) : Buffer.above (b.set i l) j = b.above j := by
  rw [above, above, List.take_set_of_le h]

/-- The lines above a lower line: those down to line `j`, that line, and the lines above it. -/
theorem above_of_lt {n : Nat} (hjn : j < n) (hn : n ≤ b.length) :
    b.above n = ((b.take n).drop (j + 1)).reverse ++ b.line j :: b.above j := by
  have htake : (b.take n).take (j + 1) = b.take (j + 1) := by
    rw [List.take_take, Nat.min_eq_left hjn]
  rw [← above_succ (Nat.lt_of_lt_of_le hjn hn), above, above, ← htake, ← List.reverse_append,
    List.take_append_drop]

theorem above_set_of_lt {n : Nat} (hjn : j < n) (hn : n ≤ b.length) (l : Line) :
    Buffer.above (b.set j l) n = ((b.take n).drop (j + 1)).reverse ++ l :: b.above j := by
  rw [above_of_lt hjn (by rwa [List.length_set]), List.take_set,
    List.drop_set_of_lt (Nat.lt_succ_self j), line_set_self (Nat.lt_of_lt_of_le hjn hn),
    above_set (Nat.le_refl j)]

/-- The parent of a line depends on its depth and the lines above it. -/
theorem parent?_congr (habove : c.above i = b.above i)
    (hdepth : (c.line i).depth = (b.line i).depth) : c.parent? i = b.parent? i := by
  rw [parent?, parent?, lastBefore?, lastBefore?, habove, hdepth]

theorem parent?_set (h : i < b.length) (hdepth : l.depth = (b.line i).depth) :
    Buffer.parent? (b.set i l) i = b.parent? i :=
  parent?_congr (above_set (Nat.le_refl i) l) (by rw [line_set_self h, hdepth])

theorem isNested_set (h : i < b.length) (hdepth : l.depth = (b.line i).depth) :
    Buffer.isNested (b.set i l) i = b.isNested i := by
  simp only [isNested, parent?_set h hdepth, line_set_self h, hdepth]
  cases hp : b.parent? i with
  | none => rfl
  | some j => simp only [line_set_of_ne (Nat.ne_of_lt (parent?_lt hp))]

/-- A field of a list item is not nested in its value. -/
theorem isNested_of_isItemLevel (hkind : (b.line i).kind ≠ .item) (h : b.isItemLevel i = true) :
    b.isNested i = false := by
  obtain ⟨j, hj⟩ := Option.isSome_iff_exists.1 h
  simp only [owner?, if_neg hkind] at hj
  obtain ⟨hp, hparent⟩ := Option.filter_eq_some_iff.1 hj
  simp only [Bool.and_eq_true, decide_eq_true_eq] at hparent
  simp [isNested, hp, hparent.1, hparent.2]

private theorem takeWhile_set {p : Line → Bool} {lines : List Line} {k : Nat}
    (h : ∀ x, lines[k]? = some x → p l = p x) :
    (lines.set k l).takeWhile p = (lines.takeWhile p).set k l := by
  induction lines generalizing k with
  | nil => rfl
  | cons x rest ih =>
      cases k with
      | zero =>
          rw [List.set_cons_zero, List.takeWhile_cons, List.takeWhile_cons, h x rfl]
          split <;> rfl
      | succ k =>
          rw [List.set_cons_succ, List.takeWhile_cons, List.takeWhile_cons,
            ih fun y hy => h y hy]
          split <;> rfl

/-- A run of lines keeps its extent when one of them is replaced by a line that belongs to it just
as well. -/
theorem runAfter_set {p : Line → Bool} (hji : j < i) (hp : p l = p (b.line i)) :
    Buffer.runAfter (b.set i l) j p = (b.runAfter j p).set (i - (j + 1)) l := by
  rw [runAfter, runAfter, List.drop_set, if_neg (by omega)]
  apply takeWhile_set
  intro x hx
  rw [List.getElem?_drop, Nat.add_sub_cancel' (by omega)] at hx
  rw [hp, line, List.getD_eq_getElem?_getD, hx, Option.getD_some]

theorem stopOf_set (hji : j < i) (hl : (b.line i).SameExtent l) :
    Buffer.stopOf (b.set i l) j = b.stopOf j := by
  rw [stopOf, stopOf, line_set_of_ne (Nat.ne_of_lt hji), runAfter_set hji (hl.isInside_eq _),
    List.length_set]

/-- A block keeps its extent when a line is replaced by one that belongs to the same blocks. -/
theorem stopOf_set_of_sameExtent (hi : i < b.length) (hl : (b.line i).SameExtent l) (j : Nat) :
    Buffer.stopOf (b.set i l) j = b.stopOf j := by
  rcases Nat.lt_or_ge j i with hji | hij
  · exact stopOf_set hji hl
  · rw [stopOf, stopOf, runAfter, runAfter, map_line_set hi hl.1,
      List.drop_set_of_lt (Nat.lt_succ_of_le hij)]

/-- A search upwards that does not tell the lines apart gives the same index. -/
theorem lastBefore?_set {q : Line → Bool} (hi : i < b.length) (hq : q l = q (b.line i))
    (hj : j ≤ b.length) : Buffer.lastBefore? (b.set i l) q j = b.lastBefore? q j := by
  induction j with
  | zero => rfl
  | succ j ih =>
      rw [lastBefore?_succ hj, lastBefore?_succ (by rwa [List.length_set]),
        ih (Nat.le_of_succ_le hj), map_line_set hi hq]

/-- All lines keep their parents when a line is replaced by one of the same depth that is just as
significant. -/
theorem parent?_set_of_isSignificant (hi : i < b.length) (hdepth : l.depth = (b.line i).depth)
    (hsig : l.kind.isSignificant = (b.line i).kind.isSignificant) (hj : j < b.length) :
    Buffer.parent? (b.set i l) j = b.parent? j := by
  rw [parent?, parent?, map_line_set hi hdepth,
    lastBefore?_set hi (by rw [encloses, encloses, hdepth, hsig]) (Nat.le_of_lt hj)]

private theorem any_takeWhile_set {p q : Line → Bool} {lines : List Line} {k : Nat}
    (h : ∀ x, lines[k]? = some x → p l = p x ∧ q x = false)
    (hany : (lines.takeWhile p).any q = true) : ((lines.set k l).takeWhile p).any q = true := by
  induction lines generalizing k with
  | nil => cases hany
  | cons x rest ih =>
      rw [List.takeWhile_cons] at hany
      split at hany
      · next hp =>
          rw [List.any_cons, Bool.or_eq_true] at hany
          cases k with
          | zero =>
              obtain ⟨hpl, hqx⟩ := h x rfl
              rw [List.set_cons_zero, List.takeWhile_cons, if_pos (hpl.trans hp), List.any_cons,
                Bool.or_eq_true]
              rcases hany with hx | hrest
              · exact absurd hx (by simp [hqx])
              · exact Or.inr hrest
          | succ k =>
              rw [List.set_cons_succ, List.takeWhile_cons, if_pos hp, List.any_cons,
                Bool.or_eq_true]
              exact hany.imp id fun hrest => ih (fun y hy => h y hy) hrest
      · cases hany

/-- A list item keeps the keys that the replaced line did not carry. -/
theorem itemHas_set {key : List Char} (hji : j < i) (hl : (b.line i).SameExtent l)
    (hkey : (b.line i).hasKey key = false) (h : b.itemHas j key = true) :
    Buffer.itemHas (b.set i l) j key = true := by
  simp only [itemHas, line_set_of_ne (Nat.ne_of_lt hji), Bool.or_eq_true] at h ⊢
  rcases h with h | h
  · exact Or.inl h
  · right
    rw [runAfter, List.drop_set, if_neg (by omega)]
    refine any_takeWhile_set (fun x hx => ?_) h
    rw [List.getElem?_drop, Nat.add_sub_cancel' (by omega)] at hx
    have hline : b.line i = x := by rw [line, List.getD_eq_getElem?_getD, hx, Option.getD_some]
    subst hline
    exact ⟨hl.isInside_eq _, by rw [hkey, Bool.and_false]⟩

theorem owner?_set_of_lt (hji : j < i) (l : Line) : Buffer.owner? (b.set i l) j = b.owner? j := by
  rw [← owner?_take (b.set i l) (Nat.lt_succ_self j), List.take_set_of_le hji,
    owner?_take b (Nat.lt_succ_self j)]

theorem ownerHas_set {key : List Char} (hji : j < i) (hl : (b.line i).SameExtent l)
    (hkey : (b.line i).hasKey key = false) (h : b.ownerHas j key = true) :
    Buffer.ownerHas (b.set i l) j key = true := by
  simp only [ownerHas, owner?_set_of_lt hji] at h ⊢
  cases ho : b.owner? j with
  | none =>
      rw [ho] at h
      cases h
  | some item =>
      rw [ho] at h
      exact itemHas_set (Nat.lt_of_le_of_lt (of_owner? ho).1 hji) hl hkey h

end Buffer

end TaskTidy
