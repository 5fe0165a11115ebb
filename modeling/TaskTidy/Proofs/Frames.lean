import TaskTidy.Proofs.Patterns

/-!
# The frame of a line

The frame of a line is what the lines around it see of it: how deep it is, where its content starts,
whether it carries structure, and whether it opens an item. A rewrite that keeps the start of the
line keeps its frame, and then every line belongs to the same item as before.
-/

namespace TaskTidy

namespace Line

variable {l l' : Line} {c : Char}

/-- Two lines of the same frame. -/
structure SameFrame (l l' : Line) : Prop where
  depth_eq : l'.depth = l.depth
  column_eq : l'.column = l.column
  isSignificant_eq : l'.kind.isSignificant = l.kind.isSignificant
  isItem_iff : l'.kind = .item ↔ l.kind = .item

namespace SameFrame

theorem symm (h : SameFrame l l') : SameFrame l' l :=
  ⟨h.depth_eq.symm, h.column_eq.symm, h.isSignificant_eq.symm, h.isItem_iff.symm⟩

theorem trans {l'' : Line} (h : SameFrame l l') (h' : SameFrame l' l'') : SameFrame l l'' :=
  ⟨h'.depth_eq.trans h.depth_eq, h'.column_eq.trans h.column_eq,
    h'.isSignificant_eq.trans h.isSignificant_eq, h'.isItem_iff.trans h.isItem_iff⟩

end SameFrame

theorem kind_eq_of_isEntry (hframe : SameFrame l l') (hl : l.kind.isEntry = true)
    (hl' : l'.kind.isEntry = true) : l'.kind = l.kind := by
  have hitem := hframe.isItem_iff
  revert hl hl' hitem
  cases l.kind <;> cases l'.kind <;> simp [Kind.isEntry]

theorem isIndent_of_isBlank (h : Text.isBlank c = false) : Text.isIndent c = false := by
  rw [← Bool.not_eq_true] at h ⊢
  intro hc
  exact h (Text.isBlank_of_isIndent hc)

theorem mem_unindented (hc : c ∈ l) (hsolid : Text.isIndent c = false) : c ∈ l.unindented := by
  rw [← l.indentation_append_unindented] at hc
  rcases List.mem_append.1 hc with h | h
  · rw [isIndent_of_mem_indentation h] at hsolid
    cases hsolid
  · exact h

/-- A text behind a character that does not indent belongs to the unindented line. -/
theorem unindented_append_of_mem (hc : c ∈ l) (hsolid : Text.isIndent c = false) (t : Line) :
    (l ++ t).unindented = l.unindented ++ t := by
  have hmem := mem_unindented hc hsolid
  have hne : (l.dropWhile Text.isIndent).isEmpty = false := by
    cases hu : l.dropWhile Text.isIndent with
    | nil =>
        rw [unindented, hu] at hmem
        cases hmem
    | cons x rest => rfl
  rw [unindented, List.dropWhile_append, hne]
  rfl

private theorem startsIndented_append {after : Line} (hc : c ∈ after) (t : Line) :
    startsIndented (after ++ t) = startsIndented after := by
  cases after with
  | nil => cases hc
  | cons x rest => rfl

/-! ### Lines by their first character -/

section

variable {x : Char} {rest : Line}

/-- A line that starts with neither a dash nor a hash has its content at its depth. -/
theorem kind_of_plain (hu : l.unindented = x :: rest) (hblank : Text.allBlank (x :: rest) = false)
    (hdash : x ≠ '-') (hhash : x ≠ '#') :
    (l.kind = .parameter ∨ l.kind = .continuation) ∧ l.column = l.depth := by
  constructor
  · unfold kind
    rw [hu, if_neg (by simp [hblank])]
    split
    · next heq =>
        cases heq
        exact absurd rfl hhash
    · next heq =>
        cases heq
        exact absurd rfl hdash
    · split
      · exact Or.inl rfl
      · exact Or.inr rfl
  · unfold column
    rw [hu]
    split
    · next heq =>
        cases heq
        exact absurd rfl hdash
    · rfl

theorem kind_of_hash (hu : l.unindented = '#' :: rest) :
    l.kind = .comment ∧ l.column = l.depth := by
  have hblank : Text.allBlank ('#' :: rest) = false :=
    allBlank_eq_false List.mem_cons_self (by decide)
  constructor
  · rw [kind, hu, hblank]
    rfl
  · rw [column, hu]
    rfl

/-- A line that starts with a dash and holds text behind it is an item if the dash stands apart. -/
theorem kind_of_dash (hu : l.unindented = '-' :: rest) (hblank : Text.allBlank rest = false) :
    l.kind = (if startsIndented rest then .item else .continuation) ∧
      l.column = if startsIndented rest then l.depth + 1 + rest.depth else l.depth := by
  have hblank' : Text.allBlank ('-' :: rest) = false :=
    allBlank_eq_false List.mem_cons_self (by decide)
  constructor
  · rw [kind, hu, hblank']
    simp [hblank]
  · rw [column, hu]
    rfl

end

/-- A line whose content starts behind a dash is an item. -/
theorem kind_of_depth_lt_column (h : l.depth < l.column) (hc : c ∈ l.body)
    (hsolid : Text.isBlank c = false) : l.kind = .item := by
  rw [column_eq] at h
  rw [body_eq] at hc
  cases hu : l.unindented with
  | nil =>
      rw [hu] at h
      exact absurd h (Nat.lt_irrefl _)
  | cons x after =>
      rw [hu] at h hc
      by_cases hx : x = '-'
      · subst hx
        by_cases hstarts : startsIndented after = true
        · rw [dashWidth_cons_of_startsIndented hstarts, Nat.add_comm, List.drop_succ_cons] at hc
          rw [(kind_of_dash hu (allBlank_eq_false (List.mem_of_mem_drop hc) hsolid)).1,
            if_pos hstarts]
        · rw [dashWidth, if_neg hstarts] at h
          exact absurd h (Nat.lt_irrefl _)
      · rw [dashWidth_cons_of_ne hx] at h
        exact absurd h (Nat.lt_irrefl _)

private theorem sameFrame_of_text (hdepth : l'.depth = l.depth)
    (h : (l.kind = .parameter ∨ l.kind = .continuation) ∧ l.column = l.depth)
    (h' : (l'.kind = .parameter ∨ l'.kind = .continuation) ∧ l'.column = l'.depth) :
    SameFrame l l' := by
  obtain ⟨hkind, hcolumn⟩ := h
  obtain ⟨hkind', hcolumn'⟩ := h'
  refine ⟨hdepth, by rw [hcolumn, hcolumn', hdepth], ?_, ?_⟩
  · rcases hkind with h | h <;> rcases hkind' with h' | h' <;> rw [h, h'] <;> rfl
  · rcases hkind with h | h <;> rcases hkind' with h' | h' <;> rw [h, h'] <;> simp

/-- Lines of one depth that start with text of their own have one frame. -/
theorem sameFrame_of_plain {x y : Char} {rest rest' : Line} (hdepth : l'.depth = l.depth)
    (hu : l.unindented = x :: rest) (hu' : l'.unindented = y :: rest')
    (hx : Text.isBlank x = false ∧ x ≠ '-' ∧ x ≠ '#')
    (hy : Text.isBlank y = false ∧ y ≠ '-' ∧ y ≠ '#') : SameFrame l l' := by
  apply sameFrame_of_text hdepth
  · exact kind_of_plain hu (allBlank_eq_false List.mem_cons_self hx.1) hx.2.1 hx.2.2
  · exact kind_of_plain hu' (allBlank_eq_false List.mem_cons_self hy.1) hy.2.1 hy.2.2

/-- The frame of a line is decided by any part of it that holds text other than dashes. -/
theorem sameFrame_append (hc : c ∈ l) (hsolid : Text.isBlank c = false) (hdash : c ≠ '-')
    (t : Line) : SameFrame l (l ++ t) := by
  have hindent := isIndent_of_isBlank hsolid
  have hdepth := depth_append_of_mem (t := t) hc hindent
  have hun := unindented_append_of_mem hc hindent t
  have hmem := mem_unindented hc hindent
  cases hu : l.unindented with
  | nil =>
      rw [hu] at hmem
      cases hmem
  | cons x rest =>
      rw [hu] at hmem
      rw [hu, List.cons_append] at hun
      have hblank := allBlank_eq_false hmem hsolid
      by_cases hx : x = '-'
      · subst hx
        have hrest : c ∈ rest := by
          rcases List.mem_cons.1 hmem with heq | h
          · exact absurd heq hdash
          · exact h
        obtain ⟨hkind, hcolumn⟩ := kind_of_dash hu (allBlank_eq_false hrest hsolid)
        obtain ⟨hkind', hcolumn'⟩ :=
          kind_of_dash hun (allBlank_eq_false (List.mem_append_left t hrest) hsolid)
        have hstarts := startsIndented_append hrest t
        have hwidth := depth_append_of_mem (t := t) hrest hindent
        refine ⟨hdepth, ?_, ?_, ?_⟩
        · rw [hcolumn, hcolumn', hdepth, hstarts, hwidth]
        · rw [hkind, hkind', hstarts]
        · rw [hkind, hkind', hstarts]
      · by_cases hhash : x = '#'
        · subst hhash
          obtain ⟨hkind, hcolumn⟩ := kind_of_hash hu
          obtain ⟨hkind', hcolumn'⟩ := kind_of_hash hun
          exact ⟨hdepth, by rw [hcolumn, hcolumn', hdepth], by rw [hkind, hkind'],
            by rw [hkind, hkind']⟩
        · apply sameFrame_of_text hdepth
          · exact kind_of_plain hu hblank hx hhash
          · have hblank' := allBlank_eq_false (List.mem_append_left t hmem) hsolid
            exact kind_of_plain hun hblank' hx hhash

/-- Two lines with one beginning that holds text have one frame. -/
theorem sameFrame_of_head {head t t' : Line} (hc : c ∈ head) (hsolid : Text.isBlank c = false)
    (hdash : c ≠ '-') : SameFrame (head ++ t) (head ++ t') :=
  (sameFrame_append hc hsolid hdash t).symm.trans (sameFrame_append hc hsolid hdash t')

end Line

namespace Buffer

variable {b : Buffer} {i j : Nat} {l : Line}

theorem sameFrame_line_set (hi : i < b.length) (hl : (b.line i).SameFrame l) (j : Nat) :
    (b.line j).SameFrame (Buffer.line (b.set i l) j) :=
  rel_line_set hi hl (fun _ => ⟨rfl, rfl, rfl, Iff.rfl⟩) j

/-- All lines belong to the same items when a line is replaced by one of its frame. -/
theorem owner?_set (hi : i < b.length) (hl : (b.line i).SameFrame l) (hj : j < b.length) :
    Buffer.owner? (b.set i l) j = b.owner? j := by
  have hself := sameFrame_line_set hi hl j
  have hparent := parent?_set_of_isSignificant hi hl.depth_eq hl.isSignificant_eq hj
  simp only [owner?, hself.isItem_iff, hparent]
  split
  · rfl
  · cases b.parent? j with
    | none => rfl
    | some k =>
        have hk := sameFrame_line_set hi hl k
        simp only [Option.filter_some, hk.isItem_iff, hk.column_eq, hself.depth_eq]

theorem isItemLevel_set (hi : i < b.length) (hl : (b.line i).SameFrame l) (hj : j < b.length) :
    Buffer.isItemLevel (b.set i l) j = b.isItemLevel j := by
  rw [isItemLevel, isItemLevel, owner?_set hi hl hj]

end Buffer

end TaskTidy
