import TaskTidy.Proofs.FieldOrder

/-!
# Sequences at the column of their key

A key without a value on its line may have a sequence written at its own column. The entries of the
sequence are list items and bare dashes; blank lines, comments and deeper lines may stand between
them. A new field that follows the key goes below an entry, unless the sequence holds a bare dash or
a comment left of the content above it: the value of the key is taken to end there.
-/

namespace TaskTidy

namespace Line

variable {d : Nat} {l : Line}

/-- A list marker with nothing behind it. -/
def isBareDash (l : Line) : Bool :=
  match l.unindented with
  | '-' :: after => Text.allBlank after
  | _ => false

/-- A bare dash is a blank line that holds text. -/
theorem of_isBareDash (h : l.isBareDash = true) : l.kind = .blank ∧ Text.allBlank l = false := by
  unfold isBareDash at h
  split at h
  · next after hun =>
      have hdash : Text.isBlank '-' = false := by decide
      constructor
      · unfold kind
        split
        · rfl
        · simp only [hun, h, if_true]
      · exact allBlank_eq_false (mem_of_mem_unindented (l := l) (by simp [hun])) hdash
  · cases h

/-- An entry of a sequence at column `d`: a list item or a bare dash. -/
def isSequenceEntry (d : Nat) (l : Line) : Bool :=
  l.depth = d && (l.kind = .item || l.isBareDash)

/-- Whether a line may stand in a sequence at column `d`. -/
def continuesSequence (d : Nat) (l : Line) : Bool :=
  Text.allBlank l || l.kind = .comment || d < l.depth || l.isSequenceEntry d

/-- Whether the value of a key at column `d` is taken to end above a line of its sequence. -/
def cutsSequence (d : Nat) (l : Line) : Bool :=
  (l.kind = .comment && l.depth ≤ d) || (l.isBareDash && l.depth = d)

/-- An entry of a sequence holds text. -/
theorem allBlank_of_isSequenceEntry (h : l.isSequenceEntry d = true) : Text.allBlank l = false := by
  simp only [isSequenceEntry, Bool.and_eq_true, Bool.or_eq_true, decide_eq_true_eq] at h
  rcases h.2 with hitem | hdash
  · exact allBlank_of_isEntry (by rw [hitem]; rfl)
  · exact (of_isBareDash hdash).2

/-- The value of a key goes on over the lines of its sequence that do not cut it. -/
theorem isInsideSequence_iff : Buffer.isInsideSequence d l = true ↔
    l.continuesSequence d = true ∧ l.cutsSequence d = false := by
  have hblank : Text.allBlank l = true → l.kind = .blank := kind_of_allBlank
  have hdash : l.isBareDash = true → l.kind = .blank ∧ Text.allBlank l = false := of_isBareDash
  simp only [Buffer.isInsideSequence, isInside, continuesSequence, isSequenceEntry, cutsSequence,
    Bool.or_eq_true, Bool.and_eq_true, decide_eq_true_eq, Bool.or_eq_false_iff,
    Bool.and_eq_false_iff, decide_eq_false_iff_not]
  grind

end Line

namespace Anchors

variable {a : Anchors} {fields : List Field} {f g : Field}

/-- A field that a new field may follow: it is named in `after` and stands above every field named
in `before`. -/
def MayFollow (a : Anchors) (fields : List Field) (f : Field) : Prop :=
  f ∈ fields ∧ f.key ∈ a.after ∧ ∀ g ∈ fields, g.key ∈ a.before → f.index < g.index

/-- The last field that a new field may follow. -/
def IsAnchor (a : Anchors) (fields : List Field) (f : Field) : Prop :=
  a.MayFollow fields f ∧ ∀ g ∈ fields, a.MayFollow fields g → g.index ≤ f.index

instance : Decidable (a.MayFollow fields f) :=
  inferInstanceAs (Decidable (_ ∧ _))

instance : Decidable (a.IsAnchor fields f) :=
  inferInstanceAs (Decidable (_ ∧ _))

/-- Among fields in the order of their lines, those above every field named in `before` are those up
to the first such field. -/
theorem mayFollow_iff (hsorted : fields.Pairwise fun f g => f.index < g.index) :
    a.MayFollow fields f ↔
      f ∈ fields.takeWhile (fun g => !a.before.contains g.key) ∧ f.key ∈ a.after := by
  have hsplit := List.takeWhile_append_dropWhile (p := fun g : Field => !a.before.contains g.key)
    (l := fields)
  constructor
  · rintro ⟨hf, hafter, habove⟩
    refine ⟨?_, hafter⟩
    rw [← hsplit] at hf hsorted
    refine (List.mem_append.1 hf).resolve_right fun hbelow => ?_
    cases hrest : fields.dropWhile fun g => !a.before.contains g.key with
    | nil =>
        rw [hrest] at hbelow
        cases hbelow
    | cons g rest =>
        have hbefore : g.key ∈ a.before := by
          have := List.head?_dropWhile_not (fun g : Field => !a.before.contains g.key) fields
          rw [hrest] at this
          simpa using this
        have hlt := habove g ((List.dropWhile_sublist _).mem (hrest ▸ List.mem_cons_self)) hbefore
        rw [hrest] at hbelow hsorted
        rcases List.mem_cons.1 hbelow with rfl | hmem
        · exact Nat.lt_irrefl _ hlt
        · have := (List.pairwise_cons.1 (List.pairwise_append.1 hsorted).2.1).1 f hmem
          omega
  · rintro ⟨hf, hafter⟩
    refine ⟨(List.takeWhile_sublist _).mem hf, hafter, fun g hg hbefore => ?_⟩
    rw [← hsplit] at hg hsorted
    rcases List.mem_append.1 hg with hg | hg
    · have := List.mem_takeWhile_imp hg
      simp [hbefore] at this
    · exact (List.pairwise_append.1 hsorted).2.2 f hf g hg

/-- The anchor of a new field is found among fields in the order of their lines. -/
theorem IsAnchor.anchor?_eq (h : a.IsAnchor fields f)
    (hsorted : fields.Pairwise fun f g => f.index < g.index) :
    Buffer.anchor? a fields = some f := by
  obtain ⟨hf, hlast⟩ := h
  obtain ⟨hmem, hafter⟩ := (mayFollow_iff hsorted).1 hf
  have hprefix := hsorted.sublist (List.takeWhile_sublist fun g => !a.before.contains g.key)
  cases hfind : Buffer.anchor? a fields with
  | none =>
      have := List.find?_eq_none.1 hfind f (List.mem_reverse.2 hmem)
      simp [hafter] at this
  | some g =>
      obtain ⟨hg, later, earlier, hcut, hlater⟩ := List.find?_eq_some_iff_append.1 hfind
      have hgmem : g ∈ fields.takeWhile fun g => !a.before.contains g.key := by
        rw [← List.mem_reverse, hcut]
        simp
      have hle := hlast g ((List.takeWhile_sublist _).mem hgmem)
        ((mayFollow_iff hsorted).2 ⟨hgmem, by simpa using hg⟩)
      rw [← List.mem_reverse, hcut] at hmem
      rw [← List.pairwise_reverse, hcut] at hprefix
      rcases List.mem_append.1 hmem with hbelow | hbelow
      · have := hlater f hbelow
        simp [hafter] at this
      · rcases List.mem_cons.1 hbelow with rfl | habove
        · rfl
        · have := (List.pairwise_cons.1 (List.pairwise_append.1 hprefix).2.1).1 f habove
          omega

end Anchors

namespace Buffer

variable {b : Buffer} {i j : Nat}

/-- Line `j` is an entry of the sequence of the key on line `i`: it stands at the column of the key,
and the lines between the two belong to the sequence. -/
def HasEntry (b : Buffer) (i j : Nat) : Prop :=
  i < j ∧ (b.line j).isSequenceEntry (b.line i).depth = true ∧
    ∀ k < j, i < k → (b.line k).continuesSequence (b.line i).depth = true

instance : Decidable (b.HasEntry i j) :=
  inferInstanceAs (Decidable (_ ∧ _))

/-- The last content of a run stands below every line of the run that holds text. -/
theorem lt_lastContent_iff {q : Line → Bool}
    (htext : Text.allBlank (b.line j) = false) :
    j < lastContent i (b.runAfter i q) ↔ j < i + 1 + (b.runAfter i q).length := by
  constructor
  · intro hj
    exact Nat.lt_of_lt_of_le hj (lastContent_le _ _)
  · intro hj
    by_contra hlast
    rw [allBlank_of_lastContent_le (Nat.le_of_not_lt hlast) hj] at htext
    cases htext

/-- An entry belongs to the value of its key exactly if no line of the sequence down to it cuts the
value off. -/
theorem HasEntry.lt_fieldEnd_iff (h : b.HasEntry i j) (hvalue : (b.line i).value? = none) :
    j < b.fieldEnd i ↔ ∀ k ≤ j, i < k → (b.line k).cutsSequence (b.line i).depth = false := by
  obtain ⟨hij, hentry, hcontinues⟩ := h
  have htext := Line.allBlank_of_isSequenceEntry hentry
  have hlen := lt_length_of_text htext
  have hsequence {k : Nat} (hik : i < k) (hkj : k ≤ j) :
      (b.line k).continuesSequence (b.line i).depth = true := by
    rcases Nat.lt_or_eq_of_le hkj with hlt | rfl
    · exact hcontinues k hlt hik
    · rw [Line.continuesSequence, hentry, Bool.or_true]
  rw [fieldEnd, hvalue]
  simp only [Option.isSome_none, Bool.false_eq_true, if_false]
  rw [lt_lastContent_iff htext, lt_runAfter_iff hij]
  constructor
  · rintro ⟨_, hinside⟩ k hkj hik
    exact (Line.isInsideSequence_iff.1 (hinside k hik hkj)).2
  · intro hcuts
    exact ⟨hlen, fun k hik hkj => Line.isInsideSequence_iff.2 ⟨hsequence hik hkj, hcuts k hkj hik⟩⟩

/-- A new field that follows a key without a value on its line goes below an entry of the sequence
of that key exactly if no line of the sequence down to the entry is a bare dash or a comment left of
the content. -/
theorem lt_insertionIndex_iff {e : Extent} {a : Anchors} {f : Field} (he : b.extentOf i = .ok e)
    (hf : a.IsAnchor (b.fields e) f) (hvalue : (b.line f.index).value? = none)
    (hj : b.HasEntry f.index j) :
    j < b.insertionIndex e a ↔
      ∀ k ≤ j, f.index < k → (b.line k).cutsSequence (b.line f.index).depth = false := by
  obtain ⟨_, rfl⟩ := extentOf_eq_ok_iff.1 he
  have hanchor := hf.anchor?_eq (b.pairwise_fields i)
  have hplace : b.insertionIndex ⟨i, b.stopOf i⟩ a = b.fieldEnd f.index := by
    simp only [insertionIndex, hanchor]
  rw [hplace, hj.lt_fieldEnd_iff hvalue]

/-- A sequence with a blank line, a deeper comment and an item of two lines is passed as a whole. -/
theorem lt_insertionIndex_iff_tags :
    let b : Buffer := ["- hosts: all", "  tags:", "  - web", "", "    # the database", "  - db:",
      "      main", "  when: ready"].map String.toList
    let a : Anchors := ⟨["tags".toList], ["when".toList]⟩
    b.extentOf 0 = .ok ⟨0, 8⟩ ∧ b.HasEntry 1 5 ∧ 5 < b.insertionIndex ⟨0, 8⟩ a := by
  intro b a
  have he : b.extentOf 0 = .ok ⟨0, 8⟩ := by decide +kernel
  have hanchor : a.IsAnchor (b.fields ⟨0, 8⟩) ⟨1, "tags".toList⟩ := by decide +kernel
  have hentry : b.HasEntry 1 5 := by decide +kernel
  exact ⟨he, hentry,
    (lt_insertionIndex_iff he hanchor (by decide +kernel) hentry).2 (by decide +kernel)⟩

/-- A comment at the column of the key or a bare dash splits a sequence: the new field goes above
the entry behind it. -/
theorem not_lt_insertionIndex_of_hasEntry :
    let a : Anchors := ⟨["tags".toList], ["when".toList]⟩
    let commented : Buffer :=
      ["- name: x", "  tags:", "  - web", "  # the database", "  - db", "  when: ready"].map
        String.toList
    let dashed : Buffer := ["- name: x", "  tags:", "  - web", "  -", "  - db"].map String.toList
    (commented.extentOf 0 = .ok ⟨0, 6⟩ ∧
      a.IsAnchor (commented.fields ⟨0, 6⟩) ⟨1, "tags".toList⟩ ∧
      (commented.line 1).value? = none ∧ commented.HasEntry 1 4 ∧
      ¬4 < commented.insertionIndex ⟨0, 6⟩ a) ∧
    dashed.extentOf 0 = .ok ⟨0, 5⟩ ∧
      a.IsAnchor (dashed.fields ⟨0, 5⟩) ⟨1, "tags".toList⟩ ∧
      (dashed.line 1).value? = none ∧ dashed.HasEntry 1 4 ∧
      ¬4 < dashed.insertionIndex ⟨0, 5⟩ a := by
  decide +kernel

end Buffer

end TaskTidy
