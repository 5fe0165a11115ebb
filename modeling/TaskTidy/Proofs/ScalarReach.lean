import TaskTidy.Proofs.Nesting
import TaskTidy.Proofs.ScalarText

/-!
# How far the guard of block scalars reaches

A line is taken for script text if an ancestor with its content further left opens a block scalar.
All text of a value is found that way. The value of a header may end above a line whose chain of
parents still leads to it: below a field of the item that opens the scalar, and below a comment or a
bare dash. Where every header that is found has been left like this, the guard holds outside all
block scalars.
-/

namespace TaskTidy.Buffer

variable {b : Buffer} {h i k : Nat}

/-- Line `h` is a header that the guard finds for line `i`. -/
def FindsHeader (b : Buffer) (i h : Nat) : Prop :=
  h ∈ b.ancestors i ∧ (b.line h).opensScalar = true ∧ (b.line h).column < (b.line i).depth

/-- Line `k` ends the value of the header on line `h` and leaves the header among the ancestors of
deeper lines below: a comment, a bare dash, or a line between the dash of an item and its
content. -/
def LeavesValue (b : Buffer) (h k : Nat) : Prop :=
  (b.line k).depth ≤ (b.line h).column ∧
    ((b.line k).kind = .comment ∨ (b.line k).isBareDash = true ∨
      (b.line k).kind.isSignificant = true ∧ (b.line h).kind = .item ∧
        (b.line h).depth < (b.line k).depth)

instance : Decidable (b.FindsHeader i h) :=
  inferInstanceAs (Decidable (_ ∧ _))

instance : Decidable (b.LeavesValue h k) :=
  inferInstanceAs (Decidable (_ ∧ _))

theorem inScalar_iff : b.inScalar i = true ↔ ∃ h, b.FindsHeader i h := by
  simp only [inScalar, List.any_eq_true, Bool.and_eq_true, decide_eq_true_eq, FindsHeader]
  exact exists_congr fun h => and_congr_right fun _ => and_comm

/-- A header whose content stands right of its depth is an item. -/
theorem kind_of_opensScalar {l : Line} (hl : l.opensScalar = true) (hlt : l.depth < l.column) :
    l.kind = .item := by
  obtain ⟨entry, hentry, _⟩ := Line.opensScalar_iff.1 hl
  obtain ⟨c, rest, hbody, hsolid, _⟩ := Line.exists_cons_of_entryOf? hentry
  exact Line.kind_of_depth_lt_column hlt (by rw [hbody]; exact List.mem_cons_self) hsolid

/-- Between a header and a line that has it among its ancestors the value ends only at a line that
leaves it. -/
theorem isInside_eq_false_iff (hh : (b.line h).opensScalar = true) (hanc : h ∈ b.ancestors i)
    (hi : i < b.length) (hhk : h < k) (hki : k < i) :
    (b.line k).isInside (b.line h).column = false ↔ b.LeavesValue h k := by
  obtain ⟨_, _, _, hbetween⟩ := (mem_ancestors_iff hi).1 hanc
  constructor
  · intro hout
    rw [Line.isInside, Bool.or_eq_false_iff, decide_eq_false_iff_not, Nat.not_lt] at hout
    obtain ⟨htext, hle⟩ := hout
    refine ⟨hle, ?_⟩
    rcases Line.isSignificant_or htext with hsig | hcomment | hdash
    · have hdeep := hbetween k hhk hki hsig
      exact Or.inr (Or.inr ⟨hsig, kind_of_opensScalar hh (Nat.lt_of_lt_of_le hdeep hle), hdeep⟩)
    · exact Or.inl hcomment
    · exact Or.inr (Or.inl hdash)
  · rintro ⟨hle, hkind⟩
    have htext : Text.allBlank (b.line k) = false := by
      rcases hkind with hcomment | hdash | ⟨hsig, _⟩
      · exact Line.allBlank_of_kind_ne (by rw [hcomment]; decide)
      · exact (Line.of_isBareDash hdash).2
      · exact Line.allBlank_of_isSignificant hsig
    rw [← Bool.not_eq_true, Line.isInside_iff htext]
    exact Nat.not_lt_of_le hle

/-- A line of text belongs to the value of a header exactly if the guard finds the header for it and
no line in between leaves the value. -/
theorem mem_valueLines_iff_findsHeader (hh : (b.line h).opensScalar = true)
    (htext : Text.allBlank (b.line i) = false) :
    i ∈ b.valueLines h ↔ b.FindsHeader i h ∧ ∀ k < i, h < k → ¬b.LeavesValue h k := by
  have hi := lt_length_of_text htext
  constructor
  · intro hmem
    have hanc := mem_ancestors_of_mem_valueLines hh hmem htext
    refine ⟨⟨hanc, hh, column_lt_depth_of_mem_valueLines hmem htext⟩, fun k hki hhk => ?_⟩
    rw [← isInside_eq_false_iff hh hanc hi hhk hki, Bool.not_eq_false]
    exact (mem_valueLines_iff.1 hmem).2.2 k hhk (Nat.le_of_lt hki)
  · rintro ⟨⟨hanc, _, hdeep⟩, hstays⟩
    have hhi := ((mem_ancestors_iff hi).1 hanc).1
    refine mem_valueLines_iff.2 ⟨hhi, hi, fun k hhk hki => ?_⟩
    rcases Nat.lt_or_eq_of_le hki with hlt | rfl
    · rw [← Bool.not_eq_false, isInside_eq_false_iff hh hanc hi hhk hlt]
      exact hstays k hlt hhk
    · exact (Line.isInside_iff htext).2 hdeep

/-- The guard takes a line of text that belongs to no value for script text exactly if it finds a
header for it, and below each header that it finds a line leaves the value of that header. -/
theorem inScalar_outside_values_iff (htext : Text.allBlank (b.line i) = false) :
    (b.inScalar i = true ∧ ∀ h, (b.line h).opensScalar = true → i ∉ b.valueLines h) ↔
      (∃ h, b.FindsHeader i h) ∧
        ∀ h, b.FindsHeader i h → ∃ k < i, h < k ∧ b.LeavesValue h k := by
  rw [inScalar_iff]
  refine and_congr_right fun _ => forall_congr' fun h =>
    ⟨fun hout hfinds => ?_, fun hleaves hh => ?_⟩
  · by_contra hstays
    refine hout hfinds.2.1 ((mem_valueLines_iff_findsHeader hfinds.2.1 htext).2 ⟨hfinds, ?_⟩)
    exact fun k hki hhk hleaves => hstays ⟨k, hki, hhk, hleaves⟩
  · rw [mem_valueLines_iff_findsHeader hh htext]
    rintro ⟨hfinds, hstays⟩
    obtain ⟨k, hki, hhk, hk⟩ := hleaves hfinds
    exact hstays k hki hhk hk

/-- Below the field that leaves one script another script opens. The guard finds both headers, and
the line is text of the second one. -/
theorem inScalar_outside_values_iff_nested :
    let b : Buffer := ["- shell: |", "    echo a", "  vars:", "    x: |", "      y: yes"].map
      String.toList
    Text.allBlank (b.line 4) = false ∧ b.inScalar 4 = true ∧ b.LeavesValue 0 2 ∧
      ∃ h, (b.line h).opensScalar = true ∧ 4 ∈ b.valueLines h := by
  intro b
  have htext : Text.allBlank (b.line 4) = false := by decide +kernel
  have hscalar : b.inScalar 4 = true := by decide +kernel
  refine ⟨htext, hscalar, by decide +kernel, ?_⟩
  by_contra hnone
  obtain ⟨_, hleaves⟩ := (inScalar_outside_values_iff htext).1
    ⟨hscalar, fun h hh hmem => hnone ⟨h, hh, hmem⟩⟩
  obtain ⟨k, hk, hk', _⟩ := hleaves 3 (by decide +kernel)
  omega

/-- The value of a script ends at the next field of its task, and still the guard holds for what is
nested in that field. A comment at the column of the header does the same. -/
theorem not_mem_valueLines_of_inScalar :
    let task : Buffer := ["- shell: |", "    echo a", "  vars:", "    x: yes"].map String.toList
    let commented : Buffer := ["script: |", "  echo a", "# settings", "  x: yes"].map String.toList
    (Text.allBlank (task.line 3) = false ∧ task.inScalar 3 = true ∧
      ∀ h, (task.line h).opensScalar = true → 3 ∉ task.valueLines h) ∧
    Text.allBlank (commented.line 3) = false ∧ commented.inScalar 3 = true ∧
      ∀ h, (commented.line h).opensScalar = true → 3 ∉ commented.valueLines h := by
  intro task commented
  have houtside {b : Buffer} (hb : ∀ h < 3, (b.line h).opensScalar = true → 3 ∉ b.valueLines h)
      (h : Nat) (hh : (b.line h).opensScalar = true) : 3 ∉ b.valueLines h := fun hmem =>
    hb h (mem_valueLines_iff.1 hmem).1 hh hmem
  exact ⟨⟨by decide +kernel, by decide +kernel, houtside (by decide +kernel)⟩,
    by decide +kernel, by decide +kernel, houtside (by decide +kernel)⟩

end TaskTidy.Buffer
