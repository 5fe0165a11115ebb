import TaskTidy.Proofs.Frames
import TaskTidy.Proofs.Sequences

/-!
# Blocks and chains of parents

The lines of a block are found downwards, the parents of a line upwards. The first search passes
over lines without text and ends at a comment or a bare dash; the second one passes over both. So a
line of text in a block has the start of the block among its ancestors, and a line below an ancestor
belongs to its block unless a comment or a bare dash left of the content stands in between. Two
blocks are nested or apart.
-/

namespace TaskTidy

namespace Line

variable {l : Line}

/-- A blank line holds no text or a bare dash. -/
theorem isBareDash_of_kind (hkind : l.kind = .blank) (htext : Text.allBlank l = false) :
    l.isBareDash = true := by
  have hun : Text.allBlank l.unindented = false := by
    obtain ⟨c, hc, hsolid⟩ := List.all_eq_false.1 htext
    rw [Bool.not_eq_true] at hsolid
    exact allBlank_eq_false (mem_unindented hc (isIndent_of_isBlank hsolid)) hsolid
  rcases describes_of_kind hkind with hblank | ⟨after, hdash, hafter⟩
  · rw [hblank] at hun
    cases hun
  · rw [isBareDash, hdash]
    exact hafter

/-- A line of text is significant, a comment or a bare dash. -/
theorem isSignificant_or (htext : Text.allBlank l = false) :
    l.kind.isSignificant = true ∨ l.kind = .comment ∨ l.isBareDash = true := by
  cases hkind : l.kind with
  | blank => exact Or.inr (Or.inr (isBareDash_of_kind hkind htext))
  | comment => exact Or.inr (Or.inl rfl)
  | item => exact Or.inl rfl
  | parameter => exact Or.inl rfl
  | continuation => exact Or.inl rfl

end Line

namespace Buffer

variable {b : Buffer} {i j : Nat}

/-- A line of text belongs to the block of a significant line exactly if that line is among its
ancestors and every comment and bare dash between the two belongs to the block. -/
theorem lt_stopOf_iff_mem_ancestors (hij : i < j) (hsig : (b.line i).kind.isSignificant = true)
    (htext : Text.allBlank (b.line j) = false) :
    j < b.stopOf i ↔ i ∈ b.ancestors j ∧
      ∀ k < j, i < k → (b.line k).kind = .comment ∨ (b.line k).isBareDash = true →
        (b.line i).depth < (b.line k).depth := by
  have hj := lt_length_of_text htext
  rw [lt_stopOf_iff hij, mem_ancestors_iff hj]
  constructor
  · rintro ⟨_, hall⟩
    have hdeep {k : Nat} (hik : i < k) (hkj : k ≤ j) (hk : Text.allBlank (b.line k) = false) :
        (b.line i).depth < (b.line k).depth :=
      (Line.isInside_iff hk).1 (hall k hik hkj)
    refine ⟨⟨hij, hsig, hdeep hij (Nat.le_refl j) htext, fun k hik hkj hk => ?_⟩,
      fun k hkj hik hk => ?_⟩
    · exact hdeep hik (Nat.le_of_lt hkj) (Line.allBlank_of_isSignificant hk)
    · apply hdeep hik (Nat.le_of_lt hkj)
      rcases hk with hk | hk
      · exact Line.allBlank_of_kind_ne (by rw [hk]; decide)
      · exact (Line.of_isBareDash hk).2
  · rintro ⟨⟨_, _, hdepth, hsigs⟩, hothers⟩
    refine ⟨hj, fun k hik hkj => ?_⟩
    cases hk : Text.allBlank (b.line k) with
    | true => rw [Line.isInside, hk, Bool.true_or]
    | false =>
        rw [Line.isInside_iff hk]
        rcases Nat.lt_or_eq_of_le hkj with hlt | rfl
        · rcases Line.isSignificant_or hk with h | h
          · exact hsigs k hik hlt h
          · exact hothers k hlt hik h
        · exact hdepth

/-- For two lines in the order of the document the scan downwards and the walk upwards agree: the
lower line belongs to the block of a significant line above it exactly if that line is on its chain
of parents and no comment or bare dash at or left of the start of the block stands in between. The
block of a line of text in a block does not leave that block. -/
theorem extents_agree_with_ancestors (hij : i < j) (htext : Text.allBlank (b.line j) = false) :
    ∃ e e', b.extentOf i = .ok e ∧ b.extentOf j = .ok e' ∧
      ((b.line i).kind.isSignificant = true →
        (e.contains j = true ↔ i ∈ b.ancestors j ∧
          ∀ k < j, i < k → (b.line k).kind = .comment ∨ (b.line k).isBareDash = true →
            (b.line i).depth < (b.line k).depth)) ∧
      (e.contains j = false ∨ e'.stop ≤ e.stop) := by
  have hj := lt_length_of_text htext
  have hcontains : (Extent.mk i (b.stopOf i)).contains j = true ↔ j < b.stopOf i := by
    simp [Extent.contains, Nat.le_of_lt hij]
  refine ⟨_, _, extentOf_eq_ok_iff.2 ⟨Nat.lt_trans hij hj, rfl⟩, extentOf_eq_ok_iff.2 ⟨hj, rfl⟩,
    fun hsig => ?_, ?_⟩
  · rw [hcontains]
    exact lt_stopOf_iff_mem_ancestors hij hsig htext
  · rcases Nat.lt_or_ge j (b.stopOf i) with hlt | hge
    · right
      have hinside := ((lt_stopOf_iff hij).1 hlt).2 j hij (Nat.le_refl j)
      have hdeep := (Line.isInside_iff htext).1 hinside
      exact stopOf_le_stopOf (Nat.le_of_lt hij) hlt (Nat.le_of_lt hdeep)
    · left
      rw [← Bool.not_eq_true, hcontains]
      exact Nat.not_lt_of_le hge

/-- A module with a deep comment and a blank line in its block. The block of its field ends above
the comment of the next task, as its own does. -/
theorem extents_agree_with_ancestors_module :
    let b : Buffer := ["- name: a", "  file:", "      # the mode", "", "    mode: x", "# next"].map
      String.toList
    Text.allBlank (b.line 4) = false ∧
      ∃ e e', b.extentOf 1 = .ok e ∧ b.extentOf 4 = .ok e' ∧ e.contains 4 = true ∧
        e'.stop ≤ e.stop := by
  intro b
  have htext : Text.allBlank (b.line 4) = false := by decide +kernel
  obtain ⟨e, e', he, he', hchain, hnested⟩ :=
    extents_agree_with_ancestors (i := 1) (by decide) htext
  have hcontains := (hchain (by decide +kernel)).2 ⟨by decide +kernel, by decide +kernel⟩
  exact ⟨htext, e, e', he, he', hcontains, hnested.resolve_left (by simp [hcontains])⟩

end Buffer

end TaskTidy
