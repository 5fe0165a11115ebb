import TaskTidy.Proofs.ScalarText

/-!
# Guards in the text of block scalars

What a guard asks about a line of text in the value of a header is decided by the value and the
header, except for the list that a task stands in. So documents with the same value below the same
header give the same answers there, as long as all lines keep their extents.
-/

namespace TaskTidy

namespace Line

variable {l : Line}

/-- A line that can carry a key starts with a dash or with a key. -/
theorem exists_cons_of_isEntry (h : l.kind.isEntry = true) :
    ∃ x rest, l.unindented = x :: rest ∧ Text.isBlank x = false ∧ x ≠ '#' := by
  cases hkind : l.kind <;> rw [hkind] at h
  case item =>
    obtain ⟨after, hu, _⟩ := describes_of_kind hkind
    exact ⟨'-', after, hu, by decide, by decide⟩
  case parameter =>
    obtain ⟨entry, hentry⟩ := Option.isSome_iff_exists.1 (describes_of_kind hkind)
    obtain ⟨x, rest, hu, hblank, _, hhash⟩ := exists_cons_of_entryOf? hentry
    exact ⟨x, rest, hu, hblank, hhash⟩
  all_goals cases h

theorem head?_trimStart_of_isEntry (h : l.kind.isEntry = true) :
    (Text.trimStart l).head? ≠ some '#' := by
  obtain ⟨x, rest, hu, hblank, hhash⟩ := exists_cons_of_isEntry h
  have hindent : ∀ c ∈ l.indentation, Text.isBlank c = true := fun c hc =>
    Text.isBlank_of_isIndent (isIndent_of_mem_indentation hc)
  have htrim : Text.trimStart l = x :: rest := by
    calc Text.trimStart l
        = (l.indentation ++ x :: rest).dropWhile Text.isBlank := by
          rw [← hu, indentation_append_unindented, Text.trimStart]
      _ = (x :: rest).dropWhile Text.isBlank := List.dropWhile_append_of_pos hindent
      _ = x :: rest := List.dropWhile_cons_of_neg (by simp [hblank])
  rw [htrim, List.head?_cons]
  exact fun heq => hhash (Option.some.inj heq)

end Line

namespace Buffer

variable {b b' : Buffer} {h i j k : Nat} {l : Line}

/-- Every line of `b'` has the extent of the line of `b` at its index. -/
def SameExtents (b b' : Buffer) : Prop :=
  ∀ i, (b.line i).SameExtent (b'.line i)

theorem SameExtents.refl (b : Buffer) : SameExtents b b := fun _ => ⟨rfl, rfl⟩

theorem SameExtents.set (he : SameExtents b b') (hi : i < b'.length)
    (hl : (b'.line i).SameExtent l) : SameExtents b (b'.set i l) := by
  intro j
  by_cases hji : j = i
  · subst hji
    rw [line_set_self hi]
    exact ⟨hl.1.trans (he j).1, hl.2.trans (he j).2⟩
  · rw [line_set_of_ne hji]
    exact he j

private theorem length_runAfter_le_of_extents (hlen : b'.length = b.length)
    (he : SameExtents b b') (i base : Nat) :
    (b.runAfter i (Line.isInside base)).length ≤ (b'.runAfter i (Line.isInside base)).length := by
  apply Nat.le_of_not_lt
  intro hlt
  have hij : i < i + 1 + (b'.runAfter i (Line.isInside base)).length := by omega
  obtain ⟨hj, hall⟩ := (lt_runAfter_iff hij).1 (Nat.add_lt_add_left hlt (i + 1))
  refine absurd ((lt_runAfter_iff hij).2 ⟨by rwa [hlen], fun k hik hkj => ?_⟩) (Nat.lt_irrefl _)
  rw [(he k).isInside_eq]
  exact hall k hik hkj

/-- A run of lines that stand in both documents is the same run. -/
theorem runAfter_eq_of_extents {base : Nat} (hlen : b'.length = b.length)
    (he : SameExtents b b')
    (hline : ∀ k, i < k → k < i + 1 + (b.runAfter i (Line.isInside base)).length →
      b'.line k = b.line k) :
    b'.runAfter i (Line.isInside base) = b.runAfter i (Line.isInside base) := by
  have hsymm : SameExtents b' b := fun k => ⟨(he k).1.symm, (he k).2.symm⟩
  have hrun : (b'.runAfter i (Line.isInside base)).length =
      (b.runAfter i (Line.isInside base)).length :=
    Nat.le_antisymm (length_runAfter_le_of_extents hlen.symm hsymm i base)
      (length_runAfter_le_of_extents hlen he i base)
  apply List.ext_getElem hrun
  intro n hn hn'
  rw [getElem_runAfter hn, getElem_runAfter hn']
  exact hline _ (by omega) (by omega)

/-- A child of a header is nested in its value. -/
theorem isNested_of_opensScalar (hparent : b.parent? j = some h)
    (hh : (b.line h).opensScalar = true) (hcolumn : (b.line h).column < (b.line j).depth) :
    b.isNested j = true := by
  obtain ⟨entry, hentry, _⟩ := Line.opensScalar_iff.1 hh
  have hkind := Line.isEntry_of_opensScalar hh
  have hkey : (b.line h).key?.isSome = true := by
    rw [Line.key?, if_pos hkind, hentry]
    rfl
  simp only [isNested, hparent]
  cases hk : (b.line h).kind with
  | item => simp [hkey, hcolumn]
  | parameter => rfl
  | blank | comment | continuation =>
      rw [hk] at hkind
      cases hkind

/-- The owner of a line of text in a value is text of the same value. -/
theorem mem_valueLines_of_owner? (hh : (b.line h).opensScalar = true) (hj : j ∈ b.valueLines h)
    (htext : Text.allBlank (b.line j) = false) (howner : b.owner? j = some k) :
    k ∈ b.valueLines h ∧ Text.allBlank (b.line k) = false := by
  simp only [owner?] at howner
  split at howner
  · cases howner
    exact ⟨hj, htext⟩
  · obtain ⟨hparent, hk⟩ := Option.filter_eq_some_iff.1 howner
    obtain ⟨k', _, hparent', hcases⟩ := exists_parent?_of_mem_valueLines hh hj htext
    obtain rfl : k = k' := Option.some.inj (hparent.symm.trans hparent')
    rcases hcases with rfl | hcases
    · have hlt := column_lt_depth_of_mem_valueLines hj htext
      simp only [Bool.and_eq_true, decide_eq_true_eq] at hk
      omega
    · exact hcases

namespace KeepsValue

section

variable (hk : b.KeepsValue h b') (hh : (b.line h).opensScalar = true) (hj : j ∈ b.valueLines h)
  (htext : Text.allBlank (b.line j) = false)

include hk hh hj htext

theorem parent?_eq : b'.parent? j = b.parent? j := by
  obtain ⟨k, hkj, hparent, hcases⟩ := exists_parent?_of_mem_valueLines hh hj htext
  have hlen := (mem_valueLines_iff.1 hj).2.1
  have hlen' : j ≤ b'.length := by
    rw [hk.length_eq]
    exact Nat.le_of_lt hlen
  obtain ⟨_, hencloses, hbetween⟩ := (lastBefore?_eq_some_iff (Nat.le_of_lt hlen)).1 hparent
  have hhk : h ≤ k := by
    rcases hcases with rfl | ⟨hmem, _⟩
    · exact Nat.le_refl k
    · exact Nat.le_of_lt (mem_valueLines_iff.1 hmem).1
  rw [hparent, parent?, hk.line_eq j hj]
  refine (lastBefore?_eq_some_iff hlen').2 ⟨hkj, ?_, fun m hkm hmj => ?_⟩
  · rcases hcases with rfl | ⟨hmem, _⟩
    · apply encloses_of_opensScalar hk.opens
      rw [hk.column_eq]
      exact column_lt_depth_of_mem_valueLines hj htext
    · rwa [hk.line_eq k hmem]
  · rw [hk.line_eq m (mem_valueLines_of_le hj (Nat.lt_of_le_of_lt hhk hkm) (Nat.le_of_lt hmj))]
    exact hbetween m hkm hmj

theorem isNested_eq : b'.isNested j = b.isNested j := by
  obtain ⟨k, _, hparent, hcases⟩ := exists_parent?_of_mem_valueLines hh hj htext
  have hparent' := (hk.parent?_eq hh hj htext).trans hparent
  rcases hcases with rfl | ⟨hmem, _⟩
  · have hcolumn := column_lt_depth_of_mem_valueLines hj htext
    rw [isNested_of_opensScalar hparent hh hcolumn]
    apply isNested_of_opensScalar hparent' hk.opens
    rwa [hk.column_eq, hk.line_eq j hj]
  · simp only [isNested, hparent, hparent', hk.line_eq j hj, hk.line_eq k hmem]

theorem owner?_eq : b'.owner? j = b.owner? j := by
  obtain ⟨k, _, hparent, hcases⟩ := exists_parent?_of_mem_valueLines hh hj htext
  simp only [owner?, hk.line_eq j hj, hk.parent?_eq hh hj htext, hparent, Option.filter_some]
  rcases hcases with rfl | ⟨hmem, _⟩
  · have hne := Nat.ne_of_lt (column_lt_depth_of_mem_valueLines hj htext)
    have hne' : (b'.line k).column ≠ (b.line j).depth := by rwa [hk.column_eq]
    simp [hne, hne']
  · rw [hk.line_eq k hmem]

/-- The block of an owner in the value lies in the value. -/
theorem ownerHas_eq (he : SameExtents b b') (key : List Char) :
    b'.ownerHas j key = b.ownerHas j key := by
  simp only [ownerHas, hk.owner?_eq hh hj htext]
  cases howner : b.owner? j with
  | none => rfl
  | some k =>
      obtain ⟨hmem, hktext⟩ := mem_valueLines_of_owner? hh hj htext howner
      have hblock : b'.runAfter k (Line.isInside (b.line k).depth) =
          b.runAfter k (Line.isInside (b.line k).depth) :=
        runAfter_eq_of_extents hk.length_eq he fun m hkm hm =>
          hk.line_eq m (mem_valueLines_of_lt_stopOf hmem hktext hkm hm)
      simp only [itemHas, hk.line_eq k hmem, hblock]

omit htext in
/-- The line above a line of the value is the header or a line of the value. -/
theorem followsComment_eq : Guard.followsComment b' j = Guard.followsComment b j := by
  have hlt := (mem_valueLines_iff.1 hj).1
  cases j with
  | zero => rfl
  | succ m =>
      rw [Guard.followsComment, Guard.followsComment]
      rcases Nat.eq_or_lt_of_le (Nat.le_of_lt_succ hlt) with rfl | hhm
      · have hhash := Line.head?_trimStart_of_isEntry (Line.isEntry_of_opensScalar hh)
        have hhash' := Line.head?_trimStart_of_isEntry (Line.isEntry_of_opensScalar hk.opens)
        rw [beq_false_of_ne hhash, beq_false_of_ne hhash']
      · rw [hk.line_eq m (mem_valueLines_of_le hj hhm (Nat.le_succ m))]

/-- Every guard but the one for task lists gives the same answer in the value. -/
theorem allows_eq (he : SameExtents b b') {g : Guard} (hg : g ≠ .taskList) :
    g.allows b' j = g.allows b j := by
  cases g with
  | itemLevel =>
      simp only [Guard.allows, isItemLevel, hk.owner?_eq hh hj htext]
  | taskList => exact absurd rfl hg
  | nested =>
      simp only [Guard.allows, hk.isNested_eq hh hj htext]
  | ownerLacks key =>
      simp only [Guard.allows, hk.ownerHas_eq hh hj htext he]
  | notAfterComment =>
      simp only [Guard.allows, hk.followsComment_eq hh hj]
  | outsideScalar =>
      have htext' : Text.allBlank (b'.line j) = false := by rwa [hk.line_eq j hj]
      simp only [Guard.allows, hk.inScalar hj htext', inScalar_of_mem_valueLines hh hj htext]

end

end KeepsValue

end Buffer

end TaskTidy
