import TaskTidy.Proofs.Blocks
import TaskTidy.Proofs.HeaderEdits
import TaskTidy.Proofs.LineSets
import TaskTidy.Proofs.Parents

/-!
# The text of block scalars

The value of a header is the run of lines below it that are blank or deeper than its content. From
every line of text in it the chain of parents leads to the header, whatever the lines between look
like, so a rule that stays out of block scalars has no answer there. The rules that do so keep their
headers, and with them the text below.
-/

namespace TaskTidy

namespace Buffer

variable {b : Buffer} {h i j : Nat}

theorem mem_valueLines_iff :
    j ∈ b.valueLines h ↔
      h < j ∧ j < b.length ∧ ∀ k, h < k → k ≤ j → (b.line k).isInside (b.line h).column = true := by
  rw [valueLines, List.mem_range'_1]
  constructor
  · rintro ⟨hlt, hrun⟩
    exact ⟨hlt, (lt_runAfter_iff hlt).1 hrun⟩
  · rintro ⟨hlt, hrun⟩
    exact ⟨hlt, (lt_runAfter_iff hlt).2 hrun⟩

/-- The lines of a value down to one of them are lines of the value. -/
theorem mem_valueLines_of_le {k : Nat} (hj : j ∈ b.valueLines h) (hk : h < k) (hkj : k ≤ j) :
    k ∈ b.valueLines h := by
  obtain ⟨_, hlen, hrun⟩ := mem_valueLines_iff.1 hj
  exact mem_valueLines_iff.2 ⟨hk, Nat.lt_of_le_of_lt hkj hlen, fun m hm hmk =>
    hrun m hm (Nat.le_trans hmk hkj)⟩

/-- A line of text in a value is deeper than the content of the header. -/
theorem column_lt_depth_of_mem_valueLines (hj : j ∈ b.valueLines h)
    (htext : Text.allBlank (b.line j) = false) : (b.line h).column < (b.line j).depth :=
  (Line.isInside_iff htext).1 (of_mem_valueLines hj).2.2

/-- The block of a line of text in a value lies in the value. -/
theorem mem_valueLines_of_lt_stopOf {k : Nat} (hj : j ∈ b.valueLines h)
    (htext : Text.allBlank (b.line j) = false) (hjk : j < k) (hk : k < b.stopOf j) :
    k ∈ b.valueLines h := by
  obtain ⟨hhj, _, hrun⟩ := mem_valueLines_iff.1 hj
  obtain ⟨hlen, hinside⟩ := (lt_stopOf_iff hjk).1 hk
  refine mem_valueLines_iff.2 ⟨Nat.lt_trans hhj hjk, hlen, fun m hhm hmk => ?_⟩
  rcases Nat.lt_or_ge j m with hjm | hmj
  · apply Line.isInside_of_le _ (hinside m hjm hmk)
    exact Nat.le_of_lt (column_lt_depth_of_mem_valueLines hj htext)
  · exact hrun m hhm hmj

/-- A header encloses everything that is deeper than its content. -/
theorem encloses_of_opensScalar {d : Nat} {l : Line} (hl : l.opensScalar = true)
    (hd : l.column < d) : encloses d l = true := by
  have hsig := isSignificant_of_isEntry (Line.isEntry_of_opensScalar hl)
  have hle := l.depth_le_column
  simp only [encloses, hsig, Bool.true_and, decide_eq_true_eq]
  omega

/-- The parent of a line of text in a value is the header or text of the same value. -/
theorem exists_parent?_of_mem_valueLines (hh : (b.line h).opensScalar = true)
    (hj : j ∈ b.valueLines h) (htext : Text.allBlank (b.line j) = false) :
    ∃ k < j, b.parent? j = some k ∧
      (k = h ∨ k ∈ b.valueLines h ∧ Text.allBlank (b.line k) = false) := by
  obtain ⟨hlt, hlen, _⟩ := mem_valueLines_iff.1 hj
  have hencloses := encloses_of_opensScalar hh (column_lt_depth_of_mem_valueLines hj htext)
  obtain ⟨k, hhk, hparent⟩ := exists_lastBefore? (Nat.le_of_lt hlen) hlt hencloses
  obtain ⟨hkj, hsig, _⟩ := of_parent? hlen hparent
  refine ⟨k, hkj, hparent, ?_⟩
  rcases Nat.eq_or_lt_of_le hhk with rfl | hhk
  · exact Or.inl rfl
  · exact Or.inr ⟨mem_valueLines_of_le hj hhk (Nat.le_of_lt hkj),
      Line.allBlank_of_isSignificant hsig⟩

/-- The chain of parents leads from every line of text in a value to the header. -/
theorem mem_ancestors_of_mem_valueLines (hh : (b.line h).opensScalar = true)
    (hj : j ∈ b.valueLines h) (htext : Text.allBlank (b.line j) = false) : h ∈ b.ancestors j := by
  obtain ⟨hlt, hlen, hrun⟩ := mem_valueLines_iff.1 hj
  have hle := (b.line h).depth_le_column
  have hdeep {k : Nat} (hhk : h < k) (hkj : k ≤ j) (hk : Text.allBlank (b.line k) = false) :
      (b.line h).depth < (b.line k).depth :=
    Nat.lt_of_le_of_lt hle ((Line.isInside_iff hk).1 (hrun k hhk hkj))
  exact (mem_ancestors_iff hlen).2 ⟨hlt, isSignificant_of_isEntry (Line.isEntry_of_opensScalar hh),
    hdeep hlt (Nat.le_refl j) htext, fun k hhk hkj hsig =>
      hdeep hhk (Nat.le_of_lt hkj) (Line.allBlank_of_isSignificant hsig)⟩

/-- Text in the value of a header is text of a block scalar. -/
theorem inScalar_of_mem_valueLines (hh : (b.line h).opensScalar = true) (hj : j ∈ b.valueLines h)
    (htext : Text.allBlank (b.line j) = false) : b.inScalar j = true := by
  rw [inScalar, List.any_eq_true]
  refine ⟨h, mem_ancestors_of_mem_valueLines hh hj htext, ?_⟩
  simpa [hh] using column_lt_depth_of_mem_valueLines hj htext

end Buffer

namespace Buffer

variable {b b' : Buffer} {h i j : Nat} {l : Line}

/-- A header of `b` opens a block scalar in `b'` as well, with its content at the same column. -/
structure KeepsHeader (h : Nat) (b b' : Buffer) : Prop where
  opens : (b'.line h).opensScalar = true
  column_eq : (b'.line h).column = (b.line h).column
  length_eq : b'.length = b.length

/-- The value of a header of `b` stands in `b'` as it does in `b`, below that header. -/
structure KeepsValue (h : Nat) (b b' : Buffer) : Prop extends KeepsHeader h b b' where
  line_eq : ∀ j ∈ b.valueLines h, b'.line j = b.line j

theorem KeepsHeader.refl (hh : (b.line h).opensScalar = true) : KeepsHeader h b b :=
  ⟨hh, rfl, rfl⟩

theorem KeepsHeader.set (hk : KeepsHeader h b b') (hi : i < b'.length)
    (hheader : i = h → l.opensScalar = true ∧ l.column = (b'.line h).column) :
    KeepsHeader h b (b'.set i l) := by
  have hlength : (b'.set i l).length = b.length := by rw [List.length_set, hk.length_eq]
  by_cases hih : i = h
  · obtain ⟨hopens, hcolumn⟩ := hheader hih
    subst hih
    refine ⟨?_, ?_, hlength⟩
    · rwa [line_set_self hi]
    · rw [line_set_self hi, hcolumn, hk.column_eq]
  · have hline : Buffer.line (b'.set i l) h = b'.line h := line_set_of_ne (Ne.symm hih) l
    exact ⟨by rw [hline, hk.opens], by rw [hline, hk.column_eq], hlength⟩

namespace KeepsValue

theorem refl (hh : (b.line h).opensScalar = true) : KeepsValue h b b :=
  ⟨.refl hh, fun _ _ => rfl⟩

theorem mem_valueLines (hk : KeepsValue h b b') (hj : j ∈ b.valueLines h) :
    j ∈ b'.valueLines h := by
  obtain ⟨hlt, hlen, hrun⟩ := mem_valueLines_iff.1 hj
  refine mem_valueLines_iff.2 ⟨hlt, by rwa [hk.length_eq], fun k hhk hkj => ?_⟩
  rw [hk.line_eq k (mem_valueLines_of_le hj hhk hkj), hk.column_eq]
  exact hrun k hhk hkj

/-- The text of the value is still text of a block scalar. -/
theorem inScalar (hk : KeepsValue h b b') (hj : j ∈ b.valueLines h)
    (htext : Text.allBlank (b'.line j) = false) : b'.inScalar j = true :=
  inScalar_of_mem_valueLines hk.opens (hk.mem_valueLines hj) htext

theorem set (hk : KeepsValue h b b') (hi : i < b'.length) (hvalue : i ∉ b.valueLines h)
    (hheader : i = h → l.opensScalar = true ∧ l.column = (b'.line h).column) :
    KeepsValue h b (b'.set i l) := by
  refine ⟨hk.toKeepsHeader.set hi hheader, fun j hj => ?_⟩
  have hne : j ≠ i := by
    rintro rfl
    exact hvalue hj
  rw [line_set_of_ne hne, hk.line_eq j hj]

/-- The lines of the value stand at their indexes. -/
theorem getElem?_eq (hk : KeepsValue h b b') (hj : j ∈ b.valueLines h) : b'[j]? = b[j]? := by
  have hlen := (mem_valueLines_iff.1 hj).2.1
  have hline := hk.line_eq j hj
  rw [line_eq_getElem b j hlen, line_eq_getElem b' j (by rwa [hk.length_eq])] at hline
  rw [List.getElem?_eq_getElem hlen, List.getElem?_eq_getElem (by rwa [hk.length_eq]), hline]

end KeepsValue

end Buffer

/-! ### Sets of one guarded rule -/

namespace Pass

variable {s : RuleSet} {b b' : Buffer} {h i : Nat} {v : Visit} {name : String}
  {guards : List Guard} {f : Line → Option Line}

/-- A visit keeps the value of every header if the only rule stays out of block scalars and keeps
headers. -/
theorem keepsValue_visit (hb : s.blockRules = [])
    (hs : s.lineRules = [LineRule.replacing name guards f]) (hguard : .outsideScalar ∈ guards)
    (hf : RuleSets.KeepsHeaders f) (hi : i < b'.length) (hk : b.KeepsValue h b')
    (hv : visit s b' i = .ok v) : b.KeepsValue h v.buffer := by
  obtain ⟨v', hv', hcases⟩ := exists_visit (s := s) hb hi (by
    intro r hr a ha
    rw [hs, List.mem_singleton] at hr
    subst hr
    obtain ⟨l, _, rfl, _⟩ := LineRule.of_replacing ha
    trivial)
  obtain rfl : v = v' := Except.ok.inj (hv.symm.trans hv')
  rcases hcases with ⟨hbuffer, _⟩ | ⟨r, hr, a, ha, hbuffer, _⟩
  · rwa [hbuffer]
  · rw [hs, List.mem_singleton] at hr
    subst hr
    obtain ⟨l, hl, rfl, hallow⟩ := LineRule.of_replacing ha
    rw [hbuffer]
    refine hk.set hi (fun hmem => ?_) ?_
    · have hinside := hk.inScalar hmem (hf.text hl)
      have houtside := hallow _ hguard
      rw [Guard.allows, hinside] at houtside
      cases houtside
    · rintro rfl
      exact hf.header hl hk.opens

end Pass

namespace Document

open RuleSets

variable {s : RuleSet} {d : Document} {outcome : Outcome} {h : Nat} {name : String}
  {guards : List Guard} {f : Line → Option Line}

/-- A pass of one rule that stays out of block scalars keeps the value of every header. -/
theorem keepsValue_applyPass (hb : s.blockRules = [])
    (hs : s.lineRules = [LineRule.replacing name guards f]) (hguard : .outsideScalar ∈ guards)
    (hf : KeepsHeaders f) (hpass : d.applyPass s = .ok outcome)
    (hh : (d.lines.line h).opensScalar = true) :
    d.lines.KeepsValue h outcome.document.lines :=
  applyPassWithin_induction
    (fun hi hk hv => Pass.keepsValue_visit hb hs hguard hf hi hk hv) (.refl hh) hpass

/-- The sets of one guarded rule. -/
theorem keepsValue_of_mem (hs : s ∈ [truthy, commaSpacing, nameCasing])
    (hpass : d.applyPass s = .ok outcome) (hh : (d.lines.line h).opensScalar = true) :
    d.lines.KeepsValue h outcome.document.lines := by
  simp only [List.mem_cons, List.not_mem_nil, or_false] at hs
  rcases hs with rfl | rfl | rfl
  · exact keepsValue_applyPass rfl rfl (by decide) keepsHeaders_truthy hpass hh
  · exact keepsValue_applyPass rfl rfl (by decide) keepsHeaders_commaSpacing hpass hh
  · exact keepsValue_applyPass rfl rfl (by decide) keepsHeaders_nameCasing hpass hh

end Document

end TaskTidy
