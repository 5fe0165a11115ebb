import TaskTidy.Proofs.Parents
import TaskTidy.Proofs.Replacements

/-!
# Spaced commas

A sweep rewrites a document from the top, so a guard is asked about lines of which those above are
rewritten already. Where this makes no difference to the guards, the sweep puts in place of every
line what the rules answer in the document as it was. Spacing commas is such a case: it neither
makes nor unmakes a header and leaves every line its depth.
-/

namespace TaskTidy

namespace Buffer

variable {b c : Buffer} {i : Nat}

/-- The lines of the two documents have the same frames, and the same of them open block scalars. -/
structure SameScalars (b c : Buffer) : Prop where
  length_eq : c.length = b.length
  sameFrame : ∀ j < b.length, (b.line j).SameFrame (c.line j)
  opensScalar_eq : ∀ j < b.length, (c.line j).opensScalar = (b.line j).opensScalar

theorem SameScalars.mem_ancestors_iff (h : SameScalars b c) (hi : i < b.length) {j : Nat} :
    j ∈ c.ancestors i ↔ j ∈ b.ancestors i := by
  have hline (k : Nat) (hk : k < b.length) := h.sameFrame k hk
  rw [Buffer.mem_ancestors_iff hi, Buffer.mem_ancestors_iff (h.length_eq ▸ hi)]
  refine and_congr_right fun hji => ?_
  have hj := hline j (Nat.lt_trans hji hi)
  rw [hj.isSignificant_eq, hj.depth_eq, (hline i hi).depth_eq]
  refine and_congr_right fun _ => and_congr_right fun _ => forall_congr' fun k => ?_
  refine forall_congr' fun _ => forall_congr' fun hki => ?_
  have hk := hline k (Nat.lt_trans hki hi)
  rw [hk.isSignificant_eq, hk.depth_eq]

/-- A line is part of a block scalar in both documents or in none. -/
theorem SameScalars.inScalar_eq (h : SameScalars b c) (hi : i < b.length) :
    c.inScalar i = b.inScalar i := by
  rw [Bool.eq_iff_iff, inScalar, inScalar, List.any_eq_true, List.any_eq_true]
  refine exists_congr fun j => ?_
  rw [h.mem_ancestors_iff hi]
  refine and_congr_right fun hj => ?_
  have hj' := Nat.lt_trans ((Buffer.mem_ancestors_iff hi).1 hj).1 hi
  rw [(h.sameFrame j hj').column_eq, (h.sameFrame i hi).depth_eq, h.opensScalar_eq j hj']

end Buffer

namespace Pass

variable {s : RuleSet} {rules : List (String × List Guard × (Line → Option Line))}
  {b last : Buffer} {edits : List Edit}

/-- What the rules put in the place of a line; the line itself if they have no answer. -/
def replaced (rules : List LineRule) (b : Buffer) (i : Nat) : Line :=
  ((replacement? rules b i).map Replacement.line).getD (b.line i)

theorem line_apply_replacement? {rules : List LineRule} {c : Buffer} {i : Nat} (hi : i < c.length)
    (hline : c.line i = b.line i) (j : Nat) :
    (Replacement.apply c (replacement? rules b i)).line j =
      if j = i then replaced rules b i else c.line j := by
  rw [replaced]
  cases h : replacement? rules b i with
  | none =>
      split
      · next hji => rw [hji, Replacement.apply, hline, Option.map_none, Option.getD_none]
      · rfl
  | some r =>
      rw [Replacement.apply, (of_replacement? h).1, Option.map_some, Option.getD_some]
      split
      · next hji => rw [hji, Buffer.line_set_self hi]
      · next hji => rw [Buffer.line_set_of_ne hji]

/-- A sweep over `b` that has come to line `i` of `c`: the lines above are replaced, the others are
as they were. -/
structure SweptTo (rules : List LineRule) (b c : Buffer) (i : Nat) : Prop where
  length_eq : c.length = b.length
  line_eq : ∀ j < b.length, c.line j = if j < i then replaced rules b j else b.line j

/-- Guards that do not tell a document from one in which some of the lines are replaced. -/
def KeepsGuards (rules : List (String × List Guard × (Line → Option Line)))
    (lineRules : List LineRule) (b : Buffer) : Prop :=
  ∀ ⦃c : Buffer⦄ ⦃i : Nat⦄, i < b.length → c.length = b.length →
    (∀ j < b.length, c.line j = b.line j ∨ c.line j = replaced lineRules b j) →
    ∀ r ∈ rules, ∀ g ∈ r.2.1, g.allows c i = g.allows b i

/-- A visit replaces its line as the rules would have done at the start of the sweep. -/
theorem Replaces.sweptTo_visit (hs : Replaces s rules) (hguards : KeepsGuards rules s.lineRules b)
    {c : Buffer} {i : Nat} {v : Visit} (hi : i < c.length) (h : SweptTo s.lineRules b c i)
    (hv : visit s c i = .ok v) : SweptTo s.lineRules b v.buffer v.next := by
  have hib : i < b.length := h.length_eq ▸ hi
  have hline : c.line i = b.line i := by rw [h.line_eq i hib, if_neg (Nat.lt_irrefl i)]
  obtain rfl := Except.ok.inj ((hs.makes c i).symm.trans hv)
  have hanswer : replacement? s.lineRules c i = replacement? s.lineRules b i := by
    refine hs.replacement?_congr hline (hguards hib h.length_eq fun j hj => ?_)
    rw [h.line_eq j hj]
    split
    · exact .inr rfl
    · exact .inl rfl
  refine ⟨(Replacement.length_apply c _).trans h.length_eq, fun j hj => ?_⟩
  dsimp only
  rw [hanswer, line_apply_replacement? hi hline, h.line_eq j hj]
  by_cases hji : j = i
  · rw [if_pos hji, if_pos (by omega), hji]
  · rw [if_neg hji]
    exact if_congr (by omega) rfl rfl

/-- A sweep replaces every line by what the rules answer in the document as it was, if the guards do
not tell it from the documents on the way. -/
theorem Replaces.line_of_sweep (hs : Replaces s rules) (hguards : KeepsGuards rules s.lineRules b)
    (h : sweep sweepLimit s b = .ok (last, edits)) :
    last.length = b.length ∧ ∀ i < b.length, last.line i = replaced s.lineRules b i := by
  have start : SweptTo s.lineRules b b 0 :=
    ⟨rfl, fun j _ => by rw [if_neg (Nat.not_lt_zero j)]⟩
  obtain ⟨n, hn, hlast⟩ := sweepFrom_induction (fun c i => SweptTo s.lineRules b c i)
    (hs.sweptTo_visit hguards) start h
  refine ⟨hlast.length_eq, fun i hi => ?_⟩
  rw [hlast.line_eq i hi, if_pos (Nat.lt_of_lt_of_le (hlast.length_eq ▸ hi) hn)]

end Pass

namespace RuleSets

open Pass Quoting

variable {l l' : Line} {b : Buffer} {i : Nat}

/-- Spacing the commas of some lines leaves the frames of the lines and the headers. -/
theorem sameScalars_of_spaceLine? {c : Buffer} (hlength : c.length = b.length)
    (h : ∀ j < b.length, c.line j = b.line j ∨ spaceLine? (b.line j) = some (c.line j)) :
    b.SameScalars c where
  length_eq := hlength
  sameFrame j hj := by
    rcases h j hj with heq | hspaced
    · rw [heq]
      exact ⟨rfl, rfl, rfl, Iff.rfl⟩
    · exact (climbs_of_spaceLine? false hspaced).sameFrame
  opensScalar_eq j hj := by
    rcases h j hj with heq | hspaced
    · rw [heq]
    · rw [(of_spaceLine? hspaced).1, Bool.eq_iff_iff]
      exact ⟨opensScalar_of_spaceCommas, fun hopens => (opensScalar_spaceCommas hopens).1⟩

theorem isListy_iff :
    isListy l = true ↔
      '[' ∈ l ∨ '{' ∈ l ∨ ∃ key ∈ Text.keys ["tags", "loop"], l.key? = some key := by
  rw [isListy, Bool.or_eq_true, Bool.or_eq_true, List.contains_iff_mem, List.contains_iff_mem,
    Line.hasKeyIn_iff, or_assoc]

theorem spaceLine?_eq_some_iff :
    spaceLine? l = some l' ↔ l.kind ≠ .comment ∧ hasTemplate l = false ∧ isListy l = true ∧
      (∃ n, isSeparator l n = true) ∧ l' = spaceCommas none l := by
  rw [← spaceCommas_ne_self_iff, spaceLine?]
  split
  · next h =>
      simp only [Bool.and_eq_true, bne_iff_ne, Bool.not_eq_true'] at h
      obtain ⟨⟨hkind, htemplate⟩, hlisty⟩ := h
      by_cases hself : spaceCommas none l = l <;> simp [hself, hkind, htemplate, hlisty, eq_comm]
  · next h =>
      refine iff_of_false (Option.some_ne_none l').symm ?_
      rintro ⟨hkind, htemplate, hlisty, _⟩
      exact h (by simp [hkind, htemplate, hlisty])

/-- The document that a set leaves has the spaced form of a line outside block scalars. -/
theorem replaced_commaSpacing :
    replaced commaSpacing.lineRules b i =
      if b.inScalar i then b.line i else (spaceLine? (b.line i)).getD (b.line i) := by
  have hne {l' : Line} (h : spaceLine? (b.line i) = some l') : l' ≠ b.line i := by
    obtain ⟨_, _, _, hsep, rfl⟩ := spaceLine?_eq_some_iff.1 h
    exact spaceCommas_ne_self_iff.2 hsep
  rw [replaced, replacement?, firstAnswer?, replaces_commaSpacing.lineRules_eq]
  cases hspace : spaceLine? (b.line i) with
  | none => simp [LineRule.replacing, LineRule.guarded, hspace]
  | some l' =>
      cases hscalar : b.inScalar i <;>
        simp [LineRule.replacing, LineRule.guarded, Guard.allows, hspace, hscalar, hne hspace]

/-- The guard of the rule does not tell whether lines have been spaced. -/
theorem keepsGuards_commaSpacing :
    KeepsGuards [("space-after-comma", [.outsideScalar], spaceLine?)] commaSpacing.lineRules b := by
  intro c i hi hlength hlines r hr g hg
  obtain rfl := List.mem_singleton.1 hr
  obtain rfl := List.mem_singleton.1 hg
  have hsame : b.SameScalars c := by
    refine sameScalars_of_spaceLine? hlength fun j hj => (hlines j hj).elim .inl fun hline => ?_
    rw [replaced_commaSpacing] at hline
    split at hline
    · exact .inl hline
    · cases hspace : spaceLine? (b.line j) with
      | none => exact .inl (by rw [hline, hspace, Option.getD_none])
      | some l => exact .inr (by rw [hline, hspace, Option.getD_some])
  rw [Guard.allows, Guard.allows, hsame.inScalar_eq hi]

/-- What spacing commas makes of a line, which may be text of a block scalar. -/
structure IsSpaced (inScalar : Bool) (l l' : Line) : Prop where
  /-- A line is changed if it is neither text of a block scalar nor a comment, holds no template,
  looks like a collection, and has a separator. -/
  ne_iff : l' ≠ l ↔ inScalar = false ∧ l.kind ≠ .comment ∧ hasTemplate l = false ∧
    ('[' ∈ l ∨ '{' ∈ l ∨ ∃ key ∈ Text.keys ["tags", "loop"], l.key? = some key) ∧
    ∃ n, isSeparator l n = true
  /-- A line that is changed gets a space behind each separator. -/
  eq_flatMap : l' ≠ l →
    l' = l.zipIdx.flatMap fun x => if isSeparator l x.2 then [x.1, ' '] else [x.1]
  /-- A separator in a quoted scalar stands behind a quote mark within a word. -/
  opensInWord : ∀ n, isSeparator l n = true →
    Reflow.hasComment (l.take n ++ [' ', '#']) = false → ∃ m < n, opensInWord l m = true

theorem isSpaced (inScalar : Bool) (l : Line) :
    IsSpaced inScalar l (if inScalar then l else (spaceLine? l).getD l) where
  ne_iff := by
    rw [← isListy_iff]
    cases inScalar with
    | true => simp
    | false =>
        cases hspace : spaceLine? l with
        | none =>
            refine iff_of_false (by simp) ?_
            rintro ⟨_, hkind, htemplate, hlisty, hsep⟩
            rw [spaceLine?_eq_some_iff.2 ⟨hkind, htemplate, hlisty, hsep, rfl⟩] at hspace
            cases hspace
        | some l' =>
            obtain ⟨hkind, htemplate, hlisty, hsep, rfl⟩ := spaceLine?_eq_some_iff.1 hspace
            exact iff_of_true (spaceCommas_ne_self_iff.2 hsep)
              ⟨rfl, hkind, htemplate, hlisty, hsep⟩
  eq_flatMap hne := by
    cases inScalar with
    | true => exact absurd rfl hne
    | false =>
        cases hspace : spaceLine? l with
        | none => simp [hspace] at hne
        | some l' =>
            rw [← spaceCommas_eq_flatMap, ← (of_spaceLine? hspace).1]
            rfl
  opensInWord _ := exists_opensInWord

end RuleSets

namespace Document

open Pass Quoting RuleSets

/-- Spacing commas keeps the number of lines, and every line is spaced as it stood in the
document. -/
theorem spaces_separators (d : Document) :
    ∃ outcome, d.applyPass commaSpacing = .ok outcome ∧
      outcome.document.lines.length = d.lines.length ∧
      ∀ i < d.lines.length,
        IsSpaced (d.lines.inScalar i) (d.lines.line i) (outcome.document.lines.line i) := by
  obtain ⟨outcome, hpass⟩ := exists_applyPass settlesInOne_commaSpacing.settlesInTwo d
  obtain ⟨lines, edits, hsettle, hdocument, _⟩ := of_applyPassWithin hpass
  have hsweep := settlesInOne_commaSpacing.sweep_of_settle hsettle
  obtain ⟨hlength, hlines⟩ := replaces_commaSpacing.line_of_sweep keepsGuards_commaSpacing hsweep
  refine ⟨outcome, hpass, ?_⟩
  rw [hdocument, withLines_lines]
  refine ⟨hlength, fun i hi => ?_⟩
  rw [hlines i hi, replaced_commaSpacing]
  exact isSpaced _ _

/-- A command with a brace expansion is changed, and so is a quoted text with a comma, if there are
quote marks within words. -/
theorem not_only_spaces_separators :
    (ofLines ["- shell: cp app.\x7bjs,css\x7d /srv".toList,
        "- debug: [it's, \"it's,b\"]".toList]).applyPass commaSpacing =
      .ok ⟨ofLines ["- shell: cp app.\x7bjs, css\x7d /srv".toList,
        "- debug: [it's, \"it's, b\"]".toList], true,
        [⟨"comma-spacing", ⟨"space-after-comma", 1⟩⟩,
          ⟨"comma-spacing", ⟨"space-after-comma", 2⟩⟩]⟩ ∧
    Line.key? "- shell: cp app.\x7bjs,css\x7d /srv".toList = some "shell".toList ∧
    Line.value? "- shell: cp app.\x7bjs,css\x7d /srv".toList =
      some "cp app.\x7bjs,css\x7d /srv".toList ∧
    Reflow.hasComment ("- debug: [it's, \"it's".toList ++ [' ', '#']) = false := by
  decide +kernel

end Document

end TaskTidy
