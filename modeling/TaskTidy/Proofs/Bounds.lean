import TaskTidy.Proofs.BlockRules
import TaskTidy.Proofs.LineSeparation
import TaskTidy.Proofs.Placement
import TaskTidy.Rule.Reflow
import TaskTidy.Rule.Stock

/-!
# A pass stays within its document

Field injections and scoped rewrites edit the block that they are offered, below its start line or
on one of its lines. So the walk asks for blocks of existing lines only, whatever the line rules
delete or split on the way, and no edit falls outside the document.
-/

namespace TaskTidy

/-- The ready-made sorts of block rules, with any target, policy and anchors. -/
inductive BlockRule.IsStock : BlockRule → Prop
  | injection (r : FieldInjection) : IsStock r.toBlockRule
  | rewrite (r : ScopedRewrite) : IsStock r.toBlockRule

/-- All block rules of the set are injections or scoped rewrites. The line rules may be any. -/
def RuleSet.IsStock (s : RuleSet) : Prop :=
  ∀ r ∈ s.blockRules, r.IsStock

/-- An edit inserts below the start line of the block, at the end of the block at the latest, or
replaces a line of the block. -/
def BlockEdit.StaysIn (e : Extent) : BlockEdit → Prop
  | .insert k _ => e.start + 1 ≤ k ∧ k ≤ e.stop
  | .replace k _ => e.start ≤ k ∧ k < e.stop

namespace BlockEdit

variable {b : Buffer} {e : Extent} {edit : BlockEdit}

theorem StaysIn.isWithin (h : edit.StaysIn e) (he : e.stop ≤ b.length) : edit.IsWithin b := by
  cases edit with
  | insert k l => exact Nat.le_trans h.2 he
  | replace k l => exact Nat.lt_of_lt_of_le h.2 he

theorem length_le_apply (h : edit.IsWithin b) : b.length ≤ (edit.apply b).length := by
  cases edit with
  | insert k l =>
      rw [apply, List.length_insertIdx_of_le_length h]
      exact Nat.le_succ _
  | replace k l =>
      rw [apply, List.length_set]

end BlockEdit

namespace Buffer

variable {b : Buffer} {i : Nat}

/-- The fields of a block are lines of the document. -/
theorem index_lt_of_mem_fields (hi : i < b.length) {f : Field}
    (hf : f ∈ b.fields ⟨i, b.stopOf i⟩) : f.index < b.length := by
  obtain ⟨_, _, hmem, _⟩ := of_mem_fields hf
  exact Nat.lt_of_lt_of_le (Extent.mem_interior.1 hmem).2 (stopOf_le_length hi)

end Buffer

/-- A ready-made block rule edits nothing but the block that it is asked about. -/
theorem BlockRule.IsStock.staysIn {r : BlockRule} (hr : r.IsStock) {b : Buffer} {i : Nat}
    {edit : BlockEdit} (h : r.edit b ⟨i, b.stopOf i⟩ = some edit) :
    edit.StaysIn ⟨i, b.stopOf i⟩ := by
  cases hr with
  | injection r =>
      simp only [FieldInjection.toBlockRule, FieldInjection.edit] at h
      split at h
      · cases h
      · split at h
        · cases h
        · cases h
          have hplace := b.isPlace_insertionIndex i r.anchors
          exact ⟨hplace.1, hplace.2.1⟩
  | rewrite r =>
      simp only [ScopedRewrite.toBlockRule, ScopedRewrite.edit] at h
      split at h
      · cases h
      · split at h
        · next hin =>
            cases h
            simp only [Extent.contains, Bool.and_eq_true, decide_eq_true_eq] at hin
            exact hin.1
        · cases h

namespace Pass

/-- The documents and line indexes that the sweeps of a pass come to. The next sweep starts from the
document that the last one leaves. -/
inductive Reaches (s : RuleSet) (start : Buffer) : Buffer → Nat → Prop
  | start : Reaches s start start 0
  | visit {b : Buffer} {i : Nat} {v : Visit} (h : Reaches s start b i) (hi : i < b.length)
      (hv : visit s b i = .ok v) : Reaches s start v.buffer v.next
  | again {b : Buffer} {i : Nat} (h : Reaches s start b i) (hi : b.length ≤ i) :
      Reaches s start b 0

/-- The documents and lines whose blocks the visits of a pass offer to these block rules, each rule
on the document that the rule before it left. -/
inductive Offers (s : RuleSet) (start : Buffer) : List BlockRule → Buffer → Nat → Prop
  | first {b : Buffer} {i advance : Nat} (h : Reaches s start b i) (hi : i < b.length)
      (hstep : (offerLine s.lineRules b i).advance? = some advance) :
      Offers s start s.blockRules (offerLine s.lineRules b i).buffer i
  | next {rule : BlockRule} {rules : List BlockRule} {b next : Buffer} {i : Nat}
      {edits : List Edit} (h : Offers s start (rule :: rules) b i)
      (hrule : offerBlock rule b i = .ok (next, edits)) : Offers s start rules next i

variable {s : RuleSet} {rule : BlockRule} {rules : List BlockRule} {start b : Buffer}
  {i advance : Nat}

/-- A line that is not deleted leaves a line at its index. -/
theorem lt_length_of_offerLine (hi : i < b.length)
    (h : (offerLine s.lineRules b i).advance? = some advance) :
    i < (offerLine s.lineRules b i).buffer.length := by
  rcases offerLine_cases s.lineRules b i with
    hstep | ⟨r, _, ⟨l, _, _, hstep⟩ | ⟨_, hstep⟩ | ⟨parts, _, hparts, hstep⟩⟩ <;>
    rw [hstep] at h ⊢
  · exact hi
  · rwa [List.length_set]
  · cases h
  · simp only [List.length_append, List.length_take, List.length_drop]
    omega

/-- A ready-made block rule that is offered a block has no answer, or its answer is an edit of that
block and is carried out. -/
theorem offerBlock_cases (hr : rule.IsStock) (hi : i < b.length) :
    (rule.answer? b i = none ∧ offerBlock rule b i = .ok (b, [])) ∨
      ∃ edit, rule.answer? b i = some edit ∧ edit.StaysIn ⟨i, b.stopOf i⟩ ∧ edit.IsWithin b ∧
        offerBlock rule b i = .ok (edit.apply b, edit.logged rule.name b) := by
  rw [offerBlock_eq rule hi]
  cases hanswer : rule.answer? b i with
  | none => exact .inl ⟨rfl, rfl⟩
  | some edit =>
      have hin := hr.staysIn (BlockRule.answer?_eq_some_iff.1 hanswer).2
      have hwithin := hin.isWithin (Buffer.stopOf_le_length hi)
      exact .inr ⟨edit, rfl, hin, hwithin, applyEdit_of_isWithin rule.name hwithin⟩

/-- A block that is offered succeeds, and the document gets no shorter. -/
theorem exists_offerBlock (hr : rule.IsStock) (hi : i < b.length) :
    ∃ next edits, offerBlock rule b i = .ok (next, edits) ∧ b.length ≤ next.length := by
  rcases offerBlock_cases hr hi with ⟨_, hok⟩ | ⟨edit, _, _, hwithin, hok⟩
  · exact ⟨b, [], hok, Nat.le_refl _⟩
  · exact ⟨_, _, hok, BlockEdit.length_le_apply hwithin⟩

theorem exists_offerBlocks (hr : ∀ r ∈ rules, r.IsStock) (hi : i < b.length) :
    ∃ last edits, offerBlocks rules b i = .ok (last, edits) ∧ b.length ≤ last.length := by
  induction rules generalizing b with
  | nil => exact ⟨b, [], rfl, Nat.le_refl _⟩
  | cons rule rules ih =>
      obtain ⟨next, edits, hrule, hle⟩ := exists_offerBlock (hr rule List.mem_cons_self) hi
      obtain ⟨last, more, hrest, hle'⟩ := ih (fun r h => hr r (List.mem_cons_of_mem rule h))
        (Nat.lt_of_lt_of_le hi hle)
      exact ⟨last, edits ++ more, by simp [offerBlocks, hrule, hrest], Nat.le_trans hle hle'⟩

/-- The visit of an existing line succeeds, and the walk does not leave the document. -/
theorem exists_visit_of_isStock (hs : s.IsStock) (hi : i < b.length) :
    ∃ v, visit s b i = .ok v ∧ v.next ≤ v.buffer.length := by
  have hnext : i + (offerLine s.lineRules b i).advance?.getD 0 ≤
      (offerLine s.lineRules b i).buffer.length := next_le_length_of_offerLine hi
  cases hstep : (offerLine s.lineRules b i).advance? with
  | none =>
      rw [hstep, Option.getD_none, Nat.add_zero] at hnext
      exact ⟨⟨_, (offerLine s.lineRules b i).edits, i⟩, by simp only [visit, hstep], hnext⟩
  | some advance =>
      rw [hstep, Option.getD_some] at hnext
      obtain ⟨last, edits, hblocks, hle⟩ :=
        exists_offerBlocks hs (lt_length_of_offerLine hi hstep)
      exact ⟨⟨last, (offerLine s.lineRules b i).edits ++ edits, i + advance⟩,
        by simp only [visit, hstep, hblocks], Nat.le_trans hnext hle⟩

/-- The walk is never past the end of the document. -/
theorem Reaches.le_length (hs : s.IsStock) (h : Reaches s start b i) : i ≤ b.length := by
  induction h with
  | start => exact Nat.zero_le _
  | visit _ hi hv _ =>
      obtain ⟨v', hv', hle⟩ := exists_visit_of_isStock hs hi
      obtain rfl := Except.ok.inj (hv.symm.trans hv')
      exact hle
  | again => exact Nat.zero_le _

/-- The block rules that are still to be asked are rules of the set, and the line whose block they
are offered exists. -/
theorem Offers.isStock_and_lt (hs : s.IsStock) (h : Offers s start rules b i) :
    (∀ r ∈ rules, r.IsStock) ∧ i < b.length := by
  induction h with
  | first _ hi hstep => exact ⟨hs, lt_length_of_offerLine hi hstep⟩
  | next _ hrule ih =>
      obtain ⟨hr, hi⟩ := ih
      obtain ⟨next, edits, hok, hle⟩ := exists_offerBlock (hr _ List.mem_cons_self) hi
      cases hrule.symm.trans hok
      exact ⟨fun r hmem => hr r (List.mem_cons_of_mem _ hmem), Nat.lt_of_lt_of_le hi hle⟩

/-- A walk whose visits all succeed meets no structural error. -/
theorem sweepFrom_ne_structural (hs : s.IsStock) (fuel : Nat) (b : Buffer) (i : Nat)
    (cause : StructuralError) : sweepFrom s fuel b i ≠ .error (.structural cause) := by
  induction fuel generalizing b i with
  | zero =>
      unfold sweepFrom
      split <;> simp
  | succ fuel ih =>
      intro h
      unfold sweepFrom at h
      split at h
      · next hi =>
          obtain ⟨v, hv, _⟩ := exists_visit_of_isStock hs hi
          rw [hv] at h
          dsimp only at h
          split at h
          · next hrest =>
              cases h
              exact ih _ _ hrest
          · cases h
      · cases h

theorem settle_ne_structural (hs : s.IsStock) {limit : Buffer → Nat} (n : Nat) (b : Buffer)
    (cause : StructuralError) : settle limit s n b ≠ .error (.structural cause) := by
  induction n generalizing b with
  | zero => simp [settle]
  | succ n ih =>
      intro h
      unfold settle at h
      split at h
      · next hsweep =>
          cases h
          exact sweepFrom_ne_structural hs _ _ _ cause hsweep
      · split at h
        · cases h
        · split at h
          · next hmore =>
              cases h
              exact ih _ hmore
          · cases h

end Pass

namespace Document

open Pass

/-- No pass of ready-made rules looks or writes outside its document. Wherever its sweeps come to,
the visit of an existing line succeeds and the walk stays within the document; a block is asked for
at an existing line only and ends within the document, its fields are existing lines, and an edit of
the block stays in it; and whatever the limit on the visits is, no pass fails with a structural
error. -/
theorem pass_stays_within {s : RuleSet} (hs : s.IsStock) (d : Document) :
    (∀ b i, Reaches s d.lines b i →
      i ≤ b.length ∧ (i < b.length → ∃ v, visit s b i = .ok v)) ∧
    (∀ rule rules b i, Offers s d.lines (rule :: rules) b i →
      ∃ e, b.extentOf i = .ok e ∧ e.start = i ∧ e.stop ≤ b.length ∧
        (∀ f ∈ b.fields e, ∃ inner, b.extentOf f.index = .ok inner) ∧
        ∀ edit, rule.edit b e = some edit → edit.StaysIn e) ∧
    ∀ limit cause, d.applyPassWithin limit s ≠ .error (.structural cause) := by
  refine ⟨fun b i h => ⟨h.le_length hs, fun hi => ?_⟩, fun rule rules b i h => ?_,
    fun limit cause h => ?_⟩
  · obtain ⟨v, hv, _⟩ := exists_visit_of_isStock hs hi
    exact ⟨v, hv⟩
  · obtain ⟨hr, hi⟩ := h.isStock_and_lt hs
    refine ⟨⟨i, b.stopOf i⟩, if_pos hi, rfl, Buffer.stopOf_le_length hi, fun f hf => ?_,
      fun edit hedit => (hr rule List.mem_cons_self).staysIn hedit⟩
    exact ⟨_, if_pos (Buffer.index_lt_of_mem_fields hi hf)⟩
  · unfold applyPassWithin at h
    split at h
    · next hsettle =>
        cases h
        exact settle_ne_structural hs _ _ cause hsettle
    · cases h

/-- One sweep splits a line and then a line that is too long, inserts below the sequence at the
column of its key, deletes a blank line and rewrites a field. -/
theorem pass_stays_within_mixed :
    let s := RuleSet.ofRules "mixed" ""
      [.line (LineRule.deleting "gap" [.notAfterComment] List.isEmpty),
        .line (Reflow.rule 24),
        .line (Rule.splittingAt ';' "semicolons" [.outsideScalar]),
        .block (Rule.injection "loop" (.itemsWithKey ["copy".toList]) "loop".toList
          ⟨["with".toList], ["mode".toList]⟩ (.copyOf "mode".toList)).toBlockRule,
        .block (Rule.appending "mark" (.keys ["mode".toList]) (.offset 0) " !".toList
          true).toBlockRule]
    let d := ofLines ["- copy: a;  with:".toList, "  - first".toList,
      "  - one, two, three, four".toList, [], "  mode: 1".toList]
    s.IsStock ∧
      d.applyPass s = .ok ⟨ofLines ["- copy: a".toList, "  with:".toList, "  - first".toList,
        "  - one, two, three,".toList, "      four".toList, "  loop: 1".toList,
        "  mode: 1 !".toList], true, [⟨"mixed", ⟨"semicolons", 1⟩⟩, ⟨"mixed", ⟨"loop", 5⟩⟩,
          ⟨"mixed", ⟨"reflow", 4⟩⟩, ⟨"mixed", ⟨"gap", 7⟩⟩, ⟨"mixed", ⟨"mark", 7⟩⟩]⟩ ∧
      (∀ b i, Reaches s d.lines b i →
        i ≤ b.length ∧ (i < b.length → ∃ v, visit s b i = .ok v)) ∧
      (∀ rule rules b i, Offers s d.lines (rule :: rules) b i →
        ∃ e, b.extentOf i = .ok e ∧ e.start = i ∧ e.stop ≤ b.length ∧
          (∀ f ∈ b.fields e, ∃ inner, b.extentOf f.index = .ok inner) ∧
          ∀ edit, rule.edit b e = some edit → edit.StaysIn e) ∧
      ∀ limit cause, d.applyPassWithin limit s ≠ .error (.structural cause) := by
  intro s d
  have hs : s.IsStock := by
    intro r hr
    simp only [s, RuleSet.blockRules, RuleSet.ofRules, List.filterMap_cons, Rule.block?,
      List.filterMap_nil, List.mem_cons, List.not_mem_nil, or_false] at hr
    rcases hr with rfl | rfl
    · exact .injection _
    · exact .rewrite _
  exact ⟨hs, by decide +kernel, pass_stays_within hs d⟩

end Document

end TaskTidy
