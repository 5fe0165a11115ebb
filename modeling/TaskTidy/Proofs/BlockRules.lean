import TaskTidy.Proofs.Blocks
import TaskTidy.Proofs.Settling
import TaskTidy.Rule.Injection

/-!
# Rule sets of a single block rule

Without line rules the visit of a line is the answer of the block rule for the block that starts
there. The walk moves on by one line, whatever the answer is.
-/

namespace TaskTidy

namespace BlockEdit

/-- The document after the edit. -/
def apply (b : Buffer) : BlockEdit → Buffer
  | .insert k l => b.insertIdx k l
  | .replace k l => b.set k l

/-- What is logged of the edit: the line that it names, unless that line stays as it is. -/
def logged (name : String) (b : Buffer) : BlockEdit → List Edit
  | .insert k _ => [⟨name, k + 1⟩]
  | .replace k l => if l = b.line k then [] else [⟨name, k + 1⟩]

/-- Whether the lines that the edit names exist. -/
def IsWithin (b : Buffer) : BlockEdit → Prop
  | .insert k _ => k ≤ b.length
  | .replace k _ => k < b.length

end BlockEdit

/-- What a block rule proposes for the block that starts at line `i`. -/
def BlockRule.answer? (r : BlockRule) (b : Buffer) (i : Nat) : Option BlockEdit :=
  if r.selects b i then r.edit b ⟨i, b.stopOf i⟩ else none

theorem BlockRule.answer?_eq_some_iff {r : BlockRule} {b : Buffer} {i : Nat} {edit : BlockEdit} :
    r.answer? b i = some edit ↔ r.selects b i = true ∧ r.edit b ⟨i, b.stopOf i⟩ = some edit :=
  Option.ite_none_right_eq_some

/-- An answer of a scoped rewrite is what its policy says about a block that its target picks. -/
theorem ScopedRewrite.answer?_eq_some_iff {r : ScopedRewrite} {b : Buffer} {i : Nat}
    {edit : BlockEdit} :
    r.toBlockRule.answer? b i = some edit ↔ ∃ k l, edit = .replace k l ∧
      r.target.selects b i = true ∧ r.rewrite? b ⟨i, b.stopOf i⟩ = some (k, l) ∧
        (i ≤ k ∧ k < b.stopOf i) ∧ l ≠ b.line k := by
  constructor
  · intro h
    obtain ⟨hs, hedit⟩ := BlockRule.answer?_eq_some_iff.1 h
    simp only [toBlockRule, ScopedRewrite.edit] at hedit
    split at hedit
    · cases hedit
    · next k l hpolicy =>
        split at hedit
        · next hk =>
            cases hedit
            simp only [Extent.contains, Bool.and_eq_true, decide_eq_true_eq, bne_iff_ne] at hk
            exact ⟨k, l, rfl, hs, hpolicy, hk.1, hk.2.symm⟩
        · cases hedit
  · rintro ⟨k, l, rfl, hs, hpolicy, hk, hl⟩
    simp [BlockRule.answer?, toBlockRule, ScopedRewrite.edit, hs, hpolicy, Extent.contains, hk,
      hl.symm]

/-- Whether an item has a key is decided by the lines down to the end of its block. -/
theorem Target.selects_itemsWithKey_take {b : Buffer} {i n : Nat} (hn : b.stopOf i ≤ n)
    (wanted : List (List Char)) :
    (Target.itemsWithKey wanted).selects (b.take n) i =
      (Target.itemsWithKey wanted).selects b i := by
  have hi : i < n := Nat.lt_of_lt_of_le (Buffer.lt_stopOf b i) hn
  simp only [Target.selects, Buffer.line_take b hi, Buffer.stopOf_take hn,
    Buffer.fields_take (e := ⟨i, b.stopOf i⟩) hn]

/-- The start of a block that is picked for a key is an item. -/
theorem Target.kind_of_selects_itemsWithKey {b : Buffer} {i : Nat} {wanted : List (List Char)}
    (h : (Target.itemsWithKey wanted).selects b i = true) : (b.line i).kind = .item := by
  simp only [Target.selects, Bool.and_eq_true, decide_eq_true_eq] at h
  exact h.1

/-- A block rule with a target looks at the blocks that start with an item or a parameter. -/
theorem Target.isEntry_of_selects {t : Target} {b : Buffer} {i : Nat}
    (h : t.selects b i = true) : (b.line i).kind.isEntry = true := by
  cases t with
  | keys wanted => exact Line.isEntry_of_hasKeyIn h
  | itemsWithKey wanted =>
      rw [Target.kind_of_selects_itemsWithKey h]
      rfl

namespace Pass

variable {s : RuleSet} {r : BlockRule} {b : Buffer} {i : Nat}

theorem applyEdit_of_isWithin (name : String) {edit : BlockEdit} (h : edit.IsWithin b) :
    applyEdit name b edit = .ok (edit.apply b, edit.logged name b) := by
  cases edit with
  | insert k l => exact if_pos h
  | replace k l =>
      have hk : k < b.length := h
      by_cases hl : l = b.line k
      · rw [applyEdit, if_pos hk, if_pos hl, BlockEdit.apply, BlockEdit.logged, if_pos hl, hl,
          Buffer.line_eq_getElem b k hk, List.set_getElem_self]
      · rw [applyEdit, if_pos hk, if_neg hl, BlockEdit.apply, BlockEdit.logged, if_neg hl]

/-- A block rule that is offered a block applies its answer. -/
theorem offerBlock_eq (r : BlockRule) (hi : i < b.length) :
    offerBlock r b i = match r.answer? b i with
      | none => .ok (b, [])
      | some edit => applyEdit r.name b edit := by
  have hextent : b.extentOf i = .ok ⟨i, b.stopOf i⟩ := if_pos hi
  rw [offerBlock, hextent, BlockRule.answer?]
  split <;> rfl

section

variable (hl : s.lineRules = []) (hb : s.blockRules = [r])

include hl hb

private theorem visit_of_offerBlock {next : Buffer} {edits : List Edit}
    (h : offerBlock r b i = .ok (next, edits)) : visit s b i = .ok ⟨next, edits, i + 1⟩ := by
  simp [visit, offerLine, firstAnswer?, hl, hb, offerBlocks, h]

/-- A block without an answer is not edited. -/
theorem isQuiet_of_answer? (hi : i < b.length) (h : r.answer? b i = none) : IsQuiet s b i := by
  apply visit_of_offerBlock hl hb
  rw [offerBlock_eq r hi, h]

/-- A visit carries out the answer of the block rule. -/
theorem visit_of_answer? (hi : i < b.length) {edit : BlockEdit}
    (h : r.answer? b i = some edit) (hwithin : edit.IsWithin b) :
    visit s b i = .ok ⟨edit.apply b, edit.logged r.name b, i + 1⟩ := by
  apply visit_of_offerBlock hl hb
  rw [offerBlock_eq r hi, h]
  exact applyEdit_of_isWithin r.name hwithin

/-- A visit leaves a block without an answer as it is, and carries out an answer that stays within
the document. -/
theorem exists_visit_of_answer? (hi : i < b.length)
    (hwithin : ∀ {edit}, r.answer? b i = some edit → edit.IsWithin b) :
    ∃ v, visit s b i = .ok v ∧ (r.answer? b i = none ∧ v = ⟨b, [], i + 1⟩ ∨
      ∃ edit, r.answer? b i = some edit ∧ v = ⟨edit.apply b, edit.logged r.name b, i + 1⟩) := by
  cases hanswer : r.answer? b i with
  | none => exact ⟨_, isQuiet_of_answer? hl hb hi hanswer, Or.inl ⟨rfl, rfl⟩⟩
  | some edit =>
      exact ⟨_, visit_of_answer? hl hb hi hanswer (hwithin hanswer), Or.inr ⟨edit, rfl, rfl⟩⟩

theorem visit_cases_of_answer? (hi : i < b.length) {v : Visit} (hv : visit s b i = .ok v)
    (hwithin : ∀ {edit}, r.answer? b i = some edit → edit.IsWithin b) :
    r.answer? b i = none ∧ v = ⟨b, [], i + 1⟩ ∨
      ∃ edit, r.answer? b i = some edit ∧ v = ⟨edit.apply b, edit.logged r.name b, i + 1⟩ := by
  obtain ⟨v', hv', hcases⟩ := exists_visit_of_answer? hl hb hi hwithin
  cases Except.ok.inj (hv.symm.trans hv')
  exact hcases

/-- A document without answers is settled. -/
theorem isSettled_of_answer? (h : ∀ i < b.length, r.answer? b i = none) : IsSettled s b :=
  fun i hi => isQuiet_of_answer? hl hb hi (h i hi)

end

end Pass

end TaskTidy
