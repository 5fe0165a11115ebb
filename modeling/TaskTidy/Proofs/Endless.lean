import TaskTidy.Proofs.Descent

/-!
# Injections that call each other

If every field that is injected into a block starts a block that lacks the next one, no sweep over a
line with such a key ends: behind the line that is visited there is always another one. The limit on
sweeps does not help, because the first sweep is not over.
-/

namespace TaskTidy

/-- An injection that gives each block of `key` a field with another one of the keys. -/
structure FieldInjection.LeadsOn (r : FieldInjection) (keys : List (List Char))
    (key : List Char) : Prop where
  target : ∃ wanted, r.target = .keys wanted ∧ key ∈ wanted
  field_mem : r.field ∈ keys
  field_ne : r.field ≠ key
  isBareKey : Buffer.isBareKey r.field = true
  isSome_value? : ∀ b e, (r.value? b e).isSome = true

/-- A set that only injects fields, and that leads on from each of the keys. -/
structure RuleSet.IsCycle (s : RuleSet) (keys : List (List Char)) : Prop where
  lineRules_eq : s.lineRules = []
  injects : ∀ r ∈ s.blockRules, ∃ r' : FieldInjection, r = r'.toBlockRule
  leadsOn : ∀ key ∈ keys, ∃ r : FieldInjection, r.toBlockRule ∈ s.blockRules ∧ r.LeadsOn keys key

theorem RuleSet.IsCycle.isStock {s : RuleSet} {keys : List (List Char)} (h : s.IsCycle keys) :
    s.IsStock := by
  intro r hr
  obtain ⟨r', rfl⟩ := h.injects r hr
  exact .injection r'

/-- At line `n` or below it some line carries one of the keys. -/
def Buffer.HasKeyFrom (keys : List (List Char)) (b : Buffer) (n : Nat) : Prop :=
  ∃ j, n ≤ j ∧ j < b.length ∧ ∃ key ∈ keys, (b.line j).key? = some key

namespace Pass

variable {s : RuleSet} {keys : List (List Char)} {r : FieldInjection} {b : Buffer} {i n : Nat}

/-- An injection keeps the line that starts the block and pushes other lines down at most. -/
theorem injection_keeps (r : FieldInjection) (keys : List (List Char)) (n : Nat)
    (hi : i < b.length) :
    ∃ next edits, offerBlock r.toBlockRule b i = .ok (next, edits) ∧ i < next.length ∧
      next.line i = b.line i ∧ (b.HasKeyFrom keys n → next.HasKeyFrom keys n) := by
  rcases offerBlock_cases (.injection r) hi with ⟨_, hok⟩ | ⟨edit, hanswer, hin, hwithin, hok⟩
  · exact ⟨b, [], hok, hi, rfl, id⟩
  · obtain ⟨value, _, rfl⟩ := FieldInjection.of_answer? hanswer
    have hlen := List.length_insertIdx_of_le_length hwithin
      (Buffer.fieldLine (b.childDepth ⟨i, b.stopOf i⟩) r.field value)
    refine ⟨_, _, hok, ?_, Buffer.line_insertIdx_of_lt hwithin _ hin.1, ?_⟩
    · rw [BlockEdit.apply, hlen]
      omega
    · rintro ⟨j, hnj, hj, hkey⟩
      refine ⟨Buffer.shift (b.insertionIndex ⟨i, b.stopOf i⟩ r.anchors) j, ?_, ?_, ?_⟩
      · rw [Buffer.shift]
        split <;> omega
      · rw [BlockEdit.apply, hlen, Buffer.shift]
        split <;> omega
      · rwa [BlockEdit.apply, Buffer.line_insertIdx_shift hwithin]

/-- A block that gets the field of an injection has a line with its key below the start line. -/
theorem hasKeyFrom_of_leadsOn {key : List Char} (hr : r.LeadsOn keys key) (hi : i < b.length)
    (hkey : (b.line i).key? = some key) {next : Buffer} {edits : List Edit}
    (hok : offerBlock r.toBlockRule b i = .ok (next, edits)) : next.HasKeyFrom keys (i + 1) := by
  rcases offerBlock_cases (.injection r) hi with ⟨hnone, hok'⟩ | ⟨edit, hanswer, hin, hwithin, hok'⟩
  · obtain ⟨rfl, _⟩ := Prod.mk.inj (Except.ok.inj (hok.symm.trans hok'))
    have hselects : r.target.selects next i = true := by
      obtain ⟨wanted, htarget, hmem⟩ := hr.target
      rw [htarget, Target.selects]
      exact Line.hasKeyIn_iff.2 ⟨key, hmem, hkey⟩
    have hedit : r.edit next ⟨i, next.stopOf i⟩ = none := by
      rwa [BlockRule.answer?, FieldInjection.toBlockRule, if_pos hselects] at hnone
    have hstart : (next.line i).hasKey r.field = false := by
      rw [Line.hasKey, hkey]
      simpa using hr.field_ne.symm
    obtain ⟨value, hv⟩ := Option.isSome_iff_exists.1 (hr.isSome_value? next ⟨i, next.stopOf i⟩)
    simp only [FieldInjection.edit, FieldInjection.isSatisfied, hstart, Bool.false_or, hv] at hedit
    split at hedit
    · next hhas =>
        obtain ⟨f, hf, hfkey⟩ := Buffer.hasField_iff.1 hhas
        obtain ⟨_, _, hindex, _, _, hline⟩ := Buffer.of_mem_fields hf
        exact ⟨f.index, (Extent.mem_interior.1 hindex).1, Buffer.index_lt_of_mem_fields hi hf,
          r.field, hr.field_mem, hfkey ▸ hline⟩
    · cases hedit
  · obtain ⟨rfl, _⟩ := Prod.mk.inj (Except.ok.inj (hok.symm.trans hok'))
    obtain ⟨value, _, rfl⟩ := FieldInjection.of_answer? hanswer
    refine ⟨_, hin.1, ?_, r.field, hr.field_mem, ?_⟩
    · rw [BlockEdit.apply, List.length_insertIdx_of_le_length hwithin]
      exact Nat.lt_succ_of_le hwithin
    · rw [BlockEdit.apply, Buffer.line_insertIdx_self hwithin]
      exact Buffer.key?_fieldLine hr.isBareKey _ value

/-- Offering a block to injections leaves a line with one of the keys below its start line, if there
was one or if one of the rules leads on from the key of the block. -/
theorem hasKeyFrom_offerBlocks {rules : List BlockRule}
    (hrules : ∀ r ∈ rules, ∃ r' : FieldInjection, r = r'.toBlockRule) (hi : i < b.length)
    (h : b.HasKeyFrom keys (i + 1) ∨ ∃ key, (b.line i).key? = some key ∧
      ∃ r : FieldInjection, r.toBlockRule ∈ rules ∧ r.LeadsOn keys key)
    {last : Buffer} {edits : List Edit} (hok : offerBlocks rules b i = .ok (last, edits)) :
    last.HasKeyFrom keys (i + 1) := by
  induction rules generalizing b edits with
  | nil =>
      cases hok
      rcases h with h | ⟨_, _, r, hr, _⟩
      · exact h
      · cases hr
  | cons rule rules ih =>
      obtain ⟨r, rfl⟩ := hrules rule List.mem_cons_self
      obtain ⟨next, first, hrule, hi', hline, hkeep⟩ :=
        injection_keeps r keys (i + 1) hi
      simp only [offerBlocks, hrule] at hok
      split at hok
      · cases hok
      · next last' more hrest =>
          cases hok
          refine ih (fun r hr => hrules r (List.mem_cons_of_mem _ hr)) hi' ?_ hrest
          rcases h with h | ⟨key, hkey, r', hr', hleads⟩
          · exact .inl (hkeep h)
          · rcases List.mem_cons.1 hr' with heq | hmem
            · exact .inl (hasKeyFrom_of_leadsOn hleads hi hkey (heq ▸ hrule))
            · exact .inr ⟨key, hline ▸ hkey, r', hmem, hleads⟩

/-- The visit of a line leaves a line with one of the keys where the walk has not been. -/
theorem hasKeyFrom_visit (hs : s.IsCycle keys) (hi : i < b.length) (h : b.HasKeyFrom keys i) :
    ∃ v, visit s b i = .ok v ∧ v.buffer.HasKeyFrom keys v.next := by
  obtain ⟨last, edits, hok, _⟩ := exists_offerBlocks hs.isStock hi
  have hline : offerLine s.lineRules b i = ⟨b, [], some 1⟩ := by
    rw [hs.lineRules_eq]
    rfl
  refine ⟨⟨last, [] ++ edits, i + 1⟩, by simp only [visit, hline, hok], ?_⟩
  obtain ⟨j, hij, hj, key, hmem, hkey⟩ := h
  rcases Nat.eq_or_lt_of_le hij with rfl | hlt
  · exact hasKeyFrom_offerBlocks hs.injects hi (.inr ⟨key, hkey, hs.leadsOn key hmem⟩) hok
  · exact hasKeyFrom_offerBlocks hs.injects hi (.inl ⟨j, hlt, hj, key, hmem, hkey⟩) hok

/-- A walk towards a line with one of the keys does not end, however many visits it may make. -/
theorem sweepFrom_eq_endless (hs : s.IsCycle keys) (h : b.HasKeyFrom keys i) (fuel : Nat) :
    sweepFrom s fuel b i = .error (.endless s.name) := by
  induction fuel generalizing b i with
  | zero =>
      obtain ⟨j, hij, hj, _⟩ := h
      exact if_pos (Nat.lt_of_le_of_lt hij hj)
  | succ fuel ih =>
      obtain ⟨j, hij, hj, hkey⟩ := h
      have hi := Nat.lt_of_le_of_lt hij hj
      obtain ⟨v, hv, hnext⟩ := hasKeyFrom_visit hs hi ⟨j, hij, hj, hkey⟩
      simp only [sweepFrom, if_pos hi, hv, ih hnext]

end Pass

namespace Document

open Pass

/-- Injections that call each other never come to the end of a document in which one of their keys
occurs. -/
theorem applyPassWithin_eq_endless {s : RuleSet} {keys : List (List Char)} (hs : s.IsCycle keys)
    {d : Document} (hd : d.lines.HasKeyFrom keys 0) (limit : Buffer → Nat) :
    d.applyPassWithin limit s = .error (.endless s.name) := by
  simp only [applyPassWithin, settle, maxSweeps, sweep, sweepFrom_eq_endless hs hd]

/-- Two rules, each of which adds the field that the other starts from, never finish a document of
one line. -/
theorem not_pass_ends_of_mutual :
    let s := RuleSet.ofRules "custom" ""
      [.block (Rule.injection "to-b" (.keys [['a']]) ['b'] ⟨[], []⟩ (.constant ['1'])).toBlockRule,
        .block (Rule.injection "to-a" (.keys [['b']]) ['a'] ⟨[], []⟩
          (.constant ['1'])).toBlockRule]
    let d := ofLines ["a: 1".toList]
    s.IsStock ∧ (∀ limit, d.applyPassWithin limit s = .error (.endless "custom")) ∧
      ¬((∃ outcome, d.Yields s (.ok outcome)) ∨
        d.Yields s (.error (.nonConvergent s.name maxSweeps))) := by
  intro s d
  have hs : s.IsCycle [['a'], ['b']] := by
    refine ⟨rfl, fun r hr => ?_, fun key hkey => ?_⟩
    · simp only [s, RuleSet.blockRules, RuleSet.ofRules, List.filterMap_cons, Rule.block?,
        List.filterMap_nil, List.mem_cons, List.not_mem_nil, or_false] at hr
      rcases hr with rfl | rfl
      · exact ⟨_, rfl⟩
      · exact ⟨_, rfl⟩
    · simp only [List.mem_cons, List.not_mem_nil, or_false] at hkey
      rcases hkey with rfl | rfl
      · exact ⟨_, List.mem_cons_self,
          ⟨⟨_, rfl, by simp⟩, by decide, by decide, by decide, fun _ _ => rfl⟩⟩
      · exact ⟨_, List.mem_cons_of_mem _ List.mem_cons_self,
          ⟨⟨_, rfl, by simp⟩, by decide, by decide, by decide, fun _ _ => rfl⟩⟩
  have hd : d.lines.HasKeyFrom [['a'], ['b']] 0 :=
    ⟨0, Nat.le_refl 0, by decide, ['a'], by simp, by decide⟩
  have hendless := applyPassWithin_eq_endless hs hd
  have hyields : d.Yields s (.error (.endless s.name)) :=
    ⟨fun _ => 0, fun limit _ => hendless limit⟩
  refine ⟨hs.isStock, hendless, ?_⟩
  rintro (⟨outcome, hok⟩ | herror)
  · cases hok.unique hyields
  · cases herror.unique hyields

end Document

end TaskTidy
