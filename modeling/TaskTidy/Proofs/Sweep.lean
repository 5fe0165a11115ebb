import TaskTidy.Pass

/-!
# Sweeps

A visit without edits leaves the document and moves to the next line. So a sweep without edits is
the same thing as a document on which every visit is quiet, and what every visit preserves holds
when the sweep is over.
-/

namespace TaskTidy.Pass

variable {s : RuleSet} {b : Buffer} {i : Nat}

/-- The visit of line `i` changes nothing and moves on by one line. -/
def IsQuiet (s : RuleSet) (b : Buffer) (i : Nat) : Prop :=
  visit s b i = .ok ⟨b, [], i + 1⟩

/-- Every visit of the document is quiet. -/
def IsSettled (s : RuleSet) (b : Buffer) : Prop :=
  ∀ i < b.length, IsQuiet s b i

/-- The line rules leave a line as it is, or one of them replaces it, deletes it or splits it. -/
theorem offerLine_cases (rules : List LineRule) (b : Buffer) (i : Nat) :
    offerLine rules b i = ⟨b, [], some 1⟩ ∨ ∃ r ∈ rules,
      (∃ l, r.rewrite b i = some (.replace l) ∧ l ≠ b.line i ∧
        offerLine rules b i = ⟨b.set i l, [⟨r.name, i + 1⟩], some 1⟩) ∨
      (r.rewrite b i = some .delete ∧
        offerLine rules b i = ⟨b.eraseIdx i, [⟨r.name, i + 1⟩], none⟩) ∨
      ∃ parts, r.rewrite b i = some (.split parts) ∧ 1 < parts.length ∧
        offerLine rules b i =
          ⟨b.take i ++ parts ++ b.drop (i + 1), [⟨r.name, i + 1⟩], some parts.length⟩ := by
  unfold offerLine
  cases hfirst : firstAnswer? rules b i with
  | none => exact .inl rfl
  | some answer =>
      obtain ⟨r, hr, hmap⟩ := List.exists_of_findSome?_eq_some hfirst
      obtain ⟨a, ha, rfl⟩ := Option.map_eq_some_iff.1 hmap
      cases a with
      | replace l =>
          by_cases hl : l = b.line i
          · exact .inl (if_pos hl)
          · exact .inr ⟨r, hr, .inl ⟨l, ha, hl, if_neg hl⟩⟩
      | delete => exact .inr ⟨r, hr, .inr (.inl ⟨ha, rfl⟩)⟩
      | split parts =>
          by_cases hp : parts.length ≤ 1
          · exact .inl (if_pos hp)
          · exact .inr ⟨r, hr, .inr (.inr ⟨parts, ha, Nat.lt_of_not_le hp, if_neg hp⟩)⟩

/-- A line that the line rules do not edit stays as it is. -/
theorem offerLine_of_edits_eq_nil {rules : List LineRule}
    (h : (offerLine rules b i).edits = []) : offerLine rules b i = ⟨b, [], some 1⟩ := by
  rcases offerLine_cases rules b i with
    hstep | ⟨r, _, ⟨l, _, _, hstep⟩ | ⟨_, hstep⟩ | ⟨parts, _, _, hstep⟩⟩
  · exact hstep
  all_goals
    rw [hstep] at h
    cases h

theorem applyEdit_of_edits_eq_nil {name : String} {edit : BlockEdit} {next : Buffer}
    (h : applyEdit name b edit = .ok (next, [])) : next = b := by
  cases edit with
  | insert at' l =>
      simp only [applyEdit] at h
      split at h <;> simp at h
  | replace at' l =>
      simp only [applyEdit] at h
      split at h
      · split at h
        · simpa using h.symm
        · simp at h
      · simp at h

theorem offerBlock_of_edits_eq_nil {rule : BlockRule} {next : Buffer}
    (h : offerBlock rule b i = .ok (next, [])) : next = b := by
  unfold offerBlock at h
  split at h
  · split at h
    · cases h
    · next e _ =>
        cases he : rule.edit b e with
        | none => simpa [he] using h.symm
        | some edit =>
            simp only [he] at h
            exact applyEdit_of_edits_eq_nil h
  · simpa using h.symm

/-- A block that the block rules do not edit stays as it is. -/
theorem offerBlocks_of_edits_eq_nil {rules : List BlockRule} {last : Buffer}
    (h : offerBlocks rules b i = .ok (last, [])) : last = b := by
  induction rules generalizing b with
  | nil => simpa [offerBlocks] using h.symm
  | cons rule rules ih =>
      unfold offerBlocks at h
      split at h
      · cases h
      · next next edits hrule =>
          split at h
          · cases h
          · next last' more hrest =>
              simp only [Except.ok.injEq, Prod.mk.injEq, List.append_eq_nil_iff] at h
              obtain ⟨rfl, rfl, rfl⟩ := h
              obtain rfl := offerBlock_of_edits_eq_nil hrule
              exact ih hrest

/-- A visit without edits is quiet. -/
theorem isQuiet_of_edits_eq_nil {v : Visit} (h : visit s b i = .ok v) (hv : v.edits = []) :
    IsQuiet s b i := by
  rw [IsQuiet, h]
  unfold visit at h
  by_cases hline : (offerLine s.lineRules b i).edits = []
  · simp only [offerLine_of_edits_eq_nil hline, List.nil_append] at h
    split at h
    · cases h
    · next last edits hblocks =>
        cases h
        obtain rfl : edits = [] := hv
        rw [offerBlocks_of_edits_eq_nil hblocks]
  · exfalso
    simp only at h
    split at h
    · cases h
      exact hline hv
    · split at h
      · cases h
      · cases h
        exact hline (List.append_eq_nil_iff.1 hv).1

/-- A walk past the last line is over. -/
theorem sweepFrom_of_length_le (h : b.length ≤ i) (fuel : Nat) :
    sweepFrom s fuel b i = .ok (b, []) := by
  cases fuel <;> simp [sweepFrom, Nat.not_lt.2 h]

/-- A walk is a visit and the walk from the line that it moves on to. -/
theorem sweepFrom_succ {fuel : Nat} {v : Visit} {last : Buffer} {rest : List Edit}
    (hi : i < b.length) (hv : visit s b i = .ok v)
    (hrest : sweepFrom s fuel v.buffer v.next = .ok (last, rest)) :
    sweepFrom s (fuel + 1) b i = .ok (last, v.edits ++ rest) := by
  simp [sweepFrom, hi, hv, hrest]

/-- A walk that ends has passed the last line or begins with a visit. -/
theorem of_sweepFrom {fuel : Nat} {last : Buffer} {edits : List Edit}
    (h : sweepFrom s fuel b i = .ok (last, edits)) :
    (b.length ≤ i ∧ last = b ∧ edits = []) ∨
      ∃ fuel' v rest, fuel = fuel' + 1 ∧ i < b.length ∧ visit s b i = .ok v ∧
        sweepFrom s fuel' v.buffer v.next = .ok (last, rest) ∧ edits = v.edits ++ rest := by
  by_cases hi : i < b.length
  · right
    cases fuel with
    | zero => simp [sweepFrom, hi] at h
    | succ fuel =>
        rw [sweepFrom, if_pos hi] at h
        split at h
        · cases h
        · next v hv =>
            split at h
            · cases h
            · next last' rest hrest =>
                cases h
                exact ⟨fuel, v, rest, rfl, hi, hv, hrest, rfl⟩
  · rw [sweepFrom_of_length_le (Nat.le_of_not_lt hi)] at h
    cases h
    exact Or.inl ⟨Nat.le_of_not_lt hi, rfl, rfl⟩

/-- A sweep over a settled document leaves it. -/
theorem sweepFrom_of_isSettled (hs : IsSettled s b) {fuel : Nat} (hf : b.length ≤ i + fuel) :
    sweepFrom s fuel b i = .ok (b, []) := by
  induction fuel generalizing i with
  | zero => exact sweepFrom_of_length_le hf 0
  | succ fuel ih =>
      rcases Nat.lt_or_ge i b.length with hi | hi
      · exact sweepFrom_succ hi (hs i hi) (ih (i := i + 1) (by omega))
      · exact sweepFrom_of_length_le hi _

/-- A sweep without edits visits quiet lines only, to the end of the document. -/
theorem of_sweepFrom_of_edits_eq_nil {fuel : Nat} {last : Buffer}
    (h : sweepFrom s fuel b i = .ok (last, [])) :
    last = b ∧ b.length ≤ i + fuel ∧ ∀ j, i ≤ j → j < b.length → IsQuiet s b j := by
  induction fuel generalizing i with
  | zero =>
      rcases of_sweepFrom h with ⟨hend, rfl, _⟩ | ⟨fuel', _, _, hfuel, _⟩
      · exact ⟨rfl, hend, fun j hij hj => absurd hj (by omega)⟩
      · cases hfuel
  | succ fuel ih =>
      rcases of_sweepFrom h with ⟨hend, rfl, _⟩ | ⟨fuel', v, rest, hfuel, _, hv, hrest, hedits⟩
      · exact ⟨rfl, by omega, fun j hij hj => absurd hj (by omega)⟩
      · obtain rfl := Nat.succ.inj hfuel
        obtain ⟨hnil, rfl⟩ := List.append_eq_nil_iff.1 hedits.symm
        have hq := isQuiet_of_edits_eq_nil hv hnil
        obtain rfl : v = ⟨b, [], i + 1⟩ := Except.ok.inj (hv.symm.trans hq)
        obtain ⟨hlast, hlen, hrestQuiet⟩ := ih hrest
        dsimp only at hlen hrestQuiet
        refine ⟨hlast, by omega, fun j hij hj => ?_⟩
        rcases Nat.eq_or_lt_of_le hij with rfl | hlt
        · exact hq
        · exact hrestQuiet j hlt hj

/-- The sweeps without edits are the sweeps over settled documents that fit into the limit. -/
theorem sweep_eq_self_iff {limit : Buffer → Nat} :
    sweep limit s b = .ok (b, []) ↔ IsSettled s b ∧ b.length ≤ limit b := by
  constructor
  · intro h
    obtain ⟨_, hlen, hq⟩ := of_sweepFrom_of_edits_eq_nil h
    exact ⟨fun i hi => hq i (Nat.zero_le i) hi, by omega⟩
  · rintro ⟨hs, hlen⟩
    exact sweepFrom_of_isSettled hs (by omega)

theorem eq_of_sweep_of_edits_eq_nil {limit : Buffer → Nat} {last : Buffer}
    (h : sweep limit s b = .ok (last, [])) : last = b :=
  (of_sweepFrom_of_edits_eq_nil h).1

/-- What holds before a walk and is preserved by every visit, with its edits added to the log, holds
when the walk has passed the last line. -/
theorem sweepFrom_log_induction (inv : Buffer → Nat → List Edit → Prop)
    (step : ∀ {b i log v}, i < b.length → inv b i log → visit s b i = .ok v →
      inv v.buffer v.next (log ++ v.edits))
    {fuel : Nat} {last : Buffer} {edits : List Edit} (log : List Edit) (start : inv b i log)
    (h : sweepFrom s fuel b i = .ok (last, edits)) :
    ∃ j, last.length ≤ j ∧ inv last j (log ++ edits) := by
  induction fuel generalizing b i log edits with
  | zero =>
      rcases of_sweepFrom h with ⟨hend, rfl, rfl⟩ | ⟨fuel', _, _, hfuel, _⟩
      · exact ⟨i, hend, by rwa [List.append_nil]⟩
      · cases hfuel
  | succ fuel ih =>
      rcases of_sweepFrom h with ⟨hend, rfl, rfl⟩ | ⟨fuel', v, rest, hfuel, hi, hv, hrest, rfl⟩
      · exact ⟨i, hend, by rwa [List.append_nil]⟩
      · obtain rfl := Nat.succ.inj hfuel
        rw [← List.append_assoc]
        exact ih _ (step hi start hv) hrest

/-- What holds before a walk and is preserved by every visit holds when the walk has passed the last
line. -/
theorem sweepFrom_induction (inv : Buffer → Nat → Prop)
    (step : ∀ {b i v}, i < b.length → inv b i → visit s b i = .ok v → inv v.buffer v.next)
    {fuel : Nat} {last : Buffer} {edits : List Edit} (start : inv b i)
    (h : sweepFrom s fuel b i = .ok (last, edits)) : ∃ j, last.length ≤ j ∧ inv last j :=
  sweepFrom_log_induction (fun b i _ => inv b i) step [] start h

/-- A walk ends if every visit succeeds and lowers a measure that the fuel bounds. -/
theorem exists_sweepFrom (inv : Buffer → Nat → Prop) (measure : Buffer → Nat → Nat)
    (step : ∀ {b i}, i < b.length → inv b i →
      ∃ v, visit s b i = .ok v ∧ inv v.buffer v.next ∧ measure v.buffer v.next < measure b i)
    {fuel : Nat} (start : inv b i) (hf : measure b i ≤ fuel) :
    ∃ result, sweepFrom s fuel b i = .ok result := by
  induction fuel generalizing b i with
  | zero =>
      by_cases hi : i < b.length
      · obtain ⟨v, _, _, hlt⟩ := step hi start
        omega
      · exact ⟨(b, []), sweepFrom_of_length_le (Nat.le_of_not_lt hi) 0⟩
  | succ fuel ih =>
      by_cases hi : i < b.length
      · obtain ⟨v, hv, hinv, hlt⟩ := step hi start
        obtain ⟨⟨last, rest⟩, hrest⟩ := ih hinv (by omega)
        exact ⟨(last, v.edits ++ rest), sweepFrom_succ hi hv hrest⟩
      · exact ⟨(b, []), sweepFrom_of_length_le (Nat.le_of_not_lt hi) _⟩

end TaskTidy.Pass
