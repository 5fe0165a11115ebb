import TaskTidy.Proofs.Settling
import TaskTidy.Proofs.Upwards

/-!
# Rule sets of line rules

Without block rules the visit of a line is the first answer of the line rules. A rule is silent on a
line that it would not change. If every answer keeps the rules silent on all lines that the walk
leaves behind, one sweep settles the document.
-/

namespace TaskTidy

namespace Rewrite

/-- The document after the rewrite of line `i`. -/
def apply (b : Buffer) (i : Nat) : Rewrite → Buffer
  | .replace l => b.set i l
  | .delete => b.eraseIdx i
  | .split parts => b.take i ++ parts ++ b.drop (i + 1)

/-- The index after the lines that the rewrite leaves in the place of line `i`. -/
def next (i : Nat) : Rewrite → Nat
  | .replace _ => i + 1
  | .delete => i
  | .split parts => i + parts.length

/-- Whether the rewrite is carried out: a split into fewer than two parts is not. -/
def IsProper : Rewrite → Prop
  | .split parts => 2 ≤ parts.length
  | _ => True

/-- The lines above the rewritten line stay. -/
theorem take_apply {b : Buffer} {i j : Nat} (a : Rewrite) (hj : j < i) (hi : i < b.length) :
    (a.apply b i).take (j + 1) = b.take (j + 1) := by
  cases a with
  | replace l => exact List.take_set_of_le hj
  | delete =>
      rw [apply, List.eraseIdx_eq_take_drop_succ, List.take_append_of_le_length, List.take_take,
        Nat.min_eq_left hj]
      rw [List.length_take]
      omega
  | split parts =>
      rw [apply, List.append_assoc, List.take_append_of_le_length, List.take_take,
        Nat.min_eq_left hj]
      rw [List.length_take]
      omega

/-- Fewer lines are left to visit after a rewrite. -/
theorem length_apply_lt {b : Buffer} {i : Nat} (a : Rewrite) (hi : i < b.length) :
    (a.apply b i).length - a.next i < b.length - i := by
  cases a with
  | replace l =>
      rw [apply, next, List.length_set]
      omega
  | delete =>
      rw [apply, next, List.length_eraseIdx_of_lt hi]
      omega
  | split parts =>
      simp only [apply, next, List.length_append, List.length_take, List.length_drop]
      omega

end Rewrite

namespace LineRule

/-- The rule leaves line `i` as it is: it gives no answer, or the line itself. -/
def IsSilent (r : LineRule) (b : Buffer) (i : Nat) : Prop :=
  ∀ answer, r.rewrite b i = some answer → answer = .replace (b.line i)

/-- The answer of the rule depends on the lines down to its own line only. -/
def LooksUp (r : LineRule) : Prop :=
  ∀ ⦃b c : Buffer⦄ ⦃i : Nat⦄, b.take (i + 1) = c.take (i + 1) → r.rewrite b i = r.rewrite c i

variable {r : LineRule} {b c : Buffer} {i : Nat}

theorem line_congr (h : b.take (i + 1) = c.take (i + 1)) : b.line i = c.line i := by
  rw [← Buffer.line_take b (Nat.lt_succ_self i), h, Buffer.line_take c (Nat.lt_succ_self i)]

theorem LooksUp.isSilent_congr (hr : r.LooksUp) (h : b.take (i + 1) = c.take (i + 1))
    (hb : r.IsSilent b i) : r.IsSilent c i := by
  intro answer hanswer
  rw [← line_congr h]
  exact hb answer (by rw [hr h, hanswer])

/-- A guarded rule looks upwards if its guards do and its function reads the line alone. -/
theorem looksUp_guarded {name : String} {guards : List Guard} {f : Line → Option Rewrite}
    (hg : ∀ g ∈ guards, g.looksUp = true) :
    (guarded name guards fun b i => f (b.line i)).LooksUp := by
  intro b c i h
  have hguards : guards.all (Guard.allows b i) = guards.all (Guard.allows c i) := by
    rw [Bool.eq_iff_iff, List.all_eq_true, List.all_eq_true]
    constructor
    · intro hb g hmem
      rw [← Guard.allows_congr (hg g hmem) h]
      exact hb g hmem
    · intro hc g hmem
      rw [Guard.allows_congr (hg g hmem) h]
      exact hc g hmem
  simp only [guarded, line_congr h, hguards]

end LineRule

namespace Pass

variable {s : RuleSet} {b : Buffer} {i : Nat}

/-- All line rules are silent on the lines above `i`. -/
def SilentAbove (s : RuleSet) (b : Buffer) (i : Nat) : Prop :=
  ∀ j < i, ∀ r ∈ s.lineRules, r.IsSilent b j

theorem SilentAbove.succ (h : SilentAbove s b i) (hi : ∀ r ∈ s.lineRules, r.IsSilent b i) :
    SilentAbove s b (i + 1) := by
  intro j hj
  rcases Nat.lt_succ_iff_lt_or_eq.1 hj with hj | rfl
  · exact h j hj
  · exact hi

theorem of_firstAnswer? {rules : List LineRule} {name : String} {a : Rewrite}
    (h : firstAnswer? rules b i = some (name, a)) : ∃ r ∈ rules, r.rewrite b i = some a := by
  obtain ⟨r, hr, hanswer⟩ := List.exists_of_findSome?_eq_some h
  obtain ⟨a', ha', heq⟩ := Option.map_eq_some_iff.1 hanswer
  cases heq
  exact ⟨r, hr, ha'⟩

theorem firstAnswer?_eq_none_iff {rules : List LineRule} :
    firstAnswer? rules b i = none ↔ ∀ r ∈ rules, r.rewrite b i = none := by
  simp [firstAnswer?, List.findSome?_eq_none_iff]

/-- A line on which all line rules are silent is not edited. -/
theorem offerLine_of_isSilent {rules : List LineRule} (h : ∀ r ∈ rules, r.IsSilent b i) :
    offerLine rules b i = ⟨b, [], some 1⟩ := by
  unfold offerLine
  cases hfirst : firstAnswer? rules b i with
  | none => rfl
  | some answer =>
      obtain ⟨name, a⟩ := answer
      obtain ⟨r, hr, hanswer⟩ := of_firstAnswer? hfirst
      obtain rfl := h r hr a hanswer
      simp

theorem isQuiet_of_isSilent (hb : s.blockRules = []) (h : ∀ r ∈ s.lineRules, r.IsSilent b i) :
    IsQuiet s b i := by
  simp [IsQuiet, visit, offerLine_of_isSilent h, hb, offerBlocks]

/-- Without block rules a visit carries out the first answer of the line rules. -/
theorem exists_visit (hb : s.blockRules = []) (hi : i < b.length)
    (hproper : ∀ r ∈ s.lineRules, ∀ a, r.rewrite b i = some a → a.IsProper) :
    ∃ v, visit s b i = .ok v ∧
      ((v.buffer = b ∧ v.next = i + 1 ∧ ∀ r ∈ s.lineRules, r.rewrite b i = none) ∨
        ∃ r ∈ s.lineRules, ∃ a, r.rewrite b i = some a ∧ v.buffer = a.apply b i ∧
          v.next = a.next i) := by
  unfold visit offerLine
  cases hfirst : firstAnswer? s.lineRules b i with
  | none =>
      refine ⟨⟨b, [], i + 1⟩, by simp [hb, offerBlocks], Or.inl ⟨rfl, rfl, ?_⟩⟩
      exact firstAnswer?_eq_none_iff.1 hfirst
  | some answer =>
      obtain ⟨name, a⟩ := answer
      obtain ⟨r, hr, hanswer⟩ := of_firstAnswer? hfirst
      have ha := hproper r hr a hanswer
      cases a with
      | replace l =>
          by_cases hl : l = b.line i
          · refine ⟨⟨b, [], i + 1⟩, by simp [hl, hb, offerBlocks], ?_⟩
            refine Or.inr ⟨r, hr, _, hanswer, ?_, rfl⟩
            rw [hl, Rewrite.apply, Buffer.line_eq_getElem b i hi, List.set_getElem_self]
          · refine ⟨⟨b.set i l, [⟨name, i + 1⟩], i + 1⟩, by simp [hl, hb, offerBlocks], ?_⟩
            exact Or.inr ⟨r, hr, _, hanswer, rfl, rfl⟩
      | delete =>
          refine ⟨⟨b.eraseIdx i, [⟨name, i + 1⟩], i⟩, by simp, ?_⟩
          exact Or.inr ⟨r, hr, _, hanswer, rfl, rfl⟩
      | split parts =>
          have hparts : ¬ parts.length ≤ 1 := by
            have : 2 ≤ parts.length := ha
            omega
          refine ⟨⟨b.take i ++ parts ++ b.drop (i + 1), [⟨name, i + 1⟩], i + parts.length⟩,
            by simp [hparts, hb, offerBlocks], ?_⟩
          exact Or.inr ⟨r, hr, _, hanswer, rfl, rfl⟩

/-- One sweep of a set of line rules settles the document if every answer is proper and keeps the
rules silent on the lines that the walk leaves behind. -/
theorem settlesInOne_of_silentAbove (hb : s.blockRules = [])
    (step : ∀ {b i a} {r : LineRule}, r ∈ s.lineRules → i < b.length → r.rewrite b i = some a →
      a.IsProper ∧ (SilentAbove s b i → SilentAbove s (a.apply b i) (a.next i))) :
    SettlesInOne s := by
  have visits {b : Buffer} {i : Nat} (hi : i < b.length) :=
    exists_visit (s := s) hb hi fun r hr a ha => (step hr hi ha).1
  refine ⟨fun b => ?_, fun {b last edits} h => ?_⟩
  · refine exists_sweepFrom (fun _ _ => True) (fun b i => b.length - i) ?_
      trivial (Nat.le_trans (Nat.sub_le _ _) (length_le_sweepLimit b))
    intro b i hi _
    obtain ⟨v, hv, ⟨hbuffer, hnext, _⟩ | ⟨r, _, a, _, hbuffer, hnext⟩⟩ := visits hi
    · refine ⟨v, hv, trivial, ?_⟩
      rw [hbuffer, hnext]
      omega
    · refine ⟨v, hv, trivial, ?_⟩
      rw [hbuffer, hnext]
      exact a.length_apply_lt hi
  · have preserved {b : Buffer} {i : Nat} {v : Visit} (hi : i < b.length)
        (hinv : SilentAbove s b i) (hvisit : visit s b i = .ok v) :
        SilentAbove s v.buffer v.next := by
      obtain ⟨v', hv', hcases⟩ := visits hi
      cases Except.ok.inj (hvisit.symm.trans hv')
      rcases hcases with ⟨hbuffer, hnext, hnone⟩ | ⟨r, hr, a, ha, hbuffer, hnext⟩
      · rw [hbuffer, hnext]
        apply hinv.succ
        intro r hr answer hanswer
        rw [hnone r hr] at hanswer
        cases hanswer
      · rw [hbuffer, hnext]
        exact (step hr hi ha).2 hinv
    have start : SilentAbove s b 0 := fun j hj => absurd hj (Nat.not_lt_zero j)
    obtain ⟨j, hj, hsilent⟩ := sweepFrom_induction _ preserved start h
    intro i hi
    exact isQuiet_of_isSilent hb (hsilent i (Nat.lt_of_lt_of_le hi hj))

/-- Rules that look upwards stay silent above the rewritten line, so only the lines in its place
matter. -/
theorem settlesInOne_of_looksUp (hb : s.blockRules = []) (hup : ∀ r ∈ s.lineRules, r.LooksUp)
    (step : ∀ {b i a} {r : LineRule}, r ∈ s.lineRules → i < b.length → r.rewrite b i = some a →
      a.IsProper ∧ ∀ j, i ≤ j → j < a.next i → ∀ r' ∈ s.lineRules, r'.IsSilent (a.apply b i) j) :
    SettlesInOne s := by
  apply settlesInOne_of_silentAbove hb
  intro b i a r hr hi ha
  obtain ⟨hproper, hplace⟩ := step hr hi ha
  refine ⟨hproper, fun habove j hj r' hr' => ?_⟩
  rcases Nat.lt_or_ge j i with hji | hij
  · exact (hup r' hr').isSilent_congr (a.take_apply hji hi).symm (habove j hji r' hr')
  · exact hplace j hij hj r' hr'

end Pass

end TaskTidy
