import TaskTidy.Proofs.Settling

/-!
# Two rule sets at once

A set that holds the rules of two sets visits each line for both of them, while one set after the
other visits all lines for the first set and then all lines for the second. Both ways lead to the
same document if the visits of the first set commute with the visits of the second set further up.
-/

namespace TaskTidy

/-- The rules of two sets in one set, those of the first set in front. -/
def RuleSet.folded (s t : RuleSet) : RuleSet :=
  .ofRules "folded" "" (s.rules ++ t.rules)

theorem RuleSet.lineRules_folded (s t : RuleSet) :
    (s.folded t).lineRules = s.lineRules ++ t.lineRules :=
  List.filterMap_append

theorem RuleSet.blockRules_folded (s t : RuleSet) :
    (s.folded t).blockRules = s.blockRules ++ t.blockRules :=
  List.filterMap_append

namespace Pass

/-- Every visit of the set keeps the number of lines and moves on by one line. -/
def IsSteady (s : RuleSet) : Prop :=
  ∀ {b : Buffer} {i : Nat}, i < b.length →
    ∃ v, visit s b i = .ok v ∧ v.next = i + 1 ∧ v.buffer.length = b.length

/-- The document and the edits that the visit of a line leaves. -/
def stepAt (s : RuleSet) (b : Buffer) (i : Nat) : Buffer × List Edit :=
  match visit s b i with
  | .ok v => (v.buffer, v.edits)
  | .error _ => (b, [])

/-- The document and the log after the visits of the first `n` lines. -/
def walk (s : RuleSet) (b : Buffer) : Nat → Buffer × List Edit
  | 0 => (b, [])
  | n + 1 =>
      ((stepAt s (walk s b n).1 n).1, (walk s b n).2 ++ (stepAt s (walk s b n).1 n).2)

variable {f s t : RuleSet} {b c : Buffer} {i j m n : Nat}

theorem stepAt_of_visit {v : Visit} (h : visit s b i = .ok v) :
    stepAt s b i = (v.buffer, v.edits) := by
  rw [stepAt, h]

theorem stepAt_of_isQuiet (h : IsQuiet s b i) : stepAt s b i = (b, []) :=
  stepAt_of_visit h

namespace IsSteady

theorem visit_eq (hs : IsSteady s) (hi : i < b.length) :
    visit s b i = .ok ⟨(stepAt s b i).1, (stepAt s b i).2, i + 1⟩ := by
  obtain ⟨v, hv, hnext, _⟩ := hs hi
  rw [stepAt_of_visit hv, hv, ← hnext]

theorem length_stepAt (hs : IsSteady s) (hi : i < b.length) :
    (stepAt s b i).1.length = b.length := by
  obtain ⟨v, hv, _, hlen⟩ := hs hi
  rw [stepAt_of_visit hv, hlen]

theorem isQuiet_iff (hs : IsSteady s) (hi : i < b.length) :
    IsQuiet s b i ↔ stepAt s b i = (b, []) := by
  refine ⟨stepAt_of_isQuiet, fun h => ?_⟩
  rw [IsQuiet, hs.visit_eq hi, h]

theorem length_walk (hs : IsSteady s) (hn : n ≤ b.length) :
    (walk s b n).1.length = b.length := by
  induction n with
  | zero => rfl
  | succ n ih =>
      have hlen := ih (Nat.le_of_succ_le hn)
      rw [walk, hs.length_stepAt (by omega), hlen]

/-- The rest of a walk is a sweep from the line that the walk has come to. -/
theorem exists_sweepFrom_walk (hs : IsSteady s) {fuel : Nat} (hn : n ≤ b.length)
    (hf : b.length ≤ n + fuel) :
    ∃ rest, sweepFrom s fuel (walk s b n).1 n = .ok ((walk s b b.length).1, rest) ∧
      (walk s b b.length).2 = (walk s b n).2 ++ rest := by
  induction fuel generalizing n with
  | zero =>
      obtain rfl : n = b.length := by omega
      exact ⟨[], sweepFrom_of_length_le (Nat.le_of_eq (hs.length_walk hn)) 0,
        (List.append_nil _).symm⟩
  | succ fuel ih =>
      have hlen := hs.length_walk hn
      rcases Nat.eq_or_lt_of_le hn with rfl | hlt
      · exact ⟨[], sweepFrom_of_length_le (Nat.le_of_eq hlen) _, (List.append_nil _).symm⟩
      · obtain ⟨rest, hrest, hlog⟩ := ih (n := n + 1) hlt (by omega)
        have hi : n < (walk s b n).1.length := hlen ▸ hlt
        refine ⟨_, sweepFrom_succ hi (hs.visit_eq hi) hrest, ?_⟩
        rw [hlog, walk, List.append_assoc]

theorem sweep_eq (hs : IsSteady s) (b : Buffer) :
    sweep sweepLimit s b = .ok (walk s b b.length) := by
  have hfuel : b.length ≤ 0 + sweepLimit b := by
    rw [Nat.zero_add]
    exact length_le_sweepLimit b
  obtain ⟨rest, hsweep, hlog⟩ := hs.exists_sweepFrom_walk (Nat.zero_le _) hfuel
  obtain rfl : (walk s b b.length).2 = rest := hlog
  exact hsweep

/-- A pass whose first walk settles the document is that walk. -/
theorem settle_eq (hs : IsSteady s) (h : IsSettled s (walk s b b.length).1) :
    settle sweepLimit s maxSweeps b = .ok (walk s b b.length) := by
  have hquiet := sweep_eq_self_iff.2 ⟨h, length_le_sweepLimit (walk s b b.length).1⟩
  have hagain : settle sweepLimit s 3 (walk s b b.length).1 = .ok ((walk s b b.length).1, []) :=
    settle_of_sweep hquiet
  rw [maxSweeps, settle, hs.sweep_eq b]
  simp only [hagain, List.append_nil]
  split
  · next hnil => rw [← List.isEmpty_iff.1 hnil]
  · rfl

end IsSteady

/-- The visits of line `m` by one set and of line `j` by another may change places: they lead to the
same document, and each of them makes the edits that it makes without the other. -/
structure Commute (s t : RuleSet) (c : Buffer) (m j : Nat) : Prop where
  buffer_eq : (stepAt t (stepAt s c m).1 j).1 = (stepAt s (stepAt t c j).1 m).1
  left_eq : (stepAt s (stepAt t c j).1 m).2 = (stepAt s c m).2
  right_eq : (stepAt t (stepAt s c m).1 j).2 = (stepAt t c j).2

/-- The visit of a line by one set is its visit by two others, one after the other. -/
structure IsBoth (f s t : RuleSet) (c : Buffer) (i : Nat) : Prop where
  buffer_eq : (stepAt f c i).1 = (stepAt t (stepAt s c i).1 i).1
  length_eq : (stepAt f c i).2.length =
    (stepAt s c i).2.length + (stepAt t (stepAt s c i).1 i).2.length

/-- A visit that commutes with all visits of a walk may be made in front of it or behind it. -/
theorem walk_stepAt (h : ∀ j < n, Commute s t (walk t c j).1 m j) :
    walk t (stepAt s c m).1 n = ((stepAt s (walk t c n).1 m).1, (walk t c n).2) ∧
      (stepAt s (walk t c n).1 m).2 = (stepAt s c m).2 := by
  induction n with
  | zero => exact ⟨rfl, rfl⟩
  | succ n ih =>
      obtain ⟨hwalk, hedits⟩ := ih fun j hj => h j (Nat.lt_succ_of_lt hj)
      have hn := h n (Nat.lt_succ_self n)
      rw [walk, hwalk, hn.buffer_eq, hn.right_eq]
      exact ⟨rfl, hn.left_eq.trans hedits⟩

/-- The walk of both sets at once leads where the walk of the first set and then that of the second
lead, with as many edits. -/
theorem walk_both (hboth : ∀ m < n, IsBoth f s t (walk t (walk s b m).1 m).1 m)
    (hcomm : ∀ m < n, ∀ j < m, Commute s t (walk t (walk s b m).1 j).1 m j) :
    (walk f b n).1 = (walk t (walk s b n).1 n).1 ∧
      (walk f b n).2.length = (walk s b n).2.length + (walk t (walk s b n).1 n).2.length := by
  induction n with
  | zero => exact ⟨rfl, rfl⟩
  | succ n ih =>
      obtain ⟨hbuffer, hlength⟩ := ih (fun m hm => hboth m (Nat.lt_succ_of_lt hm))
        fun m hm => hcomm m (Nat.lt_succ_of_lt hm)
      obtain ⟨hwalk, hedits⟩ := walk_stepAt (hcomm n (Nat.lt_succ_self n))
      have hn := hboth n (Nat.lt_succ_self n)
      have hnext : walk t (walk s b (n + 1)).1 n =
          ((stepAt s (walk t (walk s b n).1 n).1 n).1, (walk t (walk s b n).1 n).2) := hwalk
      constructor
      · rw [walk, hbuffer, hn.buffer_eq, walk, hnext]
      · have hlast : (walk t (walk s b (n + 1)).1 (n + 1)).2 = (walk t (walk s b n).1 n).2 ++
            (stepAt t (stepAt s (walk t (walk s b n).1 n).1 n).1 n).2 := by
          rw [walk, hnext]
        have hfirst : (walk s b (n + 1)).2 =
            (walk s b n).2 ++ (stepAt s (walk t (walk s b n).1 n).1 n).2 := by
          rw [walk, hedits]
        rw [hlast, hfirst, walk, hbuffer]
        simp only [List.length_append, hlength, hn.length_eq]
        omega

/-- What neither of two sets edits, their rules in one set do not edit. -/
theorem isSettled_of_isBoth (hf : IsSteady f) (hboth : ∀ i < b.length, IsBoth f s t b i)
    (hs : IsSettled s b) (ht : IsSettled t b) : IsSettled f b := by
  intro i hi
  have hsi := stepAt_of_isQuiet (hs i hi)
  have hti := stepAt_of_isQuiet (ht i hi)
  have hi' := hboth i hi
  have hbuffer := hi'.buffer_eq
  have hlength := hi'.length_eq
  simp only [hsi, hti, List.length_nil] at hbuffer hlength
  rw [hf.isQuiet_iff hi]
  exact Prod.ext hbuffer (List.length_eq_zero_iff.1 hlength)

end Pass

namespace Document

open Pass

variable {s : RuleSet} {d : Document}

/-- A pass whose first walk settles the document gives the lines and the log of that walk. -/
theorem applyPass_eq_walk (hs : IsSteady s) (hend : s.endsWithNewline = false)
    (h : IsSettled s (walk s d.lines d.lines.length).1) :
    ∃ outcome, d.applyPass s = .ok outcome ∧
      outcome.document = d.withLines (walk s d.lines d.lines.length).1 d.finalNewline ∧
      outcome.applied.length = (walk s d.lines d.lines.length).2.length :=
  exists_applyPass_of_settle hend (hs.settle_eq h)

/-- Two sets one after the other and their rules in one set give the same document with as many
edits, if the visits commute and the document that the sets settle one after the other is settled
for both at once. -/
theorem exists_folded {f t : RuleSet} (hf : IsSteady f) (hs : IsSteady s) (ht : IsSteady t)
    (hends : f.endsWithNewline = false ∧ s.endsWithNewline = false ∧ t.endsWithNewline = false)
    (hone : SettlesInOne s) (hone' : SettlesInOne t)
    (hboth : ∀ m < d.lines.length, IsBoth f s t (walk t (walk s d.lines m).1 m).1 m)
    (hcomm : ∀ m < d.lines.length, ∀ j < m, Commute s t (walk t (walk s d.lines m).1 j).1 m j)
    (hsettled : ∀ {c : Buffer} {edits : List Edit}, IsSettled s (walk s d.lines d.lines.length).1 →
      sweep sweepLimit t (walk s d.lines d.lines.length).1 = .ok (c, edits) → IsSettled t c →
        IsSettled f c) :
    ∃ one both, d.applySets [s, t] = .ok one ∧ d.applyPass f = .ok both ∧
      both.document = one.document ∧ both.applied.length = one.applied.length := by
  obtain ⟨hendf, hends, hendt⟩ := hends
  have hfirst := hone.isSettled (hs.sweep_eq d.lines)
  obtain ⟨first, hpass, hdocument, hlength⟩ := applyPass_eq_walk hs hends hfirst
  have hlen := hs.length_walk (Nat.le_refl d.lines.length)
  have hlines : first.document.lines = (walk s d.lines d.lines.length).1 := by
    rw [hdocument, withLines_lines]
  have hsweep := ht.sweep_eq (walk s d.lines d.lines.length).1
  have hsecond := hone'.isSettled hsweep
  rw [hlen] at hsweep hsecond
  obtain ⟨second, hpass', hdocument', hlength'⟩ :=
    applyPass_eq_walk (d := first.document) ht hendt (by rwa [hlines, hlen])
  rw [hlines, hlen] at hdocument' hlength'
  obtain ⟨hbuffer, hedits⟩ := walk_both hboth hcomm
  have hlast : IsSettled f (walk f d.lines d.lines.length).1 := by
    rw [hbuffer]
    exact hsettled hfirst hsweep hsecond
  obtain ⟨both, hpassf, hdocumentf, hlengthf⟩ := applyPass_eq_walk hf hendf hlast
  refine ⟨⟨second.document, second.document != d, first.applied ++ (second.applied ++ [])⟩, both,
    ?_, hpassf, ?_, ?_⟩
  · simp only [applySets, applyEach, hpass, hpass']
  · rw [hdocumentf, hdocument', hbuffer, hdocument]
    rfl
  · rw [hlengthf, hedits, List.length_append, List.append_nil, hlength, hlength']

end Document

end TaskTidy
