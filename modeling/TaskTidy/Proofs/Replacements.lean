import TaskTidy.Proofs.ExactLog
import TaskTidy.Proofs.Interleaving
import TaskTidy.Proofs.LineSeparation

/-!
# Visits that replace one line

The visits of a set that rewrites lines in place replace one line or none. Two such visits commute
if they name different lines and neither of them answers differently after the other.
-/

namespace TaskTidy

/-- A line that takes the place of the line at an index, and the rule that puts it there. -/
structure Replacement where
  rule : String
  index : Nat
  line : Line

namespace Replacement

/-- The document with the replacement, if there is one. -/
def apply (b : Buffer) : Option Replacement → Buffer
  | none => b
  | some r => b.set r.index r.line

/-- What is logged of the replacement. -/
def logged : Option Replacement → List Edit
  | none => []
  | some r => [⟨r.rule, r.index + 1⟩]

theorem length_apply (b : Buffer) (r? : Option Replacement) : (apply b r?).length = b.length := by
  cases r? with
  | none => rfl
  | some r => exact List.length_set

/-- Replacements of different lines commute. -/
theorem apply_comm {r? r'? : Option Replacement} (b : Buffer)
    (h : ∀ r ∈ r?, ∀ r' ∈ r'?, r.index ≠ r'.index) :
    apply (apply b r?) r'? = apply (apply b r'?) r? := by
  cases r? with
  | none => rfl
  | some r =>
      cases r'? with
      | none => rfl
      | some r' => exact List.set_comm _ _ (h r rfl r' rfl)

end Replacement

namespace Pass

open Replacement

variable {f s t : RuleSet} {rules more : List (String × List Guard × (Line → Option Line))}
  {b c : Buffer} {i j m : Nat} {r? r'? : Option Replacement}

/-- The visit of line `i` makes the replacement and moves on by one line. -/
def Makes (s : RuleSet) (b : Buffer) (i : Nat) (r? : Option Replacement) : Prop :=
  visit s b i = .ok ⟨apply b r?, logged r?, i + 1⟩

theorem Makes.stepAt_eq (h : Makes s b i r?) : stepAt s b i = (apply b r?, logged r?) :=
  stepAt_of_visit h

theorem isSteady_of_makes (h : ∀ {b i}, i < b.length → ∃ r?, Makes s b i r?) : IsSteady s := by
  intro b i hi
  obtain ⟨r?, hr⟩ := h hi
  exact ⟨_, hr, rfl, length_apply b r?⟩

/-- Visits commute if they replace different lines, and each makes its replacement whether the other
has been made or not. -/
theorem commute_of_makes (hs : Makes s c m r?) (ht : Makes t c j r'?)
    (hs' : Makes s (apply c r'?) m r?) (ht' : Makes t (apply c r?) j r'?)
    (hne : ∀ r ∈ r?, ∀ r' ∈ r'?, r.index ≠ r'.index) : Commute s t c m j where
  buffer_eq := by
    rw [hs.stepAt_eq, ht.stepAt_eq, hs'.stepAt_eq, ht'.stepAt_eq, apply_comm c hne]
  left_eq := by rw [hs.stepAt_eq, ht.stepAt_eq, hs'.stepAt_eq]
  right_eq := by rw [hs.stepAt_eq, ht.stepAt_eq, ht'.stepAt_eq]

/-! ### Line rules -/

/-- What the line rules put in the place of a line. An answer that is the line itself is none. -/
def replacement? (rules : List LineRule) (b : Buffer) (i : Nat) : Option Replacement :=
  match firstAnswer? rules b i with
  | some (name, .replace l) => if l = b.line i then none else some ⟨name, i, l⟩
  | _ => none

/-- A replacement is an answer of one of the rules. -/
theorem of_replacement? {rules : List LineRule} {r : Replacement}
    (h : replacement? rules b i = some r) :
    r.index = i ∧ r.line ≠ b.line i ∧ firstAnswer? rules b i = some (r.rule, .replace r.line) := by
  unfold replacement? at h
  split at h
  · next name l hfirst =>
      split at h
      · cases h
      · next hl =>
          cases h
          exact ⟨rfl, hl, hfirst⟩
  · cases h

theorem replacement?_of_firstAnswer?_eq_none {rules : List LineRule}
    (h : firstAnswer? rules b i = none) : replacement? rules b i = none := by
  rw [replacement?, h]

theorem firstAnswer?_append (rules more : List LineRule) (b : Buffer) (i : Nat) :
    firstAnswer? (rules ++ more) b i = (firstAnswer? rules b i).or (firstAnswer? more b i) :=
  List.findSome?_append

namespace Replaces

/-- A visit of rules that write a line in the place of a line makes their replacement. -/
theorem makes (hs : Replaces s rules) (b : Buffer) (i : Nat) :
    Makes s b i (replacement? s.lineRules b i) := by
  rw [Makes, visit_eq_offerLine hs.blockRules_eq, offerLine, replacement?]
  cases hfirst : firstAnswer? s.lineRules b i with
  | none => rfl
  | some answer =>
      obtain ⟨name, a⟩ := answer
      obtain ⟨_, _, l, _, rfl, _⟩ := hs.exists_of_firstAnswer? hfirst
      by_cases hl : l = b.line i
      · simp only [if_pos hl]
        rfl
      · simp only [if_neg hl]
        rfl

theorem isSteady (hs : Replaces s rules) : IsSteady s :=
  isSteady_of_makes fun {b i} _ => ⟨_, hs.makes b i⟩

theorem folded (hs : Replaces s rules) (ht : Replaces t more) :
    Replaces (s.folded t) (rules ++ more) where
  blockRules_eq := by
    rw [RuleSet.blockRules_folded, hs.blockRules_eq, ht.blockRules_eq, List.append_nil]
  lineRules_eq := by
    rw [RuleSet.lineRules_folded, hs.lineRules_eq, ht.lineRules_eq, List.map_append]

/-- A rule that replaces a line answers with another line, and its guards allow it. -/
theorem exists_of_replacement? (hs : Replaces s rules) {r : Replacement}
    (h : replacement? s.lineRules b i = some r) :
    ∃ rule ∈ rules, rule.2.2 (b.line i) = some r.line ∧ ∀ g ∈ rule.2.1, g.allows b i = true := by
  obtain ⟨_, _, hfirst⟩ := of_replacement? h
  obtain ⟨r', hr', l, hl, heq, hguards⟩ := hs.exists_of_firstAnswer? hfirst
  cases heq
  exact ⟨r', hr', hl, hguards⟩

/-- Rules answer alike to one line if their guards do. -/
theorem replacement?_congr (hs : Replaces s rules) (hline : c.line i = b.line i)
    (h : ∀ r ∈ rules, ∀ g ∈ r.2.1, g.allows c i = g.allows b i) :
    replacement? s.lineRules c i = replacement? s.lineRules b i := by
  have hrewrite : ∀ rule ∈ s.lineRules, rule.rewrite c i = rule.rewrite b i := by
    intro rule hrule
    obtain ⟨r, hr, rfl⟩ := hs.exists_of_mem hrule
    have hguards : r.2.1.all (Guard.allows c i) = r.2.1.all (Guard.allows b i) := by
      rw [Bool.eq_iff_iff, List.all_eq_true, List.all_eq_true]
      exact forall₂_congr fun g hg => by rw [h r hr g hg]
    simp only [LineRule.replacing, LineRule.guarded, hline, hguards]
  rw [replacement?, replacement?, firstAnswer?_congr hrewrite, hline]

/-- Rules that look upwards answer alike where the lines down to theirs are the same. -/
theorem replacement?_of_looksUp (hs : Replaces s rules)
    (hup : ∀ r ∈ rules, ∀ g ∈ r.2.1, g.looksUp = true) (h : c.take (i + 1) = b.take (i + 1)) :
    replacement? s.lineRules c i = replacement? s.lineRules b i :=
  hs.replacement?_congr (LineRule.line_congr h) fun r hr g hg =>
    Guard.allows_congr (hup r hr g hg) h

/-- The rules of two sets at once make what the first set and then the second make, if no answer of
the first set gives the line back and the second set has nothing to add to an answer. -/
theorem isBoth (hs : Replaces s rules) (ht : Replaces t more)
    (hnew : ∀ r ∈ rules, ∀ l l' : Line, r.2.2 l = some l' → l' ≠ l)
    (hquiet : ∀ r, replacement? s.lineRules c i = some r →
      replacement? t.lineRules (c.set i r.line) i = none) : IsBoth (s.folded t) s t c i := by
  have hf := (hs.folded ht).makes c i
  have hfirst := hs.makes c i
  cases hanswer : firstAnswer? s.lineRules c i with
  | none =>
      have hsame : replacement? (s.folded t).lineRules c i = replacement? t.lineRules c i := by
        rw [replacement?, RuleSet.lineRules_folded, firstAnswer?_append, hanswer, Option.none_or,
          replacement?]
      rw [replacement?_of_firstAnswer?_eq_none hanswer] at hfirst
      rw [hsame] at hf
      refine ⟨?_, ?_⟩
      · rw [hf.stepAt_eq, hfirst.stepAt_eq, apply, (ht.makes c i).stepAt_eq]
      · rw [hf.stepAt_eq, hfirst.stepAt_eq, apply, (ht.makes c i).stepAt_eq, logged,
          List.length_nil, Nat.zero_add]
  | some answer =>
      obtain ⟨name, a⟩ := answer
      obtain ⟨r, hr, l, hl, rfl, _⟩ := hs.exists_of_firstAnswer? hanswer
      have hne := hnew r hr _ _ hl
      have hone : replacement? s.lineRules c i = some ⟨name, i, l⟩ := by
        rw [replacement?, hanswer]
        exact if_neg hne
      have hboth : replacement? (s.folded t).lineRules c i = some ⟨name, i, l⟩ := by
        rw [replacement?, RuleSet.lineRules_folded, firstAnswer?_append, hanswer, Option.some_or]
        exact if_neg hne
      have hnext := ht.makes (c.set i l) i
      rw [hquiet _ hone] at hnext
      rw [hone] at hfirst
      rw [hboth] at hf
      refine ⟨?_, ?_⟩
      · rw [hf.stepAt_eq, hfirst.stepAt_eq, apply, hnext.stepAt_eq]
        rfl
      · rw [hf.stepAt_eq, hfirst.stepAt_eq, apply, hnext.stepAt_eq]
        rfl

theorem isQuiet_iff (hs : Replaces s rules) (b : Buffer) (i : Nat) :
    IsQuiet s b i ↔ replacement? s.lineRules b i = none := by
  have hmakes := hs.makes b i
  rw [Makes] at hmakes
  rw [IsQuiet, hmakes]
  cases replacement? s.lineRules b i with
  | none => exact iff_of_true rfl rfl
  | some r => exact iff_of_false (by simp [logged]) (by simp)

end Replaces

/-! ### Block rules behind line rules -/

/-- The rules of a set are the line rules of one set and the block rules of another. -/
structure Stacks (f s t : RuleSet) : Prop where
  lineRules_eq : f.lineRules = t.lineRules
  blockRules_eq : f.blockRules = s.blockRules
  lineRules_eq_nil : s.lineRules = []
  blockRules_eq_nil : t.blockRules = []
  isSteady_blocks : IsSteady s
  isSteady_lines : IsSteady t

namespace Stacks

variable (h : Stacks f s t)

include h

/-- A visit is a visit for the line rules and one for the block rules. -/
theorem visit_eq (hi : i < b.length) :
    visit f b i = .ok ⟨(stepAt s (stepAt t b i).1 i).1,
      (stepAt t b i).2 ++ (stepAt s (stepAt t b i).1 i).2, i + 1⟩ := by
  have hlen := IsSteady.length_stepAt h.isSteady_lines hi
  have ht := IsSteady.visit_eq h.isSteady_lines hi
  have hs := IsSteady.visit_eq h.isSteady_blocks (b := (stepAt t b i).1) (i := i) (by rwa [hlen])
  rw [visit_eq_offerLine h.blockRules_eq_nil] at ht
  obtain ⟨hbuffer, hedits, hnext⟩ := Visit.mk.inj (Except.ok.inj ht)
  have hadvance : (offerLine t.lineRules b i).advance? = some 1 := by
    cases ha : (offerLine t.lineRules b i).advance? with
    | none =>
        rw [ha, Option.getD_none] at hnext
        omega
    | some advance =>
        rw [ha, Option.getD_some] at hnext
        rw [Nat.add_left_cancel hnext]
  have hsilent : offerLine [] (stepAt t b i).1 i = ⟨(stepAt t b i).1, [], some 1⟩ := rfl
  unfold visit at hs ⊢
  rw [h.lineRules_eq_nil, hsilent] at hs
  rw [h.lineRules_eq, h.blockRules_eq]
  simp only [hadvance, hbuffer, hedits] at hs ⊢
  split at hs
  · cases hs
  · obtain ⟨hlast, hmore, _⟩ := Visit.mk.inj (Except.ok.inj hs)
    rw [← hlast, ← hmore, List.nil_append]

theorem stepAt_eq (hi : i < b.length) :
    stepAt f b i = ((stepAt s (stepAt t b i).1 i).1,
      (stepAt t b i).2 ++ (stepAt s (stepAt t b i).1 i).2) :=
  stepAt_of_visit (h.visit_eq hi)

theorem isSteady : IsSteady f := by
  intro b i hi
  have hlen := IsSteady.length_stepAt h.isSteady_lines hi
  refine ⟨_, h.visit_eq hi, rfl, ?_⟩
  dsimp only
  rw [IsSteady.length_stepAt h.isSteady_blocks (by rwa [hlen]), hlen]

/-- Where the visits of both sets commute, the block rules may come first. -/
theorem isBoth (hi : i < b.length) (hcomm : Commute s t b i i) : IsBoth f s t b i where
  buffer_eq := by rw [h.stepAt_eq hi, hcomm.buffer_eq]
  length_eq := by
    rw [h.stepAt_eq hi, List.length_append, hcomm.left_eq, hcomm.right_eq, Nat.add_comm]

/-- What both sets leave alone, their rules in one set leave alone. -/
theorem isSettled (hs : IsSettled s b) (ht : IsSettled t b) : IsSettled f b := by
  intro i hi
  have hlines := stepAt_of_isQuiet (ht i hi)
  have hblocks := stepAt_of_isQuiet (hs i hi)
  rw [IsQuiet, h.visit_eq hi, hlines, hblocks]
  rfl

end Stacks

/-! ### Sets that keep apart -/

/-- What two sets of line rules need to keep out of each other's way: both look upwards, neither
answers to what the other has written, and the second set leaves the guards of the first alone. -/
structure KeepApart (rules more : List (String × List Guard × (Line → Option Line))) : Prop where
  looksUp : ∀ r ∈ rules, ∀ g ∈ r.2.1, g.looksUp = true
  looksUp' : ∀ r ∈ more, ∀ g ∈ r.2.1, g.looksUp = true
  ne : ∀ r ∈ rules, ∀ l l' : Line, r.2.2 l = some l' → l' ≠ l
  silent : ∀ r ∈ rules, ∀ r' ∈ more, ∀ l l' : Line, r.2.2 l = some l' → r'.2.2 l' = none
  silent' : ∀ r ∈ rules, ∀ r' ∈ more, ∀ l l' : Line, r'.2.2 l = some l' → r.2.2 l' = none
  allows_set : ∀ r ∈ rules, ∀ g ∈ r.2.1, ∀ r' ∈ more, ∀ {b : Buffer} {i j : Nat} {l : Line},
    i < b.length → j < b.length → r'.2.2 (b.line j) = some l → g.allows (b.set j l) i = g.allows b i

namespace KeepApart

variable (h : KeepApart rules more) (hs : Replaces s rules) (ht : Replaces t more)

include h hs ht

/-- The first set finds the same to do elsewhere after an edit of the second. -/
theorem replacement?_set (hi : i < b.length) (hj : j < b.length) (hij : i ≠ j) {r : Replacement}
    (hr : replacement? t.lineRules b j = some r) :
    replacement? s.lineRules (b.set j r.line) i = replacement? s.lineRules b i := by
  obtain ⟨r', hr', hl, _⟩ := ht.exists_of_replacement? hr
  exact hs.replacement?_congr (Buffer.line_set_of_ne hij r.line) fun r₀ hr₀ g hg =>
    h.allows_set r₀ hr₀ g hg r' hr' hi hj hl

/-- The first set has nothing to do with a line that the second has written. -/
theorem replacement?_set_self (hi : i < b.length) {r : Replacement}
    (hr : replacement? t.lineRules b i = some r) :
    replacement? s.lineRules (b.set i r.line) i = none := by
  obtain ⟨r', hr', hl, _⟩ := ht.exists_of_replacement? hr
  rw [Option.eq_none_iff_forall_ne_some]
  intro r₀ hr₀
  obtain ⟨rule, hrule, hline, _⟩ := hs.exists_of_replacement? hr₀
  rw [Buffer.line_set_self hi, h.silent' rule hrule r' hr' _ _ hl] at hline
  cases hline

/-- The second set has nothing to do with a line that the first has written. -/
theorem replacement?_set_self' (hi : i < b.length) {r : Replacement}
    (hr : replacement? s.lineRules b i = some r) :
    replacement? t.lineRules (b.set i r.line) i = none := by
  obtain ⟨r', hr', hl, _⟩ := hs.exists_of_replacement? hr
  rw [Option.eq_none_iff_forall_ne_some]
  intro r₀ hr₀
  obtain ⟨rule, hrule, hline, _⟩ := ht.exists_of_replacement? hr₀
  rw [Buffer.line_set_self hi, h.silent r' hr' rule hrule _ _ hl] at hline
  cases hline

theorem isBoth (hi : i < b.length) : IsBoth (s.folded t) s t b i :=
  hs.isBoth ht h.ne fun _ hr => h.replacement?_set_self' hs ht hi hr

/-- A visit of the first set commutes with the visits of the second set further up. -/
theorem commute (hm : m < b.length) (hj : j < m) : Commute s t b m j := by
  refine commute_of_makes (hs.makes b m) (ht.makes b j) ?_ ?_ fun r hr r' hr' => ?_
  · cases hr : replacement? t.lineRules b j with
    | none => exact hs.makes b m
    | some r =>
        obtain ⟨hindex, _⟩ := of_replacement? hr
        rw [apply, hindex, ← h.replacement?_set hs ht hm (Nat.lt_trans hj hm) (Nat.ne_of_gt hj) hr]
        exact hs.makes _ m
  · cases hr : replacement? s.lineRules b m with
    | none => exact ht.makes b j
    | some r =>
        obtain ⟨hindex, _⟩ := of_replacement? hr
        rw [apply, hindex, ← ht.replacement?_of_looksUp h.looksUp'
          (List.take_set_of_le (l := b) (a := r.line) hj)]
        exact ht.makes _ j
  · rw [(of_replacement? hr).1, (of_replacement? hr').1]
    exact Nat.ne_of_gt hj

/-- What the first set has settled stays settled while the second set walks over it. -/
theorem isSettled_of_sweep (hb : IsSettled s b) {edits : List Edit}
    (hsweep : sweep sweepLimit t b = .ok (c, edits)) : IsSettled s c := by
  have step {b : Buffer} {j : Nat} {v : Visit} (hj : j < b.length) (hb : IsSettled s b)
      (hv : visit t b j = .ok v) : IsSettled s v.buffer := by
    obtain rfl := Except.ok.inj (hv.symm.trans (ht.makes b j))
    cases hr : replacement? t.lineRules b j with
    | none => exact hb
    | some r =>
        obtain ⟨hindex, _⟩ := of_replacement? hr
        rw [apply, hindex]
        intro i hi
        rw [List.length_set] at hi
        have hquiet := (hs.isQuiet_iff b i).1 (hb i hi)
        rw [hs.isQuiet_iff]
        by_cases hij : i = j
        · subst hij
          exact h.replacement?_set_self hs ht hi hr
        · rw [h.replacement?_set hs ht hi hj hij hr, hquiet]
  obtain ⟨_, _, hc⟩ := sweepFrom_induction (fun b _ => IsSettled s b) step hb hsweep
  exact hc

/-- Sets of line rules that keep out of each other's way may be run one after the other or at
once. -/
theorem exists_folded (hends : s.endsWithNewline = false) (hends' : t.endsWithNewline = false)
    (hone : SettlesInOne s) (hone' : SettlesInOne t) (d : Document) :
    ∃ one both, d.applySets [s, t] = .ok one ∧ d.applyPass (s.folded t) = .ok both ∧
      both.document = one.document ∧ both.applied.length = one.applied.length := by
  have hlen {m j : Nat} (hm : m ≤ d.lines.length) (hj : j ≤ d.lines.length) :
      (walk t (walk s d.lines m).1 j).1.length = d.lines.length := by
    have hfirst := IsSteady.length_walk hs.isSteady hm
    rw [IsSteady.length_walk ht.isSteady (by rwa [hfirst]), hfirst]
  refine Document.exists_folded (hs.folded ht).isSteady hs.isSteady ht.isSteady
    ⟨rfl, hends, hends'⟩ hone hone' (fun m hm => ?_) (fun m hm j hj => ?_)
    fun {c edits} hb hsweep hc => ?_
  · have hm' := Nat.le_of_lt hm
    exact h.isBoth hs ht (by rwa [hlen hm' hm'])
  · exact h.commute hs ht (by rwa [hlen (Nat.le_of_lt hm) (by omega)]) hj
  · exact isSettled_of_isBoth (hs.folded ht).isSteady (fun i hi => h.isBoth hs ht hi)
      (h.isSettled_of_sweep hs ht hb hsweep) hc

end KeepApart

end Pass

end TaskTidy
