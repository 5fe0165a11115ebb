import TaskTidy.Proofs.Interleaving
import TaskTidy.Proofs.Separation

/-!
# Walks

A sweep is a walk over the lines of a document. What holds of every line that is visited, at the
time of the visit, is said beside the walk, so that a walk can be taken apart and put together from
others.
-/

namespace TaskTidy.Pass

variable {s t : RuleSet} {P : Buffer → Nat → Prop} {b last last' : Buffer} {i n : Nat}

/-- The documents and lines that a walk from line `i` visits. -/
def visits (s : RuleSet) : Nat → Buffer → Nat → List (Buffer × Nat)
  | 0, _, _ => []
  | fuel + 1, b, i =>
      if i < b.length then
        (b, i) :: match visit s b i with
          | .error _ => []
          | .ok v => visits s fuel v.buffer v.next
      else []

/-- The documents and lines that the first `n` sweeps of a pass visit. -/
def passVisits (s : RuleSet) : Nat → Buffer → List (Buffer × Nat)
  | 0, _ => []
  | n + 1, b =>
      visits s (sweepLimit b) b 0 ++ match sweep sweepLimit s b with
        | .error _ => []
        | .ok (next, _) => passVisits s n next

theorem passVisits_succ {next : Buffer} {edits : List Edit}
    (h : sweep sweepLimit s b = .ok (next, edits)) :
    passVisits s (n + 1) b = visits s (sweepLimit b) b 0 ++ passVisits s n next := by
  simp only [passVisits, h]

/-- The set walks from line `i` of `b` past the last line and leaves `last`, and `P` holds at every
line that it visits. -/
inductive Walks (s : RuleSet) (P : Buffer → Nat → Prop) : Buffer → Nat → Buffer → Prop
  | done {b : Buffer} {i : Nat} (h : b.length ≤ i) : Walks s P b i b
  | step {b last : Buffer} {i : Nat} {v : Visit} (hi : i < b.length) (hP : P b i)
      (hv : visit s b i = .ok v) (h : Walks s P v.buffer v.next last) : Walks s P b i last

theorem walks_of_sweepFrom {fuel : Nat} {edits : List Edit}
    (h : sweepFrom s fuel b i = .ok (last, edits))
    (hP : ∀ v ∈ visits s fuel b i, P v.1 v.2) : Walks s P b i last := by
  induction fuel generalizing b i edits with
  | zero =>
      rcases of_sweepFrom h with ⟨hend, rfl, _⟩ | ⟨_, _, _, hfuel, _⟩
      · exact .done hend
      · cases hfuel
  | succ fuel ih =>
      rcases of_sweepFrom h with ⟨hend, rfl, _⟩ | ⟨fuel', v, rest, hfuel, hi, hv, hrest, _⟩
      · exact .done hend
      · obtain rfl := Nat.succ.inj hfuel
        simp only [visits, if_pos hi, hv, List.mem_cons, forall_eq_or_imp] at hP
        exact .step hi hP.1 hv (ih hrest hP.2)

namespace Walks

theorem exists_sweepFrom (h : Walks s P b i last) :
    ∃ fuel edits, sweepFrom s fuel b i = .ok (last, edits) := by
  induction h with
  | done hend => exact ⟨0, [], sweepFrom_of_length_le hend 0⟩
  | step hi _ hv _ ih =>
      obtain ⟨fuel, edits, hrest⟩ := ih
      exact ⟨fuel + 1, _, sweepFrom_succ hi hv hrest⟩

/-- The sweep of a document is the walk over it. -/
theorem eq_of_sweep (h : Walks s P b 0 last) {edits : List Edit}
    (hsweep : sweep sweepLimit s b = .ok (last', edits)) : last' = last := by
  obtain ⟨fuel, edits', hwalk⟩ := h.exists_sweepFrom
  cases sweepFrom_unique hsweep hwalk
  rfl

/-- What every visit with `P` preserves holds when the walk has passed the last line. -/
theorem induction (h : Walks s P b i last) (inv : Buffer → Nat → Prop)
    (step : ∀ {b i v}, i < b.length → P b i → inv b i → visit s b i = .ok v →
      inv v.buffer v.next) (start : inv b i) : ∃ n, last.length ≤ n ∧ inv last n := by
  induction h with
  | done hend => exact ⟨_, hend, start⟩
  | step hi hP hv _ ih => exact ih (step hi hP start hv)

/-- A walk goes past lines whose visits are quiet. -/
theorem of_isQuiet (h : Walks s P b i last) (hin : i ≤ n) (hn : n ≤ b.length)
    (hquiet : ∀ j, i ≤ j → j < n → IsQuiet s b j) : Walks s P b n last := by
  induction h with
  | done hend =>
      obtain rfl := Nat.le_antisymm hn (Nat.le_trans hend hin)
      exact .done (Nat.le_refl _)
  | @step b last i v hi hP hv hrest ih =>
      rcases Nat.eq_or_lt_of_le hin with rfl | hlt
      · exact .step hi hP hv hrest
      · obtain rfl := Except.ok.inj (hv.symm.trans (hquiet i (Nat.le_refl i) hlt))
        exact ih hlt hn fun j hij => hquiet j (Nat.le_of_succ_le hij)

/-- A walk that starts further down starts above lines whose visits are quiet as well. -/
theorem isQuiet_append (h : Walks s P b n last) (hin : i ≤ n) (hn : n ≤ b.length)
    (hquiet : ∀ j, i ≤ j → j < n → IsQuiet s b j ∧ P b j) : Walks s P b i last := by
  induction n with
  | zero =>
      obtain rfl := Nat.le_zero.1 hin
      exact h
  | succ n ih =>
      rcases Nat.eq_or_lt_of_le hin with rfl | hlt
      · exact h
      · obtain ⟨hq, hP⟩ := hquiet n (Nat.lt_succ_iff.1 hlt) (Nat.lt_succ_self n)
        exact ih (.step hn hP hq h) (Nat.lt_succ_iff.1 hlt) (Nat.le_of_succ_le hn)
          fun j hij hj => hquiet j hij (Nat.lt_succ_of_lt hj)

end Walks

/-- A pass leaves what two sweeps settle. -/
theorem exists_settle_of_sweeps {first : Buffer} {edits more : List Edit}
    (hfirst : sweep sweepLimit s b = .ok (first, edits))
    (hlast : sweep sweepLimit s first = .ok (last, more)) (hsettled : IsSettled s last) :
    ∃ log, settle sweepLimit s maxSweeps b = .ok (last, log) := by
  have hquiet := sweep_eq_self_iff.2 ⟨hsettled, length_le_sweepLimit last⟩
  have hend (n : Nat) : settle sweepLimit s (n + 1) last = .ok (last, []) := settle_of_sweep hquiet
  obtain ⟨⟨lines, log⟩, hsettle⟩ : ∃ result, settle sweepLimit s maxSweeps b = .ok result :=
    exists_settle_succ hfirst (exists_settle_succ hlast ⟨_, hend 1⟩)
  obtain ⟨_, _, hfirst'⟩ := exists_settle_of_sweep hsettle hfirst
  obtain ⟨n, _, hlast'⟩ := exists_settle_of_sweep hfirst' hlast
  cases n with
  | zero => cases hlast'
  | succ n =>
      cases Except.ok.inj ((hend n).symm.trans hlast')
      exact ⟨log, hsettle⟩

/-! ### Block rules of two sets -/

theorem offerBlocks_append {rules more : List BlockRule} {next : Buffer} {edits rest : List Edit}
    (h : offerBlocks rules b i = .ok (next, edits))
    (hmore : offerBlocks more next i = .ok (last, rest)) :
    offerBlocks (rules ++ more) b i = .ok (last, edits ++ rest) := by
  induction rules generalizing b edits with
  | nil =>
      cases h
      exact hmore
  | cons rule rules ih =>
      unfold offerBlocks at h
      split at h
      · cases h
      · next first hrule =>
          split at h
          · cases h
          · next hrules =>
              cases h
              rw [List.cons_append, offerBlocks, hrule]
              simp only [ih hrules, List.append_assoc]

theorem visit_of_lineRules_eq_nil (hs : s.lineRules = []) {v : Visit}
    (h : visit s b i = .ok v) :
    offerBlocks s.blockRules b i = .ok (v.buffer, v.edits) ∧ v.next = i + 1 := by
  simp only [visit, offerLine, firstAnswer?, hs, List.findSome?_nil, List.nil_append] at h
  split at h
  · cases h
  · next hblocks =>
      cases h
      exact ⟨hblocks, rfl⟩

/-- The rules of two sets without line rules visit a line for the first set and then for the
second. -/
theorem visit_folded (hs : s.lineRules = []) (ht : t.lineRules = []) {v w : Visit}
    (hv : visit s b i = .ok v) (hw : visit t v.buffer i = .ok w) :
    visit (s.folded t) b i = .ok ⟨w.buffer, v.edits ++ w.edits, i + 1⟩ := by
  have hblocks := offerBlocks_append (visit_of_lineRules_eq_nil hs hv).1
    (visit_of_lineRules_eq_nil ht hw).1
  rw [← RuleSet.blockRules_folded] at hblocks
  have hlines : (s.folded t).lineRules = [] := by
    rw [RuleSet.lineRules_folded, hs, ht, List.append_nil]
  simp [visit, offerLine, firstAnswer?, hlines, hblocks]

/-- A document that neither of two sets edits is not edited by both at once. -/
theorem isSettled_folded (hs : s.lineRules = []) (ht : t.lineRules = []) (hbs : IsSettled s b)
    (hbt : IsSettled t b) : IsSettled (s.folded t) b :=
  fun i hi => visit_folded hs ht (hbs i hi) (hbt i hi)

end TaskTidy.Pass
