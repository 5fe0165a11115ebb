import TaskTidy.Proofs.Settling

/-!
# Documents in two parts

If no visit of one part of a document looks at the other part, then a sweep over the document is a
sweep over each part, one after the other. The parts need not settle in the same number of sweeps: a
part that has settled stays as it is while the other is swept again.
-/

namespace TaskTidy

/-- The edit of a document with `n` lines above it. -/
def Edit.lower (n : Nat) (e : Edit) : Edit :=
  ⟨e.rule, n + e.line⟩

namespace Pass

variable {s : RuleSet} {apart : Buffer → Buffer → Prop} {b c : Buffer} {i : Nat}

/-- The set visits two parts of a document as if each were alone, and a visit of one part leaves the
parts apart. -/
structure Separates (s : RuleSet) (apart : Buffer → Buffer → Prop) : Prop where
  upper : ∀ {b c i v}, apart b c → i < b.length → visit s b i = .ok v →
    visit s (b ++ c) i = .ok ⟨v.buffer ++ c, v.edits, v.next⟩ ∧
      v.next ≤ v.buffer.length ∧ apart v.buffer c
  lower : ∀ {b c i v}, apart b c → i < c.length → visit s c i = .ok v →
    visit s (b ++ c) (b.length + i) =
      .ok ⟨b ++ v.buffer, v.edits.map (Edit.lower b.length), b.length + v.next⟩ ∧
      apart b v.buffer

/-- A walk that ends within its fuel ends in the same way with more. -/
theorem sweepFrom_add {fuel : Nat} {last : Buffer} {edits : List Edit}
    (h : sweepFrom s fuel b i = .ok (last, edits)) (more : Nat) :
    sweepFrom s (fuel + more) b i = .ok (last, edits) := by
  induction fuel generalizing b i edits with
  | zero =>
      rcases of_sweepFrom h with ⟨hend, rfl, rfl⟩ | ⟨_, _, _, hfuel, _⟩
      · exact sweepFrom_of_length_le hend _
      · cases hfuel
  | succ fuel ih =>
      rcases of_sweepFrom h with ⟨hend, rfl, rfl⟩ | ⟨_, v, rest, hfuel, hi, hv, hrest, rfl⟩
      · exact sweepFrom_of_length_le hend _
      · obtain rfl := Nat.succ.inj hfuel
        rw [Nat.succ_add]
        exact sweepFrom_succ hi hv (ih hrest)

/-- Two walks that both end give the same result. -/
theorem sweepFrom_unique {fuel fuel' : Nat} {result result' : Buffer × List Edit}
    (h : sweepFrom s fuel b i = .ok result) (h' : sweepFrom s fuel' b i = .ok result') :
    result = result' := by
  have hadd := sweepFrom_add h fuel'
  rw [Nat.add_comm, sweepFrom_add h' fuel] at hadd
  exact Except.ok.inj hadd.symm

/-- What the first sweep of a pass leaves settles to the same lines. -/
theorem exists_settle_of_sweep {n : Nat} {next last : Buffer} {edits first : List Edit}
    (h : settle sweepLimit s n b = .ok (last, edits))
    (hsweep : sweep sweepLimit s b = .ok (next, first)) :
    ∃ n' more, settle sweepLimit s n' next = .ok (last, more) := by
  obtain ⟨next', first', hsweep', hcases⟩ := of_settle h
  cases Except.ok.inj (hsweep.symm.trans hsweep')
  rcases hcases with ⟨rfl, rfl, rfl⟩ | ⟨n', more, _, _, hmore, _⟩
  · obtain rfl := eq_of_sweep_of_edits_eq_nil hsweep
    exact ⟨n, [], h⟩
  · exact ⟨n', more, hmore⟩

namespace Separates

variable (hs : Separates s apart)

include hs

/-- A walk over the lower part leaves the upper part. -/
theorem sweepFrom_lower {fuel : Nat} {last : Buffer} {edits : List Edit} (hb : apart b c)
    (h : sweepFrom s fuel c i = .ok (last, edits)) :
    sweepFrom s fuel (b ++ c) (b.length + i) =
        .ok (b ++ last, edits.map (Edit.lower b.length)) ∧
      apart b last := by
  have at_end {c : Buffer} {i : Nat} (hend : c.length ≤ i) (fuel : Nat) :
      sweepFrom s fuel (b ++ c) (b.length + i) = .ok (b ++ c, []) := by
    apply sweepFrom_of_length_le
    rw [List.length_append]
    omega
  induction fuel generalizing c i edits with
  | zero =>
      rcases of_sweepFrom h with ⟨hend, rfl, rfl⟩ | ⟨_, _, _, hfuel, _⟩
      · exact ⟨at_end hend 0, hb⟩
      · cases hfuel
  | succ fuel ih =>
      rcases of_sweepFrom h with ⟨hend, rfl, rfl⟩ | ⟨_, v, rest, hfuel, hi, hv, hrest, rfl⟩
      · exact ⟨at_end hend _, hb⟩
      · obtain rfl := Nat.succ.inj hfuel
        obtain ⟨hvisit, hapart⟩ := hs.lower hb hi hv
        obtain ⟨hbelow, hlast⟩ := ih hapart hrest
        rw [List.map_append]
        refine ⟨sweepFrom_succ ?_ hvisit hbelow, hlast⟩
        rw [List.length_append]
        omega

/-- A walk over the upper part goes on with the lower part. The edits of the lower part have those
lines above them that the walk has left there. -/
theorem sweepFrom_append {fuel fuel' : Nat} {upper lower : Buffer} {edits edits' : List Edit}
    (hb : apart b c) (hi : i ≤ b.length) (h : sweepFrom s fuel b i = .ok (upper, edits))
    (h' : sweepFrom s fuel' c 0 = .ok (lower, edits')) :
    sweepFrom s (fuel + fuel') (b ++ c) i =
        .ok (upper ++ lower, edits ++ edits'.map (Edit.lower upper.length)) ∧
      apart upper lower := by
  have at_end {b : Buffer} (hb : apart b c) (fuel : Nat) :
      sweepFrom s (fuel + fuel') (b ++ c) b.length =
          .ok (b ++ lower, edits'.map (Edit.lower b.length)) ∧ apart b lower := by
    obtain ⟨hbelow, hlast⟩ := hs.sweepFrom_lower hb h'
    rw [Nat.add_comm]
    exact ⟨sweepFrom_add hbelow fuel, hlast⟩
  induction fuel generalizing b i edits with
  | zero =>
      rcases of_sweepFrom h with ⟨hend, rfl, rfl⟩ | ⟨_, _, _, hfuel, _⟩
      · obtain rfl := Nat.le_antisymm hi hend
        exact at_end hb 0
      · cases hfuel
  | succ fuel ih =>
      rcases of_sweepFrom h with ⟨hend, rfl, rfl⟩ | ⟨_, v, rest, hfuel, hlt, hv, hrest, rfl⟩
      · obtain rfl := Nat.le_antisymm hi hend
        exact at_end hb (fuel + 1)
      · obtain rfl := Nat.succ.inj hfuel
        obtain ⟨hvisit, hnext, hapart⟩ := hs.upper hb hlt hv
        obtain ⟨hmore, hlast⟩ := ih hapart hnext hrest
        rw [Nat.succ_add, List.append_assoc]
        refine ⟨sweepFrom_succ (v := ⟨v.buffer ++ c, v.edits, v.next⟩) ?_ hvisit hmore, hlast⟩
        rw [List.length_append]
        omega

/-- A sweep over the document is a sweep over the parts, and leaves the parts apart. -/
theorem sweep_append {upper lower : Buffer} {edits edits' : List Edit} (hb : apart b c)
    (hsweep : ∃ result, sweep sweepLimit s (b ++ c) = .ok result)
    (h : sweep sweepLimit s b = .ok (upper, edits))
    (h' : sweep sweepLimit s c = .ok (lower, edits')) :
    sweep sweepLimit s (b ++ c) =
        .ok (upper ++ lower, edits ++ edits'.map (Edit.lower upper.length)) ∧
      apart upper lower := by
  obtain ⟨result, hresult⟩ := hsweep
  obtain ⟨hboth, hlast⟩ := hs.sweepFrom_append hb (Nat.zero_le _) h h'
  rw [hresult, sweepFrom_unique hresult hboth]
  exact ⟨rfl, hlast⟩

/-- The lines that a pass gives are those that it gives for the parts. -/
theorem settle_append {n m k : Nat} {upper lower last : Buffer} {edits edits' all : List Edit}
    (hb : apart b c) (h : settle sweepLimit s n b = .ok (upper, edits))
    (h' : settle sweepLimit s m c = .ok (lower, edits'))
    (hboth : settle sweepLimit s k (b ++ c) = .ok (last, all)) : last = upper ++ lower := by
  induction k generalizing n m b c edits edits' all with
  | zero => cases hboth
  | succ k ih =>
      obtain ⟨next, first, hnext, hcases⟩ := of_settle hboth
      obtain ⟨b', first', hb', hcases'⟩ := of_settle h
      obtain ⟨c', first'', hc', hcases''⟩ := of_settle h'
      obtain ⟨hsweep, hapart⟩ := hs.sweep_append hb ⟨_, hnext⟩ hb' hc'
      cases Except.ok.inj (hnext.symm.trans hsweep)
      rcases hcases with ⟨hnil, rfl, rfl⟩ | ⟨k', more, hk, _, hmore, rfl⟩
      · simp only [List.append_eq_nil_iff, List.map_eq_nil_iff] at hnil
        obtain ⟨rfl, rfl⟩ := hnil
        rcases hcases' with ⟨_, rfl, _⟩ | ⟨_, _, _, hne, _⟩
        · rcases hcases'' with ⟨_, rfl, _⟩ | ⟨_, _, _, hne, _⟩
          · rfl
          · exact absurd rfl hne
        · exact absurd rfl hne
      · obtain rfl := Nat.succ.inj hk
        obtain ⟨_, _, hupper⟩ := exists_settle_of_sweep h hb'
        obtain ⟨_, _, hlower⟩ := exists_settle_of_sweep h' hc'
        exact ih hapart hupper hlower hmore

end Separates

end Pass

namespace Document

open Pass

/-- A pass over a document in two parts gives the lines that it gives for the parts. -/
theorem exists_applyPass_append {s : RuleSet} {apart : Buffer → Buffer → Prop}
    {d upper lower : Document} (hs : Separates s apart) (htwo : SettlesInTwo s)
    (hlines : d.lines = upper.lines ++ lower.lines) (hapart : apart upper.lines lower.lines) :
    ∃ outcome outcome₁ outcome₂, d.applyPass s = .ok outcome ∧ upper.applyPass s = .ok outcome₁ ∧
      lower.applyPass s = .ok outcome₂ ∧
        outcome.document.lines = outcome₁.document.lines ++ outcome₂.document.lines := by
  obtain ⟨outcome, hpass⟩ := exists_applyPass htwo d
  obtain ⟨outcome₁, hpass₁⟩ := exists_applyPass htwo upper
  obtain ⟨outcome₂, hpass₂⟩ := exists_applyPass htwo lower
  refine ⟨outcome, outcome₁, outcome₂, hpass, hpass₁, hpass₂, ?_⟩
  obtain ⟨lines, _, hsettle, hdocument, _⟩ := of_applyPassWithin hpass
  obtain ⟨lines₁, _, hsettle₁, hdocument₁, _⟩ := of_applyPassWithin hpass₁
  obtain ⟨lines₂, _, hsettle₂, hdocument₂, _⟩ := of_applyPassWithin hpass₂
  rw [hdocument, hdocument₁, hdocument₂, withLines_lines, withLines_lines, withLines_lines]
  rw [hlines] at hsettle
  exact hs.settle_append hapart hsettle₁ hsettle₂ hsettle

end Document

end TaskTidy
