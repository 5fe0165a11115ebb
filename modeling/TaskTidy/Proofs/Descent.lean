import Mathlib.Algebra.GroupWithZero.Nat
import TaskTidy.Proofs.Bounds
import TaskTidy.Proofs.KeyRanks
import TaskTidy.Proofs.LineRules
import TaskTidy.Proofs.Separation
import TaskTidy.Proofs.Shift

/-!
# Sweeps that descend

Every block rule may insert a line below the line that is visited, and the walk comes to that line
later, so a sweep need not end. It does if lines can be ranked such that no rule raises a rank and
every insertion ranks below the start line of its block. With `m` block rules a line of rank `n`
then stands for `(m + 1) ^ n` visits at most.
-/

namespace TaskTidy

/-- A rank of lines that the rules of a set do not raise. An inserted line ranks below the start
line of its block. The later parts of a line that is split rank below it, unless it ranks lowest. -/
structure RuleSet.Descends (s : RuleSet) (rank : Line → Nat) : Prop where
  replace : ∀ {r b i l}, r ∈ s.lineRules → r.rewrite b i = some (.replace l) →
    rank l ≤ rank (b.line i)
  split : ∀ {r b i first rest}, r ∈ s.lineRules → r.rewrite b i = some (.split (first :: rest)) →
    rank first ≤ rank (b.line i) ∧ ∀ l ∈ rest, rank l ≤ rank (b.line i) - 1
  insert : ∀ {r b i k l}, r ∈ s.blockRules → r.answer? b i = some (.insert k l) →
    rank l < rank (b.line i)
  rewrite : ∀ {r b i k l}, r ∈ s.blockRules → r.answer? b i = some (.replace k l) →
    rank l ≤ rank (b.line k)

namespace Pass

/-- A bound on the visits of lines: one for a line of rank zero, and for a line of a higher rank its
own visit with those of a line of the next lower rank from each of `m` block rules. -/
def visitBound (m : Nat) (rank : Line → Nat) (lines : List Line) : Nat :=
  (lines.map fun l => (m + 1) ^ rank l).sum

/-- What the insertion of one block rule adds to the bound, in a block whose start line ranks `n` at
most. -/
def insertBound (m : Nat) : Nat → Nat
  | 0 => 0
  | n + 1 => (m + 1) ^ n

variable {s : RuleSet} {m n i : Nat} {rank : Line → Nat} {b c : Buffer}

@[simp] theorem visitBound_cons (l : Line) (lines : List Line) :
    visitBound m rank (l :: lines) = (m + 1) ^ rank l + visitBound m rank lines := rfl

@[simp] theorem visitBound_append (lines more : List Line) :
    visitBound m rank (lines ++ more) = visitBound m rank lines + visitBound m rank more := by
  simp [visitBound]

theorem visitBound_drop (hi : i < b.length) :
    visitBound m rank (b.drop i) =
      (m + 1) ^ rank (b.line i) + visitBound m rank (b.drop (i + 1)) := by
  rw [Buffer.drop_eq_line_cons hi, visitBound_cons]

theorem visitBound_set_le {lines : List Line} {k : Nat} {l : Line}
    (hl : ∀ hk : k < lines.length, rank l ≤ rank lines[k]) :
    visitBound m rank (lines.set k l) ≤ visitBound m rank lines := by
  induction lines generalizing k with
  | nil => exact Nat.le_refl _
  | cons x rest ih =>
      cases k with
      | zero =>
          have hpow := Nat.pow_le_pow_right (Nat.succ_pos m) (hl (Nat.succ_pos _))
          exact Nat.add_le_add_right hpow _
      | succ k =>
          rw [List.set_cons_succ, visitBound_cons, visitBound_cons]
          exact Nat.add_le_add_left (ih fun hk => hl (Nat.succ_lt_succ hk)) _

/-- The insertions of all block rules add less than the visited line stood for. -/
theorem mul_insertBound_lt (m n : Nat) : m * insertBound m n < (m + 1) ^ n := by
  cases n with
  | zero => exact Nat.one_pos
  | succ n =>
      have hpos : 0 < (m + 1) ^ n := Nat.pow_pos (Nat.succ_pos m)
      calc m * (m + 1) ^ n < m * (m + 1) ^ n + (m + 1) ^ n := Nat.lt_add_of_pos_right hpos
        _ = (m + 1) ^ n * (m + 1) := by rw [Nat.mul_comm m, Nat.mul_succ]
        _ = (m + 1) ^ (n + 1) := (Nat.pow_succ ..).symm

theorem pow_le_insertBound {k : Nat} (hn : 0 < n) (hk : k ≤ n - 1) :
    (m + 1) ^ k ≤ insertBound m n := by
  cases n with
  | zero => cases hn
  | succ n => exact Nat.pow_le_pow_right (Nat.succ_pos m) hk

/-- While line `i` is visited it ranks `n` at most, and the lines below it that the walk is going to
skip, down to line `last`, rank lower. -/
structure Ranked (rank : Line → Nat) (n i last : Nat) (c : Buffer) : Prop where
  lt_length : last < c.length
  start_le : i ≤ last
  start : rank (c.line i) ≤ n
  skipped : ∀ j, i < j → j ≤ last → rank (c.line j) ≤ n - 1

namespace Ranked

variable {last : Nat}

/-- An insertion below the start line keeps the ranks. It adds a line to those that the walk comes
to, either the new one or the last that was going to be skipped. -/
theorem insertIdx (h : Ranked rank n i last c) {k : Nat} {x : Line} (hik : i < k)
    (hk : k ≤ c.length) (hx : rank x < n) :
    Ranked rank n i last (c.insertIdx k x) ∧
      visitBound m rank ((c.insertIdx k x).drop (last + 1)) ≤
        visitBound m rank (c.drop (last + 1)) + insertBound m n := by
  have hlen := List.length_insertIdx_of_le_length hk x
  have hpos : 0 < n := Nat.zero_lt_of_lt hx
  refine ⟨⟨by have := h.lt_length; omega, h.start_le, ?_, fun j hij hj => ?_⟩, ?_⟩
  · rw [Buffer.line_insertIdx_of_lt hk x hik]
    exact h.start
  · rcases Nat.lt_trichotomy j k with hjk | rfl | hkj
    · rw [Buffer.line_insertIdx_of_lt hk x hjk]
      exact h.skipped j hij hj
    · rw [Buffer.line_insertIdx_self hk]
      exact Nat.le_sub_one_of_lt hx
    · obtain ⟨j, rfl⟩ := Nat.exists_eq_add_one_of_ne_zero (Nat.ne_zero_of_lt hkj)
      rw [Buffer.line_insertIdx_of_le hk x (Nat.le_of_lt_succ hkj)]
      exact h.skipped j (by omega) (by omega)
  · rcases Nat.lt_or_ge last k with hlast | hlast
    · have hpow := pow_le_insertBound (m := m) hpos (Nat.le_sub_one_of_lt hx)
      have hsplit := congrArg (visitBound m rank) (Buffer.drop_of_lt (b := c) hlast)
      rw [visitBound_append] at hsplit
      rw [Buffer.drop_insertIdx_of_lt hk x hlast, visitBound_append, visitBound_cons]
      omega
    · have hpow := pow_le_insertBound (m := m) hpos (h.skipped last (by omega) (Nat.le_refl _))
      rw [Buffer.drop_insertIdx_of_le hk x hlast, visitBound_drop h.lt_length]
      omega

/-- A replacement that does not raise the rank of its line keeps the ranks and adds nothing. -/
theorem set (h : Ranked rank n i last c) {k : Nat} {x : Line} (hx : rank x ≤ rank (c.line k)) :
    Ranked rank n i last (c.set k x) ∧
      visitBound m rank ((c.set k x).drop (last + 1)) ≤
        visitBound m rank (c.drop (last + 1)) := by
  have hline (j : Nat) : rank (Buffer.line (c.set k x) j) ≤ rank (c.line j) := by
    by_cases hjk : j = k
    · subst hjk
      by_cases hj : j < c.length
      · rwa [Buffer.line_set_self hj]
      · rw [List.set_eq_of_length_le (Nat.le_of_not_lt hj)]
    · rw [Buffer.line_set_of_ne hjk]
  refine ⟨⟨by rw [List.length_set]; exact h.lt_length, h.start_le,
    Nat.le_trans (hline i) h.start, fun j hij hj => Nat.le_trans (hline j) (h.skipped j hij hj)⟩,
    ?_⟩
  rw [List.drop_set]
  split
  · exact Nat.le_refl _
  · next hk =>
      refine visitBound_set_le fun hlt => ?_
      rw [List.getElem_drop, ← Buffer.line_eq_getElem, Nat.add_sub_cancel' (Nat.le_of_not_lt hk)]
      exact hx

/-- Each block rule adds at most one insertion. -/
theorem offerBlocks {rules : List BlockRule} (h : Ranked rank n i last c)
    (hr : ∀ r ∈ rules, r.IsStock ∧
      (∀ {b k l}, r.answer? b i = some (.insert k l) → rank l < rank (b.line i)) ∧
      ∀ {b k l}, r.answer? b i = some (.replace k l) → rank l ≤ rank (b.line k))
    {next : Buffer} {edits : List Edit} (hok : Pass.offerBlocks rules c i = .ok (next, edits)) :
    visitBound m rank (next.drop (last + 1)) ≤
      visitBound m rank (c.drop (last + 1)) + rules.length * insertBound m n := by
  induction rules generalizing c edits with
  | nil =>
      cases hok
      simp
  | cons rule rules ih =>
      obtain ⟨hstock, hinsert, hreplace⟩ := hr rule List.mem_cons_self
      have hi : i < c.length := Nat.lt_of_le_of_lt h.start_le h.lt_length
      have hone : ∃ c' edits', offerBlock rule c i = .ok (c', edits') ∧ Ranked rank n i last c' ∧
          visitBound m rank (c'.drop (last + 1)) ≤
            visitBound m rank (c.drop (last + 1)) + insertBound m n := by
        rcases offerBlock_cases hstock hi with ⟨_, hnone⟩ | ⟨edit, hanswer, hin, hwithin, hsome⟩
        · exact ⟨c, [], hnone, h, Nat.le_add_right _ _⟩
        · refine ⟨_, _, hsome, ?_⟩
          cases edit with
          | insert k l =>
              exact h.insertIdx hin.1 hwithin (Nat.lt_of_lt_of_le (hinsert hanswer) h.start)
          | replace k l =>
              obtain ⟨hranked, hle⟩ := h.set (m := m) (hreplace hanswer)
              exact ⟨hranked, Nat.le_trans hle (Nat.le_add_right _ _)⟩
      obtain ⟨c', edits', hrule, hranked, hle⟩ := hone
      simp only [Pass.offerBlocks, hrule] at hok
      split at hok
      · cases hok
      · next last' more hrest =>
          cases hok
          have hmore := ih hranked (fun r hmem => hr r (List.mem_cons_of_mem rule hmem)) hrest
          rw [List.length_cons, Nat.succ_mul]
          omega

end Ranked

section

variable (hd : s.Descends rank) (hi : i < b.length)

include hd hi

theorem ranked_split {r : LineRule} (hr : r ∈ s.lineRules) {first : Line} {rest : List Line}
    (hanswer : r.rewrite b i = some (.split (first :: rest))) :
    Ranked rank (rank (b.line i)) i (i + rest.length)
        (b.take i ++ (first :: rest) ++ b.drop (i + 1)) ∧
      (b.take i ++ (first :: rest) ++ b.drop (i + 1)).drop (i + rest.length + 1) =
        b.drop (i + 1) := by
  have htake : (b.take i).length = i := by rw [List.length_take, Nat.min_eq_left hi.le]
  have hline (k : Nat) (hk : k < (first :: rest).length) :
      Buffer.line (b.take i ++ (first :: rest) ++ b.drop (i + 1)) (i + k) =
        (first :: rest)[k] := by
    have hright := Buffer.line_append_right (b.take i) ((first :: rest) ++ b.drop (i + 1)) k
    rw [htake] at hright
    rw [List.append_assoc, hright, Buffer.line_append_left hk, Buffer.line_eq_getElem _ k hk]
  obtain ⟨hfirst, hrest⟩ := hd.split hr hanswer
  refine ⟨⟨?_, Nat.le_add_right _ _, ?_, fun j hij hj => ?_⟩, ?_⟩
  · simp only [List.length_append, htake, List.length_cons]
    omega
  · have hzero := hline 0 (Nat.succ_pos _)
    exact hzero ▸ hfirst
  · obtain ⟨k, rfl⟩ := Nat.exists_eq_add_of_lt hij
    have hk : k < rest.length := by omega
    rw [Nat.add_assoc, hline (k + 1) (Nat.succ_lt_succ hk), List.getElem_cons_succ]
    exact hrest _ (List.getElem_mem hk)
  · rw [show i + rest.length + 1 = (b.take i ++ (first :: rest)).length by
      simp only [List.length_append, htake, List.length_cons]; omega]
    exact List.drop_left

/-- The line rules leave the visited line and the lines split off it ranked, and do not change the
lines that the walk comes to next. -/
theorem ranked_offerLine {advance : Nat}
    (hstep : (offerLine s.lineRules b i).advance? = some advance) :
    ∃ last, i + advance = last + 1 ∧
      Ranked rank (rank (b.line i)) i last (offerLine s.lineRules b i).buffer ∧
      (offerLine s.lineRules b i).buffer.drop (last + 1) = b.drop (i + 1) := by
  have hkeep : Ranked rank (rank (b.line i)) i i b :=
    ⟨hi, Nat.le_refl i, Nat.le_refl _, fun j hij hj => absurd hj (Nat.not_le_of_lt hij)⟩
  rcases offerLine_cases s.lineRules b i with
    hoffer | ⟨r, hr, ⟨l, hanswer, _, hoffer⟩ | ⟨_, hoffer⟩ | ⟨parts, hanswer, hparts, hoffer⟩⟩ <;>
    rw [hoffer] at hstep ⊢
  · cases hstep
    exact ⟨i, rfl, hkeep, rfl⟩
  · cases hstep
    have hset := (hkeep.set (m := 0) (k := i) (hd.replace hr hanswer)).1
    exact ⟨i, rfl, hset, List.drop_set_of_lt (Nat.lt_succ_self i)⟩
  · cases hstep
  · cases hstep
    match parts, hparts, hanswer with
    | first :: rest, _, hanswer =>
        obtain ⟨hranked, hdrop⟩ := ranked_split hd hi hr hanswer
        exact ⟨i + rest.length, by rw [List.length_cons]; omega, hranked, hdrop⟩

omit hd in
/-- After a deletion the walk comes to the line below. -/
theorem drop_of_advance?_eq_none (hstep : (offerLine s.lineRules b i).advance? = none) :
    (offerLine s.lineRules b i).buffer.drop i = b.drop (i + 1) := by
  rcases offerLine_cases s.lineRules b i with
    hoffer | ⟨r, _, ⟨l, _, _, hoffer⟩ | ⟨_, hoffer⟩ | ⟨parts, _, _, hoffer⟩⟩ <;>
    rw [hoffer] at hstep ⊢
  · cases hstep
  · cases hstep
  · have htake : (b.take i).length = i := by rw [List.length_take, Nat.min_eq_left hi.le]
    dsimp only
    rw [List.eraseIdx_eq_take_drop_succ]
    exact List.drop_left' htake
  · cases hstep

/-- The visit of a line lowers the bound on the visits that are still to come. -/
theorem visitBound_visit_lt (hs : s.IsStock) :
    ∃ v, visit s b i = .ok v ∧ visitBound s.blockRules.length rank (v.buffer.drop v.next) <
      visitBound s.blockRules.length rank (b.drop i) := by
  have hhere : visitBound s.blockRules.length rank (b.drop i) =
      (s.blockRules.length + 1) ^ rank (b.line i) +
        visitBound s.blockRules.length rank (b.drop (i + 1)) := visitBound_drop hi
  cases hstep : (offerLine s.lineRules b i).advance? with
  | none =>
      refine ⟨_, by simp only [visit, hstep]; rfl, ?_⟩
      have hdelete := drop_of_advance?_eq_none hi hstep
      have hpos : 0 < (s.blockRules.length + 1) ^ rank (b.line i) := Nat.pow_pos (Nat.succ_pos _)
      rw [hdelete, hhere]
      omega
  | some advance =>
      obtain ⟨last, hadvance, hranked, hdrop⟩ := ranked_offerLine hd hi hstep
      obtain ⟨next, edits, hblocks, _⟩ :=
        exists_offerBlocks hs (lt_length_of_offerLine hi hstep)
      refine ⟨⟨next, (offerLine s.lineRules b i).edits ++ edits, i + advance⟩,
        by simp only [visit, hstep, hblocks], ?_⟩
      have hle := hranked.offerBlocks (m := s.blockRules.length)
        (fun r hr => ⟨hs r hr, hd.insert hr, hd.rewrite hr⟩) hblocks
      have hlt := mul_insertBound_lt s.blockRules.length (rank (b.line i))
      dsimp only
      rw [hdrop] at hle
      rw [hadvance]
      omega

end

/-- A sweep visits no more lines than the bound says. -/
theorem exists_sweepFrom_of_descends (hs : s.IsStock) (hd : s.Descends rank) {fuel : Nat}
    (hf : visitBound s.blockRules.length rank b ≤ fuel) :
    ∃ result, sweepFrom s fuel b 0 = .ok result := by
  refine exists_sweepFrom (fun _ _ => True)
    (fun b i => visitBound s.blockRules.length rank (b.drop i)) (fun hi _ => ?_) trivial hf
  obtain ⟨v, hv, hlt⟩ := visitBound_visit_lt hd hi hs
  exact ⟨v, hv, trivial, hlt⟩

/-- Passes whose sweeps are the same are the same. -/
theorem settle_congr {limit limit' : Buffer → Nat}
    (h : ∀ b, sweep limit s b = sweep limit' s b) (n : Nat) (b : Buffer) :
    settle limit s n b = settle limit' s n b := by
  induction n generalizing b with
  | zero => rfl
  | succ n ih => simp only [settle, h, ih]

/-- A pass whose sweeps all end gives lines, or still makes edits in its last sweep. -/
theorem settle_cases {limit : Buffer → Nat}
    (h : ∀ b, ∃ result, sweep limit s b = .ok result) (n : Nat) (b : Buffer) :
    (∃ result, settle limit s n b = .ok result) ∨
      settle limit s n b = .error (.nonConvergent s.name maxSweeps) := by
  induction n generalizing b with
  | zero => exact .inr rfl
  | succ n ih =>
      obtain ⟨⟨next, edits⟩, hsweep⟩ := h b
      rcases ih next with hok | herror
      · exact .inl (exists_settle_succ hsweep hok)
      · by_cases hnil : edits.isEmpty = true
        · exact .inl ⟨(next, []), by simp [settle, hsweep, hnil]⟩
        · exact .inr (by simp [settle, hsweep, hnil, herror])

end Pass

namespace Document

open Pass

/-- What a pass comes to if its sweeps may make as many visits as they need. -/
def Yields (d : Document) (s : RuleSet) (result : Except PassError Outcome) : Prop :=
  ∃ enough : Buffer → Nat, ∀ limit : Buffer → Nat, (∀ b, enough b ≤ limit b) →
    d.applyPassWithin limit s = result

/-- A pass comes to one result at most. -/
theorem Yields.unique {d : Document} {s : RuleSet} {result result' : Except PassError Outcome}
    (h : d.Yields s result) (h' : d.Yields s result') : result = result' := by
  obtain ⟨enough, h⟩ := h
  obtain ⟨enough', h'⟩ := h'
  rw [← h (fun b => enough b + enough' b) fun b => Nat.le_add_right _ _,
    h' _ fun b => Nat.le_add_left _ _]

/-- A pass of ready-made rules that descend comes to an end on every document: no sweep visits more
lines than the bound says, and the pass gives a document or is given up because its rules keep
editing. -/
theorem pass_ends {s : RuleSet} (hs : s.IsStock) {rank : Line → Nat} (hd : s.Descends rank)
    (d : Document) :
    (∀ b fuel, visitBound s.blockRules.length rank b ≤ fuel →
      ∃ result, sweepFrom s fuel b 0 = .ok result) ∧
    ((∃ outcome, d.Yields s (.ok outcome)) ∨
      d.Yields s (.error (.nonConvergent s.name maxSweeps))) := by
  have hsweep (b : Buffer) (fuel : Nat) (hf : visitBound s.blockRules.length rank b ≤ fuel) :
      ∃ result, sweepFrom s fuel b 0 = .ok result := exists_sweepFrom_of_descends hs hd hf
  let enough : Buffer → Nat := visitBound s.blockRules.length rank
  have hyields : d.Yields s (d.applyPassWithin enough s) := by
    refine ⟨enough, fun limit hlimit => ?_⟩
    have hsame (b : Buffer) : sweep limit s b = sweep enough s b := by
      obtain ⟨result, hresult⟩ := hsweep b (enough b) (Nat.le_refl _)
      obtain ⟨result', hresult'⟩ := hsweep b (limit b) (hlimit b)
      rw [sweep, sweep, hresult, hresult', sweepFrom_unique hresult' hresult]
    rw [applyPassWithin, applyPassWithin, settle_congr hsame]
  refine ⟨hsweep, ?_⟩
  have hends (b : Buffer) : ∃ result, sweep enough s b = .ok result := hsweep b _ (Nat.le_refl _)
  rcases settle_cases hends maxSweeps d.lines with hok | herror
  · obtain ⟨outcome, hpass⟩ := exists_applyPassWithin hok
    exact .inl ⟨outcome, hpass ▸ hyields⟩
  · refine .inr ?_
    rw [applyPassWithin, herror] at hyields
    exact hyields

/-- A field is added to each copy and another one to the added field, while lines are replaced and
split. -/
theorem pass_ends_chain :
    let s := RuleSet.ofRules "chain" ""
      [.line (Rule.substitution "word" [] .whole "todo".toList (.text "done".toList)),
        .line (Reflow.rule 20),
        .block (Rule.injection "mode" (.keys ["copy".toList]) "mode".toList ⟨[], []⟩
          (.constant ['1'])).toBlockRule,
        .block (Rule.injection "note" (.keys ["mode".toList]) "note".toList ⟨[], []⟩
          (.constant ['2'])).toBlockRule,
        .block (ScopedRewrite.mk "comment" (.keys ["note".toList]) fun _ e =>
          some (e.start + 1, "# seen".toList)).toBlockRule]
    let rank := Line.keyRank fun key =>
      if key = "copy".toList then 2 else if key = "mode".toList then 1 else 0
    let d := ofLines ["- copy:".toList, "    src: one, two, three".toList, "todo".toList,
      "note:".toList, "  old".toList]
    s.IsStock ∧ s.Descends rank ∧
      d.applyPass s = .ok ⟨ofLines ["- copy:".toList, "    src: one, two,".toList,
        "      three".toList, "    mode: 1".toList, "      note: 2".toList, "done".toList,
        "note:".toList, "# seen".toList], true,
        [⟨"chain", ⟨"mode", 3⟩⟩, ⟨"chain", ⟨"reflow", 2⟩⟩, ⟨"chain", ⟨"note", 5⟩⟩,
          ⟨"chain", ⟨"word", 6⟩⟩, ⟨"chain", ⟨"comment", 8⟩⟩]⟩ ∧
      (∀ b fuel, visitBound s.blockRules.length rank b ≤ fuel →
        ∃ result, sweepFrom s fuel b 0 = .ok result) ∧
      ((∃ outcome, d.Yields s (.ok outcome)) ∨
        d.Yields s (.error (.nonConvergent s.name maxSweeps))) := by
  intro s rank d
  have hs : s.IsStock := by
    intro r hr
    simp only [s, RuleSet.blockRules, RuleSet.ofRules, List.filterMap_cons, Rule.block?,
      List.filterMap_nil, List.mem_cons, List.not_mem_nil, or_false] at hr
    rcases hr with rfl | rfl | rfl
    · exact .injection _
    · exact .injection _
    · exact .rewrite _
  have hd : s.Descends rank := by
    refine ⟨fun {r b i l} hr h => ?_, fun {r b i first rest} hr h => ?_,
      fun {r b i k l} hr h => ?_, fun {r b i k l} hr h => ?_⟩
    all_goals
      simp only [s, RuleSet.lineRules, RuleSet.blockRules, RuleSet.ofRules, List.filterMap_cons,
        Rule.line?, Rule.block?, List.filterMap_nil, List.mem_cons, List.not_mem_nil, or_false]
        at hr
    · rcases hr with rfl | rfl
      · obtain ⟨_, hmatch, heq⟩ :=
          Option.map_eq_some_iff.1 (LineRule.guarded_rewrite_eq_some_iff.1 h).1
        rw [Rule.matchLiteral?] at hmatch
        split at hmatch
        · cases hmatch
          cases heq
          exact Nat.zero_le _
        · cases hmatch
      · obtain ⟨_, _, heq⟩ :=
          Option.map_eq_some_iff.1 (LineRule.guarded_rewrite_eq_some_iff.1 h).1
        cases heq
    · rcases hr with rfl | rfl
      · obtain ⟨_, _, heq⟩ :=
          Option.map_eq_some_iff.1 (LineRule.guarded_rewrite_eq_some_iff.1 h).1
        cases heq
      · obtain ⟨parts, hparts, heq⟩ :=
          Option.map_eq_some_iff.1 (LineRule.guarded_rewrite_eq_some_iff.1 h).1
        cases heq
        obtain ⟨hfirst, hrest⟩ := Reflow.keyRank_of_split? _ hparts
        exact ⟨hfirst, fun part hpart => (hrest part hpart).le.trans (Nat.zero_le _)⟩
    · rcases hr with rfl | rfl | rfl
      · exact FieldInjection.keyRank_lt_of_answer? rfl (by decide) (by decide) h
      · exact FieldInjection.keyRank_lt_of_answer? rfl (by decide) (by decide) h
      · obtain ⟨_, _, heq, _⟩ := ScopedRewrite.answer?_eq_some_iff.1 h
        cases heq
    · rcases hr with rfl | rfl | rfl
      · obtain ⟨_, _, heq⟩ := FieldInjection.of_answer? h
        cases heq
      · obtain ⟨_, _, heq⟩ := FieldInjection.of_answer? h
        cases heq
      · obtain ⟨_, _, heq, _, hpolicy, _⟩ := ScopedRewrite.answer?_eq_some_iff.1 h
        cases heq
        cases hpolicy
        exact Nat.zero_le _
  exact ⟨hs, hd, by decide +kernel, pass_ends hs hd d⟩

end Document

end TaskTidy
