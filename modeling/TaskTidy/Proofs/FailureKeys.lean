import TaskTidy.Proofs.PipeEdits
import TaskTidy.Proofs.ScalarGuards

/-!
# The keys of items while pipelines are rewritten

The set for ignored errors asks whether the owner of a line says already when it fails. The option
for pipelines gives no item that key, but it may take it away: a line of a script that reads like
the key is text afterwards. Ignored errors, in turn, do not change what the option finds to do if
they are keys.
-/

namespace TaskTidy

namespace Buffer

variable {b c : Buffer} {k o : Nat} {key : List Char}

/-- An item carries a key on its own line, or on a parameter of its block at its content column. -/
theorem itemHas_iff :
    b.itemHas o key = true ↔ (b.line o).hasKey key = true ∨
      ∃ f, o < f ∧ f < b.stopOf o ∧ (b.line f).kind = .parameter ∧
        (b.line f).depth = (b.line o).column ∧ (b.line f).hasKey key = true := by
  have hfield {l : Line} : (decide (l.kind = .parameter) && decide (l.depth = (b.line o).column) &&
      l.hasKey key) = true ↔
        l.kind = .parameter ∧ l.depth = (b.line o).column ∧ l.hasKey key = true := by
    simp only [Bool.and_eq_true, decide_eq_true_eq, and_assoc]
  rw [itemHas, Bool.or_eq_true, List.any_eq_true]
  refine or_congr_right ⟨?_, ?_⟩
  · rintro ⟨l, hl, hlfield⟩
    obtain ⟨n, hn, rfl⟩ := List.getElem_of_mem hl
    rw [getElem_runAfter hn] at hlfield
    exact ⟨o + 1 + n, by omega, Nat.add_lt_add_left hn _, hfield.1 hlfield⟩
  · rintro ⟨f, hof, hf, hlfield⟩
    exact ⟨b.line f, mem_runAfter hof hf, hfield.2 hlfield⟩

/-- Blocks keep their lines when all lines keep their extents. -/
theorem SameExtents.lt_stopOf_iff (he : SameExtents b c) (hlen : c.length = b.length)
    (hok : o < k) : k < c.stopOf o ↔ k < b.stopOf o := by
  rw [Buffer.lt_stopOf_iff hok, Buffer.lt_stopOf_iff hok, hlen, (he o).1]
  simp only [(he _).isInside_eq]

/-- An item keeps a key if the lines that carry it stay. -/
theorem itemHas_mono (he : SameExtents b c) (hlen : c.length = b.length)
    (hcolumn : (c.line o).column = (b.line o).column)
    (hkeep : ∀ i, (b.line i).hasKey key = true → c.line i = b.line i)
    (h : b.itemHas o key = true) : c.itemHas o key = true := by
  rw [itemHas_iff] at h ⊢
  rcases h with h | ⟨f, hof, hf, hkind, hdepth, hkey⟩
  · exact Or.inl (by rwa [hkeep o h])
  · refine Or.inr ⟨f, hof, (he.lt_stopOf_iff hlen hof).2 hf, ?_⟩
    rw [hkeep f hkey, hcolumn]
    exact ⟨hkind, hdepth, hkey⟩

end Buffer

open Pass RuleSets

namespace Buffer

variable {b p : Buffer} {i k o : Nat} {l : Line}

/-- Every line that ignores errors is a key: a blank stands behind its colon. -/
def IgnoresByKey (b : Buffer) : Prop :=
  ∀ l ∈ b, (replaceIgnoreErrors? l).isSome = true → l.kind = .parameter

instance (b : Buffer) : Decidable b.IgnoresByKey :=
  inferInstanceAs (Decidable (∀ l ∈ b, _ → _))

theorem IgnoresByKey.kind_eq (h : b.IgnoresByKey) (hi : replaceIgnoreErrors? (b.line i) = some l) :
    (b.line i).kind = .parameter := by
  by_cases hlen : i < b.length
  · refine h _ ?_ (by rw [hi]; rfl)
    rw [line_eq_getElem b i hlen]
    exact List.getElem_mem hlen
  · rw [line_of_length_le (Nat.le_of_not_lt hlen)] at hi
    cases hi

theorem IgnoresByKey.set (h : b.IgnoresByKey) (hl : replaceIgnoreErrors? l = none) :
    IgnoresByKey (b.set i l) := by
  intro l' hl' hsome
  rcases List.mem_or_eq_of_mem_set hl' with hmem | rfl
  · exact h l' hmem hsome
  · rw [hl] at hsome
    cases hsome

/-! ### The walk of the option -/

/-- The option has been put into some lines of `b`, and `p` is what came of it. -/
structure Piped (b p : Buffer) : Prop where
  length_eq : p.length = b.length
  sameExtents : SameExtents b p
  line_cases : ∀ i, p.line i = b.line i ∨
    StartsCommand (p.line i) ∧ ((p.line i).kind = .item → (b.line i).SameFrame (p.line i))

namespace Piped

theorem refl (b : Buffer) : Piped b b :=
  ⟨rfl, .refl b, fun _ => Or.inl rfl⟩

theorem set (h : Piped b p) (hk : k < p.length) (hextent : (p.line k).SameExtent l)
    (hl : StartsCommand l) (hitem : l.kind = .item → (p.line k).SameFrame l) :
    Piped b (p.set k l) where
  length_eq := by rw [List.length_set, h.length_eq]
  sameExtents := h.sameExtents.set hk hextent
  line_cases i := by
    by_cases hik : i = k
    · subst hik
      rw [line_set_self hk]
      refine Or.inr ⟨hl, fun hkind => ?_⟩
      have hframe := hitem hkind
      rcases h.line_cases i with hsame | ⟨_, hbefore⟩
      · rwa [hsame] at hframe
      · exact (hbefore (hframe.isItem_iff.1 hkind)).trans hframe
    · rw [line_set_of_ne hik]
      exact h.line_cases i

/-- The option writes no line that ignores errors. -/
theorem ignoresByKey (h : Piped b p) (hb : b.IgnoresByKey) : p.IgnoresByKey := by
  intro l hl hsome
  obtain ⟨i, hi, rfl⟩ := List.getElem_of_mem hl
  rw [← line_eq_getElem] at hsome ⊢
  obtain ⟨l', hl'⟩ := Option.isSome_iff_exists.1 hsome
  rcases h.line_cases i with hsame | ⟨hstarts, _⟩
  · rw [hsame] at hl' ⊢
    exact hb.kind_eq hl'
  · rw [hstarts.replaceIgnoreErrors?_eq] at hl'
    cases hl'

/-- An item of the result has no key for failures that it had not before. -/
theorem itemHas (h : Piped b p) (hitem : (p.line o).kind = .item)
    (hhas : p.itemHas o "failed_when".toList = true) : b.itemHas o "failed_when".toList = true := by
  have hsymm : SameExtents p b := fun i => ⟨(h.sameExtents i).1.symm, (h.sameExtents i).2.symm⟩
  refine itemHas_mono hsymm h.length_eq.symm ?_ (fun i hkey => ?_) hhas
  · rcases h.line_cases o with hsame | ⟨_, hframe⟩
    · rw [hsame]
    · exact (hframe hitem).column_eq.symm
  · rcases h.line_cases i with hsame | ⟨hstarts, _⟩
    · exact hsame.symm
    · rw [hstarts.hasKey_eq] at hkey
      cases hkey

end Piped

end Buffer

namespace RuleSets

open Buffer

variable {b c p : Buffer} {i j m n : Nat} {l : Line} {r : Replacement}

/-- The line that the option changes in the block of a line. -/
def strictReplacement? (b : Buffer) (i : Nat) : Option Replacement :=
  (strictPipelines.toBlockRule.answer? b i).bind fun edit =>
    match edit with
    | .replace k l => some ⟨"pipefail", k, l⟩
    | .insert _ _ => none

theorem answer?_of_strictReplacement? (h : strictReplacement? b i = some r) :
    strictPipelines.toBlockRule.answer? b i = some (.replace r.index r.line) := by
  obtain ⟨edit, hedit, hr⟩ := Option.bind_eq_some_iff.1 h
  cases edit with
  | insert k l => cases hr
  | replace k l =>
      cases hr
      exact hedit

/-- The option changes a line of text of the block, and the block starts with an item. -/
theorem of_strictReplacement? (hi : i < b.length) (h : strictReplacement? b i = some r) :
    i ≤ r.index ∧ r.index < b.length ∧ (b.line r.index).SameExtent r.line ∧
      (b.line i).kind = .item := by
  have hanswer := answer?_of_strictReplacement? h
  obtain ⟨_, _, heq, hselects, _, ⟨hik, hk⟩, _⟩ := ScopedRewrite.answer?_eq_some_iff.1 hanswer
  obtain ⟨_, _, heq', _, _, hextent, _⟩ := of_answer?_strictPipelines hanswer
  cases heq
  cases heq'
  exact ⟨hik, Nat.lt_of_lt_of_le hk (stopOf_le_length hi), hextent,
    Target.kind_of_selects_itemsWithKey hselects⟩

theorem makes_pipefail (hi : i < b.length) : Makes pipefail b i (strictReplacement? b i) := by
  have hl : pipefail.lineRules = [] := rfl
  have hb : pipefail.blockRules = [strictPipelines.toBlockRule] := rfl
  cases hanswer : strictPipelines.toBlockRule.answer? b i with
  | none =>
      rw [strictReplacement?, hanswer]
      exact isQuiet_of_answer? hl hb hi hanswer
  | some edit =>
      obtain ⟨k, l, rfl, _, _, ⟨_, hk⟩, hne⟩ := ScopedRewrite.answer?_eq_some_iff.1 hanswer
      have hvisit := visit_of_answer? hl hb hi hanswer (Nat.lt_of_lt_of_le hk (stopOf_le_length hi))
      rw [BlockEdit.logged, if_neg hne] at hvisit
      rw [strictReplacement?, hanswer]
      exact hvisit

theorem isSteady_pipefail : IsSteady pipefail :=
  isSteady_of_makes fun hi => ⟨_, makes_pipefail hi⟩

theorem isQuiet_pipefail_iff (hi : i < b.length) :
    IsQuiet pipefail b i ↔ strictPipelines.toBlockRule.answer? b i = none := by
  have hmakes := makes_pipefail hi
  rw [Makes] at hmakes
  rw [IsQuiet, hmakes]
  cases hanswer : strictPipelines.toBlockRule.answer? b i with
  | none =>
      rw [strictReplacement?, hanswer]
      exact iff_of_true rfl rfl
  | some edit =>
      obtain ⟨k, l, rfl, _⟩ := ScopedRewrite.answer?_eq_some_iff.1 hanswer
      rw [strictReplacement?, hanswer]
      exact iff_of_false (by simp [Replacement.logged]) (by simp)

/-- A visit of the option puts it into a line of its own or leaves all lines. -/
theorem piped_stepAt (h : Piped b p) (hi : i < p.length) :
    Piped b (stepAt pipefail p i).1 := by
  rw [(makes_pipefail hi).stepAt_eq]
  cases hr : strictReplacement? p i with
  | none => exact h
  | some r =>
      obtain ⟨_, hk, hextent, _⟩ := of_strictReplacement? hi hr
      obtain ⟨hstarts, hitem⟩ := startsCommand_of_answer? (answer?_of_strictReplacement? hr)
      exact h.set hk hextent hstarts hitem

theorem length_walk_pipefail (hn : n ≤ b.length) : (walk pipefail b n).1.length = b.length :=
  IsSteady.length_walk isSteady_pipefail hn

/-- What the walk of the option leaves, from any point of the walk on. -/
theorem piped_walk (hmn : m ≤ n) (hn : n ≤ b.length) :
    Piped (walk pipefail b m).1 (walk pipefail b n).1 := by
  induction n, hmn using Nat.le_induction with
  | base => exact .refl _
  | succ n _ ih =>
      have hlen := length_walk_pipefail (Nat.le_of_succ_le hn)
      exact piped_stepAt (ih (Nat.le_of_succ_le hn)) (by rwa [hlen])

/-- The walk leaves the lines behind it, and the line it has come to unless that is an item. -/
theorem take_walk_pipefail (hmn : m ≤ n) (hn : n ≤ b.length) (hjm : j ≤ m)
    (hitem : ((walk pipefail b m).1.line j).kind ≠ .item) :
    (walk pipefail b n).1.take (j + 1) = (walk pipefail b m).1.take (j + 1) := by
  induction n, hmn using Nat.le_induction with
  | base => rfl
  | succ n hmn ih =>
      have hbefore := ih (Nat.le_of_succ_le hn)
      have hlen := length_walk_pipefail (Nat.le_of_succ_le hn)
      have hnlen : n < (walk pipefail b n).1.length := by rwa [hlen]
      rw [← hbefore, walk, (makes_pipefail hnlen).stepAt_eq]
      cases hr : strictReplacement? (walk pipefail b n).1 n with
      | none => rfl
      | some r =>
          obtain ⟨hle, _, _, hstart⟩ := of_strictReplacement? hnlen hr
          refine List.take_set_of_le ?_
          rcases Nat.lt_or_eq_of_le (Nat.le_trans hjm hmn) with hlt | rfl
          · exact Nat.lt_of_lt_of_le hlt hle
          · rw [LineRule.line_congr hbefore] at hstart
            exact absurd hstart hitem

/-! ### The walk over ignored errors -/

theorem of_replacement?_ignoreErrors (h : replacement? ignoreErrors.lineRules b i = some r) :
    r.index = i ∧ replaceIgnoreErrors? (b.line i) = some r.line := by
  obtain ⟨rule, hrule, hl, _⟩ := replaces_ignoreErrors.exists_of_replacement? h
  obtain rfl := List.mem_singleton.1 hrule
  exact ⟨(of_replacement? h).1, hl⟩

theorem replacement?_ignoreErrors_eq_none (h : replaceIgnoreErrors? (b.line i) = none) :
    replacement? ignoreErrors.lineRules b i = none := by
  rw [Option.eq_none_iff_forall_ne_some]
  intro r hr
  rw [(of_replacement?_ignoreErrors hr).2] at h
  cases h

/-- Some of the first `n` lines of `p` that ignore errors have been rewritten, and `c` is what came
of it. -/
structure Eased (p c : Buffer) (n : Nat) : Prop where
  length_eq : c.length = p.length
  line_cases : ∀ i, c.line i = p.line i ∨ i < n ∧ replaceIgnoreErrors? (p.line i) = some (c.line i)
  owner?_eq : ∀ i < p.length, c.owner? i = p.owner? i
  ignoresByKey : p.IgnoresByKey → c.IgnoresByKey

namespace Eased

theorem refl (p : Buffer) : Eased p p 0 :=
  ⟨rfl, fun _ => Or.inl rfl, fun _ _ => rfl, id⟩

theorem sameFrame (h : Eased p c n) (i : Nat) : (p.line i).SameFrame (c.line i) := by
  rcases h.line_cases i with hsame | ⟨_, hl⟩
  · rw [hsame]
    exact ⟨rfl, rfl, rfl, Iff.rfl⟩
  · exact (climbs_of_replaceIgnoreErrors? true hl).sameFrame

theorem sameExtents (h : Eased p c n) : SameExtents p c := by
  intro i
  rcases h.line_cases i with hsame | ⟨_, hl⟩
  · rw [hsame]
    exact ⟨rfl, rfl⟩
  · exact sameExtent_of_replaceIgnoreErrors? hl

/-- The lines that are still to be visited stand as they stood. -/
theorem line_eq (h : Eased p c n) (hi : n ≤ i) : c.line i = p.line i := by
  rcases h.line_cases i with hsame | ⟨hlt, _⟩
  · exact hsame
  · exact absurd hlt (Nat.not_lt_of_le hi)

/-- A line with the key for failures is not rewritten. -/
theorem line_eq_of_hasKey (h : Eased p c n) (hkey : (p.line i).hasKey "failed_when".toList = true) :
    c.line i = p.line i := by
  rcases h.line_cases i with hsame | ⟨_, hl⟩
  · exact hsame
  · rw [hasKey_of_replaceIgnoreErrors? hl] at hkey
    cases hkey

end Eased

theorem eased_stepAt (h : Eased p c n) (hn : n < p.length) :
    Eased p (stepAt ignoreErrors c n).1 (n + 1) := by
  have hlater (i : Nat) : c.line i = p.line i ∨
      i < n + 1 ∧ replaceIgnoreErrors? (p.line i) = some (c.line i) :=
    (h.line_cases i).imp_right fun hi => ⟨Nat.lt_succ_of_lt hi.1, hi.2⟩
  rw [(replaces_ignoreErrors.makes c n).stepAt_eq]
  cases hr : replacement? ignoreErrors.lineRules c n with
  | none => exact ⟨h.length_eq, hlater, h.owner?_eq, h.ignoresByKey⟩
  | some r =>
      obtain ⟨hindex, hl⟩ := of_replacement?_ignoreErrors hr
      rw [Replacement.apply, hindex]
      have hnc : n < c.length := by rwa [h.length_eq]
      refine ⟨by rw [List.length_set, h.length_eq], fun i => ?_, fun i hi => ?_, fun hkeys => ?_⟩
      · by_cases hin : i = n
        · rw [hin, line_set_self hnc, ← h.line_eq (Nat.le_refl n)]
          exact Or.inr ⟨Nat.lt_succ_self n, hl⟩
        · rw [line_set_of_ne hin]
          exact hlater i
      · rw [owner?_set hnc (climbs_of_replaceIgnoreErrors? true hl).sameFrame
          (by rwa [h.length_eq]), h.owner?_eq i hi]
      · exact (h.ignoresByKey hkeys).set (replaceIgnoreErrors?_of_eq_some hl)

theorem eased_walk (hn : n ≤ p.length) : Eased p (walk ignoreErrors p n).1 n := by
  induction n with
  | zero => exact .refl p
  | succ n ih => exact eased_stepAt (ih (Nat.le_of_succ_le hn)) hn

/-! ### The visits commute -/

/-- The option finds the same to do in the blocks below an ignored error that is rewritten. -/
theorem strictReplacement?_set (hkeys : c.IgnoresByKey) (hm : m < c.length) (hjm : j ≤ m)
    (hl : replaceIgnoreErrors? (c.line j) = some l) :
    strictReplacement? (c.set j l) m = strictReplacement? c m := by
  have hkind := hkeys.kind_eq hl
  rw [strictReplacement?, strictReplacement?,
    answer?_set_of_bothIdle (Nat.lt_of_le_of_lt hjm hm) (bothIdle_of_replaceIgnoreErrors? hl hkind)
      hm fun x hx => ?_]
  obtain ⟨_, _, heq, hselects, _, ⟨hle, _⟩, _⟩ := ScopedRewrite.answer?_eq_some_iff.1 hx
  cases heq
  obtain rfl := Nat.le_antisymm hjm hle
  have hitem := Target.kind_of_selects_itemsWithKey hselects
  rw [hkind] at hitem
  cases hitem

theorem strictReplacement?_walk (hkeys : p.IgnoresByKey) (hm : m < p.length) (hjm : j ≤ m) :
    strictReplacement? (walk ignoreErrors p j).1 m = strictReplacement? p m := by
  induction j with
  | zero => rfl
  | succ j ih =>
      have heased := eased_walk (p := p) (n := j) (by omega)
      rw [← ih (by omega), walk, (replaces_ignoreErrors.makes _ j).stepAt_eq]
      cases hr : replacement? ignoreErrors.lineRules (walk ignoreErrors p j).1 j with
      | none => rfl
      | some r =>
          obtain ⟨hindex, hl⟩ := of_replacement?_ignoreErrors hr
          rw [Replacement.apply, hindex]
          exact strictReplacement?_set (heased.ignoresByKey hkeys) (by rwa [heased.length_eq])
            (by omega) hl

end RuleSets

end TaskTidy
