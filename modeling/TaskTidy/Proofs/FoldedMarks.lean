import TaskTidy.Proofs.MarkedTasks
import TaskTidy.Proofs.Noninterference
import TaskTidy.Proofs.Walks

/-!
# Modes and marks in one pass

File modules get their modes and read-only commands their marks in one pass as well as in two, if
every module that gets a mode has fields to measure and every mark stands without a value in a task
that asks for no mode further down. A walk for both sets is then a walk for the modes and a walk for
the marks: the marks are put off one by one, the last first.
-/

namespace TaskTidy

namespace BlockEdit

/-- The line that the edit inserts has no value below it. -/
def IsLeaf (b : Buffer) : BlockEdit → Prop
  | .insert p x => b.IsLeaf p x
  | .replace _ _ => True

instance (b : Buffer) : (edit : BlockEdit) → Decidable (edit.IsLeaf b)
  | .insert p x => inferInstanceAs (Decidable (b.IsLeaf p x))
  | .replace _ _ => inferInstanceAs (Decidable True)

end BlockEdit

namespace RuleSets

open Buffer Pass

variable {options : RuleOptions} {b c m : Buffer} {i j p : Nat} {x : Line}

/-- A mode that is asked for at line `i` goes to fields that are measured. -/
def MeasuresMode (options : RuleOptions) (b : Buffer) (i : Nat) : Prop :=
  ((explicitMode options).toBlockRule.answer? b i).isSome = true →
    (b.fieldDepth? ⟨i, b.stopOf i⟩).isSome = true

/-- A mark that is asked for at line `i` has no value. -/
def MarksLeaf (b : Buffer) (i : Nat) : Prop :=
  ∀ edit ∈ readOnlyCommand.toBlockRule.answer? b i, edit.IsLeaf b

/-- A task that asks for a mark at line `i` asks for no mode below that line. -/
def MarksAlone (options : RuleOptions) (b : Buffer) (i : Nat) : Prop :=
  (readOnlyCommand.toBlockRule.answer? b i).isSome = true →
    ∀ j ∈ Extent.interior ⟨i, b.stopOf i⟩, (explicitMode options).toBlockRule.answer? b j = none

/-- The mode at line `i` is measured, and the mark that is asked for once the mode is there has
neither a value nor a mode to wait for. -/
def TakesTurns (options : RuleOptions) (b : Buffer) (i : Nat) : Prop :=
  MeasuresMode options b i ∧ MarksLeaf (stepAt (filePermissions options) b i).1 i ∧
    MarksAlone options (stepAt (filePermissions options) b i).1 i

instance (options : RuleOptions) (b : Buffer) (i : Nat) : Decidable (MeasuresMode options b i) :=
  inferInstanceAs (Decidable (_ → _))

instance (b : Buffer) (i : Nat) : Decidable (MarksLeaf b i) :=
  inferInstanceAs (Decidable (∀ edit ∈ readOnlyCommand.toBlockRule.answer? b i, edit.IsLeaf b))

instance (options : RuleOptions) (b : Buffer) (i : Nat) : Decidable (MarksAlone options b i) :=
  inferInstanceAs (Decidable (_ → ∀ j ∈ Extent.interior ⟨i, b.stopOf i⟩, _))

instance (options : RuleOptions) (b : Buffer) (i : Nat) : Decidable (TakesTurns options b i) :=
  inferInstanceAs (Decidable (_ ∧ _ ∧ _))

/-! ### Walks for modes -/

/-- No line asks for a mode. -/
def AsksNoMode (options : RuleOptions) (b : Buffer) : Prop :=
  ∀ j, ((explicitMode options).toBlockRule.answer? b j).isSome = false

theorem AsksNoMode.isSettled (h : AsksNoMode options b) : IsSettled (filePermissions options) b :=
  isSettled_of_answer? rfl rfl fun j _ => by
    have hj := h j
    rwa [Option.isSome_eq_false_iff, Option.isNone_iff_eq_none] at hj

/-- A walk over measured modes leaves no question for a mode. -/
theorem asksNoMode_of_walks (h : Walks (filePermissions options) (MeasuresMode options) b 0 m) :
    AsksNoMode options m := by
  have hinj := injects_explicitMode options
  have step {b : Buffer} {i : Nat} {v : Visit} (hi : i < b.length)
      (hmeasured : MeasuresMode options b i)
      (hinv : ∀ j < i, ((explicitMode options).toBlockRule.answer? b j).isSome = false)
      (hv : visit (filePermissions options) b i = .ok v) :
      ∀ j < v.next, ((explicitMode options).toBlockRule.answer? v.buffer j).isSome = false := by
    intro j hj
    rcases hinj.visit_cases rfl rfl hi hv with ⟨hquiet, rfl⟩ | ⟨q, y, hy, _, hsome, rfl⟩ <;>
      rcases Nat.lt_succ_iff_lt_or_eq.1 hj with hji | rfl
    · exact hinv j hji
    · exact hquiet
    · rw [← Bool.not_eq_true]
      intro hafter
      have hbefore := hy.isSome_of_lt hinj hji hafter
      rw [hinv j hji] at hbefore
      cases hbefore
    · obtain ⟨d, hd⟩ := Option.isSome_iff_exists.1 (hmeasured hsome)
      exact hy.answer?_of_measured hinj (by rw [← fieldDepth?_eq, hd])
  obtain ⟨n, hn, hnone⟩ := h.induction _ step (fun j hj => absurd hj (Nat.not_lt_zero j))
  intro j
  rcases Nat.lt_or_ge j m.length with hj | hj
  · exact hnone j (Nat.lt_of_lt_of_le hj hn)
  · exact hinj.isSome_of_length_le hj

/-- Around a mark without a value only lines that asked for a mode before ask for one: the mark
itself is no file module. -/
theorem exists_of_asks_insertIdx {k : Nat} (hx : Injects.At readOnlyCommand b i p x)
    (hsome : (readOnlyCommand.toBlockRule.answer? b i).isSome = true) (hleaf : b.IsLeaf p x)
    (hasks : ((explicitMode options).toBlockRule.answer? (b.insertIdx p x) k).isSome = true) :
    ∃ j, k = shift p j ∧ ((explicitMode options).toBlockRule.answer? b j).isSome = true := by
  by_cases hkp : k = p
  · have hinj := injects_explicitMode options
    have hstarts := hinj.starts_of_asks (hinj.of_isSome hasks).2
    rw [hkp, line_insertIdx_self hx.le_length, Line.hasKeyIn,
      hx.key?_eq injects_readOnlyCommand.isBareKey] at hstarts
    exact absurd hstarts (by decide)
  · obtain ⟨j, rfl⟩ := exists_shift hkp
    exact ⟨j, rfl, isSome_explicitMode_of_mark hx hsome hleaf hasks⟩

/-- A mark without a value raises no question for a mode. -/
theorem AsksNoMode.insertIdx (hb : AsksNoMode options b)
    (hx : Injects.At readOnlyCommand b i p x)
    (hsome : (readOnlyCommand.toBlockRule.answer? b i).isSome = true) (hleaf : b.IsLeaf p x) :
    AsksNoMode options (b.insertIdx p x) := by
  intro j
  rw [← Bool.not_eq_true]
  intro hasks
  obtain ⟨k, _, hbefore⟩ := exists_of_asks_insertIdx hx hsome hleaf hasks
  rw [hb k] at hbefore
  cases hbefore

/-- A walk over marks without values raises no question for a mode. -/
theorem AsksNoMode.of_walks (hb : AsksNoMode options b) (h : Walks changedWhen MarksLeaf b i c) :
    AsksNoMode options c := by
  have step {b : Buffer} {i : Nat} {v : Visit} (hi : i < b.length) (hmarks : MarksLeaf b i)
      (hb : AsksNoMode options b) (hv : visit changedWhen b i = .ok v) :
      AsksNoMode options v.buffer := by
    rcases injects_readOnlyCommand.visit_cases rfl rfl hi hv with
      ⟨_, rfl⟩ | ⟨p, x, hx, _, hsome, rfl⟩
    · exact hb
    · exact hb.insertIdx hx hsome (hmarks _ (hx.answer?_eq hsome))
  obtain ⟨_, _, hc⟩ := h.induction (fun b _ => AsksNoMode options b) step hb
  exact hc

/-! ### Putting off a mark -/

/-- A walk for modes below a marked task goes on without the mark, which may be made behind it. -/
private theorem exists_walks_below_mark {b' last : Buffer} {n j S : Nat}
    (h : Walks (filePermissions options) (MeasuresMode options) b' n last)
    (hb' : b' = b.insertIdx p x) (hn : n = j + 1) (hstop : b.stopOf i = S) (hpS : p ≤ S)
    (hSj : S ≤ j) (hp : p ≤ b.length) (hleaf : b.IsLeaf p x) :
    ∃ m, Walks (filePermissions options) (MeasuresMode options) b j m ∧
      last = m.insertIdx p x ∧ m.IsLeaf p x ∧
        readOnlyCommand.toBlockRule.answer? m i = readOnlyCommand.toBlockRule.answer? b i := by
  have hinj := injects_explicitMode options
  induction h generalizing b j with
  | done hend =>
      subst hb' hn
      rw [List.length_insertIdx_of_le_length hp] at hend
      exact ⟨b, .done (Nat.le_of_succ_le_succ hend), rfl, hleaf, rfl⟩
  | step hi hmeasured hv _ ih =>
      subst hb' hn
      have hpj := Nat.le_trans hpS hSj
      have hj : j < b.length := by
        rw [List.length_insertIdx_of_le_length hp] at hi
        exact Nat.lt_of_succ_lt_succ hi
      have hasks : ((explicitMode options).toBlockRule.answer? (b.insertIdx p x) (j + 1)).isSome =
          ((explicitMode options).toBlockRule.answer? b j).isSome :=
        isSome_explicitMode_insertIdx hleaf hp hpj
      rcases hinj.visit_cases rfl rfl hi hv with ⟨hnone, rfl⟩ | ⟨q', y, hy', _, hsome, rfl⟩
      · have hquiet : (explicitMode options).toBlockRule.answer? b j = none := by
          rwa [hasks, Option.isSome_eq_false_iff, Option.isNone_iff_eq_none] at hnone
        obtain ⟨m, hm, hlast⟩ := ih rfl rfl hstop (Nat.le_succ_of_le hSj) hp hleaf
        refine ⟨m, .step hj (fun hsome => ?_) (isQuiet_of_answer? rfl rfl hj hquiet) hm, hlast⟩
        rw [hquiet] at hsome
        cases hsome
      · have hanswer := hy'.answer?_eq hsome
        rw [hasks] at hsome
        obtain ⟨edit, hedit⟩ := Option.isSome_iff_exists.1 hsome
        obtain ⟨q, y', rfl, hy⟩ := Injects.exists_at hj hedit
        have hsig := isSignificant_of_isEntry hy.isEntry
        have hd : (b.fieldDepth? ⟨j, b.stopOf j⟩).isSome = true := by
          have hd := hmeasured (by rw [hanswer]; rfl)
          rwa [fieldDepth?_eq, line_insertIdx_of_le hp x hpj,
            drop_insertIdx_of_le hp x (Nat.le_succ_of_le hpj), ← fieldDepth?_eq] at hd
        rw [answer?_insertIdx_explicitMode options hleaf hp hpj hsig hd, hedit] at hanswer
        cases hanswer
        have hjq := hy.isPlace.1
        have hcomm : (b.insertIdx p x).insertIdx (q + 1) y =
            (b.insertIdx q y).insertIdx p x :=
          List.insertIdx_comm x y (by omega) hy.le_length
        have hlen : (b.insertIdx q y).length = b.length + 1 :=
          List.length_insertIdx_of_le_length hy.le_length y
        obtain ⟨m, hm, hlast, hleaf', hmark⟩ := ih
          (by rw [Nat.add_comm]; exact hcomm) rfl
          ((stopOf_insertIdx_of_mode hy (hstop ▸ hSj)).trans hstop) (Nat.le_succ_of_le hSj)
          (by omega) (hleaf.insertIdx hpj hjq hy.le_length hsig)
        refine ⟨m, .step hj (fun _ => hd) (visit_of_answer? rfl rfl hj hedit hy.le_length) hm,
          hlast, hleaf', ?_⟩
        rw [hmark, answer?_readOnlyCommand_of_mode hy (hstop ▸ hSj)]

/-- No line of a freshly marked task asks for a mode. -/
private theorem isQuiet_of_mark {k : Nat} (hx : Injects.At readOnlyCommand b i p x)
    (hsome : (readOnlyCommand.toBlockRule.answer? b i).isSome = true) (hleaf : b.IsLeaf p x)
    (halone : MarksAlone options b i) (hik : i < k) (hk : k ≤ b.stopOf i) :
    IsQuiet (filePermissions options) (b.insertIdx p x) k := by
  have hlen : (b.insertIdx p x).length = b.length + 1 :=
    List.length_insertIdx_of_le_length hx.le_length x
  have hstop := stopOf_le_length hx.lt_length
  refine isQuiet_of_answer? rfl rfl (by omega) ?_
  rw [← Option.not_isSome_iff_eq_none]
  intro hasks
  obtain ⟨j, rfl, hbefore⟩ := exists_of_asks_insertIdx hx hsome hleaf hasks
  have hij : i < j := by
    rwa [← (strictMono_shift p).lt_iff_lt, shift_of_lt hx.isPlace.1]
  have hj : j < b.stopOf i := by
    have hpS := hx.isPlace.2.1
    unfold shift at hk
    split at hk <;> omega
  rw [halone hsome j (Extent.mem_interior.2 ⟨hij, hj⟩)] at hbefore
  cases hbefore

/-- A walk for modes below a fresh mark is a walk without the mark, which is made behind it. -/
theorem exists_walks_of_mark {last : Buffer} (hx : Injects.At readOnlyCommand b i p x)
    (hsome : (readOnlyCommand.toBlockRule.answer? b i).isSome = true) (hleaf : b.IsLeaf p x)
    (halone : MarksAlone options b i)
    (h : Walks (filePermissions options) (MeasuresMode options) (b.insertIdx p x) (i + 1) last) :
    ∃ m, Walks (filePermissions options) (MeasuresMode options) b (i + 1) m ∧
      last = m.insertIdx p x ∧ m.IsLeaf p x ∧
        readOnlyCommand.toBlockRule.answer? m i = some (.insert p x) := by
  have hstop := stopOf_le_length hx.lt_length
  have hlen : (b.insertIdx p x).length = b.length + 1 :=
    List.length_insertIdx_of_le_length hx.le_length x
  have hbelow := h.of_isQuiet (n := b.stopOf i + 1) (by have := lt_stopOf b i; omega) (by omega)
    fun k hik hk => isQuiet_of_mark hx hsome hleaf halone hik (Nat.le_of_lt_succ hk)
  obtain ⟨m, hm, hlast, hleaf', hmark⟩ := exists_walks_below_mark hbelow rfl rfl rfl
    hx.isPlace.2.1 (Nat.le_refl _) hx.le_length hleaf
  refine ⟨m, hm.isQuiet_append (lt_stopOf b i) hstop fun j hij hj => ?_, hlast, hleaf',
    hmark.trans (hx.answer?_eq hsome)⟩
  have hnone := halone hsome j (Extent.mem_interior.2 ⟨hij, hj⟩)
  refine ⟨isQuiet_of_answer? rfl rfl (by omega) hnone, fun hasks => ?_⟩
  rw [hnone] at hasks
  cases hasks

/-- A walk for modes further down does not make a task ask for a mark. -/
theorem isSome_readOnlyCommand_of_walks {n : Nat}
    (h : Walks (filePermissions options) (MeasuresMode options) b n m) (hin : i < n)
    (hi : i < b.length) : i < m.length ∧
      ((readOnlyCommand.toBlockRule.answer? m i).isSome = true →
        (readOnlyCommand.toBlockRule.answer? b i).isSome = true) := by
  induction h with
  | done _ => exact ⟨hi, id⟩
  | step hj _ hv _ ih =>
      rcases (injects_explicitMode options).visit_cases rfl rfl hj hv with
        ⟨_, rfl⟩ | ⟨q, y, hy, _, _, rfl⟩
      · exact ih (Nat.lt_succ_of_lt hin) hi
      · obtain ⟨hlen, hmark⟩ := ih (Nat.lt_succ_of_lt hin) (by
          rw [List.length_insertIdx_of_le_length hy.le_length]
          exact Nat.lt_succ_of_lt hi)
        exact ⟨hlen, fun hsome => isSome_readOnlyCommand_of_mode hy hin (hmark hsome)⟩

/-- A visit for both sets is a visit for the mode and then one for the mark. -/
theorem exists_visits_of_folded (hi : i < b.length) {v : Visit}
    (hv : visit ((filePermissions options).folded changedWhen) b i = .ok v) :
    ∃ v₁ v₂, visit (filePermissions options) b i = .ok v₁ ∧ v₁.next = i + 1 ∧
      i < v₁.buffer.length ∧ visit changedWhen v₁.buffer i = .ok v₂ ∧
        v = ⟨v₂.buffer, v₁.edits ++ v₂.edits, i + 1⟩ := by
  have hinj := injects_explicitMode options
  obtain ⟨v₁, hv₁, hcases⟩ := hinj.exists_visit (s := filePermissions options) rfl rfl hi
  have hi₁ : i < v₁.buffer.length := by
    rw [hinj.length_eq_of_visit rfl rfl hi hv₁]
    exact Nat.lt_add_right _ hi
  obtain ⟨v₂, hv₂, _⟩ :=
    injects_readOnlyCommand.exists_visit (s := changedWhen) rfl rfl hi₁
  refine ⟨v₁, v₂, hv₁, (visit_of_lineRules_eq_nil rfl hv₁).2, hi₁, hv₂, ?_⟩
  exact Except.ok.inj (hv.symm.trans (visit_folded rfl rfl hv₁ hv₂))

/-- A walk for both sets is a walk for the modes and then a walk for the marks. -/
theorem exists_walks_of_folded
    (h : Walks ((filePermissions options).folded changedWhen) (TakesTurns options) b i c) :
    ∃ m, Walks (filePermissions options) (MeasuresMode options) b i m ∧
      Walks changedWhen MarksLeaf m i c := by
  induction h with
  | done hend => exact ⟨_, .done hend, .done hend⟩
  | @step b c i v hi hturns hv _ ih =>
      obtain ⟨v₁, v₂, hv₁, hnext₁, hi₁, hv₂, rfl⟩ := exists_visits_of_folded hi hv
      obtain ⟨hmeasured, hleaf, halone⟩ := hturns
      rw [stepAt_of_visit hv₁] at hleaf halone
      obtain ⟨m', hmodes, hmarks⟩ := ih
      dsimp only at hmodes hmarks
      rcases injects_readOnlyCommand.visit_cases rfl rfl hi₁ hv₂ with
        ⟨hnone, rfl⟩ | ⟨p, x, hx, _, hsome, rfl⟩
      · obtain ⟨hlen, hmark⟩ := isSome_readOnlyCommand_of_walks hmodes (Nat.lt_succ_self i) hi₁
        have hquiet : readOnlyCommand.toBlockRule.answer? m' i = none := by
          rw [← Option.not_isSome_iff_eq_none]
          intro hsome
          rw [hmark hsome] at hnone
          cases hnone
        refine ⟨m', .step hi hmeasured hv₁ (hnext₁ ▸ hmodes),
          .step hlen (fun edit hedit => ?_) (isQuiet_of_answer? rfl rfl hlen hquiet) hmarks⟩
        rw [hquiet] at hedit
        cases hedit
      · obtain ⟨m, hm, rfl, hleaf', hmark⟩ :=
          exists_walks_of_mark hx hsome (hleaf _ (hx.answer?_eq hsome)) halone hmodes
        have hlen := (isSome_readOnlyCommand_of_walks hm (Nat.lt_succ_self i) hi₁).1
        have hin : BlockEdit.IsWithin m (.insert p x) := by
          obtain ⟨_, _, heq, hx'⟩ := Injects.exists_at hlen hmark
          cases heq
          exact hx'.le_length
        refine ⟨m, .step hi hmeasured hv₁ (hnext₁ ▸ hm),
          .step hlen (fun edit hedit => ?_) (visit_of_answer? rfl rfl hlen hmark hin) hmarks⟩
        cases Option.some.inj (hmark.symm.trans hedit)
        exact hleaf'

/-! ### Sweeps -/

/-- What is left of a sweep for both sets: the lines below the walk, once more those that can start
a file module, and once more those that can start a task. -/
def bothRemaining (b : Buffer) (i : Nat) : Nat :=
  (b.drop i).length + (b.drop i).countP (fun l => l.hasKeyIn fileModules) +
    (b.drop i).countP fun l => l.kind = .item

private theorem bothRemaining_insertIdx {r : FieldInjection} (hx : Injects.At r b i p x)
    (hkeys : x.hasKeyIn fileModules = false) (hitem : x.kind = .parameter) :
    bothRemaining (b.insertIdx p x) (i + 1) = bothRemaining b (i + 1) + 1 := by
  obtain ⟨hlen, hcount⟩ := hx.drop_insertIdx
  rw [bothRemaining, bothRemaining, hlen, hcount _ hkeys, hcount _ (by simp [hitem])]
  omega

/-- A line adds itself to what is left of a sweep, and once more for each block that it can
start. -/
private theorem bothRemaining_eq (hi : i < b.length) :
    bothRemaining b i = bothRemaining b (i + 1) + 1 +
      (if (b.line i).hasKeyIn fileModules = true then 1 else 0) +
        if (b.line i).kind = .item then 1 else 0 := by
  rw [bothRemaining, bothRemaining, drop_eq_line_cons hi, List.length_cons, List.countP_cons,
    List.countP_cons]
  simp only [decide_eq_true_eq]
  omega

/-- A visit for the mode adds a line below a file module only. -/
private theorem exists_visit_mode (options : RuleOptions) (hi : i < b.length) :
    ∃ v, visit (filePermissions options) b i = .ok v ∧ i < v.buffer.length ∧
      v.buffer.line i = b.line i ∧ bothRemaining v.buffer (i + 1) ≤ bothRemaining b (i + 1) +
        if (b.line i).hasKeyIn fileModules = true then 1 else 0 := by
  have hinj := injects_explicitMode options
  obtain ⟨v, hv, hcases⟩ := hinj.exists_visit (s := filePermissions options) rfl rfl hi
  refine ⟨v, hv, ?_⟩
  rcases hcases with ⟨_, rfl⟩ | ⟨q, y, hy, hkeys, _, rfl⟩
  · exact ⟨hi, rfl, Nat.le_add_right _ _⟩
  · have hlen : i < (b.insertIdx q y).length := by
      rw [List.length_insertIdx_of_le_length hy.le_length]
      exact Nat.lt_succ_of_lt hi
    have hno : y.hasKeyIn fileModules = false := by
      rw [Line.hasKeyIn, hy.key?_eq hinj.isBareKey]
      rfl
    refine ⟨hlen, line_insertIdx_of_lt hy.le_length y hy.isPlace.1, ?_⟩
    rw [bothRemaining_insertIdx hy hno (hy.kind_eq hinj.isBareKey), if_pos hkeys]

/-- A visit for the mark adds a line below an item only. -/
private theorem exists_visit_mark (hi : i < b.length) :
    ∃ v, visit changedWhen b i = .ok v ∧ bothRemaining v.buffer (i + 1) ≤
      bothRemaining b (i + 1) + if (b.line i).kind = .item then 1 else 0 := by
  have hinj := injects_readOnlyCommand
  obtain ⟨v, hv, hcases⟩ := hinj.exists_visit (s := changedWhen) rfl rfl hi
  refine ⟨v, hv, ?_⟩
  rcases hcases with ⟨_, rfl⟩ | ⟨p, x, hx, hitem, _, rfl⟩
  · exact Nat.le_add_right _ _
  · have hno : x.hasKeyIn fileModules = false := by
      rw [Line.hasKeyIn, hx.key?_eq hinj.isBareKey]
      decide
    rw [bothRemaining_insertIdx hx hno (hx.kind_eq hinj.isBareKey),
      if_pos (of_decide_eq_true hitem)]

/-- A visit for both sets leaves less of the sweep. -/
theorem exists_visit_folded (options : RuleOptions) (hi : i < b.length) :
    ∃ v, visit ((filePermissions options).folded changedWhen) b i = .ok v ∧
      bothRemaining v.buffer v.next < bothRemaining b i := by
  obtain ⟨v₁, hv₁, hi₁, hline, hmode⟩ := exists_visit_mode options hi
  obtain ⟨v₂, hv₂, hmark⟩ := exists_visit_mark hi₁
  refine ⟨_, visit_folded rfl rfl hv₁ hv₂, ?_⟩
  rw [hline] at hmark
  rw [bothRemaining_eq hi]
  dsimp only
  omega

theorem exists_sweep_folded (options : RuleOptions) (b : Buffer) :
    ∃ result, sweep sweepLimit ((filePermissions options).folded changedWhen) b = .ok result := by
  refine exists_sweepFrom (fun _ _ => True) bothRemaining (fun hi _ => ?_) trivial ?_
  · obtain ⟨v, hv, hlt⟩ := exists_visit_folded options hi
    exact ⟨v, hv, trivial, hlt⟩
  · have hkeys := List.countP_le_length (p := fun l => l.hasKeyIn fileModules) (l := b.drop 0)
    have hitems := List.countP_le_length (p := fun l => decide (l.kind = .item)) (l := b.drop 0)
    rw [bothRemaining, sweepLimit]
    rw [List.length_drop] at *
    omega

/-- A sweep for both sets is a sweep for the modes, after which none is asked for, and then a sweep
for the marks. -/
theorem exists_sweeps_of_folded {edits : List Edit}
    (hturns : ∀ v ∈ visits ((filePermissions options).folded changedWhen) (sweepLimit b) b 0,
      TakesTurns options v.1 v.2)
    (hsweep : sweep sweepLimit ((filePermissions options).folded changedWhen) b = .ok (c, edits)) :
    ∃ m edits₁ edits₂, sweep sweepLimit (filePermissions options) b = .ok (m, edits₁) ∧
      AsksNoMode options m ∧ sweep sweepLimit changedWhen m = .ok (c, edits₂) ∧
        AsksNoMode options c := by
  obtain ⟨m, hmodes, hmarks⟩ := exists_walks_of_folded (walks_of_sweepFrom hsweep hturns)
  obtain ⟨⟨m', edits₁⟩, hsweep₁⟩ := (settlesInTwo_filePermissions options).exists_sweep b
  obtain ⟨⟨c', edits₂⟩, hsweep₂⟩ := settlesInTwo_changedWhen.exists_sweep m
  obtain rfl := hmodes.eq_of_sweep hsweep₁
  obtain rfl := hmarks.eq_of_sweep hsweep₂
  have hm := asksNoMode_of_walks hmodes
  exact ⟨m', edits₁, edits₂, hsweep₁, hm, hsweep₂, hm.of_walks hmarks⟩

theorem length_eq_of_visit_folded (hi : i < b.length) {v : Visit}
    (hv : visit ((filePermissions options).folded changedWhen) b i = .ok v) :
    v.buffer.length = b.length + v.edits.length := by
  obtain ⟨v₁, v₂, hv₁, _, hi₁, hv₂, rfl⟩ := exists_visits_of_folded hi hv
  rw [injects_readOnlyCommand.length_eq_of_visit rfl rfl hi₁ hv₂,
    (injects_explicitMode options).length_eq_of_visit rfl rfl hi hv₁, List.length_append,
    Nat.add_assoc]

/-- The passes of both sets, one after the other, end with the pass for both at once. -/
theorem exists_settles_of_folded
    (hturns : ∀ v ∈ passVisits ((filePermissions options).folded changedWhen) maxSweeps b,
      TakesTurns options v.1 v.2) :
    ∃ m c edits₁ edits₂ edits,
      settle sweepLimit (filePermissions options) maxSweeps b = .ok (m, edits₁) ∧
        settle sweepLimit changedWhen maxSweeps m = .ok (c, edits₂) ∧
          settle sweepLimit ((filePermissions options).folded changedWhen) maxSweeps b =
            .ok (c, edits) ∧ edits.length = edits₁.length + edits₂.length := by
  obtain ⟨⟨c₁, e₁⟩, hfirst⟩ := exists_sweep_folded options b
  obtain ⟨⟨c₂, e₂⟩, hsecond⟩ := exists_sweep_folded options c₁
  rw [maxSweeps, passVisits_succ hfirst, passVisits_succ hsecond] at hturns
  obtain ⟨m, _, _, hmodes, hm, hmarks, hc₁⟩ := exists_sweeps_of_folded
    (fun v hv => hturns v (List.mem_append_left _ hv)) hfirst
  obtain ⟨m₂, _, _, hmodes₂, _, hmarks₂, hc₂⟩ := exists_sweeps_of_folded
    (fun v hv => hturns v (List.mem_append_right _ (List.mem_append_left _ hv))) hsecond
  have hquiet {c : Buffer} (hc : AsksNoMode options c) :
      sweep sweepLimit (filePermissions options) c = .ok (c, []) :=
    sweep_eq_self_iff.2 ⟨hc.isSettled, length_le_sweepLimit c⟩
  cases Except.ok.inj (hmodes₂.symm.trans (hquiet hc₁))
  have hsettled := settlesInTwo_changedWhen.isSettled hmarks hmarks₂
  obtain ⟨log₁, h₁⟩ := exists_settle_of_sweeps hmodes (hquiet hm) hm.isSettled
  obtain ⟨log₂, h₂⟩ := exists_settle_of_sweeps hmarks hmarks₂ hsettled
  obtain ⟨log, hboth⟩ := exists_settle_of_sweeps hfirst hsecond
    (isSettled_folded rfl rfl hc₂.isSettled hsettled)
  refine ⟨m, c₂, log₁, log₂, log, h₁, h₂, hboth, ?_⟩
  have hlen₁ := length_eq_of_settle
    (fun hi hv => (injects_explicitMode options).length_eq_of_visit rfl rfl hi hv) h₁
  have hlen₂ := length_eq_of_settle
    (fun hi hv => injects_readOnlyCommand.length_eq_of_visit rfl rfl hi hv) h₂
  have hlen := length_eq_of_settle (fun hi hv => length_eq_of_visit_folded hi hv) hboth
  omega

end RuleSets

namespace Document

open Pass RuleSets

variable {options : RuleOptions} {d : Document}

/-- Modes and marks fold alike if, at every visit of the pass for both, the mode is measured and the
mark stands without a value in a task that waits for no further mode. -/
theorem foldsAlike_filePermissions_changedWhen
    (h : ∀ v ∈ passVisits ((filePermissions options).folded changedWhen) maxSweeps d.lines,
      TakesTurns options v.1 v.2) : d.FoldsAlike (filePermissions options) changedWhen := by
  obtain ⟨m, c, log₁, log₂, log, h₁, h₂, hboth, hlen⟩ := exists_settles_of_folded h
  obtain ⟨one, hone, hdocument, hcount⟩ := exists_applySets_of_settles rfl rfl h₁ h₂
  obtain ⟨both, hpass, hdocument', hcount'⟩ := exists_applyPass_of_settle rfl hboth
  exact foldsAlike_of_document_eq ⟨one, both, hone, hpass, by rw [hdocument', hdocument],
    by rw [hcount', hlen, hcount]⟩

/-- A list of tasks with modes and marks for either way. The mode of the first task goes above its
condition, and the second task is marked below its result. -/
theorem foldsAlike_filePermissions_changedWhen_tasks :
    let d := ofLines ["- name: a".toList, "  copy:".toList, "    src: b".toList,
      "    dest: c".toList, "  when: d".toList, "- shell: |".toList, "    cat e".toList,
      "  register: f".toList, "- file:".toList, "    path: /bin/g".toList]
    (∀ v ∈ passVisits ((filePermissions .standard).folded changedWhen) maxSweeps d.lines,
        TakesTurns .standard v.1 v.2) ∧
      d.FoldsAlike (filePermissions .standard) changedWhen ∧
        (d.applyPass ((filePermissions .standard).folded changedWhen)).map (fun o =>
          o.applied.map fun a => a.edit.line) = .ok [5, 10, 13] := by
  intro d
  have hturns : ∀ v ∈ passVisits ((filePermissions .standard).folded changedWhen) maxSweeps d.lines,
      TakesTurns .standard v.1 v.2 := by
    decide +kernel
  exact ⟨hturns, foldsAlike_filePermissions_changedWhen hturns, by decide +kernel⟩

/-- Three lists of tasks that one pass for both sets treats otherwise than two passes. In the first
the mode has no fields to go by, and the mark of the task above changes the step by which the
document is indented. In the second the mark has a value, which is no list of tasks. In the third it
cuts off the end of a module in its task. -/
theorem not_foldsAlike_of_mark :
    let step := ofLines ["- command: cat x".toList, "-     name: foo".toList,
      "      copy:".toList]
    let value := ofLines ["  - shell: ls".toList, "    block:".toList, "# a".toList,
      "      - copy:".toList, "          src: b".toList]
    let below := ofLines ["- command: cat x".toList, "  block:".toList, "    - file:".toList,
      "        path: a".toList, "          -".toList]
    ¬step.FoldsAlike (filePermissions .standard) changedWhen ∧
      ¬value.FoldsAlike (filePermissions .standard) changedWhen ∧
        ¬below.FoldsAlike (filePermissions .standard) changedWhen := by
  intro step value below
  have hdiffer (d : Document)
      (h : (d.applyPass ((filePermissions .standard).folded changedWhen)).map
        (fun o => (o.document.render, o.applied.length)) ≠
      (d.applySets [filePermissions .standard, changedWhen]).map
        fun o => (o.document.render, o.applied.length)) :
      ¬d.FoldsAlike (filePermissions .standard) changedWhen := fun halike => h halike.results_eq
  exact ⟨hdiffer _ (by decide +kernel), hdiffer _ (by decide +kernel),
    hdiffer _ (by decide +kernel)⟩

end Document

end TaskTidy
