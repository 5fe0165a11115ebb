import TaskTidy.Proofs.Bounds
import TaskTidy.Proofs.HiddenFields
import TaskTidy.Proofs.Walks
import TaskTidy.RuleSets.FilePermissions

/-!
# Injections of one pass

A pass of injections is a list of insertions, each into the document that the ones before it left. A
field that a block has is not injected into it again, and every block that measures its fields has
the field after one more injection. So a block gets a field once, or twice if it hid the first one.
-/

namespace TaskTidy

/-- An insertion of a pass: the document before it, the start of the block that it is made for, and
the new line with its index. -/
structure Insertion where
  buffer : Buffer
  start : Nat
  index : Nat
  line : Line
  deriving DecidableEq

namespace Pass

/-- The insertion that a block rule proposes at a line. -/
def insertion? (rule : BlockRule) (b : Buffer) (i : Nat) : Option Insertion :=
  match rule.answer? b i with
  | some (.insert p l) => some ⟨b, i, p, l⟩
  | _ => none

/-- The insertions of block rules at a line, each in the document that the rule before it left. -/
def insertionsAt : List BlockRule → Buffer → Nat → List Insertion
  | [], _, _ => []
  | rule :: rules, b, i =>
      match offerBlock rule b i with
      | .error _ => []
      | .ok (next, _) => (insertion? rule b i).toList ++ insertionsAt rules next i

/-- The insertions of a visit. -/
def visitInsertions (s : RuleSet) (b : Buffer) (i : Nat) : List Insertion :=
  let step := offerLine s.lineRules b i
  match step.advance? with
  | none => []
  | some _ => insertionsAt s.blockRules step.buffer i

/-- The insertions of the first `n` sweeps of a pass, in their order. -/
def passInsertions (s : RuleSet) (n : Nat) (b : Buffer) : List Insertion :=
  (passVisits s n b).flatMap fun v => visitInsertions s v.1 v.2

end Pass

/-- How often a field is inserted into the block that starts at line `j`, which moves with the lines
that are inserted above it. -/
def timesInserted (key : List Char) : Nat → List Insertion → Nat
  | _, [] => 0
  | j, m :: rest =>
      (if m.start = j ∧ m.line.key? = some key then 1 else 0) +
        timesInserted key (Buffer.shift m.index j) rest

/-- Insertions that lead from one document to another, each of them the answer of an injection with
a bare field. -/
inductive Injected : Buffer → List Insertion → Buffer → Prop
  | nil (b : Buffer) : Injected b [] b
  | cons {b last : Buffer} {r : FieldInjection} {i p : Nat} {x : Line} {rest : List Insertion}
      (hbare : Buffer.isBareKey r.field = true) (hx : Injects.At r b i p x)
      (hanswer : r.toBlockRule.answer? b i = some (.insert p x))
      (hrest : Injected (b.insertIdx p x) rest last) : Injected b (⟨b, i, p, x⟩ :: rest) last

namespace Injected

variable {b mid last : Buffer} {trace more : List Insertion} {j : Nat} {key : List Char}

theorem append (h : Injected b trace mid) (hmore : Injected mid more last) :
    Injected b (trace ++ more) last := by
  induction h with
  | nil => exact hmore
  | cons hbare hx hanswer _ ih => exact .cons hbare hx hanswer (ih hmore)

theorem of_append (h : Injected b (trace ++ more) last) : ∃ mid, Injected mid more last := by
  induction trace generalizing b with
  | nil => exact ⟨b, h⟩
  | cons m trace ih =>
      cases h with
      | cons _ _ _ hrest => exact ih hrest

/-- Injections only add lines, each at the index that it names. -/
theorem eq_foldl (h : Injected b trace last) :
    last = trace.foldl (fun b m => b.insertIdx m.index m.line) b := by
  induction h with
  | nil => rfl
  | cons _ _ _ _ ih => exact ih

/-- A field that a block has is not inserted into it. -/
theorem timesInserted_eq_zero (h : Injected b trace last)
    (hentry : (b.line j).kind.isEntry = true)
    (hfield : b.hasField ⟨j, b.stopOf j⟩ key = true) : timesInserted key j trace = 0 := by
  induction h generalizing j with
  | nil => rfl
  | @cons b last r i p x rest hbare hx hanswer _ ih =>
      have hother : ¬(i = j ∧ x.key? = some key) := by
        rintro ⟨rfl, hkey⟩
        obtain rfl := Option.some.inj ((hx.key?_eq hbare).symm.trans hkey)
        simp [BlockRule.answer?, FieldInjection.toBlockRule, FieldInjection.edit,
          FieldInjection.isSatisfied, hfield] at hanswer
      rw [timesInserted, if_neg hother, Nat.zero_add]
      apply ih
      · rwa [Buffer.line_insertIdx_shift hx.le_length]
      · exact hx.hasField_shift hbare hentry hfield

/-- A block that measures its fields gets no field twice. -/
theorem timesInserted_le_one (h : Injected b trace last)
    (hentry : (b.line j).kind.isEntry = true)
    (hd : (b.fieldDepth? ⟨j, b.stopOf j⟩).isSome = true) : timesInserted key j trace ≤ 1 := by
  induction h generalizing j with
  | nil => exact Nat.zero_le 1
  | @cons b last r i p x rest hbare hx hanswer hrest ih =>
      have hentry' : (Buffer.line (b.insertIdx p x) (Buffer.shift p j)).kind.isEntry = true := by
        rwa [Buffer.line_insertIdx_shift hx.le_length]
      rw [timesInserted]
      split
      · next hown =>
          obtain ⟨rfl, hkey⟩ := hown
          obtain rfl := Option.some.inj ((hx.key?_eq hbare).symm.trans hkey)
          have hfield := hx.hasField_self hbare hd (Or.inl rfl)
          rw [← Buffer.shift_of_lt hx.isPlace.1] at hfield
          rw [hrest.timesInserted_eq_zero hentry' (by
            rwa [Buffer.shift_of_lt hx.isPlace.1] at hfield ⊢)]
      · rw [Nat.zero_add]
        exact ih hentry' (hx.isSome_fieldDepth?_shift hbare hentry hd)

/-- A block that a field has been injected into gets it again only if it hid the field, and then
once. -/
theorem timesInserted_of_cons {m : Insertion} {rest : List Insertion}
    (h : Injected b (m :: rest) last) (hkey : m.line.key? = some key) :
    timesInserted key m.start rest ≤
      if m.buffer.HidesField ⟨m.start, m.buffer.stopOf m.start⟩ then 1 else 0 := by
  cases h with
  | @cons _ _ r i p x _ hbare hx hanswer hrest =>
      obtain rfl := Option.some.inj ((hx.key?_eq hbare).symm.trans hkey)
      have hentry : (Buffer.line (b.insertIdx p x) i).kind.isEntry = true := by
        rw [Buffer.line_insertIdx_of_lt hx.le_length x hx.isPlace.1]
        exact hx.isEntry
      split
      · exact hrest.timesInserted_le_one hentry (hx.isSome_fieldDepth?_self hbare)
      · next hshows =>
          apply Nat.le_of_eq
          apply hrest.timesInserted_eq_zero hentry
          obtain ⟨value, _, rfl⟩ := hx.isLine
          rw [hx.place_eq]
          exact (Buffer.hasField_insertIdx_iff hx.lt_length hbare r.anchors value).2 hshows

end Injected

namespace Pass

variable {s : RuleSet} {b last : Buffer} {i n : Nat}

/-- Every rule of the list is an injection of a bare field. -/
def AreInjections (rules : List BlockRule) : Prop :=
  ∀ rule ∈ rules, ∃ r : FieldInjection, Buffer.isBareKey r.field = true ∧ rule = r.toBlockRule

/-- An injection is carried out, or there is none. -/
theorem injection_cases (r : FieldInjection) (hi : i < b.length) :
    insertion? r.toBlockRule b i = none ∧ offerBlock r.toBlockRule b i = .ok (b, []) ∨
      ∃ p x, Injects.At r b i p x ∧ r.toBlockRule.answer? b i = some (.insert p x) ∧
        offerBlock r.toBlockRule b i = .ok (b.insertIdx p x, [⟨r.name, p + 1⟩]) := by
  rcases offerBlock_cases (.injection r) hi with ⟨hnone, hok⟩ | ⟨edit, hanswer, -, -, hok⟩
  · exact Or.inl ⟨by rw [insertion?, hnone], hok⟩
  · obtain ⟨p, x, rfl, hx⟩ := Injects.exists_at hi hanswer
    exact Or.inr ⟨p, x, hx, hanswer, hok⟩

/-- Injections at a line are carried out one after the other, and each is logged. -/
theorem exists_injected_of_offerBlocks {rules : List BlockRule} (h : AreInjections rules)
    (hi : i < b.length) :
    ∃ last edits, offerBlocks rules b i = .ok (last, edits) ∧
      Injected b (insertionsAt rules b i) last ∧
      edits.map Edit.line = (insertionsAt rules b i).map fun m => m.index + 1 := by
  induction rules generalizing b with
  | nil => exact ⟨b, [], rfl, .nil b, rfl⟩
  | cons rule rules ih =>
      obtain ⟨r, hbare, rfl⟩ := h rule List.mem_cons_self
      have hrest : AreInjections rules := fun rule hrule => h rule (List.mem_cons_of_mem _ hrule)
      rcases injection_cases r hi with ⟨hnone, hoffer⟩ | ⟨p, x, hx, hanswer, hoffer⟩
      · obtain ⟨last, edits, hoffers, hinjected, hlog⟩ := ih hrest hi
        refine ⟨last, edits, by simp [offerBlocks, hoffer, hoffers], ?_⟩
        simp only [insertionsAt, hoffer, hnone, Option.toList_none, List.nil_append]
        exact ⟨hinjected, hlog⟩
      · have hi' : i < (b.insertIdx p x).length := by
          rw [List.length_insertIdx_of_le_length hx.le_length]
          exact Nat.lt_succ_of_lt hi
        obtain ⟨last, edits, hoffers, hinjected, hlog⟩ := ih hrest hi'
        refine ⟨last, ⟨r.name, p + 1⟩ :: edits, by simp [offerBlocks, hoffer, hoffers], ?_⟩
        have hmade : insertion? r.toBlockRule b i = some ⟨b, i, p, x⟩ := by
          rw [insertion?, hanswer]
        simp only [insertionsAt, hoffer, hmade, Option.toList_some, List.singleton_append]
        exact ⟨.cons hbare hx hanswer hinjected, by simp [hlog]⟩

section

variable (hl : s.lineRules = []) (hb : AreInjections s.blockRules)

include hl hb

theorem exists_visit_of_areInjections (hi : i < b.length) :
    ∃ last edits, visit s b i = .ok ⟨last, edits, i + 1⟩ ∧
      Injected b (visitInsertions s b i) last ∧
      edits.map Edit.line = (visitInsertions s b i).map fun m => m.index + 1 := by
  obtain ⟨last, edits, hoffers, hinjected⟩ := exists_injected_of_offerBlocks hb hi
  refine ⟨last, edits, by simp [visit, offerLine, firstAnswer?, hl, hoffers], ?_⟩
  simpa [visitInsertions, offerLine, firstAnswer?, hl] using hinjected

/-- A walk of injections is a list of insertions, also if it has no end. -/
theorem exists_injected_visits (fuel : Nat) (b : Buffer) (i : Nat) :
    ∃ last, Injected b ((visits s fuel b i).flatMap fun v => visitInsertions s v.1 v.2) last ∧
      ∀ next edits, sweepFrom s fuel b i = .ok (next, edits) → next = last ∧
        edits.map Edit.line =
          ((visits s fuel b i).flatMap fun v => visitInsertions s v.1 v.2).map
            fun m => m.index + 1 := by
  induction fuel generalizing b i with
  | zero =>
      refine ⟨b, .nil b, fun next edits h => ?_⟩
      rcases of_sweepFrom h with ⟨_, rfl, rfl⟩ | ⟨_, _, _, hfuel, _⟩
      · exact ⟨rfl, rfl⟩
      · cases hfuel
  | succ fuel ih =>
      by_cases hi : i < b.length
      · obtain ⟨mid, first, hvisit, hinjected, hlog⟩ := exists_visit_of_areInjections hl hb hi
        obtain ⟨last, hrest, hend⟩ := ih mid (i + 1)
        simp only [visits, if_pos hi, hvisit, List.flatMap_cons]
        refine ⟨last, hinjected.append hrest, fun next edits h => ?_⟩
        rcases of_sweepFrom h with ⟨hle, _⟩ | ⟨fuel', v, rest, hfuel, _, hv, hsweep, rfl⟩
        · omega
        · obtain rfl := Nat.succ.inj hfuel
          cases Except.ok.inj (hv.symm.trans hvisit)
          obtain ⟨rfl, hmore⟩ := hend next rest hsweep
          rw [List.map_append, List.map_append, hlog, hmore]
          exact ⟨rfl, rfl⟩
      · simp only [visits, if_neg hi]
        refine ⟨b, .nil b, fun next edits h => ?_⟩
        rw [sweepFrom_of_length_le (Nat.le_of_not_lt hi)] at h
        cases h
        exact ⟨rfl, rfl⟩

/-- A document that a sweep leaves alone gets no insertions. -/
theorem passInsertions_of_sweep (h : sweep sweepLimit s b = .ok (b, [])) (n : Nat) :
    passInsertions s n b = [] := by
  induction n with
  | zero => rfl
  | succ n ih =>
      obtain ⟨last, _, hend⟩ := exists_injected_visits hl hb (sweepLimit b) b 0
      have hnil := (hend b [] h).2.symm
      rw [List.map_nil, List.map_eq_nil_iff] at hnil
      rw [passInsertions, passVisits_succ h, List.flatMap_append, hnil, List.nil_append]
      exact ih

/-- A pass of injections is a list of insertions, and each of them is logged. -/
theorem exists_injected_passInsertions (n : Nat) (b : Buffer) :
    ∃ last, Injected b (passInsertions s n b) last ∧
      ∀ next edits, settle sweepLimit s n b = .ok (next, edits) → next = last ∧
        edits.map Edit.line = (passInsertions s n b).map fun m => m.index + 1 := by
  induction n generalizing b with
  | zero => exact ⟨b, .nil b, fun _ _ h => by cases h⟩
  | succ n ih =>
      obtain ⟨mid, hfirst, hend⟩ := exists_injected_visits hl hb (sweepLimit b) b 0
      cases hsweep : sweep sweepLimit s b with
      | error cause =>
          refine ⟨mid, ?_, fun next edits h => ?_⟩
          · simpa only [passInsertions, passVisits, hsweep, List.append_nil] using hfirst
          · obtain ⟨_, _, hok, _⟩ := of_settle h
            rw [hsweep] at hok
            cases hok
      | ok result =>
          obtain ⟨next, first⟩ := result
          obtain ⟨rfl, hlog⟩ := hend next first hsweep
          obtain ⟨last, hrest, hmore⟩ := ih next
          have htrace : passInsertions s (n + 1) b =
              ((visits s (sweepLimit b) b 0).flatMap fun v => visitInsertions s v.1 v.2) ++
                passInsertions s n next := by
            rw [passInsertions, passVisits_succ hsweep, List.flatMap_append, passInsertions]
          rw [htrace]
          refine ⟨last, hfirst.append hrest, fun final edits h => ?_⟩
          obtain ⟨next', first', hok, hcases⟩ := of_settle h
          cases Except.ok.inj (hok.symm.trans hsweep)
          rcases hcases with ⟨rfl, rfl, rfl⟩ | ⟨n', more, hn, _, hsettle, rfl⟩
          · obtain rfl := eq_of_sweep_of_edits_eq_nil hsweep
            have hnone := passInsertions_of_sweep hl hb hsweep n
            rw [hnone] at hrest ⊢
            cases hrest
            exact ⟨rfl, by rw [List.append_nil, ← hlog]⟩
          · obtain rfl := Nat.succ.inj hn
            obtain ⟨rfl, hlater⟩ := hmore final more hsettle
            exact ⟨rfl, by rw [List.map_append, List.map_append, hlog, hlater]⟩

end

end Pass

namespace Document

open Pass RuleSets

/-- A block has the field that is injected into it exactly if it does not hide it. So a pass of
injections, whose insertions are the lines that it adds and the edits that it logs, gives a block a
field again only if the block hid it, and then once. -/
theorem field_injected_once (d : Document) :
    (∀ {i : Nat} {e : Extent} {key : List Char} (a : Anchors) (value : List Char),
      Buffer.extentOf d.lines i = .ok e → Buffer.isBareKey key = true →
        ∃ e', Buffer.extentOf (Buffer.injectField d.lines e a key value) i = .ok e' ∧
          (Buffer.hasField (Buffer.injectField d.lines e a key value) e' key = true ↔
            ¬Buffer.HidesField d.lines e)) ∧
    ∀ {s : RuleSet}, s.lineRules = [] → AreInjections s.blockRules →
      (∀ outcome, d.applyPass s = .ok outcome →
        outcome.document.lines = (passInsertions s maxSweeps d.lines).foldl
            (fun b m => b.insertIdx m.index m.line) d.lines ∧
          outcome.log.map Edit.line =
            (passInsertions s maxSweeps d.lines).map fun m => m.index + 1) ∧
      ∀ {before after : List Insertion} {m : Insertion} {key : List Char},
        passInsertions s maxSweeps d.lines = before ++ m :: after → m.line.key? = some key →
          timesInserted key m.start after ≤
            if m.buffer.HidesField ⟨m.start, m.buffer.stopOf m.start⟩ then 1 else 0 := by
  constructor
  · intro i e key a value he hkey
    obtain ⟨hi, rfl⟩ := Buffer.extentOf_eq_ok_iff.1 he
    refine ⟨_, Buffer.extentOf_eq_ok_iff.2 ⟨?_, rfl⟩, Buffer.hasField_insertIdx_iff hi hkey a value⟩
    rw [Buffer.injectField,
      List.length_insertIdx_of_le_length ((d.lines.isPlace_insertionIndex i a).le_length hi)]
    exact Nat.lt_succ_of_lt hi
  · intro s hl hb
    obtain ⟨last, hinjected, hend⟩ := exists_injected_passInsertions hl hb maxSweeps d.lines
    constructor
    · intro outcome houtcome
      obtain ⟨lines, edits, hsettle, hdocument, happlied⟩ := of_applyPassWithin houtcome
      obtain ⟨rfl, hlog⟩ := hend lines edits hsettle
      rw [hdocument, withLines_lines, Outcome.log_eq happlied]
      exact ⟨hinjected.eq_foldl, hlog⟩
    · intro before after m key htrace hkey
      rw [htrace] at hinjected
      obtain ⟨mid, hrest⟩ := hinjected.of_append
      exact hrest.timesInserted_of_cons hkey

/-- Of two files each gets a mode, and the first one gets none again. -/
theorem field_injected_once_copies :
    ∃ (b : Buffer) (e' : Extent) (m m' : Insertion),
      b = ["- copy:".toList, "    src: a".toList, "- copy:".toList, "    src: b".toList] ∧
      Buffer.extentOf (b.injectField ⟨0, 2⟩ ⟨[], []⟩ "mode".toList "'0644'".toList) 0 = .ok e' ∧
      Buffer.hasField (b.injectField ⟨0, 2⟩ ⟨[], []⟩ "mode".toList "'0644'".toList) e'
        "mode".toList = true ∧
      passInsertions (filePermissions .standard) maxSweeps b = [] ++ m :: [m'] ∧
      timesInserted "mode".toList m.start [m'] = 0 := by
  have hinjections : AreInjections (filePermissions .standard).blockRules := by
    intro rule hrule
    refine ⟨explicitMode .standard, by decide, ?_⟩
    exact List.mem_singleton.1 hrule
  have htrace : passInsertions (filePermissions .standard) maxSweeps
      (ofLines ["- copy:".toList, "    src: a".toList, "- copy:".toList,
        "    src: b".toList]).lines =
      [] ++ ⟨["- copy:".toList, "    src: a".toList, "- copy:".toList, "    src: b".toList], 0, 2,
        "    mode: '0644'".toList⟩ :: [⟨["- copy:".toList, "    src: a".toList,
          "    mode: '0644'".toList, "- copy:".toList, "    src: b".toList], 3, 5,
        "    mode: '0644'".toList⟩] := by
    decide +kernel
  obtain ⟨hfound, honce⟩ := field_injected_once (ofLines ["- copy:".toList, "    src: a".toList,
    "- copy:".toList, "    src: b".toList])
  obtain ⟨e', he', hfield⟩ := hfound ⟨[], []⟩ "'0644'".toList
    (show Buffer.extentOf ["- copy:".toList, "    src: a".toList, "- copy:".toList,
      "    src: b".toList] 0 = .ok ⟨0, 2⟩ by decide +kernel)
    (show Buffer.isBareKey "mode".toList = true by decide)
  refine ⟨_, e', _, _, rfl, he', hfield.2 (by decide +kernel), htrace, ?_⟩
  have hle := (honce rfl hinjections).2 htrace
    (show Line.key? "    mode: '0644'".toList = some "mode".toList by decide +kernel)
  rw [if_neg (by decide +kernel)] at hle
  exact Nat.le_zero.1 hle

/-- A copy without an entry hides its mode behind a shallower line, and gets another one. -/
theorem not_field_injected_once :
    (∃ (b : Buffer) (i : Nat) (e e' : Extent) (a : Anchors) (key value : List Char),
      (b.line i).kind.isEntry = true ∧ b.extentOf i = .ok e ∧ Buffer.isBareKey key = true ∧
      Buffer.extentOf (b.injectField e a key value) i = .ok e' ∧
      Buffer.hasField (b.injectField e a key value) e' key = false) ∧
    ∃ (d : Document) (outcome : Outcome) (m : Insertion) (after : List Insertion),
      d.lines = ["- name: x".toList, "  copy:".toList, "      src=a".toList,
        "   dest=b".toList] ∧
      d.applyPass (filePermissions .standard) = .ok outcome ∧
      outcome.document.lines = ["- name: x".toList, "  copy:".toList, "      src=a".toList,
        "    mode: '0644'".toList, "   dest=b".toList, "    mode: '0644'".toList] ∧
      passInsertions (filePermissions .standard) maxSweeps d.lines = m :: after ∧
      timesInserted "mode".toList m.start after = 1 := by
  constructor
  · exact ⟨["- name: x".toList, "  copy:".toList, "      src=a".toList, "   dest=b".toList], 1,
      ⟨1, 4⟩, ⟨1, 5⟩, ⟨[], []⟩, "mode".toList, "'0644'".toList, by decide +kernel,
      by decide +kernel, by decide, by decide +kernel, by decide +kernel⟩
  · exact ⟨ofLines ["- name: x".toList, "  copy:".toList, "      src=a".toList,
      "   dest=b".toList],
      ⟨ofLines ["- name: x".toList, "  copy:".toList, "      src=a".toList,
        "    mode: '0644'".toList, "   dest=b".toList, "    mode: '0644'".toList], true,
        [⟨"file-permissions", ⟨"explicit-mode", 5⟩⟩, ⟨"file-permissions", ⟨"explicit-mode", 4⟩⟩]⟩,
      ⟨["- name: x".toList, "  copy:".toList, "      src=a".toList, "   dest=b".toList], 1, 4,
        "    mode: '0644'".toList⟩,
      [⟨["- name: x".toList, "  copy:".toList, "      src=a".toList, "   dest=b".toList,
        "    mode: '0644'".toList], 1, 3, "    mode: '0644'".toList⟩],
      by decide +kernel, by decide +kernel, by decide +kernel, by decide +kernel,
      by decide +kernel⟩

end Document

end TaskTidy
