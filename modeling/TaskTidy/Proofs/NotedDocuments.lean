import TaskTidy.Proofs.Notes

/-!
# Passes over documents with a note

The modes and the marks answer for every block as if a note were not there, unless the key of the
note heads a sequence at its own depth, holds the arguments or the target of a file module, or is a
module whose command only reads state. An insertion moves the note and keeps it so, and so a pass
makes the same edits with the note as without it.
-/

namespace TaskTidy

namespace RuleSets

open Buffer

variable {b : Buffer} {i k p : Nat} {x : Line} {text : List Char} {options : RuleOptions}

/-- The keys that name the target of a file module. -/
def targetKeys : List (List Char) :=
  Text.keys ["dest", "path", "src"]

/-- The modes overlook a note: its key heads no sequence at its own depth, is no file module but on
a dash and without an argument in the note, and does not take the note for the target of one. -/
structure ModesOverlook (b : Buffer) (k : Nat) (text : List Char) : Prop where
  headsSequence_eq : b.headsSequence k = false
  arguments : (b.line k).hasKeyIn fileModules = true → (b.line k).kind = .item ∧ '=' ∉ text
  target : (b.line k).hasKeyIn targetKeys = true →
    isExecutable (unquote (Text.trim ('#' :: text))) = false

/-- The marks overlook a note: its key heads no sequence at its own depth, no command that only
reads state is found through it, and the note names no file behind a line of a script that reads
like such a command. -/
structure MarksOverlook (b : Buffer) (k : Nat) (text : List Char) : Prop where
  headsSequence_eq : b.headsSequence k = false
  command : (b.line k).kind = .parameter → (b.line k).hasKeyIn commandModules = true →
    (b.commandLine? k).any (fun c => readsState c.text) = false
  script : isReadOnlyText (Text.trim (b.line k)) = true → namesEffect text = false

/-! ### Modes -/

private theorem head?_unquote_note (text : List Char) :
    (unquote (Text.trim ('#' :: text))).head? = some '#' := by
  have hhead (rest : List Char) : unquote (['#'] ++ rest) =
      ['#'] ++ Text.dropEndWhile (fun c => c == '"' || c == '\'') rest :=
    unquote_append (List.cons_ne_nil _ _) (by simp) rest
  rw [Text.trim_cons (by decide)]
  exact congrArg List.head? (hhead _)

section

variable (h : (b.line k).LacksValue)

include h

/-- A field has a value without a hash at its start with a note if and only if it has it without. -/
private theorem fieldValue?_eq_some_iff {s : List Char} (hs : s.head? ≠ some '#')
    (text key : List Char) (e : Extent) :
    (Buffer.fieldValue? (b.withNote k text) e key).map unquote = some s ↔
      (b.fieldValue? e key).map unquote = some s := by
  rcases fieldValue?_withNote h text key e with hsame | ⟨_, hnone, hnote⟩
  · rw [hsame]
  · rw [hnone, hnote, Option.map_some, Option.map_none]
    refine iff_of_false (fun heq => hs ?_) (by simp)
    rw [← Option.some.inj heq, head?_unquote_note]

/-- A file module has an executable target with an overlooked note if and only if it has it
without. -/
private theorem any_isExecutable_withNote
    (htarget : (b.line k).hasKeyIn targetKeys = true →
      isExecutable (unquote (Text.trim ('#' :: text))) = false) (e : Extent) :
    (targetKeys.filterMap fun key =>
        (Buffer.fieldValue? (b.withNote k text) e key).map unquote).any isExecutable =
      (targetKeys.filterMap fun key => (b.fieldValue? e key).map unquote).any isExecutable := by
  rw [Bool.eq_iff_iff, List.any_eq_true, List.any_eq_true]
  refine exists_congr fun target => and_congr_left fun hexec => ?_
  rw [List.mem_filterMap, List.mem_filterMap]
  refine exists_congr fun key => and_congr_right fun hmem => ?_
  rcases fieldValue?_withNote h text key e with hsame | ⟨hkey, hnone, hnote⟩
  · rw [hsame]
  · rw [hnone, hnote, Option.map_some, Option.map_none]
    refine iff_of_false (fun heq => ?_) (by simp)
    rw [Line.hasKey, beq_iff_eq] at hkey
    have hplain := htarget (Line.hasKeyIn_iff.2 ⟨key, hmem, hkey⟩)
    rw [Option.some.inj heq, hexec] at hplain
    cases hplain

/-- The arguments of a file module leave room as before behind an overlooked note. -/
private theorem takesNestedMode_withNote
    (harguments : (b.line k).hasKeyIn fileModules = true → (b.line k).kind = .item ∧ '=' ∉ text)
    (hselected : (b.line i).hasKeyIn fileModules = true) (stop : Nat) :
    takesNestedMode (b.withNote k text) ⟨i, stop⟩ = takesNestedMode b ⟨i, stop⟩ := by
  by_cases hik : i = k
  · subst hik
    obtain ⟨hitem, hfree⟩ := harguments hselected
    have hnote : (Text.trim ('#' :: text)).contains '=' = false := by
      rw [← Bool.not_eq_true, List.contains_iff_mem]
      intro hmem
      rcases List.mem_cons.1 (Line.mem_of_mem_trim hmem) with heq | hmem
      · cases heq
      · exact hfree hmem
    simp only [takesNestedMode, withNote, line_set_self (lt_length_of_lacksValue h),
      h.value?_withNote, h.2, hnote, (h.sameEntry_withNote text).kind_eq, hitem]
    rfl
  · simp only [takesNestedMode, withNote, line_set_of_ne hik]

theorem modeFor?_withNote (ho : ModesOverlook b k text) (hi : i < b.length)
    (hselected : (b.line i).hasKeyIn fileModules = true) (stop : Nat) :
    modeFor? options (b.withNote k text) ⟨i, stop⟩ = modeFor? options b ⟨i, stop⟩ := by
  have htask := isTask_withNote h ho.headsSequence_eq text (e := ⟨i, stop⟩) hi
  have hroom := takesNestedMode_withNote h ho.arguments hselected stop
  have hfield : Buffer.hasField (b.withNote k text) ⟨i, stop⟩ "recurse".toList =
      b.hasField ⟨i, stop⟩ "recurse".toList := by
    rw [hasField, hasField, withNote,
      fields_set (lt_length_of_lacksValue h) (h.sameEntry_withNote text)]
  have hstate {s : List Char} (hs : s.head? ≠ some '#') :=
    fieldValue?_eq_some_iff h hs text "state".toList ⟨i, stop⟩
  have habsent : ((Text.keys ["absent", "link", "hard"]).any fun s =>
        (Buffer.fieldValue? (b.withNote k text) ⟨i, stop⟩ "state".toList).map unquote == some s) =
      (Text.keys ["absent", "link", "hard"]).any fun s =>
        (b.fieldValue? ⟨i, stop⟩ "state".toList).map unquote == some s := by
    have hplain : (Text.keys ["absent", "link", "hard"]).all (fun s => s.head? != some '#') =
        true := by decide
    rw [Bool.eq_iff_iff, List.any_eq_true, List.any_eq_true]
    refine exists_congr fun s => and_congr_right fun hmem => ?_
    rw [beq_iff_eq, beq_iff_eq]
    exact hstate (bne_iff_ne.1 (List.all_eq_true.1 hplain s hmem))
  have htarget := any_isExecutable_withNote h ho.target ⟨i, stop⟩
  rw [targetKeys] at htarget
  simp only [modeFor?, htask, hroom, hfield, habsent, htarget,
    hstate (s := "directory".toList) (by decide)]

/-- The modes answer for every block as without the note. -/
theorem answer?_explicitMode_withNote (ho : ModesOverlook b k text) (hi : i < b.length) :
    (explicitMode options).toBlockRule.answer? (b.withNote k text) i =
      (explicitMode options).toBlockRule.answer? b i := by
  have hline := sameEntry_line_withNote h text i
  refine answer?_set_of_value? (lt_length_of_lacksValue h) (h.sameEntry_withNote text) ?_
    (fun hselected => modeFor?_withNote h ho hi hselected _)
    fun f hf => fieldEnd_withNote h ho.headsSequence_eq text hf
  exact (hline.sharesKeys fileModules).hasKeyIn_eq (List.Subset.refl _)

/-! ### Marks -/

/-- A task only reads state with an overlooked note if and only if it does without it. -/
theorem isReadOnlyTask_withNote (ho : MarksOverlook b k text) (hi : i < b.length) (stop : Nat) :
    isReadOnlyTask (b.withNote k text) ⟨i, stop⟩ = isReadOnlyTask b ⟨i, stop⟩ := by
  have hk := lt_length_of_lacksValue h
  have hline := h.sameEntry_withNote text
  have htask := isTask_withNote h ho.headsSequence_eq text (e := ⟨i, stop⟩) hi
  have hfind : Buffer.findKey? (b.withNote k text) ⟨i, stop⟩ commandModules =
      b.findKey? ⟨i, stop⟩ commandModules :=
    findKey?_set hk (hline.sharesKeys _) (List.Subset.refl _) _
  have heffects := any_hasKeyIn_set (hline.sharesKeys (Text.keys ["creates", "removes"]))
    ⟨i, stop⟩
  rw [isReadOnlyTask_eq_any, isReadOnlyTask_eq_any, htask, hfind, withNote, heffects, ← withNote]
  congr 2
  cases hfound : b.findKey? ⟨i, stop⟩ commandModules with
  | none => rfl
  | some found =>
      rw [Option.any_some, Option.any_some]
      by_cases hfk : found.index = k
      · rw [hfk, any_commandLine?_withNote_self h, Bool.and_false]
        by_cases hki : k = i
        · simp [← hki, h.2]
        · have hkind := (eq_start_or_kind_of_findKey? hfound).resolve_left (by rwa [hfk])
          have hkey := hasKeyIn_of_findKey? hfound
          rw [hfk] at hkind hkey
          rw [ho.command hkind hkey, Bool.and_false]
      · rw [any_commandLine?_withNote h ho.script hfk]
        by_cases hik : i = k
        · simp [hik, hfk]
        · rw [withNote, line_set_of_ne hik]

/-- The marks answer for every block as without the note. -/
theorem answer?_readOnlyCommand_withNote (ho : MarksOverlook b k text) (hi : i < b.length) :
    readOnlyCommand.toBlockRule.answer? (b.withNote k text) i =
      readOnlyCommand.toBlockRule.answer? b i := by
  have hline := h.sameEntry_withNote text
  refine answer?_set_of_value? (lt_length_of_lacksValue h) hline ?_ (fun _ => ?_)
    fun f hf => fieldEnd_withNote h ho.headsSequence_eq text hf
  · exact selects_set (lt_length_of_lacksValue h) (hline.sharesKeys _) (List.Subset.refl _) i
  · have htask := isReadOnlyTask_withNote h ho hi (b.stopOf i)
    rw [withNote] at htask
    simp only [readOnlyCommand, htask]

end

end RuleSets

/-! ### Walks over a note -/

/-- An injection overlooks the note in every document of a family, and its insertions lead from one
document of the family to another. -/
structure FieldInjection.Overlooks (r : FieldInjection) (text : List Char)
    (P : Buffer → Nat → Prop) : Prop where
  answer?_eq : ∀ {b : Buffer} {k i : Nat}, (b.line k).LacksValue → P b k → i < b.length →
    r.toBlockRule.answer? (b.withNote k text) i = r.toBlockRule.answer? b i
  insert : ∀ {b : Buffer} {k i p : Nat} {x : Line}, P b k → Injects.At r b i p x →
    P (b.insertIdx p x) (Buffer.shift p k)

namespace RuleSets

open Buffer

variable {text : List Char}

/-- The modes overlook a note also behind an inserted mode. -/
theorem overlooks_explicitMode (options : RuleOptions) (text : List Char) :
    (explicitMode options).Overlooks text fun b k => ModesOverlook b k text where
  answer?_eq h ho hi := answer?_explicitMode_withNote h ho hi
  insert {b k i p x} ho hx := by
    have hline := line_insertIdx_shift hx.le_length x k
    have hkind := hx.kind_eq (injects_explicitMode options).isBareKey
    exact {
      headsSequence_eq := headsSequence_insertIdx hx.le_length hkind ho.headsSequence_eq
      arguments := by rw [hline]; exact ho.arguments
      target := by rw [hline]; exact ho.target }

/-- An inserted line that is no command that only reads state does not make a module find one. -/
theorem any_commandLine?_insertIdx {b : Buffer} {k p : Nat} {x : Line} (hp : p ≤ b.length)
    (hcmd : isCmd x = false) (hx : isReadOnlyText (Text.trim x) = false)
    (h : (b.commandLine? k).any (fun c => readsState c.text) = false) :
    (Buffer.commandLine? (b.insertIdx p x) (shift p k)).any (fun c => readsState c.text) =
      false := by
  have hany (c : Buffer) (n : Nat) : (c.commandLine? n).any (fun c => readsState c.text) =
      (commandTextBelow? (c.line n) (c.drop (n + 1))).any readsState := by
    rw [← commandLine?_eq, Option.any_map]
  obtain ⟨D, hbelow⟩ : ∃ D, InsertedBelow x D (b.drop (k + 1))
      ((b.insertIdx p x).drop (shift p k + 1)) := by
    rcases Nat.lt_or_ge k p with hkp | hpk
    · rw [shift_of_lt hkp]
      exact ⟨b.drop p, Or.inr ⟨_, drop_of_lt hkp, drop_insertIdx_of_lt hp x hkp⟩⟩
    · rw [shift_of_le hpk]
      exact ⟨[], Or.inl (drop_insertIdx_of_le hp x (Nat.le_succ_of_le hpk))⟩
  rw [hany] at h ⊢
  rw [line_insertIdx_shift hp, ← Bool.not_eq_true]
  intro hreads
  obtain ⟨command, hcommand, hreads⟩ := (Option.any_eq_true _ _).1 hreads
  rcases of_commandTextBelow?_insert hcmd hbelow hcommand with rfl | hbefore
  · rw [readsState, hx, Bool.and_false] at hreads
    cases hreads
  · rw [hbefore, Option.any_some, hreads] at h
    cases h

/-- The marks overlook a note also behind an inserted mark. -/
theorem overlooks_readOnlyCommand (text : List Char) :
    readOnlyCommand.Overlooks text fun b k => MarksOverlook b k text where
  answer?_eq h ho hi := answer?_readOnlyCommand_withNote h ho hi
  insert {b k i p x} ho hx := by
    have hline := line_insertIdx_shift hx.le_length x k
    have hkind := hx.kind_eq injects_readOnlyCommand.isBareKey
    obtain ⟨value, hvalue, rfl⟩ := hx.isLine
    obtain ⟨hcmd, htext⟩ := not_command_of_mark hvalue (b.childDepth ⟨i, b.stopOf i⟩)
    exact {
      headsSequence_eq := headsSequence_insertIdx hx.le_length hkind ho.headsSequence_eq
      command := by
        rw [hline]
        exact fun hparameter hkey =>
          any_commandLine?_insertIdx hx.le_length hcmd htext (ho.command hparameter hkey)
      script := by rw [hline]; exact ho.script }

end RuleSets

namespace Pass

open Buffer

/-- The index of a line after the insertions that a log names. -/
def movedBy (edits : List Edit) (k : Nat) : Nat :=
  edits.foldl (fun k edit => shift (edit.line - 1) k) k

theorem movedBy_append (edits more : List Edit) (k : Nat) :
    movedBy (edits ++ more) k = movedBy more (movedBy edits k) :=
  List.foldl_append

section

variable {r : FieldInjection} {asks : Line → List Line → Bool} {starts : Line → Bool}
  {s : RuleSet} {text : List Char} {P : Buffer → Nat → Prop} {b last : Buffer} {i k : Nat}
  {edits : List Edit}

/-- What edits leave of a document with a note: line `k` has moved and is as it was, and the note on
it is still overlooked. -/
structure Carries (P : Buffer → Nat → Prop) (b : Buffer) (k : Nat) (last : Buffer)
    (edits : List Edit) : Prop where
  line_eq : last.line (movedBy edits k) = b.line k
  overlooked : P last (movedBy edits k)

theorem Carries.append {mid : Buffer} {more : List Edit} (h : Carries P b k mid edits)
    (hmore : Carries P mid (movedBy edits k) last more) :
    Carries P b k last (edits ++ more) := by
  refine ⟨?_, ?_⟩
  · rw [movedBy_append, hmore.line_eq, h.line_eq]
  · rw [movedBy_append]
    exact hmore.overlooked

variable (h : Injects r asks starts) (hl : s.lineRules = []) (hb : s.blockRules = [r.toBlockRule])
  (ho : r.Overlooks text P)

include h hl hb ho

/-- A visit makes the same edits with an overlooked note as without it. -/
theorem visit_withNote (hline : (b.line k).LacksValue) (hP : P b k) (hi : i < b.length) {v : Visit}
    (hv : visit s b i = .ok v) :
    visit s (b.withNote k text) i =
        .ok ⟨v.buffer.withNote (movedBy v.edits k) text, v.edits, v.next⟩ ∧
      Carries P b k v.buffer v.edits := by
  have hi' : i < (b.withNote k text).length := by rwa [withNote, List.length_set]
  have hanswer := ho.answer?_eq hline hP hi
  rcases h.visit_cases hl hb hi hv with ⟨hnone, rfl⟩ | ⟨p, x, hx, _, hsome, rfl⟩
  · rw [Option.isSome_eq_false_iff, Option.isNone_iff_eq_none] at hnone
    exact ⟨isQuiet_of_answer? hl hb hi' (hanswer.trans hnone), rfl, hP⟩
  · have hp : p ≤ (b.withNote k text).length := by
      rw [withNote, List.length_set]
      exact hx.le_length
    have hshifted : (b.withNote k text).insertIdx p x =
        Buffer.withNote (b.insertIdx p x) (shift p k) text := by
      rw [withNote, withNote, line_insertIdx_shift hx.le_length, set_insertIdx_shift hx.le_length]
    refine ⟨?_, line_insertIdx_shift hx.le_length x k, ho.insert hP hx⟩
    rw [visit_of_answer? hl hb hi' (hanswer.trans (hx.answer?_eq hsome)) hp, BlockEdit.apply,
      hshifted]
    rfl

/-- A walk makes the same edits with an overlooked note as without it. -/
theorem sweepFrom_withNote {fuel : Nat} (hline : (b.line k).LacksValue) (hP : P b k)
    (hsweep : sweepFrom s fuel b i = .ok (last, edits)) :
    sweepFrom s fuel (b.withNote k text) i = .ok (last.withNote (movedBy edits k) text, edits) ∧
      Carries P b k last edits := by
  have hlength : (b.withNote k text).length = b.length := by rw [withNote, List.length_set]
  induction fuel generalizing b i k edits with
  | zero =>
      rcases of_sweepFrom hsweep with ⟨hend, rfl, rfl⟩ | ⟨_, _, _, hfuel, _⟩
      · exact ⟨sweepFrom_of_length_le (by rwa [hlength]) 0, rfl, hP⟩
      · cases hfuel
  | succ fuel ih =>
      rcases of_sweepFrom hsweep with ⟨hend, rfl, rfl⟩ | ⟨_, v, rest, hfuel, hi, hv, hrest, rfl⟩
      · exact ⟨sweepFrom_of_length_le (by rwa [hlength]) _, rfl, hP⟩
      · obtain rfl := Nat.succ.inj hfuel
        obtain ⟨hvisit, hcarries⟩ := visit_withNote h hl hb ho hline hP hi hv
        have hline' : (v.buffer.line (movedBy v.edits k)).LacksValue := by
          rwa [hcarries.line_eq]
        obtain ⟨hlater, hmore⟩ := ih hline' hcarries.overlooked hrest
          (by rw [withNote, List.length_set])
        refine ⟨?_, hcarries.append hmore⟩
        rw [movedBy_append]
        exact (sweepFrom_succ (by rwa [hlength]) hvisit hlater :)

/-- A pass makes the same edits with an overlooked note as without it. -/
theorem settle_withNote {n : Nat} (hline : (b.line k).LacksValue) (hP : P b k)
    (hsettle : settle sweepLimit s n b = .ok (last, edits)) :
    settle sweepLimit s n (b.withNote k text) =
        .ok (last.withNote (movedBy edits k) text, edits) ∧
      Carries P b k last edits := by
  induction n generalizing b k edits with
  | zero => cases hsettle
  | succ n ih =>
      obtain ⟨next, first, hsweep, hcases⟩ := of_settle hsettle
      obtain ⟨hnoted, hcarries⟩ := sweepFrom_withNote h hl hb ho hline hP hsweep
      have hlimit : sweepLimit (b.withNote k text) = sweepLimit b := by
        rw [sweepLimit, withNote, List.length_set, sweepLimit]
      have hnoted : sweep sweepLimit s (b.withNote k text) =
          .ok (next.withNote (movedBy first k) text, first) := by
        rw [sweep, hlimit]
        exact hnoted
      rcases hcases with ⟨rfl, rfl, rfl⟩ | ⟨n', more, hn, hne, hmore, rfl⟩
      · exact ⟨by simp [settle, hnoted], hcarries⟩
      · obtain rfl := Nat.succ.inj hn
        have hline' : (next.line (movedBy first k)).LacksValue := by rwa [hcarries.line_eq]
        obtain ⟨hlater, hcarries'⟩ := ih hline' hcarries.overlooked hmore
        refine ⟨?_, hcarries.append hcarries'⟩
        simp [settle, hnoted, hne, hlater, movedBy_append]

end

end Pass

namespace Document

open Buffer Pass RuleSets

variable {d : Document} {k : Nat} {text : List Char}

/-- The document with a note behind the key on line `k`. -/
def withNote (d : Document) (k : Nat) (text : List Char) : Document :=
  { d with lines := d.lines.withNote k text }

/-- The pass of a set over the document with a note makes the same edits as over the document, and
leaves what that leaves with the note on the line where it was. -/
def KeepsNote (d : Document) (k : Nat) (text : List Char) (s : RuleSet) : Prop :=
  ∃ outcome, d.applyPass s = .ok outcome ∧
    (outcome.document.lines.line (movedBy outcome.log k)) = d.lines.line k ∧
    (d.withNote k text).applyPass s =
      .ok ⟨outcome.document.withNote (movedBy outcome.log k) text, outcome.changed,
        outcome.applied⟩

theorem KeepsNote.results_eq {s : RuleSet} (h : d.KeepsNote k text s) :
    (d.withNote k text).applyPass s = (d.applyPass s).map fun o =>
      ⟨o.document.withNote (movedBy o.log k) text, o.changed, o.applied⟩ := by
  obtain ⟨outcome, hpass, _, hnoted⟩ := h
  rw [hpass, hnoted]
  rfl

/-- A set of one injection keeps the notes that the injection overlooks. -/
theorem keepsNote_of_overlooks {r : FieldInjection} {asks : Line → List Line → Bool}
    {starts : Line → Bool} {s : RuleSet} {P : Buffer → Nat → Prop} (h : Injects r asks starts)
    (hl : s.lineRules = []) (hb : s.blockRules = [r.toBlockRule])
    (hend : s.endsWithNewline = false) (ho : r.Overlooks text P)
    (hline : (d.lines.line k).LacksValue) (hP : P d.lines k) : d.KeepsNote k text s := by
  obtain ⟨⟨last, edits⟩, hsettle⟩ := (h.settlesInTwo hl hb).exists_settle d.lines
  obtain ⟨hnoted, hcarries⟩ := settle_withNote h hl hb ho hline hP hsettle
  have hchanged : (d.withNote k text).withLines (last.withNote (movedBy edits k) text)
      d.finalNewline = d.withNote k text ↔ d.withLines last d.finalNewline = d := by
    by_cases hnil : edits = []
    · subst hnil
      obtain rfl := eq_of_settle_of_edits_eq_nil hsettle
      exact iff_of_true rfl rfl
    · have hlength := length_eq_of_settle (fun hi hv => h.length_eq_of_visit hl hb hi hv) hsettle
      have hpos := List.length_pos_iff.2 hnil
      refine iff_of_false (fun heq => ?_) fun heq => ?_
      · have hlines := congrArg (fun d => d.lines.length) heq
        simp only [withNote, withLines_lines, Buffer.withNote, List.length_set] at hlines
        omega
      · have hlines := congrArg (fun d => d.lines.length) heq
        simp only [withLines_lines] at hlines
        omega
  have hpass {d : Document} {lines : Buffer} (hlines : settle sweepLimit s maxSweeps d.lines =
      .ok (lines, edits)) : d.applyPass s = .ok ⟨d.withLines lines d.finalNewline,
        d.withLines lines d.finalNewline != d, edits.map fun edit => ⟨s.name, edit⟩⟩ := by
    simp only [applyPass, applyPassWithin, hlines, newlineAfter_of_endsWithNewline hend]
  refine ⟨_, hpass hsettle, ?_, ?_⟩
  · rw [Outcome.log_eq rfl]
    exact hcarries.line_eq
  · rw [hpass hnoted, Outcome.log_eq rfl]
    refine congrArg Except.ok ?_
    rw [Outcome.mk.injEq]
    refine ⟨rfl, ?_, rfl⟩
    rw [Bool.eq_iff_iff, bne_iff_ne, bne_iff_ne, not_iff_not]
    exact hchanged

/-- A note behind a key without a value changes nothing in what the modes and the marks do, if they
overlook it. -/
theorem keepsNote_filePermissions_changedWhen (h : (d.lines.line k).LacksValue) :
    (ModesOverlook d.lines k text → ∀ options, d.KeepsNote k text (filePermissions options)) ∧
      (MarksOverlook d.lines k text → d.KeepsNote k text changedWhen) :=
  ⟨fun ho options => keepsNote_of_overlooks (injects_explicitMode options) rfl rfl rfl
      (overlooks_explicitMode options text) h ho,
    fun ho => keepsNote_of_overlooks injects_readOnlyCommand rfl rfl rfl
      (overlooks_readOnlyCommand text) h ho⟩

/-- A note behind the key of a block, below a file task and above a task that is marked. -/
theorem keepsNote_filePermissions_changedWhen_block :
    let d := ofLines ["- copy:".toList, "    src: a".toList, "- name: b".toList,
      "  block:".toList, "    - shell: cat c".toList]
    (d.lines.line 3).LacksValue ∧ ModesOverlook d.lines 3 " d".toList ∧
      MarksOverlook d.lines 3 " d".toList ∧
        (∀ options, d.KeepsNote 3 " d".toList (filePermissions options)) ∧
          d.KeepsNote 3 " d".toList changedWhen ∧
            (d.applyPass (filePermissions .standard)).map Outcome.log =
              .ok [⟨"explicit-mode", 3⟩] ∧
                (d.applyPass changedWhen).map Outcome.log = .ok [⟨"read-only-command", 6⟩] := by
  intro d
  have hline : (d.lines.line 3).LacksValue := by decide +kernel
  have hmodes : ModesOverlook d.lines 3 " d".toList :=
    ⟨by decide +kernel, by decide +kernel, by decide +kernel⟩
  have hmarks : MarksOverlook d.lines 3 " d".toList :=
    ⟨by decide +kernel, by decide +kernel, by decide +kernel⟩
  exact ⟨hline, hmodes, hmarks, (keepsNote_filePermissions_changedWhen hline).1 hmodes,
    (keepsNote_filePermissions_changedWhen hline).2 hmarks, by decide +kernel, by decide +kernel⟩

/-- Six documents with notes that are not overlooked. In the first the note is taken for arguments
without a place for a mode. In the second it takes the key away from a list of tasks. In the third
it takes a sequence away from a field that the mode follows. In the fourth it is taken for a
program. In the fifth it is taken for the command in place of the argument, and in the sixth for a
part of the command. -/
theorem not_keepsNote_of_read :
    let arguments := ofLines ["- name: x".toList, "  copy:".toList, "    src: a".toList,
      "    dest: b".toList]
    let key := ofLines ["- name: x".toList, "  block:".toList, "  - copy:".toList,
      "      src: a".toList]
    let anchor := ofLines ["- copy:".toList, "    dest:".toList, "    - a".toList]
    let target := ofLines ["- copy:".toList, "    dest:".toList]
    let command := ofLines ["- name: x".toList, "  shell:".toList, "    cmd: cat a".toList]
    let script := ofLines ["- shell: |".toList, "    cat :".toList]
    (∀ d ∈ [arguments, key, anchor, target, command, script], (d.lines.line 1).LacksValue) ∧
      (∀ d ∈ [arguments, key, anchor], ¬d.KeepsNote 1 " b".toList (filePermissions .standard)) ∧
        ¬target.KeepsNote 1 "/bin/b".toList (filePermissions .standard) ∧
          ¬command.KeepsNote 1 " b".toList changedWhen ∧
            ¬script.KeepsNote 1 " creates=b".toList changedWhen := by
  intro arguments key anchor target command script
  have hdiffer {d : Document} {text : List Char} {s : RuleSet}
      (h : (d.withNote 1 text).applyPass s ≠ (d.applyPass s).map fun o =>
        ⟨o.document.withNote (movedBy o.log 1) text, o.changed, o.applied⟩) :
      ¬d.KeepsNote 1 text s := fun hkeeps => h hkeeps.results_eq
  refine ⟨by decide +kernel, ?_, hdiffer (by decide +kernel), hdiffer (by decide +kernel),
    hdiffer (by decide +kernel)⟩
  simp only [List.mem_cons, List.not_mem_nil, or_false, forall_eq_or_imp, forall_eq]
  exact ⟨hdiffer (by decide +kernel), hdiffer (by decide +kernel), hdiffer (by decide +kernel)⟩

end Document

end TaskTidy
