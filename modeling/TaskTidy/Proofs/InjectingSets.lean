import TaskTidy.Proofs.Injections
import TaskTidy.RuleSets.ChangedWhen
import TaskTidy.RuleSets.FilePermissions

/-!
# The injecting rule sets settle

Both injections ask about the start line of a block and about searches over the lines below it. A
mode is asked for by fields alone. The command of a task may also be searched in the value of a
field, where an injected line can hide it but never reads like a command that only reads state.
-/

namespace TaskTidy

/-- An injection answers for the blocks that its target picks, that lack the field, and that its
policy has a value for. -/
theorem FieldInjection.isSome_answer? (r : FieldInjection) (b : Buffer) (i : Nat) :
    (r.toBlockRule.answer? b i).isSome =
      (r.target.selects b i && !r.isSatisfied b ⟨i, b.stopOf i⟩ &&
        (r.value? b ⟨i, b.stopOf i⟩).isSome) := by
  simp only [BlockRule.answer?, FieldInjection.toBlockRule, FieldInjection.edit]
  by_cases hs : r.target.selects b i = true
  · by_cases hsat : r.isSatisfied b ⟨i, b.stopOf i⟩ = true
    · simp [hs, hsat]
    · cases hv : r.value? b ⟨i, b.stopOf i⟩ <;> simp [hs, hsat]
  · simp [hs]

namespace RuleSets

/-- The value of the first field with a key, given the lines below the start line of its block. -/
def valueBelow? (base : Nat) (key : List Char) (below : List Line) : Option (List Char) :=
  (fieldBelow? base [key] below).bind fun r => r.1.value?

/-- Whether the arguments on the line of a file module leave room for a nested field. -/
def leavesRoom (l : Line) : Bool :=
  match l.value? with
  | none => true
  | some arguments => l.kind = .item && !arguments.contains '='

/-- Whether a block with a start line and the lines below it asks for a mode. -/
def asksForMode (l : Line) (below : List Line) : Bool :=
  l.hasKeyIn fileModules && !(l.hasKey "mode".toList ||
      (fieldBelow? l.depth ["mode".toList] below).isSome) &&
    (leavesRoom l && !(fieldBelow? l.depth ["recurse".toList] below).isSome &&
      !(Text.keys ["absent", "link", "hard"]).any fun s =>
        (valueBelow? l.depth "state".toList below).map unquote == some s)

theorem isSome_answer?_explicitMode (options : RuleOptions) (b : Buffer) (i : Nat) :
    ((explicitMode options).toBlockRule.answer? b i).isSome =
      (b.isTask ⟨i, b.stopOf i⟩ && asksForMode (b.line i) (b.drop (i + 1))) := by
  have hmode : (modeFor? options b ⟨i, b.stopOf i⟩).isSome =
      (b.isTask ⟨i, b.stopOf i⟩ && (leavesRoom (b.line i) &&
        !b.hasField ⟨i, b.stopOf i⟩ "recurse".toList &&
          !(Text.keys ["absent", "link", "hard"]).any fun s =>
            (b.fieldValue? ⟨i, b.stopOf i⟩ "state".toList).map unquote == some s)) := by
    have hroom : takesNestedMode b ⟨i, b.stopOf i⟩ = leavesRoom (b.line i) := rfl
    simp only [modeFor?, hroom, ← Bool.and_assoc]
    split
    · next h =>
        rw [h]
        split <;> rfl
    · next h => exact (Bool.eq_false_iff.2 h).symm
  rw [FieldInjection.isSome_answer?]
  simp only [explicitMode, Target.selects, FieldInjection.isSatisfied, hmode, Buffer.hasField_eq,
    Buffer.fieldValue?_eq, asksForMode, valueBelow?]
  rw [Bool.and_left_comm]

/-- A block asks for a mode by its start line and the lines of three fields. -/
theorem asksForMode_congr {l : Line} {below below' : List Line}
    (h : ∀ key ∈ Text.keys ["mode", "recurse", "state"],
      (fieldBelow? l.depth [key] below').map Prod.fst =
        (fieldBelow? l.depth [key] below).map Prod.fst) :
    asksForMode l below' = asksForMode l below := by
  have hsome (key : List Char) (hkey : key ∈ Text.keys ["mode", "recurse", "state"]) :
      (fieldBelow? l.depth [key] below').isSome = (fieldBelow? l.depth [key] below).isSome := by
    simpa only [Option.isSome_map] using congrArg Option.isSome (h key hkey)
  have hvalue (below : List Line) (key : List Char) : valueBelow? l.depth key below =
      ((fieldBelow? l.depth [key] below).map Prod.fst).bind Line.value? := by
    rw [valueBelow?, Option.bind_map]
    rfl
  simp only [asksForMode, hvalue, hsome "mode".toList (by decide),
    hsome "recurse".toList (by decide), h "state".toList (by decide)]

/-- A block that keeps its fields asks for a mode as before. -/
theorem asksForMode_insert {l x : Line} {A D : List Line} (h : KeepsFields l.depth A D x) :
    asksForMode l (A ++ x :: D) = asksForMode l (A ++ D) :=
  asksForMode_congr fun key _ => h.map_fieldBelow? [key]

private theorem isBareKey_mode (options : RuleOptions) :
    Buffer.isBareKey (explicitMode options).field = true := by
  change Buffer.isBareKey "mode".toList = true
  decide

/-- File modules ask for a mode by their fields alone. -/
theorem injects_explicitMode (options : RuleOptions) :
    Injects (explicitMode options) asksForMode (fun l => l.hasKeyIn fileModules) where
  isBareKey := isBareKey_mode options
  isSome_answer? := isSome_answer?_explicitMode options
  isEntry {l below} h := by
    simp only [asksForMode, Bool.and_eq_true] at h
    exact Line.isEntry_of_hasKeyIn h.1.1
  missing {l below} h := by
    simp only [asksForMode, Bool.and_eq_true, Bool.not_eq_true', Bool.or_eq_false_iff,
      Option.isSome_eq_false_iff, Option.isNone_iff_eq_none] at h
    exact h.1.2.2
  starts_of_asks {l below} h := by
    simp only [asksForMode, Bool.and_eq_true] at h
    exact h.1.1
  not_starts depth value := by
    rw [Line.hasKeyIn, Buffer.key?_fieldLine (isBareKey_mode options)]
    rfl
  insert _ hfields h := by
    rwa [← asksForMode_insert hfields]

theorem settlesInTwo_filePermissions (options : RuleOptions) :
    Pass.SettlesInTwo (filePermissions options) :=
  (injects_explicitMode options).settlesInTwo rfl rfl

/-! ### The command of a task -/

/-- Whether a line is the `cmd` argument of a module. -/
def isCmd (l : Line) : Bool :=
  l.kind = .parameter && l.hasKey "cmd".toList

/-- Whether a line of a block scalar holds the start of a command. -/
def holdsCommand (l : Line) : Bool :=
  let text := Text.trim l
  !text.isEmpty && text.head? != some '#'

/-- The line that holds the command of a module, with the lines below it. -/
def commandKeyBelow? (l : Line) (below : List Line) : Option (Line × List Line) :=
  if l.value?.isSome then some (l, below) else firstIn? (Line.isInside l.column) isCmd below

/-- The text of the first command of a module, given its line and the lines below it. -/
def commandTextBelow? (l : Line) (below : List Line) : Option (List Char) :=
  match commandKeyBelow? l below with
  | none => none
  | some (key, rest) =>
      match key.value? with
      | none => none
      | some value =>
          if Line.isScalarHeader value then
            (firstIn? (Line.isInside key.column) holdsCommand rest).map fun r => Text.trim r.1
          else some value

section

variable (b : Buffer) (i : Nat)

/-- The line that holds the command, by its index and by a search. -/
theorem commandKey?_cases :
    (b.commandKey? i = none ∧ commandKeyBelow? (b.line i) (b.drop (i + 1)) = none) ∨
      ∃ k, b.commandKey? i = some k ∧
        commandKeyBelow? (b.line i) (b.drop (i + 1)) = some (b.line k, b.drop (k + 1)) := by
  rw [Buffer.commandKey?, commandKeyBelow?]
  split
  · exact Or.inr ⟨i, rfl, rfl⟩
  · have hfind := Buffer.find?_range' (b := b) (i := i + 1)
      (q := Line.isInside (b.line i).column) (p := isCmd) rfl
    simp only [isCmd] at hfind
    rw [Buffer.valueLines, Buffer.runAfter, hfind]
    cases hr : firstIn? (Line.isInside (b.line i).column) isCmd (b.drop (i + 1)) with
    | none => exact Or.inl ⟨rfl, rfl⟩
    | some r =>
        have hsuffix := (of_firstIn? hr).2.2.trans (List.drop_suffix _ b)
        obtain ⟨hline, hdrop⟩ := Buffer.line_of_suffix hsuffix
        exact Or.inr ⟨b.length - (r.2.length + 1), rfl, by rw [hline, hdrop]⟩

/-- The text of a command is found by searches over the lines. -/
theorem commandLine?_eq :
    (b.commandLine? i).map CommandLine.text = commandTextBelow? (b.line i) (b.drop (i + 1)) := by
  rw [Buffer.commandLine?, commandTextBelow?]
  rcases commandKey?_cases b i with ⟨hnone, hnone'⟩ | ⟨k, hk, hk'⟩
  · rw [hnone, hnone']
    rfl
  · rw [hk, hk']
    dsimp only
    cases (b.line k).value? with
    | none => rfl
    | some value =>
        by_cases hheader : Line.isScalarHeader value = true
        · have hfind := Buffer.find?_range' (b := b) (i := k + 1)
            (q := Line.isInside (b.line k).column) (p := holdsCommand) rfl
          simp only [if_pos hheader, Option.map_map]
          change ((b.valueLines k).find? fun j => holdsCommand (b.line j)).map _ = _
          rw [Buffer.valueLines, Buffer.runAfter, hfind, Option.map_map]
          cases hr : firstIn? (Line.isInside (b.line k).column) holdsCommand (b.drop (k + 1)) with
          | none => rfl
          | some r =>
              have hsuffix := (of_firstIn? hr).2.2.trans (List.drop_suffix _ b)
              simp only [Option.map_some, Function.comp_apply, (Buffer.line_of_suffix hsuffix).1]
        · simp only [if_neg hheader, Option.map_some]

end

section

variable {A D below below' : List Line} {x l : Line}

/-- The key of a command is not the inserted line, so it is found after the insertion as before. The
lines below it may have gained the inserted one. -/
private theorem exists_commandKeyBelow?_of_insert {B rest' : List Line} {key : Line}
    (hx : isCmd x = false) (h : commandKeyBelow? l (B ++ x :: D) = some (key, rest')) :
    ∃ rest, commandKeyBelow? l (B ++ D) = some (key, rest) ∧ InsertedBelow x D rest rest' := by
  unfold commandKeyBelow? at h ⊢
  split at h
  · next hvalue =>
      cases h
      exact ⟨B ++ D, if_pos hvalue, Or.inr ⟨B, rfl, rfl⟩⟩
  · next hvalue =>
      rcases of_firstIn?_insert h with rfl | ⟨rest, hrest, hbelow⟩
      · rw [(of_firstIn? h).2.1] at hx
        cases hx
      · exact ⟨rest, by rw [if_neg hvalue, hrest], hbelow⟩

/-- A command that is found after an insertion is the inserted line or was found before. -/
theorem of_commandTextBelow?_insert (hx : isCmd x = false)
    (hbelow : InsertedBelow x D below below') {t : List Char}
    (h : commandTextBelow? l below' = some t) :
    t = Text.trim x ∨ commandTextBelow? l below = some t := by
  rcases hbelow with rfl | ⟨B, rfl, rfl⟩
  · exact Or.inr h
  · unfold commandTextBelow? at h ⊢
    split at h
    · cases h
    · next key rest' hkey =>
        obtain ⟨rest, hrest, hbelow⟩ := exists_commandKeyBelow?_of_insert hx hkey
        rw [hrest]
        dsimp only
        split at h
        · cases h
        · next value hvalue =>
            split at h
            · next hheader =>
                obtain ⟨⟨k, more⟩, hfound, rfl⟩ := Option.map_eq_some_iff.1 h
                simp only [if_pos hheader]
                rcases hbelow with rfl | ⟨B', rfl, rfl⟩
                · exact Or.inr (by rw [hfound, Option.map_some])
                · rcases of_firstIn?_insert hfound with rfl | ⟨more', hmore, _⟩
                  · exact Or.inl rfl
                  · exact Or.inr (by rw [hmore, Option.map_some])
            · next hheader =>
                simp only [if_neg hheader]
                exact Or.inr h

end

/-- Whether a command with a text reads state only, in a block with a start line and the lines below
it. -/
def readsOnly (l : Line) (below : List Line) (text : List Char) : Bool :=
  !namesEffect text &&
    !((l :: below.takeWhile (Line.isInside l.depth)).any fun l =>
      l.hasKeyIn (Text.keys ["creates", "removes"])) &&
    isReadOnlyText text

/-- The text of the command of a block, from its start line or from its first command field. -/
def blockCommand? (l : Line) (below : List Line) : Option (List Char) :=
  if l.hasKeyIn commandModules then
    if l.value?.isNone then none else commandTextBelow? l below
  else (fieldBelow? l.depth commandModules below).bind fun r => commandTextBelow? r.1 r.2

/-- Whether a block with a start line and the lines below it asks to be marked as never changing. -/
def asksForChangedWhen (l : Line) (below : List Line) : Bool :=
  (l.kind = .item && (l.hasKeyIn commandModules ||
      (fieldBelow? l.depth commandModules below).isSome)) &&
    !(l.hasKey "changed_when".toList ||
      (fieldBelow? l.depth ["changed_when".toList] below).isSome) &&
    (blockCommand? l below).any (readsOnly l below)

section

variable (b : Buffer) (i : Nat)

private theorem blockLines_any {p : Line → Bool} (hp : p [] = false) :
    (b.blockLines ⟨i, b.stopOf i⟩).any p =
      (b.line i :: (b.drop (i + 1)).takeWhile (Line.isInside (b.line i).depth)).any p := by
  rcases Nat.lt_or_ge i b.length with hi | hi
  · have hprefix := List.prefix_iff_eq_take.1
      (List.takeWhile_prefix (l := b.drop (i + 1)) (Line.isInside (b.line i).depth))
    rw [Buffer.blockLines, Buffer.drop_eq_line_cons hi, Buffer.stopOf, Buffer.runAfter]
    dsimp only
    rw [show ∀ n, i + 1 + n - i = n + 1 by omega, List.take_succ_cons, ← hprefix]
  · rw [Buffer.blockLines, Buffer.line_of_length_le hi, List.drop_of_length_le hi,
      List.drop_of_length_le (by omega)]
    simp [hp]

/-- Whether a command reads state only, by searches over the lines. -/
theorem isReadOnlyTask_eq :
    isReadOnlyTask b ⟨i, b.stopOf i⟩ = (b.isTask ⟨i, b.stopOf i⟩ &&
      (blockCommand? (b.line i) (b.drop (i + 1))).any
        (readsOnly (b.line i) (b.drop (i + 1)))) := by
  have hcommand (k : Nat) :
      (commandTextBelow? (b.line k) (b.drop (k + 1))).any (readsOnly (b.line i) (b.drop (i + 1))) =
        (b.commandLine? k).any fun command => !namesEffect command.text &&
          !((b.blockLines ⟨i, b.stopOf i⟩).any fun l =>
            l.hasKeyIn (Text.keys ["creates", "removes"])) && isReadOnlyText command.text := by
    rw [← commandLine?_eq, blockLines_any b i rfl]
    cases b.commandLine? k <;> rfl
  unfold isReadOnlyTask blockCommand? Buffer.findKey?
  split
  · next htask =>
      rw [htask, Bool.true_and]
      by_cases hown : (b.line i).hasKeyIn commandModules = true
      · obtain ⟨key, hkey⟩ := Line.exists_key?_of_hasKeyIn hown
        simp only [hown, if_true, hkey, Option.map_some, true_and]
        split
        · rfl
        · rw [hcommand]
          cases b.commandLine? i <;> rfl
      · simp only [hown, Bool.false_eq_true, if_false]
        rw [Buffer.find?_fields]
        cases hr : fieldBelow? (b.line i).depth commandModules (b.drop (i + 1)) with
        | none => rfl
        | some r =>
            obtain ⟨_, ⟨key, _, hkey⟩, _, hsuffix⟩ := of_fieldBelow? hr
            have hlen := hsuffix.length_le
            rw [List.length_drop, List.length_cons] at hlen
            obtain ⟨hline, hdrop⟩ :=
              Buffer.line_of_suffix (hsuffix.trans (List.drop_suffix _ b))
            have hne : ¬(b.length - (r.2.length + 1) = i ∧ (b.line i).value?.isNone = true) := by
              omega
            simp only [hkey, Option.bind_some, Option.map_some, if_neg hne]
            have hbelow := hcommand (b.length - (r.2.length + 1))
            rw [hline, hdrop] at hbelow
            rw [hbelow]
            cases b.commandLine? (b.length - (r.2.length + 1)) <;> rfl
  · next htask =>
      rw [Bool.eq_false_iff.2 htask]
      rfl

theorem isSome_answer?_readOnlyCommand :
    (readOnlyCommand.toBlockRule.answer? b i).isSome =
      (b.isTask ⟨i, b.stopOf i⟩ && asksForChangedWhen (b.line i) (b.drop (i + 1))) := by
  have hvalue : (readOnlyCommand.value? b ⟨i, b.stopOf i⟩).isSome =
      isReadOnlyTask b ⟨i, b.stopOf i⟩ := by
    unfold readOnlyCommand
    dsimp only
    split
    · next h => exact h.symm
    · next h => exact (Bool.eq_false_iff.2 h).symm
  rw [FieldInjection.isSome_answer?, hvalue, isReadOnlyTask_eq]
  simp only [readOnlyCommand, Target.selects, FieldInjection.isSatisfied, Buffer.hasField_eq,
    Buffer.any_fields_eq, asksForChangedWhen]
  rw [Bool.and_left_comm]

end

section

variable {x l : Line} {A D : List Line} (hfields : KeepsFields l.depth A D x)

include hfields

private theorem readsOnly_of_insert {t : List Char} (h : readsOnly l (A ++ x :: D) t = true) :
    readsOnly l (A ++ D) t = true := by
  simp only [readsOnly, Bool.and_eq_true, Bool.not_eq_true', List.any_eq_false, List.mem_cons,
    forall_eq_or_imp] at h ⊢
  refine ⟨⟨h.1.1, h.1.2.1, fun l' hl' hkey => ?_⟩, h.2⟩
  exact h.1.2.2 l' (hfields.mem (Line.isEntry_of_hasKeyIn hkey) hl') hkey

/-- A command that reads state only after an insertion has done so before, if the inserted line does
not read like one. -/
private theorem any_blockCommand?_of_insert (hcmd : isCmd x = false)
    (htext : isReadOnlyText (Text.trim x) = false)
    (h : (blockCommand? l (A ++ x :: D)).any (readsOnly l (A ++ x :: D)) = true) :
    (blockCommand? l (A ++ D)).any (readsOnly l (A ++ D)) = true := by
  have keep {l' : Line} {below below' : List Line} (hbelow : InsertedBelow x D below below')
      (h : (commandTextBelow? l' below').any (readsOnly l (A ++ x :: D)) = true) :
      (commandTextBelow? l' below).any (readsOnly l (A ++ D)) = true := by
    obtain ⟨t, ht, hreads⟩ := (Option.any_eq_true _ _).1 h
    rcases of_commandTextBelow?_insert hcmd hbelow ht with rfl | hbefore
    · simp [readsOnly, htext] at hreads
    · exact (Option.any_eq_true _ _).2 ⟨t, hbefore, readsOnly_of_insert hfields hreads⟩
  unfold blockCommand? at h ⊢
  split at h
  · next hown =>
      rw [if_pos hown]
      split at h
      · cases h
      · next hvalue =>
          rw [if_neg hvalue]
          exact keep (Or.inr ⟨A, rfl, rfl⟩) h
  · next hown =>
      rw [if_neg hown]
      rcases hfields.field commandModules with ⟨_, hnone⟩ | ⟨l', below, below', hl, hl', hbelow⟩
      · rw [hnone] at h
        cases h
      · rw [hl'] at h
        rw [hl]
        exact keep hbelow h

end

private theorem isBareKey_changedWhen : Buffer.isBareKey readOnlyCommand.field = true := by
  decide

/-- The line that marks a task does not read like a command that only reads state. -/
private theorem isReadOnlyText_trim_fieldLine (depth : Nat) :
    isReadOnlyText (Text.trim
      (Buffer.fieldLine depth readOnlyCommand.field "false".toList)) = false := by
  have htrim : Text.trim (Buffer.fieldLine depth readOnlyCommand.field "false".toList) =
      "changed_when: false".toList := by
    have hblank : ∀ c ∈ List.replicate depth ' ', Text.isBlank c = true := by
      intro c hc
      rw [List.eq_of_mem_replicate hc]
      decide
    rw [Text.trim, Text.trimStart, Buffer.fieldLine, List.append_assoc,
      List.dropWhile_append_of_pos hblank]
    decide
  rw [htrim]
  decide

/-- A line raises no question for a mark in a block that keeps its fields, if it does not read like
a command that only reads state. -/
theorem asksForChangedWhen_insert {l x : Line} {A D : List Line} (hcmd : isCmd x = false)
    (htext : isReadOnlyText (Text.trim x) = false) (hfields : KeepsFields l.depth A D x)
    (h : asksForChangedWhen l (A ++ x :: D) = true) : asksForChangedWhen l (A ++ D) = true := by
  simp only [asksForChangedWhen, hfields.isSome_fieldBelow?, Bool.and_eq_true] at h ⊢
  exact ⟨h.1, any_blockCommand?_of_insert hfields hcmd htext h.2⟩

/-- The line of a mark holds no command. -/
theorem not_command_of_mark {b : Buffer} {e : Extent} {value : List Char}
    (h : readOnlyCommand.value? b e = some value) (depth : Nat) :
    isCmd (Buffer.fieldLine depth readOnlyCommand.field value) = false ∧
      isReadOnlyText (Text.trim (Buffer.fieldLine depth readOnlyCommand.field value)) = false := by
  obtain rfl : value = "false".toList := by
    simp only [readOnlyCommand] at h
    split at h
    · exact (Option.some.inj h).symm
    · cases h
  refine ⟨?_, isReadOnlyText_trim_fieldLine depth⟩
  rw [isCmd, Line.hasKey, Buffer.key?_fieldLine isBareKey_changedWhen]
  simp [readOnlyCommand]

/-- A mark raises no question in a block that keeps its fields. -/
theorem asksForChangedWhen_of_insert {l : Line} {A D : List Line} {depth : Nat} {b : Buffer}
    {e : Extent} {value : List Char} (hvalue : readOnlyCommand.value? b e = some value)
    (hfields : KeepsFields l.depth A D (Buffer.fieldLine depth readOnlyCommand.field value))
    (h : asksForChangedWhen l (A ++ Buffer.fieldLine depth readOnlyCommand.field value :: D) =
      true) :
    asksForChangedWhen l (A ++ D) = true := by
  obtain ⟨hcmd, htext⟩ := not_command_of_mark hvalue depth
  exact asksForChangedWhen_insert hcmd htext hfields h

/-- A task asks to be marked by its fields and its command. -/
theorem injects_readOnlyCommand :
    Injects readOnlyCommand asksForChangedWhen (fun l => l.kind = .item) where
  isBareKey := isBareKey_changedWhen
  isSome_answer? := isSome_answer?_readOnlyCommand
  isEntry {l below} h := by
    simp only [asksForChangedWhen, Bool.and_eq_true, decide_eq_true_eq] at h
    rw [h.1.1.1]
    rfl
  missing {l below} h := by
    simp only [asksForChangedWhen, Bool.and_eq_true, Bool.not_eq_true', Bool.or_eq_false_iff,
      Option.isSome_eq_false_iff, Option.isNone_iff_eq_none] at h
    exact h.1.2.2
  starts_of_asks {l below} h := by
    simp only [asksForChangedWhen, Bool.and_eq_true] at h
    exact h.1.1.1
  not_starts depth value := by
    rw [Buffer.kind_fieldLine isBareKey_changedWhen]
    rfl
  insert hvalue hfields h := asksForChangedWhen_of_insert hvalue hfields h

theorem settlesInTwo_changedWhen : Pass.SettlesInTwo changedWhen :=
  injects_readOnlyCommand.settlesInTwo rfl rfl

end RuleSets

end TaskTidy
