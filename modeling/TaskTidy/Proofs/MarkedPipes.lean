import TaskTidy.Proofs.MarkedTasks
import TaskTidy.Proofs.PlainPipes
import TaskTidy.Proofs.RunSearches

/-!
# Pipelines around a mark

A mark leaves every pipeline its command if it has no value and if no text of a shell on the line of
the marked task stands below it. The command of a pipeline then moves down with its line.
-/

namespace TaskTidy

/-- The edit in a document with one more line at `p`. -/
def BlockEdit.shifted (p : Nat) : BlockEdit → BlockEdit
  | .insert k l => .insert (Buffer.shift p k) l
  | .replace k l => .replace (Buffer.shift p k) l

namespace RuleSets

open Buffer

variable {b : Buffer} {i n p : Nat} {x : Line}

/-! ### Blocks with one more line -/

section

variable (hp : p ≤ b.length) (hidle : x.IsIdle)

include hp hidle

/-- A block that keeps its task and its keys keeps its pipeline if the inserted line joins the block
or has only blank lines of the block below it, and spares the command. -/
theorem pipeCommand?_insertIdx (hn : n < b.length)
    (htask : Buffer.isTask (b.insertIdx p x)
      ⟨shift p n, Buffer.stopOf (b.insertIdx p x) (shift p n)⟩ = b.isTask ⟨n, b.stopOf n⟩)
    (hblock : n < p → x.isInside (b.line n).depth = true ∨
      ∀ m, p ≤ m → m < b.stopOf n → (b.line m).kind = .blank)
    (hfind : Buffer.findKey? (b.insertIdx p x)
        ⟨shift p n, Buffer.stopOf (b.insertIdx p x) (shift p n)⟩ shellModules =
      (b.findKey? ⟨n, b.stopOf n⟩ shellModules).map (.shifted p))
    (hspares : ∀ found ∈ b.findKey? ⟨n, b.stopOf n⟩ shellModules, Spares b found.index p x ∧
      ∀ key ∈ b.commandKey? found.index, Spares b key p x) :
    pipeCommand? (b.insertIdx p x)
        ⟨shift p n, Buffer.stopOf (b.insertIdx p x) (shift p n)⟩ =
      (pipeCommand? b ⟨n, b.stopOf n⟩).map (.shifted p) := by
  have hcontains := any_blockLines_insertIdx hp hn (P := Text.contains "pipefail".toList)
    hidle.contains_eq fun hnp =>
      (hblock hnp).imp_right fun hblank m hpm hm => contains_of_kind_blank (hblank m hpm hm)
  have hcmd : isCmd x = false := by
    rw [isCmd, hidle.hasKey_eq _ (by decide), Bool.and_false]
  rw [pipeCommand?_eq, pipeCommand?_eq, htask, hfind, blockContains, blockContains]
  simp only [hcontains]
  split
  · cases hfound : b.findKey? ⟨n, b.stopOf n⟩ shellModules with
    | none => rfl
    | some found =>
        simp only [Option.map_some, Option.bind_some, Field.shifted]
        obtain ⟨hspares, hkeys⟩ := hspares found hfound
        exact hspares.pipedCommand?_insertIdx hp hcmd hidle.hasPipe_eq hkeys
  · rfl

end

/-! ### Blocks around a mark -/

/-- The mark of line `i` at `p` stands aside of the pipelines. -/
structure StandsAside (b : Buffer) (i p : Nat) (x : Line) : Prop where
  /-- The mark has no value. -/
  isLeaf : b.IsLeaf p x
  /-- The value of a shell in front of the fields of the task ends above the mark. -/
  valueEndsAbove : (b.line i).hasKeyIn shellModules = true → ValueEndsAbove b i p

instance (b : Buffer) (i p : Nat) (x : Line) : Decidable (StandsAside b i p x) :=
  decidable_of_iff
    (b.IsLeaf p x ∧ ((b.line i).hasKeyIn shellModules = true → ValueEndsAbove b i p))
    ⟨fun ⟨hleaf, hends⟩ => ⟨hleaf, hends⟩, fun h => ⟨h.isLeaf, h.valueEndsAbove⟩⟩

section

variable (hx : Injects.At readOnlyCommand b i p x)

include hx

/-- The option passes over a mark. -/
theorem isIdle_of_mark : x.IsIdle := by
  have hinj := injects_readOnlyCommand
  obtain ⟨value, hvalue, hline⟩ := hx.isLine
  have hfalse : value = "false".toList := by
    simp only [readOnlyCommand] at hvalue
    split at hvalue
    · exact (Option.some.inj hvalue).symm
    · cases hvalue
  subst hfalse
  have hmem {c : Char} (hc : c ∈ x) : c ∈ " changed_when: false".toList := by
    rw [hline, fieldLine, List.append_assoc] at hc
    rcases List.mem_append.1 hc with hc | hc
    · rw [List.eq_of_mem_replicate hc]
      decide
    · exact List.mem_cons_of_mem ' ' hc
  have htrim : Text.trim x = 'c' :: "hanged_when: false".toList := by
    have hun := unindented_fieldLine hinj.isBareKey (b.childDepth ⟨i, b.stopOf i⟩) "false".toList
    rw [hline, Line.trim_of_unindented (c := 'c') hun (by decide)]
    decide
  exact {
    hasKey_eq := by
      intro key hkey
      rw [Line.hasKey, hx.key?_eq hinj.isBareKey, beq_eq_false_iff_ne]
      rintro ⟨⟩
      exact absurd hkey (by decide)
    contains_eq := by
      rw [← Bool.not_eq_true, Text.contains_iff]
      exact fun hoption => absurd (hmem (hoption.subset (show 'p' ∈ _ by decide))) (by decide)
    hasPipe_eq := by
      rw [htrim]
      decide
    startsText := by
      rw [htrim]
      decide }

/-- A mark spares the value of every entry but the marked task. -/
theorem spares_of_mark {k : Nat} (hk : (b.line k).kind.isEntry = true) (hne : k ≠ i) :
    Spares b k p x := by
  intro hkp
  rcases Nat.lt_or_gt_of_ne hne with hki | hik
  · exact Or.inl ⟨i, hki, hx.isPlace.1, hx.isEntry, hx.depth_lt injects_readOnlyCommand.isBareKey⟩
  · refine Or.inr fun _ m hm hpm => ?_
    exact hx.cutsNoBlock k hik hkp (isSignificant_of_isEntry hk) m hpm
      (lt_stopOf_of_mem_valueLines (Nat.le_refl k) (lt_stopOf b k) (b.line k).depth_le_column hm)

/-- The fields of a block above a mark are as deep as before, and the mark joins them or stands
below all of them. -/
theorem fieldDepth?_of_mark {d : Nat} (hnp : n < p) (hentry : (b.line n).kind.isEntry = true)
    (hd : b.fieldDepth? ⟨n, b.stopOf n⟩ = some d) :
    Buffer.fieldDepth? (b.insertIdx p x)
        ⟨shift p n, Buffer.stopOf (b.insertIdx p x) (shift p n)⟩ = some d ∧
      (x.inRun (b.line n).depth d = true ∨
        ∀ m, p ≤ m → m < n + 1 + (b.runAfter n (Line.inRun (b.line n).depth d)).length →
          (b.line m).kind = .blank) := by
  have hinj := injects_readOnlyCommand
  have hp := hx.le_length
  rw [shift_of_lt hnp, fieldDepth?_eq, line_insertIdx_of_lt hp x hnp,
    drop_insertIdx_of_lt hp x hnp]
  rw [fieldDepth?_eq, drop_of_lt hnp] at hd
  have hkeeps (hne : i ≠ n) := (hx.keepsFields hinj.isBareKey hentry hne hnp).entryDepth_eq.trans hd
  rcases Nat.lt_trichotomy n i with hni | rfl | hin
  · refine ⟨hkeeps (Nat.ne_of_gt hni), (passes_or_ends hni hx.isPlace.1 fun hrun => ?_).imp_right
      fun hend m hpm hm => absurd hm (hend m hpm)⟩
    have hdepth := hx.depth_lt hinj.isBareKey
    have hle := Line.le_depth_of_inRun hrun (isSignificant_of_isEntry hx.isEntry)
    have hbase := depth_of_isInside hx.isEntry (isInside_of_inRun hrun)
    simp only [Line.inRun, Line.isInside, Bool.and_eq_true, Bool.or_eq_true, decide_eq_true_eq]
    omega
  · have hall := hx.all_inRun (d := d) (by rwa [drop_of_lt hnp])
    have hdepth : x.depth = d := by
      rw [hx.depth_eq hinj.isBareKey, childDepth, fieldDepth?_eq, drop_of_lt hnp, hd]
    obtain ⟨hrun, hmeasured⟩ := inRun_of_measured (hx.kind_eq hinj.isBareKey) hd hall hdepth
    exact ⟨hmeasured, Or.inl hrun⟩
  · have hblank := hx.cutsNoBlock n hin hnp (isSignificant_of_isEntry hentry)
    exact ⟨hkeeps (Nat.ne_of_lt hin), Or.inr fun m hpm hm => hblank m hpm (Nat.lt_of_lt_of_le hm
      (runAfter_le_stopOf (Nat.le_refl n) (lt_stopOf b n) fun l => isInside_of_inRun))⟩

/-- A block finds the key of a shell again around a mark. -/
theorem findKey?_of_mark (hentry : (b.line n).kind.isEntry = true) :
    Buffer.findKey? (b.insertIdx p x)
        ⟨shift p n, Buffer.stopOf (b.insertIdx p x) (shift p n)⟩ shellModules =
      (b.findKey? ⟨n, b.stopOf n⟩ shellModules).map (.shifted p) := by
  have hp := hx.le_length
  have hkeys : x.hasKeyIn shellModules = false := (isIdle_of_mark hx).hasKeyIn_eq (by decide)
  rcases Nat.lt_or_ge n p with hnp | hpn
  · cases hd : b.fieldDepth? ⟨n, b.stopOf n⟩ with
    | none =>
        rw [shift_of_lt hnp]
        exact findKey?_insertIdx_of_unmeasured hp hnp hkeys hd
    | some d =>
        obtain ⟨hd', hfields⟩ := fieldDepth?_of_mark hx hnp hentry hd
        refine findKey?_insertIdx hp hkeys (hd'.trans hd.symm) fun _ e he => ?_
        cases Option.some.inj (hd.symm.trans he)
        exact hfields
  · refine findKey?_insertIdx hp hkeys ?_ fun hnp => absurd hnp (Nat.not_lt_of_le hpn)
    rw [shift_of_le hpn, fieldDepth?_eq, fieldDepth?_eq, line_insertIdx_of_le hp x hpn,
      drop_insertIdx_of_le hp x (Nat.le_succ_of_le hpn)]

/-- A mark joins the blocks around it, and the blocks above it have only blank lines below it. -/
theorem isInside_of_mark (hnp : n < p) (hentry : (b.line n).kind.isEntry = true) :
    x.isInside (b.line n).depth = true ∨
      ∀ m, p ≤ m → m < b.stopOf n → (b.line m).kind = .blank := by
  have hdeep {d : Nat} (hd : d ≤ (b.line i).depth) : x.isInside d = true := by
    rw [Line.isInside, Bool.or_eq_true, decide_eq_true_eq]
    exact Or.inr (Nat.lt_of_le_of_lt hd (hx.depth_lt injects_readOnlyCommand.isBareKey))
  rcases Nat.lt_trichotomy n i with hni | rfl | hin
  · refine (passes_or_ends hni hx.isPlace.1 fun hinside => ?_).imp_right fun hend m hpm hm =>
      absurd hm (hend m hpm)
    exact hdeep (Nat.le_of_lt (depth_of_isInside hx.isEntry hinside))
  · exact Or.inl (hdeep (Nat.le_refl _))
  · exact Or.inr (hx.cutsNoBlock n hin hnp (isSignificant_of_isEntry hentry))

variable (hsome : (readOnlyCommand.toBlockRule.answer? b i).isSome = true)
  (haside : StandsAside b i p x)

include hsome haside

/-- A mark that stands aside spares the command of every shell. -/
theorem StandsAside.spares {found : Field}
    (hfound : b.findKey? ⟨n, b.stopOf n⟩ shellModules = some found) :
    Spares b found.index p x ∧ ∀ key ∈ b.commandKey? found.index, Spares b key p x := by
  have hkey := hasKeyIn_of_findKey? hfound
  have hspares : Spares b found.index p x := by
    by_cases hi : found.index = i
    · rw [hi] at hkey ⊢
      exact fun _ => Or.inr (haside.valueEndsAbove hkey)
    · exact spares_of_mark hx (Line.isEntry_of_hasKeyIn hkey) hi
  refine ⟨hspares, fun key hcommand => ?_⟩
  rcases of_commandKey?_eq_some hcommand with rfl | ⟨_, hkind, _⟩
  · exact hspares
  · refine spares_of_mark hx (by rw [hkind]; rfl) fun hi => ?_
    have hitem := of_decide_eq_true (injects_readOnlyCommand.starts_of_asks
      (injects_readOnlyCommand.of_isSome hsome).2)
    rw [← hi, hkind] at hitem
    cases hitem

/-- A mark that stands aside leaves every item its pipeline. -/
theorem StandsAside.pipeCommand?_insertIdx (hn : n < b.length)
    (hentry : (b.line n).kind.isEntry = true) :
    pipeCommand? (b.insertIdx p x)
        ⟨shift p n, Buffer.stopOf (b.insertIdx p x) (shift p n)⟩ =
      (pipeCommand? b ⟨n, b.stopOf n⟩).map (.shifted p) := by
  have hp := hx.le_length
  refine RuleSets.pipeCommand?_insertIdx hp (isIdle_of_mark hx) hn ?_
    (fun hnp => isInside_of_mark hx hnp hentry) (findKey?_of_mark hx hentry)
    fun found hfound => haside.spares hx hsome hfound
  rcases Nat.lt_or_ge n p with hnp | hpn
  · rw [shift_of_lt hnp]
    exact isTask_insertIdx_of_lt hp hnp
  · rw [shift_of_le hpn]
    exact haside.isLeaf.isTask_eq hp hpn (isSignificant_of_isEntry hentry)

end

/-! ### Answers around a mark -/

/-- The option is put in front of the command of the pipeline of an item. -/
theorem answer?_strictPipelines_iff {k : Nat} {l : Line} (hi : i < b.length) :
    strictPipelines.toBlockRule.answer? b i = some (.replace k l) ↔
      (b.line i).kind = .item ∧ ∃ command, pipeCommand? b ⟨i, b.stopOf i⟩ = some command ∧
        command.index = k ∧ insertStrictPipes? command (b.line k) = some l := by
  constructor
  · intro h
    obtain ⟨_, _, _, hselects, _⟩ := ScopedRewrite.answer?_eq_some_iff.1 h
    exact ⟨Target.kind_of_selects_itemsWithKey hselects, exists_of_answer?_strictPipelines h⟩
  · rintro ⟨hitem, command, hcommand, rfl, hinsert⟩
    obtain ⟨hle, hstop, _⟩ := of_pipeCommand? hcommand
    obtain ⟨_, hlacks⟩ := of_pipeCommand?_eq_some hi hcommand
    refine ScopedRewrite.answer?_eq_some_iff.2 ⟨_, _, rfl, ?_, ?_, ⟨hle, hstop⟩, ?_⟩
    · have hfound : (b.findKey? ⟨i, b.stopOf i⟩ shellModules).isSome = true := by
        rw [pipeCommand?_eq] at hcommand
        split at hcommand
        · obtain ⟨found, hfound, _⟩ := Option.bind_eq_some_iff.1 hcommand
          rw [hfound]
          rfl
        · cases hcommand
      rw [isSome_findKey?_eq, ← any_fields_eq] at hfound
      simp only [strictPipelines, Target.selects, hitem, decide_true, Bool.true_and, hfound]
    · rw [show strictPipelines.rewrite? = addStrictPipes? from rfl, addStrictPipes?_eq, hcommand,
        Option.bind_some, hinsert]
      rfl
    · rintro rfl
      obtain ⟨_, _, _, hl, _⟩ := exists_append_of_insertStrictPipes? hinsert
      rw [hl, contains_strictPipes] at hlacks
      cases hlacks

/-- Every answer replaces a line of the document. -/
theorem exists_replace_of_answer? {edit : BlockEdit} (hi : i < b.length)
    (h : strictPipelines.toBlockRule.answer? b i = some edit) :
    ∃ k l, edit = .replace k l ∧ k < b.length := by
  obtain ⟨k, l, rfl, _, _, ⟨_, hk⟩, _⟩ := ScopedRewrite.answer?_eq_some_iff.1 h
  exact ⟨k, l, rfl, Nat.lt_of_lt_of_le hk (stopOf_le_length hi)⟩

section

variable (hx : Injects.At readOnlyCommand b i p x)
  (hsome : (readOnlyCommand.toBlockRule.answer? b i).isSome = true)
  (haside : StandsAside b i p x) (hn : n < b.length)

include hx hsome haside hn

/-- A mark that stands aside moves every answer down with its line. -/
theorem StandsAside.answer?_insertIdx :
    strictPipelines.toBlockRule.answer? (b.insertIdx p x) (shift p n) =
      (strictPipelines.toBlockRule.answer? b n).map (.shifted p) := by
  have hp := hx.le_length
  have hn' := (shift_lt_length hp (x := x)).2 hn
  refine Option.ext fun edit => ?_
  rw [Option.map_eq_some_iff]
  constructor
  · intro h
    obtain ⟨k', l, rfl, _⟩ := exists_replace_of_answer? hn' h
    obtain ⟨hitem, command', hcommand', rfl, hinsert⟩ := (answer?_strictPipelines_iff hn').1 h
    rw [line_insertIdx_shift hp x] at hitem
    rw [haside.pipeCommand?_insertIdx hx hsome hn (by rw [hitem]; rfl)] at hcommand'
    obtain ⟨command, hcommand, rfl⟩ := Option.map_eq_some_iff.1 hcommand'
    simp only [CommandLine.shifted, line_insertIdx_shift hp x] at hinsert
    exact ⟨.replace command.index l, (answer?_strictPipelines_iff hn).2
      ⟨hitem, command, hcommand, rfl, hinsert⟩, rfl⟩
  · rintro ⟨edit, h, rfl⟩
    obtain ⟨k, l, rfl, _⟩ := exists_replace_of_answer? hn h
    obtain ⟨hitem, command, hcommand, rfl, hinsert⟩ := (answer?_strictPipelines_iff hn).1 h
    refine (answer?_strictPipelines_iff hn').2 ⟨by rwa [line_insertIdx_shift hp x],
      command.shifted p, ?_, rfl, ?_⟩
    · rw [haside.pipeCommand?_insertIdx hx hsome hn (by rw [hitem]; rfl), hcommand,
        Option.map_some]
    · rw [CommandLine.shifted, line_insertIdx_shift hp x]
      exact hinsert

/-- The commands of pipelines are as plain around a mark that stands aside. -/
theorem StandsAside.pipesPlainly_insertIdx (hplain : b.PipesPlainly n) :
    Buffer.PipesPlainly (b.insertIdx p x) (shift p n) := by
  have hp := hx.le_length
  intro hitem command' hcommand'
  rw [line_insertIdx_shift hp x] at hitem
  rw [haside.pipeCommand?_insertIdx hx hsome hn (by rw [hitem]; rfl)] at hcommand'
  obtain ⟨command, hcommand, rfl⟩ := Option.map_eq_some_iff.1 hcommand'
  obtain ⟨hquoted, hscript⟩ := hplain hitem command hcommand
  refine ⟨hquoted, fun hinline => ?_⟩
  rw [CommandLine.shifted, line_insertIdx_shift hp x]
  exact hscript hinline

end

/-- A mark starts no block of a pipeline. -/
theorem answer?_mark (hx : Injects.At readOnlyCommand b i p x) :
    strictPipelines.toBlockRule.answer? (b.insertIdx p x) p = none ∧
      Buffer.PipesPlainly (b.insertIdx p x) p := by
  have hkind : (Buffer.line (b.insertIdx p x) p).kind = .parameter := by
    rw [line_insertIdx_self hx.le_length]
    exact hx.kind_eq injects_readOnlyCommand.isBareKey
  constructor
  · rw [← Option.not_isSome_iff_eq_none]
    intro hsome
    obtain ⟨edit, h⟩ := Option.isSome_iff_exists.1 hsome
    obtain ⟨_, _, _, hselects, _⟩ := ScopedRewrite.answer?_eq_some_iff.1 h
    have hitem := Target.kind_of_selects_itemsWithKey hselects
    rw [hkind] at hitem
    cases hitem
  · intro hitem
    rw [hkind] at hitem
    cases hitem

/-! ### Marks around a replaced line -/

section

variable {k : Nat} {l : Line} (hk : k < b.length) (hl : (b.line k).ReadsAlike l)

include hk hl

theorem isLeaf_set : Buffer.IsLeaf (b.set k l) p x ↔ b.IsLeaf p x := by
  let reading : Line → Bool × Bool := fun l => (l.kind.isSignificant, isInsideSequence x.depth l)
  have hreading : reading l = reading (b.line k) := by
    simp only [reading, isInsideSequence, hl.kind_eq, (hl.resembles []).sameExtent.isInside_eq,
      hl.sameFrame.depth_eq]
  have hmap : (b.set k l).map reading = b.map reading := by
    rw [List.map_set, hreading, line_eq_getElem b k hk, ← List.getElem_map (f := reading)]
    exact List.set_getElem_self (by rwa [List.length_map])
  have hleaf (b : Buffer) : b.IsLeaf p x ↔
      ∀ r ∈ ((b.map reading).drop p).find? Prod.fst, r.2 = false := by
    rw [← List.map_drop, List.find?_map, IsLeaf]
    simp [reading]
  rw [hleaf, hleaf, hmap]

/-- A mark stands aside as before when a line takes the place of one that reads alike. -/
theorem StandsAside.set (haside : StandsAside b i p x) : StandsAside (b.set k l) i p x where
  isLeaf := (isLeaf_set hk hl).2 haside.isLeaf
  valueEndsAbove hshell hip m hm hpm := by
    have hline := readsAlike_line_set hk hl
    rw [((hline i).resembles shellModules).hasKeyIn_eq (List.Subset.refl _)] at hshell
    rw [valueLines_set hk (hl.sharesKeys [])] at hm
    rw [(hline m).kind_eq]
    exact haside.valueEndsAbove hshell hip m hm hpm

end

end RuleSets

end TaskTidy
