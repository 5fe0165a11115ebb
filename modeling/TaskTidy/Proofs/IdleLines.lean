import TaskTidy.Proofs.Pipelines
import TaskTidy.Proofs.RenameEdits
import TaskTidy.Proofs.Resemblance

/-!
# Lines that the option for pipelines passes over

A line is idle for the option if it names neither a module nor a list of tasks, holds no pipe and
does not name the option. A line that ignores errors is idle, and so is the line written in its
place. When one idle line takes the place of another in the same frame, every block gets the answer
that it got before.
-/

namespace TaskTidy

open RuleSets

/-- The keys that the option for pipelines looks for. -/
def pipeKeys : List (List Char) :=
  shellModules ++ taskListKeys ++ ["cmd".toList]

namespace Line

variable {l l' : Line}

/-- The option for pipelines passes over the line. -/
structure IsIdle (l : Line) : Prop where
  hasKey_eq : ∀ key ∈ pipeKeys, l.hasKey key = false
  contains_eq : Text.contains "pipefail".toList l = false
  hasPipe_eq : hasPipe (Text.trim l) = false
  startsText : (!(Text.trim l).isEmpty && (Text.trim l).head? != some '#') = true

/-- Two lines of one frame and one kind that are idle. -/
structure BothIdle (l l' : Line) : Prop where
  sameFrame : SameFrame l l'
  allBlank_eq : Text.allBlank l' = Text.allBlank l
  kind_eq : l'.kind = l.kind
  isNone_value?_eq : l'.value?.isNone = l.value?.isNone
  left : l.IsIdle
  right : l'.IsIdle

theorem BothIdle.resembles (h : BothIdle l l') : Resembles pipeKeys l l' where
  sameFrame := h.sameFrame
  allBlank_eq := h.allBlank_eq
  kind_eq := h.kind_eq
  isNone_value?_eq := h.isNone_value?_eq
  hasKey_eq key hkey := by rw [h.right.hasKey_eq key hkey, h.left.hasKey_eq key hkey]

theorem IsIdle.hasKeyIn_eq (h : l.IsIdle) {keys : List (List Char)} (hkeys : keys ⊆ pipeKeys) :
    l.hasKeyIn keys = false := by
  rw [← Bool.not_eq_true, hasKeyIn_iff]
  rintro ⟨key, hmem, hkey⟩
  have hlacks := h.hasKey_eq key (hkeys hmem)
  rw [hasKey, hkey, beq_self_eq_true] at hlacks
  cases hlacks

end Line

namespace RuleSets

variable {c : Char} {s : List Char}

/-! ### Text without a pipe -/

theorem mem_of_mem_dropTemplates {skip : Nat} (h : c ∈ dropTemplates skip s) : c ∈ s := by
  induction s generalizing skip with
  | nil => cases skip <;> cases h
  | cons x rest ih =>
      cases skip with
      | succ skip => exact List.mem_cons_of_mem _ (ih h)
      | zero =>
          unfold dropTemplates at h
          split at h
          · exact List.mem_cons_of_mem _ (ih h)
          · rcases List.mem_cons.1 h with rfl | h
            · exact List.mem_cons_self
            · exact List.mem_cons_of_mem _ (ih h)

theorem hasLonePipe_eq_false {afterPipe : Bool} (h : '|' ∉ s) :
    hasLonePipe afterPipe s = false := by
  induction s generalizing afterPipe with
  | nil => rfl
  | cons x rest ih =>
      have hx : x ≠ '|' := fun heq => h (heq ▸ List.mem_cons_self)
      rw [hasLonePipe, if_neg hx]
      exact ih fun hmem => h (List.mem_cons_of_mem _ hmem)

theorem hasPipe_eq_false (h : '|' ∉ s) : hasPipe s = false := by
  rw [hasPipe, hasLonePipe_eq_false fun hmem => h (mem_of_mem_dropTemplates hmem), Bool.and_false]

end RuleSets

/-! ### Ignored errors -/

namespace Line

variable {l : Line} {c : Char} {rest : List Char}

theorem mem_of_mem_trim {s : List Char} (h : c ∈ Text.trim s) : c ∈ s := by
  obtain ⟨front, back, hs, _⟩ := Text.exists_eq_append_trim_append s
  rw [hs]
  exact List.mem_append_left _ (List.mem_append_right _ h)

theorem trim_of_unindented (hu : l.unindented = c :: rest) (hc : Text.isBlank c = false) :
    Text.trim l = c :: Text.dropEndWhile Text.isBlank rest := by
  have hblank : ∀ x ∈ l.indentation, Text.isBlank x = true := fun x hx =>
    Text.isBlank_of_isIndent (isIndent_of_mem_indentation hx)
  have htrim := Text.trim_append_cons hblank hc rest
  rwa [← hu, indentation_append_unindented] at htrim

/-- A line without pipes is idle if no key that is looked for starts like its text, and it does not
hold the first letter of the option. -/
theorem isIdle_of_unindented (hu : l.unindented = c :: rest)
    (hbody : startsBody l.unindented = true) (hc : c = 'i' ∨ c = 'f') (hpipe : '|' ∉ l)
    (hletter : 'p' ∉ l) : l.IsIdle where
  hasKey_eq key hkey := by
    have hall : pipeKeys.all (fun key => key.head?.any fun x => x != 'i' && x != 'f') = true := by
      decide
    have hhead := List.all_eq_true.1 hall key hkey
    apply hasKey_eq_false
    rw [body_of_startsBody hbody, hu]
    cases key with
    | nil => cases hhead
    | cons x more =>
        rw [List.cons_prefix_cons]
        rintro ⟨rfl, _⟩
        rcases hc with rfl | rfl <;> cases hhead
  contains_eq := by
    rw [← Bool.not_eq_true, Text.contains_iff]
    exact fun hoption => hletter (hoption.subset (by decide))
  hasPipe_eq := hasPipe_eq_false fun hmem => hpipe (mem_of_mem_trim hmem)
  startsText := by
    rcases hc with rfl | rfl
    · rw [trim_of_unindented hu (by decide)]
      rfl
    · rw [trim_of_unindented hu (by decide)]
      rfl

end Line

namespace RuleSets

open Line

variable {l l' : Line}

/-- A key that ignores errors has a word behind its colon. -/
theorem isSome_value?_of_replaceIgnoreErrors? (h : replaceIgnoreErrors? l = some l')
    (hkind : l.kind = .parameter) : l.value?.isSome = true := by
  obtain ⟨rest, hrest, hword, _⟩ := exists_of_replaceIgnoreErrors? h
  have happ := Text.dropEndWhile_append_takeEndWhile Text.isIndent l.unindented
  rw [hrest, List.append_assoc] at happ
  have hwords : ignoringWords.all (fun word => word.any fun x => !Text.isBlank x) = true := by
    decide
  obtain ⟨x, hx, hsolid⟩ := List.any_eq_true.1 (List.all_eq_true.1 hwords _ hword)
  rw [Bool.not_eq_true'] at hsolid
  have hmem : x ∈ rest ++ Text.takeEndWhile Text.isIndent l.unindented :=
    List.mem_append_left _ ((List.dropWhile_sublist _).mem hx)
  have hentry : (entryOf? l.unindented).isSome = true := by
    by_contra hnone
    rw [kind_eq_of_replaceIgnoreErrors? h, if_neg hnone] at hkind
    cases hkind
  rw [value?, body_of_startsBody (by rw [← happ]; rfl)]
  generalize rest ++ Text.takeEndWhile Text.isIndent l.unindented = tail at happ hmem
  rw [← happ] at hentry ⊢
  cases tail with
  | nil => cases hmem
  | cons y more =>
      have hsplit : entryOf? ("ignore_errors:".toList ++ y :: more) =
          if Text.isIndent y then some ⟨"ignore_errors".toList, more⟩ else none := rfl
      rw [hsplit] at hentry ⊢
      by_cases hy : Text.isIndent y = true
      · have hmore : x ∈ more := by
          rcases List.mem_cons.1 hmem with rfl | hmore
          · rw [Text.isBlank_of_isIndent hy] at hsolid
            cases hsolid
          · exact hmore
        simp only [if_pos hy, allBlank_eq_false hmore hsolid]
        rfl
      · rw [if_neg hy] at hentry
        cases hentry

/-- No character of the option and no pipe stands in a line that ignores errors. -/
theorem not_mem_of_replaceIgnoreErrors? (h : replaceIgnoreErrors? l = some l') {c : Char}
    (hc : c = '|' ∨ c = 'p') : c ∉ l ∧ c ∉ l' := by
  obtain ⟨rest, hrest, hword, hl'⟩ := exists_of_replaceIgnoreErrors? h
  have hsolid : Text.isIndent c = false := by rcases hc with rfl | rfl <;> decide
  have hkeys : c ∉ "ignore_errors:".toList ∧ c ∉ "failed_when: false".toList := by
    rcases hc with rfl | rfl <;> decide
  have hwords : ignoringWords.all (fun word => !word.contains c) = true := by
    rcases hc with rfl | rfl <;> decide
  refine ⟨fun hmem => ?_, fun hmem => ?_⟩
  · exact not_mem_of_word hrest hword hkeys.1 hsolid hwords (mem_unindented hmem hsolid)
  · rw [hl', take_depth, List.mem_append] at hmem
    rcases hmem with hmem | hmem
    · rw [isIndent_of_mem_indentation hmem] at hsolid
      cases hsolid
    · exact hkeys.2 hmem

/-- The option passes over a key that ignores errors, before and after it is rewritten. -/
theorem bothIdle_of_replaceIgnoreErrors? (h : replaceIgnoreErrors? l = some l')
    (hkind : l.kind = .parameter) : l.BothIdle l' := by
  obtain ⟨⟨rest, hrest⟩, hl'⟩ := of_replaceIgnoreErrors? h
  obtain ⟨hpipe, hpipe'⟩ := not_mem_of_replaceIgnoreErrors? h (Or.inl rfl)
  obtain ⟨hletter, hletter'⟩ := not_mem_of_replaceIgnoreErrors? h (Or.inr rfl)
  have hun' : l'.unindented = "failed_when: false".toList := by
    rw [hl', unindented_take_depth_append rfl]
  have hvalue : l'.value?.isSome = true := by
    rw [value?, body_of_startsBody (by rw [hun']; rfl), hun']
    rfl
  refine ⟨(climbs_of_replaceIgnoreErrors? true h).sameFrame,
    (sameExtent_of_replaceIgnoreErrors? h).2, ?_, ?_, ?_, ?_⟩
  · rw [kind_replaceIgnoreErrors? h, hkind]
  · rw [Option.isNone_eq_false_iff.2 hvalue,
      Option.isNone_eq_false_iff.2 (isSome_value?_of_replaceIgnoreErrors? h hkind)]
  · exact isIdle_of_unindented hrest (by rw [hrest]; rfl) (Or.inl rfl) hpipe hletter
  · exact isIdle_of_unindented hun' (by rw [hun']; rfl) (Or.inr rfl) hpipe' hletter'

end RuleSets

/-! ### One idle line in the place of another -/

namespace Buffer

variable {b : Buffer} {i j : Nat} {l : Line}

section

variable (hl : (b.line j).BothIdle l)

include hl

/-- A block names the option if it named it before. -/
theorem blockContains_set (e : Extent) :
    Buffer.blockContains (b.set j l) e "pipefail".toList =
      b.blockContains e "pipefail".toList :=
  any_blockLines_set (by rw [hl.right.contains_eq, hl.left.contains_eq]) e

/-- The line that holds a command carries a key that the idle line does not. -/
theorem ne_of_commandKey? {k key : Nat} (hk : k ≠ j) (h : b.commandKey? k = some key) :
    key ≠ j := by
  rcases of_commandKey?_eq_some h with rfl | ⟨_, _, hfound⟩
  · exact hk
  · rintro rfl
    rw [hl.left.hasKey_eq _ (by decide)] at hfound
    cases hfound

variable (hj : j < b.length)

include hj

/-- A command has as many texts with a pipe as before. -/
theorem any_commandTexts_set {k : Nat} (hk : k ≠ j) :
    (Buffer.commandTexts (b.set j l) k).any hasPipe = (b.commandTexts k).any hasPipe := by
  rw [commandTexts, commandTexts, commandKey?_set hj hl.resembles (by decide)]
  cases hkey : b.commandKey? k with
  | none => rfl
  | some key =>
      have hpipe := map_line_set (f := fun x => hasPipe (Text.trim x)) hj
        (hl.right.hasPipe_eq.trans hl.left.hasPipe_eq.symm)
      simp only [line_set_of_ne (ne_of_commandKey? hl hk hkey),
        valueLines_set hj hl.resembles.toSharesKeys]
      split
      · rfl
      · split
        · simp only [List.any_map, Function.comp_def, hpipe]
        · rfl

/-- The first line of a command stays the first. -/
theorem commandLine?_set {k : Nat} (hk : k ≠ j) :
    (Buffer.commandLine? (b.set j l) k).map (fun c => (c.index, c.isInline)) =
      (b.commandLine? k).map fun c => (c.index, c.isInline) := by
  rw [commandLine?, commandLine?, commandKey?_set hj hl.resembles (by decide)]
  cases hkey : b.commandKey? k with
  | none => rfl
  | some key =>
      have hstarts (m : Nat) : (!(Text.trim (Buffer.line (b.set j l) m)).isEmpty &&
            (Text.trim (Buffer.line (b.set j l) m)).head? != some '#') =
          (!(Text.trim (b.line m)).isEmpty && (Text.trim (b.line m)).head? != some '#') :=
        map_line_set (f := fun x => !(Text.trim x).isEmpty && (Text.trim x).head? != some '#') hj
          (hl.right.startsText.trans hl.left.startsText.symm) m
      simp only [line_set_of_ne (ne_of_commandKey? hl hk hkey),
        valueLines_set hj hl.resembles.toSharesKeys]
      split
      · rfl
      · split
        · simp only [hstarts, Option.map_map, Function.comp_def]
        · rfl

end

end Buffer

end TaskTidy
