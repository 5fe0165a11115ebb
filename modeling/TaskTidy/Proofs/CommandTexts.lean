import TaskTidy.Proofs.Headers
import TaskTidy.RuleSets.ChangedWhen

/-!
# Commands that read state

Whether a command reads state is told by its first word, without the quotes around the command. The
option for pipelines in front of a command is passed over, but a quote in front of the option hides
it.
-/

namespace TaskTidy

namespace Text

variable {c : Char} {needle s t : List Char} {p : Char → Bool}

/-- A text is not found across a part that lacks its first character. -/
theorem contains_append_of_not_mem (h : c ∉ s) :
    contains (c :: needle) (s ++ t) = contains (c :: needle) t := by
  induction s with
  | nil => rfl
  | cons x s ih =>
      rw [List.mem_cons, not_or] at h
      rw [List.cons_append, contains, ih h.2, List.isPrefixOf_cons_cons, beq_eq_false_iff_ne.2 h.1,
        Bool.false_and, Bool.false_or]

/-- What is cut from the end of a text leaves a part that ends in a character that stays. -/
theorem dropEndWhile_append_of_ne_nil (hs : s ≠ []) (h : ∀ x ∈ s, p x = false) (t : List Char) :
    dropEndWhile p (s ++ t) = s ++ dropEndWhile p t := by
  obtain ⟨init, x, rfl⟩ := (List.eq_nil_or_concat s).resolve_left hs
  rw [List.concat_eq_append] at h ⊢
  rw [List.append_assoc, List.append_assoc]
  exact dropEndWhile_append_cons (h x (by simp))

end Text

namespace RuleSets

variable {c : Char} {head front rest text : List Char}

/-- Whether a text starts with a quote. -/
def isQuoted (text : List Char) : Bool :=
  text.head?.any fun c => c == '"' || c == '\''

/-- Whether a command only reads state and names no file that it creates or removes. -/
def readsState (text : List Char) : Bool :=
  !namesEffect text && isReadOnlyText text

theorem namesEffect_append (hc : 'c' ∉ front) (hr : 'r' ∉ front) :
    namesEffect (front ++ text) = namesEffect text := by
  have hcreates : Text.contains "creates=".toList (front ++ text) =
      Text.contains "creates=".toList text := Text.contains_append_of_not_mem hc
  have hremoves : Text.contains "removes=".toList (front ++ text) =
      Text.contains "removes=".toList text := Text.contains_append_of_not_mem hr
  rw [namesEffect, namesEffect, hcreates, hremoves]

theorem unquote_append (hhead : head ≠ []) (h : ∀ c ∈ head, (c == '"' || c == '\'') = false)
    (rest : List Char) : unquote (head ++ rest) =
      head ++ Text.dropEndWhile (fun c => c == '"' || c == '\'') rest := by
  obtain ⟨c, more, rfl⟩ := List.exists_cons_of_ne_nil hhead
  rw [unquote, Text.trimMatches, List.cons_append, List.dropWhile_cons_of_neg (by simp [h]),
    ← List.cons_append, Text.dropEndWhile_append_of_ne_nil hhead h]

/-- A text that starts like no command that reads state is none. -/
theorem not_command_of_head (hhead : head ≠ []) (hsolid : ∀ c ∈ head, Text.isBlank c = false)
    (h : ∀ command ∈ readOnlyCommands, ¬ head <+: command) (rest : List Char) :
    readOnlyCommands.contains (Text.firstWord (head ++ rest)) = false := by
  obtain ⟨c, more, rfl⟩ := List.exists_cons_of_ne_nil hhead
  have hword : Text.firstWord (c :: more ++ rest) =
      c :: more ++ rest.takeWhile fun c => !Text.isBlank c := by
    rw [Text.firstWord, Text.trimStart, List.cons_append,
      List.dropWhile_cons_of_neg (by simp [hsolid]), ← List.cons_append,
      List.takeWhile_append_of_pos (by simpa using hsolid)]
  rw [hword, ← Bool.not_eq_true, List.contains_iff_mem]
  exact fun hmem => h _ hmem (List.prefix_append _ _)

/-- A text that starts like no command that reads state, and not with the option, is none. -/
theorem isReadOnlyText_append (hhead : head ≠ [])
    (hsolid : ∀ c ∈ head, (c == '"' || c == '\'') = false ∧ Text.isBlank c = false)
    (h : ∀ command ∈ readOnlyCommands, ¬ head <+: command)
    (hoption : Text.strip? strictPipes (head ++ rest) = none) :
    isReadOnlyText (head ++ rest) = false := by
  rw [isReadOnlyText, hoption, Option.getD_none, unquote_append hhead fun c hc => (hsolid c hc).1]
  exact not_command_of_head hhead (fun c hc => (hsolid c hc).2) h _

/-- Behind a quote the option is taken for the command. -/
theorem isReadOnlyText_quoted (hc : c = '"' ∨ c = '\'') (rest : List Char) :
    isReadOnlyText (c :: ("set".toList ++ rest)) = false := by
  have hoption : Text.strip? strictPipes (c :: ("set".toList ++ rest)) = none := by
    rcases hc with rfl | rfl <;> rfl
  have hquote : unquote (c :: ("set".toList ++ rest)) = unquote ("set".toList ++ rest) := by
    rcases hc with rfl | rfl <;> rfl
  rw [isReadOnlyText, hoption, Option.getD_none, hquote, unquote_append (by decide) (by simp)]
  exact not_command_of_head (by decide) (by simp [Text.isBlank]) (by decide) _

/-- Behind blanks a quote is taken for the start of the command. -/
private theorem not_command_of_quote (hfront : ∀ x ∈ front, Text.isBlank x = true)
    (hc : c = '"' ∨ c = '\'') (p : Char → Bool) (rest : List Char) :
    readOnlyCommands.contains (Text.firstWord (Text.dropEndWhile p (front ++ c :: rest))) =
      false := by
  have hblank : Text.isBlank c = false := by rcases hc with rfl | rfl <;> decide
  have hcut := Text.dropEndWhile_append_takeEndWhile p (front ++ c :: rest)
  generalize Text.dropEndWhile p (front ++ c :: rest) = kept at hcut
  rw [← Bool.not_eq_true, List.contains_iff_mem, Text.firstWord, Text.trimStart]
  intro hmem
  cases hkept : kept.dropWhile Text.isBlank with
  | nil =>
      rw [hkept] at hmem
      exact absurd hmem (by decide)
  | cons x more =>
      have hdrop := congrArg (List.dropWhile Text.isBlank) hcut
      rw [List.dropWhile_append, hkept, List.dropWhile_append_of_pos hfront,
        List.dropWhile_cons_of_neg (by simp [hblank])] at hdrop
      obtain rfl : x = c := (List.cons.inj hdrop).1
      have hall : readOnlyCommands.all (fun command => !isQuoted command) = true := by decide
      have hhead := List.all_eq_true.1 hall _ hmem
      rw [hkept, List.takeWhile_cons_of_pos (by simp [hblank]), isQuoted] at hhead
      rcases hc with rfl | rfl <;> cases hhead

/-- Blanks in front of a command that is not quoted do not show in its first word. -/
private theorem firstWord_unquote_append (hfront : ∀ x ∈ front, Text.isBlank x = true)
    (hc : (c == '"' || c == '\'') = false) (rest : List Char) :
    Text.firstWord (Text.dropEndWhile (fun c => c == '"' || c == '\'') (front ++ c :: rest)) =
      Text.firstWord (unquote (c :: rest)) := by
  have hunquote : unquote (c :: rest) =
      c :: Text.dropEndWhile (fun c => c == '"' || c == '\'') rest :=
    unquote_append (List.cons_ne_nil c []) (by simpa using hc) rest
  rw [hunquote, Text.dropEndWhile_append_cons hc, Text.firstWord, Text.firstWord, Text.trimStart,
    Text.trimStart, List.dropWhile_append_of_pos hfront]

/-- A command without the option reads as before behind the option, unless it is quoted and reads
state. -/
private theorem isReadOnlyText_strictPipes (hfront : ∀ x ∈ front, Text.isBlank x = true)
    (hoption : Text.strip? strictPipes (c :: rest) = none)
    (hplain : isQuoted (c :: rest) = true → isReadOnlyText (c :: rest) = false) :
    isReadOnlyText (strictPipes ++ (front ++ c :: rest)) = isReadOnlyText (c :: rest) := by
  have hstrip : Text.strip? strictPipes (strictPipes ++ (front ++ c :: rest)) =
      some (front ++ c :: rest) := Text.strip?_eq_some_iff.2 rfl
  cases front with
  | nil =>
      rw [isReadOnlyText, hstrip, isReadOnlyText, hoption]
      rfl
  | cons f more =>
      have hf : (f == '"' || f == '\'') = false :=
        Text.eq_false_of_isBlank (p := fun c => c == '"' || c == '\'') (by decide +kernel)
          (hfront f List.mem_cons_self)
      rw [isReadOnlyText, hstrip, Option.getD_some, unquote, Text.trimMatches, List.cons_append,
        List.dropWhile_cons_of_neg (by simp [hf]), ← List.cons_append]
      cases hquote : isQuoted (c :: rest) with
      | true =>
          rw [hplain hquote]
          exact not_command_of_quote hfront (by simpa [isQuoted] using hquote) _ rest
      | false =>
          rw [isReadOnlyText, hoption, Option.getD_none,
            firstWord_unquote_append hfront (by simpa [isQuoted] using hquote)]

/-- A command that does not name the option reads as before behind it, unless it is quoted and reads
state. -/
theorem readsState_strictPipes (hfront : ∀ x ∈ front, Text.isBlank x = true)
    (hlacks : Text.contains "pipefail".toList (c :: rest) = false)
    (hplain : isQuoted (c :: rest) = true → isReadOnlyText (c :: rest) = false) :
    readsState (strictPipes ++ (front ++ c :: rest)) = readsState (c :: rest) := by
  have hoption : Text.strip? strictPipes (c :: rest) = none := by
    rw [Option.eq_none_iff_forall_ne_some]
    intro more hmore
    have hnames : Text.contains "pipefail".toList (strictPipes ++ more) = true := rfl
    rw [Text.strip?_eq_some_iff.1 hmore, hnames] at hlacks
    cases hlacks
  have hblank {x : Char} (hx : Text.isBlank x = false) : x ∉ front := fun hmem => by
    rw [hfront x hmem] at hx
    cases hx
  have heffect : namesEffect (strictPipes ++ (front ++ c :: rest)) = namesEffect (c :: rest) := by
    rw [namesEffect_append (by decide) (by decide),
      namesEffect_append (hblank (by decide)) (hblank (by decide))]
  rw [readsState, readsState, heffect, isReadOnlyText_strictPipes hfront hoption hplain]

end RuleSets

end TaskTidy
