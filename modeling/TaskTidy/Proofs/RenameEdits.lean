import TaskTidy.Proofs.Climbs
import TaskTidy.Proofs.HeaderEdits

/-!
# Headers under renames

A module may open a block scalar, and still does so when it is renamed. The names of units and the
words that ignore errors are no headers. None of these rewrites moves a line to another block.
-/

namespace TaskTidy

namespace Text

theorem trim_dropWhile_isIndent (s : List Char) : trim (s.dropWhile isIndent) = trim s := by
  have hstart : trimStart (s.dropWhile isIndent) = trimStart s := by
    induction s with
    | nil => rfl
    | cons c rest ih =>
        by_cases hc : isIndent c = true
        · rw [List.dropWhile_cons_of_pos hc, ih, trimStart, trimStart,
            List.dropWhile_cons_of_pos (isBlank_of_isIndent hc)]
        · rw [List.dropWhile_cons_of_neg hc]
  rw [trim, trim, hstart]

end Text

namespace Line

variable {l : Line}

/-- A header holds the mark of its block scalar. -/
theorem exists_mark_of_opensScalar (h : l.opensScalar = true) : '|' ∈ l ∨ '>' ∈ l := by
  obtain ⟨key, blanks, c, rest, hbody, _, _, hheader, _⟩ := exists_header_of_opensScalar h
  obtain ⟨front, mark, marks, gap, tail, rfl, _, hmark, _⟩ := exists_of_isScalarHeader hheader
  have hmem : mark ∈ l := by
    apply List.mem_of_mem_drop (i := l.column)
    rw [← body, hbody]
    simp
  rcases hmark with rfl | rfl
  · exact Or.inl hmem
  · exact Or.inr hmem

theorem opensScalar_eq_false (h : '|' ∉ l) (h' : '>' ∉ l) : l.opensScalar = false := by
  rw [← Bool.not_eq_true]
  intro hopens
  exact (exists_mark_of_opensScalar hopens).elim h h'

end Line

namespace RuleSets

open Line

variable {l l' : Line}

/-! ### Rewrites that keep the layout -/

/-- A rewrite that keeps headers and leaves every line in its blocks. -/
structure KeepsLayout (f : Line → Option Line) : Prop extends KeepsHeaders f where
  extent : ∀ {l l' : Line}, f l = some l' → l.SameExtent l'

/-- The name of a collection in front of a bare key belongs to the key. -/
theorem entryOf?_builtinCollection {x : Char} {rest : List Char} {entry : Entry}
    (hx : isKeyStart x = true) (hx' : isKeyChar x = true)
    (h : entryOf? (x :: rest) = some entry) :
    entryOf? (builtinCollection ++ x :: rest) =
      some ⟨builtinCollection ++ entry.key, entry.rest⟩ := by
  have hsplit : splitKey? (builtinCollection ++ x :: rest) =
      some (builtinCollection ++ x :: rest.takeWhile isKeyChar, rest.dropWhile isKeyChar) := by
    have hinside : ∀ c ∈ builtinCollection.tail ++ [x], isKeyChar c = true := by
      intro c hc
      rcases List.mem_append.1 hc with hc | hc
      · have hall : (builtinCollection.tail.all isKeyChar) = true := by decide
        exact List.all_eq_true.1 hall c hc
      · rwa [List.mem_singleton.1 hc]
    have hcut : builtinCollection ++ x :: rest =
        'a' :: ((builtinCollection.tail ++ [x]) ++ rest) := by
      rw [List.append_assoc]
      rfl
    rw [hcut, splitKey?_of_isKeyStart (by decide), List.takeWhile_append_of_pos hinside,
      List.dropWhile_append_of_pos hinside, List.append_assoc]
    rfl
  unfold entryOf? at h ⊢
  rw [splitKey?_of_isKeyStart hx] at h
  rw [hsplit]
  dsimp only at h ⊢
  split at h
  · cases h
    rfl
  · next c more hcolon =>
      split at h
      · next hc =>
          cases h
          simp only [hc, if_true]
      · cases h
  · cases h

/-- The names of modules are bare keys. -/
theorem isKey_of_qualifyModule? {x : Char} {rest : List Char}
    (h : qualifyModule? l = some l') (hbody : l.body = x :: rest) :
    isKeyStart x = true ∧ isKeyChar x = true := by
  have hall : builtinModules.all (fun m => m.head?.any fun x =>
      isKeyStart x && isKeyChar x && x != ':') = true := by decide +kernel
  have hm := List.all_eq_true.1 hall _ (of_qualifyModule? h).2
  rw [hbody, List.takeWhile_cons] at hm
  split at hm
  · simp only [List.head?_cons, Option.any_some, Bool.and_eq_true] at hm
    exact hm.1
  · cases hm

/-- A module that is qualified still opens its script. -/
theorem keepsLayout_qualifyModule : KeepsLayout qualifyModule? where
  text {l l'} h := by
    obtain ⟨x, rest, hbody, hblank, _⟩ := exists_body_of_qualifyModule? h
    have hmem : x ∈ l.body := by
      rw [hbody]
      exact List.mem_cons_self
    exact allBlank_eq_false (List.mem_of_mem_drop hmem) hblank
  header h hopens := by
    obtain ⟨x, rest, hbody, _⟩ := exists_body_of_qualifyModule? h
    obtain ⟨hx, hx'⟩ := isKey_of_qualifyModule? h hbody
    obtain ⟨entry, hentry, hheader⟩ := opensScalar_iff.1 hopens
    constructor
    · apply opensScalar_iff.2
      rw [body_of_qualifyModule? h, hbody]
      rw [hbody] at hentry
      exact ⟨_, entryOf?_builtinCollection hx hx' hentry, hheader⟩
    · rw [(of_qualifyModule? h).1]
      exact column_take_column_append rfl
  extent h := sameExtent_of_qualifyModule? h

/-- A value stands behind one blank or more. -/
private theorem exists_of_valueAfterBlanks? {text value : List Char}
    (h : valueAfterBlanks? text = some value) :
    ∃ c rest, text = c :: rest ∧ Text.isIndent c = true ∧ Text.trim value = Text.trim rest := by
  cases text with
  | nil => cases h
  | cons c rest =>
      refine ⟨c, rest, rfl, ?_⟩
      by_cases hc : Text.isIndent c = true
      · refine ⟨hc, ?_⟩
        unfold valueAfterBlanks? at h
        rw [List.dropWhile_cons_of_pos hc] at h
        rw [← Text.trim_dropWhile_isIndent rest]
        cases hrest : rest.dropWhile Text.isIndent with
        | nil =>
            rw [hrest] at h
            dsimp only at h
            split at h
            · obtain ⟨x, hx, rfl⟩ := Option.map_eq_some_iff.1 h
              have hblank := Text.isBlank_of_isIndent
                (List.mem_takeWhile_imp (List.mem_of_getLast? hx))
              exact Text.trim_eq_nil (by simp [Text.allBlank, hblank])
            · cases h
        | cons x more =>
            rw [hrest, List.takeWhile_cons_of_pos hc] at h
            rw [← Option.some.inj h]
      · unfold valueAfterBlanks? at h
        rw [List.dropWhile_cons_of_neg hc, List.takeWhile_cons_of_neg hc] at h
        cases h

/-- A parameter that is shortened is an entry before and after, and its value stays. -/
theorem exists_entries_of_unqualifyParameter? (h : unqualifyParameter? l = some l') :
    ∃ key ∈ ambiguousParameters, ∃ rest value,
      entryOf? l.body = some ⟨builtinCollection ++ key, rest⟩ ∧
        entryOf? l'.body = some ⟨key, value⟩ ∧ Text.trim value = Text.trim rest := by
  obtain ⟨key, hkey, text, value, hun, hvalue, hl'⟩ := exists_of_unqualifyParameter? h
  obtain ⟨c, rest, rfl, hc, hrest⟩ := exists_of_valueAfterBlanks? hvalue
  have hstart : startsBody l.unindented = true := by
    rw [hun]
    rfl
  have hbody : l.body = (builtinCollection ++ key) ++ ':' :: c :: rest := by
    rw [body_of_startsBody hstart, hun, List.append_assoc]
  have hbody' : l'.body = key ++ ':' :: ' ' :: value := by
    rw [body_of_startsBody (startsBody_of_unqualifyParameter? h), hl',
      unindented_take_depth_append (startsIndented_ambiguous hkey _)]
  have hkeys : splitKey? ((builtinCollection ++ key) ++ [':']) =
      some (builtinCollection ++ key, [':']) ∧ splitKey? (key ++ [':']) = some (key, [':']) := by
    simp only [ambiguousParameters, Text.keys, List.map_cons, List.map_nil, List.mem_cons,
      List.not_mem_nil, or_false] at hkey
    rcases hkey with rfl | rfl | rfl <;> exact ⟨rfl, rfl⟩
  exact ⟨key, hkey, rest, value, by rw [hbody, entryOf?_append hkeys.1 hc],
    by rw [hbody', entryOf?_append hkeys.2 rfl], hrest⟩

/-- A parameter that is shortened still opens its script. -/
theorem keepsLayout_unqualifyParameter : KeepsLayout unqualifyParameter? where
  text {l l'} h := by
    obtain ⟨⟨rest, hrest⟩, _⟩ := of_unqualifyParameter? h
    have hmem : 'a' ∈ l.unindented := by
      rw [hrest]
      exact List.mem_append_left _ (by decide)
    exact allBlank_eq_false (mem_of_mem_unindented hmem) (by decide)
  header {l l'} h hopens := by
    obtain ⟨key, _, rest, value, hbody, hbody', hrest⟩ := exists_entries_of_unqualifyParameter? h
    obtain ⟨⟨rest', hun⟩, _⟩ := of_unqualifyParameter? h
    obtain ⟨entry, hentry, hheader⟩ := opensScalar_iff.1 hopens
    rw [hbody] at hentry
    cases hentry
    constructor
    · apply opensScalar_iff.2
      refine ⟨_, hbody', ?_⟩
      rw [← isScalarHeader_trim, hrest, isScalarHeader_trim]
      exact hheader
    · have hstart : startsBody l.unindented = true := by
        rw [hun]
        rfl
      rw [column_of_startsBody (startsBody_of_unqualifyParameter? h),
        column_of_startsBody hstart, depth_of_unqualifyParameter? h]
  extent h := sameExtent_of_unqualifyParameter? h

section

variable {name unit : String} {fold : Char → Char} {spellings : List String}
  (hr : (name, fold, spellings, unit) ∈ unitRules)

include hr

private theorem exists_mem_of_renameUnit? (h : renameUnit? fold spellings unit l = some l') :
    ∃ x ∈ l, Text.isBlank x = false := by
  obtain ⟨x, more, hu, hx⟩ := exists_cons_of_renameUnit? hr h
  refine ⟨x, mem_of_mem_unindented ?_, ?_⟩
  · rw [hu]
    exact List.mem_cons_self
  · rcases hx with rfl | rfl
    · decide
    · decide

/-- The name of a unit is no header. -/
theorem keepsLayout_renameUnit : KeepsLayout (renameUnit? fold spellings unit) where
  text h := by
    obtain ⟨x, hmem, hx⟩ := exists_mem_of_renameUnit? hr h
    exact allBlank_eq_false hmem hx
  header h hopens := by
    rw [opensScalar_eq_false (not_mem_of_renameUnit? hr h (by decide))
      (not_mem_of_renameUnit? hr h (by decide))] at hopens
    cases hopens
  extent {l l'} h := by
    obtain ⟨x, hmem, hx⟩ := exists_mem_of_renameUnit? hr h
    have hcolon : ':' ∈ l' := by
      rw [(of_renameUnit? h).2]
      simp
    exact .of_mem (depth_of_renameUnit? h) hmem hx hcolon (by decide)

end

/-- A line that ignores errors is no header. -/
theorem keepsLayout_replaceIgnoreErrors : KeepsLayout replaceIgnoreErrors? where
  text {l l'} h := by
    obtain ⟨⟨rest, hrest⟩, _⟩ := of_replaceIgnoreErrors? h
    have hmem : ':' ∈ l.unindented := by
      rw [hrest]
      simp
    exact allBlank_eq_false (mem_of_mem_unindented hmem) (by decide)
  header {l l'} h hopens := by
    obtain ⟨rest, hrest, hword, _⟩ := exists_of_replaceIgnoreErrors? h
    have hbar : '|' ∉ l := fun hmem =>
      not_mem_of_word hrest hword (by decide) (by decide) (by decide)
        (mem_unindented hmem (by decide))
    have hfold : '>' ∉ l := fun hmem =>
      not_mem_of_word hrest hword (by decide) (by decide) (by decide)
        (mem_unindented hmem (by decide))
    rw [opensScalar_eq_false hbar hfold] at hopens
    cases hopens
  extent h := sameExtent_of_replaceIgnoreErrors? h

end RuleSets

end TaskTidy
