import TaskTidy.Proofs.Capitals
import TaskTidy.Proofs.LineEdits
import TaskTidy.Proofs.QuoteScans
import TaskTidy.RuleSets.Formatting
import TaskTidy.RuleSets.IgnoreErrors
import TaskTidy.RuleSets.NameCasing
import TaskTidy.RuleSets.QualifiedNames
import TaskTidy.RuleSets.ServiceNames
import TaskTidy.RuleSets.Truthy

/-!
# What the line rules write

The text that a line rule writes is a text that the rule has no further answer for, or the answer is
the text itself.
-/

namespace TaskTidy

namespace Text

variable {p : Char → Bool} {s t : List Char}

theorem dropEndWhile_idem (p : Char → Bool) (s : List Char) :
    dropEndWhile p (dropEndWhile p s) = dropEndWhile p s := by
  have h : ∀ r : List Char, (r.dropWhile p).dropWhile p = r.dropWhile p := by
    intro r
    induction r with
    | nil => rfl
    | cons c rest ih =>
        by_cases hc : p c = true
        · simpa [hc] using ih
        · simp [hc]
  simp [dropEndWhile, h]

/-- The characters that are dropped at the end stand behind all that is kept. -/
theorem takeEndWhile_dropEndWhile_append (ht : ∀ c ∈ t, p c = true) :
    takeEndWhile p (dropEndWhile p s ++ t) = t := by
  have hnil : ((s.reverse.dropWhile p)).takeWhile p = [] := by
    induction s.reverse with
    | nil => rfl
    | cons c rest ih =>
        by_cases hc : p c = true
        · simpa [hc] using ih
        · simp [hc]
  rw [takeEndWhile, dropEndWhile, List.reverse_append, List.reverse_reverse,
    List.takeWhile_append_of_pos (by simpa using ht), hnil]
  simp

theorem of_mem_takeEndWhile {c : Char} (h : c ∈ takeEndWhile p s) : p c = true := by
  rw [takeEndWhile, List.mem_reverse] at h
  exact List.mem_takeWhile_imp h

theorem dropEndWhile_append_of_last {c : Char} (hc : p c = false) :
    dropEndWhile p (s ++ [c]) = s ++ [c] := by
  simp [dropEndWhile, hc]

end Text

namespace Reflow

variable {limit : Nat} {l : Line}

/-- A line is split into several parts that are within the limit. -/
theorem of_split? {parts : List Line} (h : split? limit l = some parts) :
    2 ≤ parts.length ∧ ∀ part ∈ parts, width part ≤ limit := by
  unfold split? at h
  split at h
  · split at h
    · cases h
    · split at h
      · cases h
      · split at h
        · next hclean =>
            cases h
            simp only [isClean, Bool.and_eq_true, decide_eq_true_eq, List.all_eq_true] at hclean
            exact hclean.1
        · cases h
  · cases h

/-- A line is split at its commas, so it holds text. -/
theorem allBlank_of_split? {parts : List Line} (h : split? limit l = some parts) :
    Text.allBlank l = false := by
  unfold split? at h
  split at h
  · next hsplittable =>
      simp only [isSplittable, Bool.and_eq_true, List.contains_eq_mem, decide_eq_true_eq]
        at hsplittable
      exact Line.allBlank_eq_false hsplittable.1.1.2 (by decide)
  · cases h

theorem split?_eq_none (h : width l ≤ limit) : split? limit l = none := by
  have hfits : isSplittable limit l = false := by
    simp [isSplittable, Nat.not_lt_of_le h]
  rw [split?, hfits]
  rfl

end Reflow

namespace RuleSets

variable {l l' : Line}

theorem stripTrailing?_of_eq_some (h : stripTrailing? l = some l') : stripTrailing? l' = none := by
  simp only [stripTrailing?] at h ⊢
  split at h
  · cases h
  · cases h
    rw [Text.dropEndWhile_idem, if_pos rfl]

theorem booleanOf?_cases {word value : List Char} (h : booleanOf? word = some value) :
    word ∈ affirmatives ∧ value = "true".toList ∨ word ∈ negatives ∧ value = "false".toList := by
  unfold booleanOf? at h
  split at h
  · next hyes =>
      cases h
      exact Or.inl ⟨List.contains_iff_mem.1 hyes, rfl⟩
  · split at h
    · next hno =>
        cases h
        exact Or.inr ⟨List.contains_iff_mem.1 hno, rfl⟩
    · cases h

theorem of_booleanOf? {word value : List Char} (h : booleanOf? word = some value) :
    value = "true".toList ∨ value = "false".toList :=
  (booleanOf?_cases h).imp And.right And.right

theorem mem_of_booleanOf? {word value : List Char} (h : booleanOf? word = some value) :
    word ∈ affirmatives ++ negatives :=
  List.mem_append.2 ((booleanOf?_cases h).imp And.left And.left)

/-- A truthy value stands behind a colon and blanks, at the end of the line but for blanks. -/
theorem of_normalizeTruthy? (h : normalizeTruthy? l = some l') :
    ∃ head word value blanks, l = head ++ word ++ blanks ∧ l' = head ++ value ∧
      booleanOf? word = some value ∧ (∀ c ∈ blanks, Text.isIndent c = true) ∧ ':' ∈ head ∧
      '#' ∉ head ∧ ∃ c, head.getLast? = some c ∧ Text.isIndent c = true := by
  simp only [normalizeTruthy?] at h
  split at h
  · next hkey =>
      obtain ⟨value, hvalue, rfl⟩ := Option.map_eq_some_iff.1 h
      have hcolon := List.mem_of_getLast? hkey.1
      generalize hhead : Text.dropEndWhile (fun c => !Text.isIndent c)
        (Text.dropEndWhile Text.isIndent l) = head at *
      have hmem : ':' ∈ head := by
        rw [Text.dropEndWhile, List.mem_reverse] at hcolon
        exact List.mem_reverse.1 ((List.dropWhile_sublist _).mem hcolon)
      refine ⟨head, _, value, Text.takeEndWhile Text.isIndent l, ?_, rfl, hvalue, ?_, hmem, ?_, ?_⟩
      · rw [← hhead, Text.dropEndWhile_append_takeEndWhile,
          Text.dropEndWhile_append_takeEndWhile]
      · intro c hc
        exact Text.of_mem_takeEndWhile hc
      · intro hhash
        rw [← Text.dropEndWhile_append_takeEndWhile Text.isIndent head, List.mem_append] at hhash
        rcases hhash with hhash | hhash
        · simpa using List.all_eq_true.1 hkey.2 _ hhash
        · exact absurd (Text.of_mem_takeEndWhile hhash) (by decide)
      · cases hlast : head.getLast? with
        | none =>
            rw [List.getLast?_eq_none_iff.1 hlast] at hmem
            cases hmem
        | some c =>
            refine ⟨c, rfl, ?_⟩
            rw [← hhead, Text.dropEndWhile, List.getLast?_reverse] at hlast
            have hnot := List.head?_dropWhile_not (fun c => !Text.isIndent c)
              (Text.dropEndWhile Text.isIndent l).reverse
            rw [hlast] at hnot
            simpa using hnot
  · cases h

/-- A boolean is no word for yes and no. -/
theorem normalizeTruthy?_of_eq_some (h : normalizeTruthy? l = some l') :
    normalizeTruthy? l' = none := by
  simp only [normalizeTruthy?] at h
  split at h
  · obtain ⟨value, hvalue, rfl⟩ := Option.map_eq_some_iff.1 h
    have hlast : ∃ init, value = init ++ ['e'] := by
      rcases of_booleanOf? hvalue with rfl | rfl
      · exact ⟨"tru".toList, rfl⟩
      · exact ⟨"fals".toList, rfl⟩
    have hsolid : ∀ c ∈ value, (!Text.isIndent c) = true := by
      rcases of_booleanOf? hvalue with rfl | rfl <;> exact List.all_eq_true.1 rfl
    have hnone : booleanOf? value = none := by
      rcases of_booleanOf? hvalue with rfl | rfl <;> decide
    obtain ⟨init, hinit⟩ := hlast
    have htext (head : Line) : Text.dropEndWhile Text.isIndent (head ++ value) = head ++ value := by
      rw [hinit, ← List.append_assoc, Text.dropEndWhile_append_of_last (by decide)]
    simp only [normalizeTruthy?, htext, Text.takeEndWhile_dropEndWhile_append hsolid, hnone,
      Option.map_none, ite_self]
  · cases h

/-- A spaced line differs from the line behind one of its commas. -/
theorem of_spaceLine? (h : spaceLine? l = some l') :
    l' = spaceCommas none l ∧ ∃ head t t', ',' ∈ head ∧ l = head ++ t ∧ l' = head ++ t' := by
  simp only [spaceLine?] at h
  split at h
  · split at h
    · cases h
    · next hne =>
        cases h
        rw [Quoting.spaceCommas_eq_spaceFrom] at hne ⊢
        obtain ⟨t, u, u', hl, _, heq⟩ := (Quoting.spaceFrom_cases _ l).resolve_left hne
        exact ⟨rfl, t ++ [','], u, u', by simp, by simp [hl], by simp [heq]⟩
  · cases h

theorem spaceLine?_of_eq_some (h : spaceLine? l = some l') : spaceLine? l' = none := by
  simp only [spaceLine?] at h ⊢
  split at h
  · split at h
    · cases h
    · cases h
      simp [Quoting.spaceCommas_eq_spaceFrom, Quoting.spaceFrom_spaceFrom]
  · cases h

/-- In front of the name stand blanks and at most one quote, whatever the name is. -/
private theorem exists_lead {rest more : List Char} {c : Char}
    (h : dropQuote (rest.dropWhile Text.isIndent) = c :: more) :
    ∃ lead, rest = lead ++ c :: more ∧
      ∀ {u : Char} {t : List Char}, Text.isCapital u = true →
        dropQuote ((lead ++ u :: t).dropWhile Text.isIndent) = u :: t := by
  have hblanks : ∀ d ∈ rest.takeWhile Text.isIndent, Text.isIndent d = true := fun d hd =>
    List.mem_takeWhile_imp hd
  have hrest := List.takeWhile_append_dropWhile (p := Text.isIndent) (l := rest)
  have hcapital {u : Char} (hu : Text.isCapital u = true) :
      Text.isIndent u = false ∧ ¬(u = '"' ∨ u = '\'') := by
    simp only [Text.isCapital, Bool.and_eq_true, Bool.not_eq_true', bne_iff_ne, ne_eq] at hu
    exact ⟨hu.1.1.2, not_or.2 ⟨hu.1.2, hu.2⟩⟩
  cases hd : rest.dropWhile Text.isIndent with
  | nil =>
      rw [hd] at h
      cases h
  | cons d tail =>
      rw [hd, dropQuote] at h
      rw [hd] at hrest
      split at h
      · next hquote =>
          refine ⟨rest.takeWhile Text.isIndent ++ [d], ?_, fun {u t} _ => ?_⟩
          · rw [← h, List.append_assoc]
            exact hrest.symm
          · have hsolid : Text.isIndent d = false := by
              rcases hquote with rfl | rfl <;> decide
            rw [List.append_assoc, List.dropWhile_append_of_pos hblanks, List.singleton_append,
              List.dropWhile_cons_of_neg (by simp [hsolid]), dropQuote, if_pos hquote]
      · refine ⟨rest.takeWhile Text.isIndent, ?_, fun {u t} hu => ?_⟩
        · rw [← h]
          exact hrest.symm
        · obtain ⟨hsolid, hquote⟩ := hcapital hu
          rw [List.dropWhile_append_of_pos hblanks,
            List.dropWhile_cons_of_neg (by simp [hsolid]), dropQuote, if_neg hquote]

/-- The first letter of a name is replaced, and nothing in front of it or behind it. -/
theorem of_capitalizeName? (h : capitalizeName? l = some l') :
    ∃ lead c more, l = l.take l.column ++ ("name:".toList ++ lead) ++ c :: more ∧
      l' = l.take l.column ++ ("name:".toList ++ lead) ++ Text.upperChar c ++ more ∧
      Text.isLowercase c = true ∧ Line.startsIndented (lead ++ c :: more) = true ∧
      ∀ {u : Char} {t : List Char}, Text.isCapital u = true →
        dropQuote ((lead ++ u :: t).dropWhile Text.isIndent) = u :: t := by
  unfold capitalizeName? at h
  split at h
  · cases h
  · next rest hrest =>
      split at h
      · cases h
      · next c more hname =>
          split at h
          · next hc =>
              cases h
              rw [Bool.and_eq_true] at hc
              rw [Text.strip?_eq_some_iff] at hrest
              obtain ⟨lead, rfl, hlead⟩ := exists_lead hname
              have hline : l = (l.take l.column ++ ("name:".toList ++ lead)) ++ c :: more := by
                rw [List.append_assoc, List.append_assoc, ← hrest, Line.take_column_append_body]
              have hlen := congrArg List.length hline
              rw [List.length_append, List.length_cons] at hlen
              have hsub : l.length - (more.length + 1) =
                  (l.take l.column ++ ("name:".toList ++ lead)).length := by
                omega
              have htake : l.take (l.length - (more.length + 1)) =
                  l.take l.column ++ ("name:".toList ++ lead) := by
                rw [hsub]
                exact (congrArg (List.take _) hline).trans List.take_left
              rw [htake]
              exact ⟨lead, c, more, hline, rfl, hc.2, hc.1, hlead⟩
          · cases h

/-- A capitalized name needs no capital, unless its first letter has none. -/
theorem capitalizeName?_of_eq_some (h : capitalizeName? l = some l') :
    capitalizeName? l' = none ∨ capitalizeName? l' = some l' := by
  have hl := h
  obtain ⟨lead, c, more, hline, rfl, hlower, _, hlead⟩ := of_capitalizeName? h
  rcases Text.upperChar_of_isLowercase hlower with hsame | ⟨u, us, hupper, hu, _⟩
  · right
    rw [hsame, List.append_assoc _ [c], List.singleton_append, ← hline] at hl ⊢
    exact hl
  · left
    have hbody : Line.body (l.take l.column ++ ("name:".toList ++ lead) ++
        Text.upperChar c ++ more) = "name:".toList ++ (lead ++ u :: (us ++ more)) := by
      rw [hupper]
      simp only [List.append_assoc, List.cons_append]
      exact Line.body_take_column_append rfl
    have hupperU : Text.isLowercase u = false := by
      simp only [Text.isCapital, Bool.and_eq_true, Bool.not_eq_true'] at hu
      exact hu.1.1.1
    unfold capitalizeName?
    rw [hbody, (Text.strip?_eq_some_iff).2 rfl]
    simp [hlead hu, hupperU]

/-- A unit is renamed behind the indentation, whatever the indentation is. -/
private theorem renameUnit?_take_depth_append {fold : Char → Char} {spellings : List String}
    {unit : String} {t : List Char} (ht : Line.startsIndented t = false) :
    renameUnit? fold spellings unit (l.take l.depth ++ t) =
      (renameUnit? fold spellings unit t).map (l.take l.depth ++ ·) := by
  have hdepth : Line.depth t = 0 := Line.depth_append (s := []) (by simp) ht
  have hunindented : Line.unindented t = t := Line.unindented_append (s := []) (by simp) ht
  unfold renameUnit?
  rw [Line.unindented_take_depth_append ht, Line.depth_take_depth_append ht,
    Line.take_depth_append, hunindented, hdepth]
  split
  · rfl
  · split
    · rw [Option.map_some, List.append_assoc, List.take_zero, List.nil_append]
    · rfl

theorem of_renameUnit? {fold : Char → Char} {spellings : List String} {unit : String}
    (h : renameUnit? fold spellings unit l = some l') :
    (∃ rest, Text.dropEndWhile Text.isIndent (l.unindented.map fold) = "name:".toList ++ rest ∧
      rest.dropWhile Text.isIndent ∈ Text.keys spellings) ∧
        l' = l.take l.depth ++ ("name: ".toList ++ unit.toList) := by
  unfold renameUnit? at h
  split at h
  · cases h
  · next rest hrest =>
      split at h
      · next hspelled =>
          cases h
          rw [Bool.and_eq_true] at hspelled
          exact ⟨⟨rest, Text.strip?_eq_some_iff.1 hrest, List.contains_iff_mem.1 hspelled.2⟩,
            List.append_assoc _ _ _⟩
      · cases h

/-- The rules for units: their names, how they fold case, the spellings they accept and the name
they write. -/
def unitRules : List (String × (Char → Char) × List String × String) :=
  [("nginx-unit", id, ["Nginx"], "nginx"),
    ("php-fpm-unit", foldCase, ["php-fpm", "php-fpm.service"], "php-fpm.service"),
    ("cockpit-unit", foldCase, ["cockpit", "cockpit.socket"], "cockpit.socket")]

/-- The names that the rules for units write are left alone by all of them. -/
theorem renameUnit?_unit {name name' : String} {fold fold' : Char → Char}
    {spellings spellings' : List String} {unit unit' : String}
    (hr : (name, fold, spellings, unit) ∈ unitRules)
    (hr' : (name', fold', spellings', unit') ∈ unitRules)
    (hl : l.unindented = "name: ".toList ++ unit.toList) :
    renameUnit? fold' spellings' unit' l = none ∨
      renameUnit? fold' spellings' unit' l = some l := by
  have hname : renameUnit? fold' spellings' unit' ("name: ".toList ++ unit.toList) = none ∨
      renameUnit? fold' spellings' unit' ("name: ".toList ++ unit.toList) =
        some ("name: ".toList ++ unit.toList) := by
    simp only [unitRules, List.mem_cons, Prod.mk.injEq, List.not_mem_nil, or_false] at hr hr'
    rcases hr with ⟨_, rfl, rfl, rfl⟩ | ⟨_, rfl, rfl, rfl⟩ | ⟨_, rfl, rfl, rfl⟩ <;>
      rcases hr' with ⟨_, rfl, rfl, rfl⟩ | ⟨_, rfl, rfl, rfl⟩ | ⟨_, rfl, rfl, rfl⟩ <;> decide
  have hline : l.take l.depth ++ ("name: ".toList ++ unit.toList) = l := by
    rw [← hl, Line.take_depth, Line.indentation_append_unindented]
  have hrename : renameUnit? fold' spellings' unit'
      (l.take l.depth ++ ("name: ".toList ++ unit.toList)) =
        (renameUnit? fold' spellings' unit' ("name: ".toList ++ unit.toList)).map
          (l.take l.depth ++ ·) := renameUnit?_take_depth_append rfl
  rw [hline] at hrename
  rw [hrename]
  rcases hname with hnone | hsome
  · exact Or.inl (by rw [hnone, Option.map_none])
  · exact Or.inr (by rw [hsome, Option.map_some, hline])

/-- What one rule for units writes is left alone by all of them. -/
theorem renameUnit?_of_eq_some {name name' : String} {fold fold' : Char → Char}
    {spellings spellings' : List String} {unit unit' : String}
    (hr : (name, fold, spellings, unit) ∈ unitRules)
    (hr' : (name', fold', spellings', unit') ∈ unitRules)
    (h : renameUnit? fold spellings unit l = some l') :
    renameUnit? fold' spellings' unit' l' = none ∨
      renameUnit? fold' spellings' unit' l' = some l' := by
  refine renameUnit?_unit hr hr' ?_
  rw [(of_renameUnit? h).2]
  exact Line.unindented_take_depth_append rfl

theorem of_qualifyModule? (h : qualifyModule? l = some l') :
    l' = l.take l.column ++ (builtinCollection ++ l.body) ∧
      l.body.takeWhile (· != ':') ∈ builtinModules := by
  unfold qualifyModule? at h
  simp only [List.append_assoc] at h
  split at h
  · next hm =>
      refine ⟨?_, List.contains_iff_mem.1 hm⟩
      split at h
      · cases h
        rfl
      · split at h
        · cases h
          rfl
        · cases h
      · cases h
  · cases h

theorem body_of_qualifyModule? (h : qualifyModule? l = some l') :
    l'.body = builtinCollection ++ l.body := by
  rw [(of_qualifyModule? h).1]
  exact Line.body_take_column_append rfl

theorem depth_of_qualifyModule? (h : qualifyModule? l = some l') : l'.depth = l.depth := by
  rw [(of_qualifyModule? h).1]
  exact Line.depth_take_column_append rfl

/-- A qualified name is the name of no builtin module. -/
theorem qualifyModule?_of_eq_some (h : qualifyModule? l = some l') : qualifyModule? l' = none := by
  have hname : (builtinCollection ++ l.body).takeWhile (· != ':') =
      builtinCollection ++ l.body.takeWhile (· != ':') :=
    List.takeWhile_append_of_pos (List.all_eq_true.1 rfl)
  have hnot :
      builtinModules.contains (builtinCollection ++ l.body.takeWhile (· != ':')) = false := by
    rw [← Bool.not_eq_true, List.contains_iff_mem]
    intro hm
    have hall : ∀ m ∈ builtinModules, builtinCollection.isPrefixOf m = false := by decide
    have hfalse := hall _ hm
    rw [List.isPrefixOf_iff_prefix.2 (List.prefix_append _ _)] at hfalse
    cases hfalse
  unfold qualifyModule?
  rw [body_of_qualifyModule? h, hname, hnot]
  rfl

/-- A module that is qualified is named at the start of the body. -/
theorem sameExtent_of_qualifyModule? (h : qualifyModule? l = some l') : l.SameExtent l' := by
  obtain ⟨rfl, hm⟩ := of_qualifyModule? h
  have hall : ∀ m ∈ builtinModules, m.any (fun c => !Text.isBlank c) = true := by decide
  obtain ⟨c, hc, hblank⟩ := List.any_eq_true.1 (hall _ hm)
  rw [Bool.not_eq_true'] at hblank
  have hmem : c ∈ l := List.mem_of_mem_drop ((List.takeWhile_sublist _).mem hc)
  refine .of_mem (depth_of_qualifyModule? h) hmem hblank (d := 'a') ?_ (by decide)
  exact List.mem_append_right _ (List.mem_append_left _ (by decide))

theorem hasKey_of_qualifyModule? (h : qualifyModule? l = some l') :
    l.hasKey "hosts".toList = false := by
  refine Line.hasKey_eq_false fun ⟨more, hmore⟩ => ?_
  have hm := (of_qualifyModule? h).2
  rw [← hmore, List.takeWhile_append_of_pos (List.all_eq_true.1 rfl)] at hm
  have hall : ∀ m ∈ builtinModules, "hosts".toList.isPrefixOf m = false := by decide
  have hfalse := hall _ hm
  rw [List.isPrefixOf_iff_prefix.2 (List.prefix_append _ _)] at hfalse
  cases hfalse

/-- The value after a colon is the end of the text, the last of its blanks if there is no more. -/
theorem suffix_of_valueAfterBlanks? {text value : List Char}
    (h : valueAfterBlanks? text = some value) : value ≠ [] ∧ value <:+ text := by
  have htext := List.takeWhile_append_dropWhile (p := Text.isIndent) (l := text)
  unfold valueAfterBlanks? at h
  split at h
  · next hnil =>
      rw [hnil, List.append_nil] at htext
      rw [htext] at h
      dsimp only at h
      split at h
      · obtain ⟨c, hc, rfl⟩ := Option.map_eq_some_iff.1 h
        obtain ⟨front, hfront⟩ := List.getLast?_eq_some_iff.1 hc
        exact ⟨List.cons_ne_nil c [], front, hfront.symm⟩
      · cases h
  · next hne =>
      dsimp only at h
      split at h
      · cases h
      · cases h
        exact ⟨hne, _, htext⟩

/-- A parameter is shortened to its name, with one blank in front of its value. -/
theorem exists_of_unqualifyParameter? (h : unqualifyParameter? l = some l') :
    ∃ key ∈ ambiguousParameters, ∃ text value,
      l.unindented = builtinCollection ++ (key ++ ':' :: text) ∧
        valueAfterBlanks? text = some value ∧
          l' = l.take l.depth ++ (key ++ ':' :: ' ' :: value) := by
  unfold unqualifyParameter? at h
  split at h
  · cases h
  · next rest hrest =>
      dsimp only at h
      split at h
      · cases h
      · next c text htext =>
          split at h
          · next hkey =>
              rw [Bool.and_eq_true] at hkey
              obtain ⟨value, hvalue, rfl⟩ := Option.map_eq_some_iff.1 h
              have hcolon : c = ':' := by
                have hnot := List.head?_dropWhile_not (· != ':') rest
                rw [htext] at hnot
                simpa using hnot
              have hsplit := List.takeWhile_append_dropWhile (p := (· != ':')) (l := rest)
              rw [htext, hcolon] at hsplit
              refine ⟨_, List.contains_iff_mem.1 hkey.1, text, value, ?_, hvalue,
                List.append_assoc _ _ _⟩
              rw [Text.strip?_eq_some_iff.1 hrest, hsplit]
          · cases h

theorem of_unqualifyParameter? (h : unqualifyParameter? l = some l') :
    (∃ rest, l.unindented = builtinCollection ++ rest) ∧ ∃ key ∈ ambiguousParameters, ∃ value,
      l' = l.take l.depth ++ (key ++ ':' :: ' ' :: value) := by
  obtain ⟨key, hkey, text, value, hun, _, hl'⟩ := exists_of_unqualifyParameter? h
  exact ⟨⟨_, hun⟩, key, hkey, value, hl'⟩

theorem startsIndented_ambiguous {key : List Char} (h : key ∈ ambiguousParameters) (t : List Char) :
    Line.startsIndented (key ++ t) = false := by
  simp only [ambiguousParameters, Text.keys, List.map_cons, List.map_nil, List.mem_cons,
    List.not_mem_nil, or_false] at h
  rcases h with rfl | rfl | rfl <;> rfl

theorem startsBody_of_unqualifyParameter? (h : unqualifyParameter? l = some l') :
    Line.startsBody l'.unindented = true := by
  obtain ⟨_, key, hkey, value, rfl⟩ := of_unqualifyParameter? h
  rw [Line.unindented_take_depth_append (startsIndented_ambiguous hkey _)]
  simp only [ambiguousParameters, Text.keys, List.map_cons, List.map_nil, List.mem_cons,
    List.not_mem_nil, or_false] at hkey
  rcases hkey with rfl | rfl | rfl <;> rfl

theorem depth_of_unqualifyParameter? (h : unqualifyParameter? l = some l') :
    l'.depth = l.depth := by
  obtain ⟨_, key, hkey, value, rfl⟩ := of_unqualifyParameter? h
  exact Line.depth_take_depth_append (startsIndented_ambiguous hkey _)

theorem sameExtent_of_unqualifyParameter? (h : unqualifyParameter? l = some l') :
    l.SameExtent l' := by
  have hdepth := depth_of_unqualifyParameter? h
  obtain ⟨⟨rest, hrest⟩, key, hkey, value, rfl⟩ := of_unqualifyParameter? h
  refine .of_mem (c := 'a') (d := ':') hdepth ?_ (by decide) ?_ (by decide)
  · rw [← l.indentation_append_unindented, hrest]
    exact List.mem_append_right _ (List.mem_append_left _ (by decide))
  · exact List.mem_append_right _ (List.mem_append_right _ List.mem_cons_self)

theorem hasKey_of_unqualifyParameter? (h : unqualifyParameter? l = some l') :
    l.hasKey "hosts".toList = false := by
  obtain ⟨⟨rest, hrest⟩, _⟩ := of_unqualifyParameter? h
  apply Line.hasKey_eq_false
  rw [Line.body_of_startsBody (by rw [hrest]; rfl), hrest]
  rintro ⟨more, hmore⟩
  cases hmore

/-- A key that was written without its collection has none. -/
theorem unqualifyParameter?_of_eq_some (h : unqualifyParameter? l = some l') :
    unqualifyParameter? l' = none := by
  obtain ⟨_, key, hkey, value, rfl⟩ := of_unqualifyParameter? h
  have hstrip : Text.strip? builtinCollection (key ++ ':' :: ' ' :: value) = none := by
    simp only [ambiguousParameters, Text.keys, List.map_cons, List.map_nil, List.mem_cons,
      List.not_mem_nil, or_false] at hkey
    rcases hkey with rfl | rfl | rfl <;> rfl
  rw [unqualifyParameter?, Line.unindented_take_depth_append (startsIndented_ambiguous hkey _),
    hstrip]

/-- A line that ignores errors is the key and one of the words, with blanks between and behind. -/
theorem exists_of_replaceIgnoreErrors? (h : replaceIgnoreErrors? l = some l') :
    ∃ rest, Text.dropEndWhile Text.isIndent l.unindented = "ignore_errors:".toList ++ rest ∧
      rest.dropWhile Text.isIndent ∈ ignoringWords ∧
        l' = l.take l.depth ++ "failed_when: false".toList := by
  unfold replaceIgnoreErrors? at h
  split at h
  · cases h
  · next rest hrest =>
      split at h
      · next hword =>
          cases h
          exact ⟨rest, Text.strip?_eq_some_iff.1 hrest, List.contains_iff_mem.1 hword, rfl⟩
      · cases h

theorem of_replaceIgnoreErrors? (h : replaceIgnoreErrors? l = some l') :
    (∃ rest, l.unindented = "ignore_errors:".toList ++ rest) ∧
      l' = l.take l.depth ++ "failed_when: false".toList := by
  obtain ⟨rest, hrest, _, hl'⟩ := exists_of_replaceIgnoreErrors? h
  have happ := Text.dropEndWhile_append_takeEndWhile Text.isIndent l.unindented
  rw [hrest, List.append_assoc] at happ
  exact ⟨⟨_, happ.symm⟩, hl'⟩

theorem replaceIgnoreErrors?_of_eq_some (h : replaceIgnoreErrors? l = some l') :
    replaceIgnoreErrors? l' = none := by
  rw [(of_replaceIgnoreErrors? h).2, replaceIgnoreErrors?, Line.unindented_take_depth_append rfl]
  rfl

theorem sameExtent_of_replaceIgnoreErrors? (h : replaceIgnoreErrors? l = some l') :
    l.SameExtent l' := by
  obtain ⟨⟨rest, hrest⟩, rfl⟩ := of_replaceIgnoreErrors? h
  refine .of_mem (c := ':') (d := ':') (Line.depth_take_depth_append rfl) ?_ (by decide) ?_
    (by decide)
  · rw [← l.indentation_append_unindented, hrest]
    exact List.mem_append_right _ (List.mem_append_left _ (by decide))
  · exact List.mem_append_right _ (by decide)

theorem hasKey_of_replaceIgnoreErrors? (h : replaceIgnoreErrors? l = some l') :
    l.hasKey "failed_when".toList = false := by
  obtain ⟨⟨rest, hrest⟩, _⟩ := of_replaceIgnoreErrors? h
  apply Line.hasKey_eq_false
  rw [Line.body_of_startsBody (by rw [hrest]; rfl), hrest]
  rintro ⟨more, hmore⟩
  cases hmore

/-- A line that ignores errors is a parameter, or would be one with a blank after its colon. -/
theorem kind_eq_of_replaceIgnoreErrors? (h : replaceIgnoreErrors? l = some l') :
    l.kind = if (Line.entryOf? l.unindented).isSome then .parameter else .continuation := by
  obtain ⟨⟨rest, hrest⟩, _⟩ := of_replaceIgnoreErrors? h
  have hblank : Text.allBlank l.unindented = false := by
    rw [hrest]
    exact Line.allBlank_eq_false (c := ':') (List.mem_append_left _ (by decide)) (by decide)
  rw [Line.kind, hblank, hrest]
  rfl

theorem kind_of_replaceIgnoreErrors? (h : replaceIgnoreErrors? l = some l') :
    l.kind.isSignificant = true ∧ l.kind ≠ .item := by
  rw [kind_eq_of_replaceIgnoreErrors? h]
  split <;> decide

theorem kind_replaceIgnoreErrors? (h : replaceIgnoreErrors? l = some l') :
    l'.kind = .parameter := by
  rw [(of_replaceIgnoreErrors? h).2, Line.kind, Line.unindented_take_depth_append rfl]
  rfl

theorem key?_replaceIgnoreErrors? (h : replaceIgnoreErrors? l = some l') :
    l'.key? = some "failed_when".toList := by
  have hbody : l'.body = "failed_when: false".toList := by
    rw [(of_replaceIgnoreErrors? h).2, Line.body_of_startsBody] <;>
      rw [Line.unindented_take_depth_append rfl]
    rfl
  rw [Line.key?, kind_replaceIgnoreErrors? h, hbody]
  rfl

end RuleSets

end TaskTidy
