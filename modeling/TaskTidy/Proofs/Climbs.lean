import TaskTidy.Proofs.Ranks

/-!
# Rewrites that climb

What a line rule writes ranks above what it found: the line keeps its frame, its ampersands and its
stripped end, and either a one-way rewrite has come further or the text weighs more.
-/

namespace TaskTidy

theorem Text.isPrefixOf_append_of_mem {key head : List Char} {c : Char} (hc : c ∈ head)
    (hkey : c ∉ key) (t : List Char) : key.isPrefixOf (head ++ t) = key.isPrefixOf head := by
  rw [Bool.eq_iff_iff, List.isPrefixOf_iff_prefix, List.isPrefixOf_iff_prefix]
  constructor
  · intro h
    rcases List.prefix_or_prefix_of_prefix h (List.prefix_append head t) with h | h
    · exact h
    · exact absurd (h.subset hc) hkey
  · intro h
    exact h.trans (List.prefix_append head t)

namespace Line

variable {l l' : Line} {own : Bool} {c : Char}

/-! ### The parts of the rank -/

theorem marks_le (hcount : l.count '&' ≤ l'.count '&')
    (hstripped : l.isStripped = true → l'.isStripped = true) : l.marks ≤ l'.marks := by
  unfold marks
  cases hl : l.isStripped with
  | false =>
      rw [Bool.toNat_false]
      omega
  | true =>
      rw [hstripped hl]
      omega

theorem count_of_isIndent {t : Line} (h : ∀ c ∈ t, Text.isIndent c = true) : t.count '&' = 0 :=
  List.count_eq_zero.2 fun hmem => absurd (h _ hmem) (by decide)

theorem isStripped_congr (h : l'.getLast? = l.getLast?) : l'.isStripped = l.isStripped := by
  rw [isStripped, isStripped, h]

theorem isStripped_append_of_ne_nil {s t t' : Line} (ht : t ≠ [])
    (hlast : t'.getLast? = t.getLast?) : isStripped (s ++ t') = isStripped t := by
  rw [isStripped, List.getLast?_append, hlast, List.getLast?_eq_some_getLast ht, Option.some_or,
    isStripped, List.getLast?_eq_some_getLast ht]

/-- A line is stripped when there is nothing to drop. -/
theorem dropEndWhile_eq_self_iff : Text.dropEndWhile Text.isIndent l = l ↔ l.isStripped = true := by
  rcases List.eq_nil_or_concat l with rfl | ⟨s, c, rfl⟩
  · exact iff_of_true rfl rfl
  · rw [List.concat_eq_append]
    have hlast : isStripped (s ++ [c]) = !Text.isIndent c := by
      rw [isStripped, List.getLast?_concat]
      rfl
    rw [hlast, Bool.not_eq_true']
    constructor
    · intro h
      rw [← Bool.not_eq_true]
      intro hc
      have hlen := congrArg List.length h
      have hle := (List.dropWhile_sublist Text.isIndent (l := s.reverse)).length_le
      simp only [Text.dropEndWhile, List.reverse_append, List.reverse_cons, List.reverse_nil,
        List.nil_append, List.singleton_append, List.dropWhile_cons, hc, if_true,
        List.length_reverse, List.length_append, List.length_singleton] at hlen hle
      omega
    · exact Text.dropEndWhile_append_of_last

theorem isStripped_dropEndWhile (l : Line) :
    isStripped (Text.dropEndWhile Text.isIndent l) = true :=
  dropEndWhile_eq_self_iff.1 (Text.dropEndWhile_idem _ _)

/-- A text that is put into a line raises its weight. -/
theorem weight_lt_of_sublist (h : l.Sublist l') (hne : l' ≠ l) : l.weight < l'.weight := by
  have hlen : l.length < l'.length := by
    apply Nat.lt_of_le_of_ne h.length_le
    intro heq
    exact hne (h.eq_of_length heq).symm
  have hcount := h.countP_le (p := fun c => !Text.isLowercase c)
  unfold weight
  omega

theorem weight_append (s t : Line) : weight (s ++ t) = weight s + weight t := by
  simp only [weight, List.length_append, List.countP_append]
  omega

/-- What stands behind a character that no key holds has no part in the stage of a line, unless the
line is the name of a unit. -/
theorem stage_le_of_head {head : Line} (hc : c ∈ head) (hsolid : Text.isIndent c = false)
    (hignore : c ∉ ignoreKey) (hcollection : c ∉ RuleSets.builtinCollection) (t t' : Line)
    (hunit : own = true ∨ namesUnit (head ++ t) = false) :
    stage own (head ++ t) ≤ stage own (head ++ t') := by
  have hmem := mem_unindented hc hsolid
  simp only [stage, unindented_append_of_mem hc hsolid,
    Text.isPrefixOf_append_of_mem hmem hignore, Text.isPrefixOf_append_of_mem hmem hcollection]
  rcases hunit with rfl | hunit
  · exact Nat.le_refl _
  · rw [hunit]
    split
    · exact Nat.le_refl _
    · rw [Bool.toNat_false]
      omega

/-- The name of a unit ends the line. -/
theorem of_namesUnit (h : l.namesUnit = true) :
    (∃ c, l.getLast? = some c ∧ c ∈ ['x', 'e', 't']) ∧ ',' ∉ l := by
  obtain ⟨r, hr, hun⟩ := List.any_eq_true.1 h
  rw [beq_iff_eq] at hun
  rw [← l.indentation_append_unindented, hun]
  have hnot : ',' ∉ l.indentation := fun hmem =>
    absurd (isIndent_of_mem_indentation hmem) (by decide)
  simp only [RuleSets.unitRules, List.mem_cons, List.not_mem_nil, or_false] at hr
  rcases hr with rfl | rfl | rfl
  · exact ⟨⟨'x', by rw [List.getLast?_append]; rfl, by decide⟩, by simp [hnot]⟩
  · exact ⟨⟨'e', by rw [List.getLast?_append]; rfl, by decide⟩, by simp [hnot]⟩
  · exact ⟨⟨'t', by rw [List.getLast?_append]; rfl, by decide⟩, by simp [hnot]⟩

end Line

namespace RuleSets

open Line

variable {l l' : Line}

/-! ### The rules -/

/-- A line that is stripped gains a mark. -/
theorem marks_lt_of_stripTrailing? (h : stripTrailing? l = some l') : l.marks < l'.marks := by
  simp only [stripTrailing?] at h
  split at h
  · cases h
  · next hne =>
      cases h
      have hl : l.isStripped = false := by
        rw [← Bool.not_eq_true, ← dropEndWhile_eq_self_iff]
        exact hne
      have hcount : l.count '&' = (Text.dropEndWhile Text.isIndent l).count '&' := by
        conv_lhs => rw [← Text.dropEndWhile_append_takeEndWhile Text.isIndent l]
        rw [List.count_append, count_of_isIndent fun _ => Text.of_mem_takeEndWhile, Nat.add_zero]
      rw [marks, marks, hl, isStripped_dropEndWhile, hcount, Bool.toNat_false, Bool.toNat_true]
      omega

/-- The words for yes and no are shorter than the booleans, even with the bonus for capitals. -/
private theorem of_booleanOf?_eq_some {word value : List Char} (h : booleanOf? word = some value) :
    (weight word < weight value ∧ word.count '&' = 0 ∧ value.getLast? = some 'e') ∧
      ∃ c, word.getLast? = some c ∧ c ∉ ['x', 'e', 't'] := by
  rcases booleanOf?_cases h with ⟨hword, rfl⟩ | ⟨hword, rfl⟩ <;>
    simp only [affirmatives, negatives, Text.keys, List.map_cons, List.map_nil, List.mem_cons,
      List.not_mem_nil, or_false] at hword <;>
    rcases hword with rfl | rfl | rfl | rfl | rfl | rfl <;>
    exact ⟨by decide +kernel, _, rfl, by decide⟩

/-- Behind a word for yes or no stand only blanks, so the line does not end as the name of a
unit. -/
private theorem namesUnit_of_booleanOf? {head word value blanks : List Char}
    (h : booleanOf? word = some value) (hblanks : ∀ c ∈ blanks, Text.isIndent c = true) :
    namesUnit (head ++ (word ++ blanks)) = false := by
  obtain ⟨_, c, hc, hunit⟩ := of_booleanOf?_eq_some h
  rw [← Bool.not_eq_true]
  intro hnames
  obtain ⟨⟨x, hx, hmem⟩, _⟩ := of_namesUnit hnames
  rcases List.eq_nil_or_concat blanks with rfl | ⟨s, y, rfl⟩
  · rw [List.append_nil, List.getLast?_append, hc, Option.some_or] at hx
    cases hx
    exact hunit hmem
  · rw [List.concat_eq_append, ← List.append_assoc, ← List.append_assoc, List.getLast?_concat] at hx
    cases hx
    have hy := hblanks x (by simp)
    simp only [List.mem_cons, List.not_mem_nil, or_false] at hmem
    rcases hmem with rfl | rfl | rfl <;> cases hy

/-- A boolean weighs more than the word that it replaces. -/
theorem climbs_of_normalizeTruthy? (own : Bool) (h : normalizeTruthy? l = some l') :
    l.Climbs own l' := by
  obtain ⟨head, word, value, blanks, rfl, rfl, hvalue, hblanks, hcolon, _, _⟩ :=
    of_normalizeTruthy? h
  obtain ⟨⟨hweight, hcount, hlast⟩, _⟩ := of_booleanOf?_eq_some hvalue
  rw [List.append_assoc]
  have hampersands : List.count '&' (head ++ (word ++ blanks)) ≤
      List.count '&' (head ++ value) := by
    simp only [List.count_append, hcount, count_of_isIndent hblanks]
    omega
  have hstripped : isStripped (head ++ value) = true := by
    rw [isStripped, List.getLast?_append, hlast]
    rfl
  refine ⟨sameFrame_of_head hcolon (by decide) (by decide),
    marks_le hampersands fun _ => hstripped,
    stage_le_of_head hcolon (by decide) (by decide) (by decide) _ _
      (Or.inr (namesUnit_of_booleanOf? hvalue hblanks)), Or.inr ?_⟩
  rcases List.eq_nil_or_concat blanks with rfl | ⟨s, y, rfl⟩
  · right
    right
    rw [List.append_nil, weight_append, weight_append]
    omega
  · left
    have hnot : isStripped (head ++ (word ++ s.concat y)) = false := by
      rw [List.concat_eq_append, ← List.append_assoc, ← List.append_assoc, isStripped,
        List.getLast?_concat, Option.all_some, hblanks y (by simp)]
      rfl
    rw [marks, marks, hnot, hstripped, Bool.toNat_false, Bool.toNat_true]
    omega

theorem climbs_of_spaceLine? (own : Bool) (h : spaceLine? l = some l') : l.Climbs own l' := by
  obtain ⟨hl', head, t, t', hcomma, hl, hhead⟩ := of_spaceLine? h
  have hsub : l.Sublist l' := by
    rw [hl', Quoting.spaceCommas_eq_spaceFrom]
    exact Quoting.sublist_spaceFrom
  have hlast : l'.getLast? = l.getLast? := by
    rw [hl', Quoting.spaceCommas_eq_spaceFrom, Quoting.getLast?_spaceFrom]
  have hunit : l.namesUnit = false := by
    rw [← Bool.not_eq_true]
    intro hnames
    apply (of_namesUnit hnames).2
    rw [hl]
    exact List.mem_append_left _ hcomma
  refine ⟨?_, marks_le (hsub.count_le _) fun hstripped => ?_, ?_, ?_⟩
  · rw [hl, hhead]
    exact sameFrame_of_head hcomma (by decide) (by decide)
  · rwa [isStripped_congr hlast]
  · rw [hl] at hunit
    rw [hl, hhead]
    exact stage_le_of_head hcomma (by decide) (by decide) (by decide) _ _ (Or.inr hunit)
  · by_cases hne : l' = l
    · exact Or.inl hne
    · exact Or.inr (Or.inr (Or.inr (weight_lt_of_sublist hsub hne)))

/-- A capital and the marks behind it leave a stripped line stripped. -/
private theorem isStripped_capital {head us more : List Char} {c u : Char}
    (hu : Text.isIndent u = false) (hus : ∀ x ∈ us, Text.isIndent x = false)
    (h : isStripped (head ++ c :: more) = true) :
    isStripped (head ++ u :: (us ++ more)) = true := by
  rcases List.eq_nil_or_concat more with rfl | ⟨s, x, rfl⟩
  · rw [List.append_nil, isStripped, List.getLast?_append]
    rcases List.eq_nil_or_concat us with rfl | ⟨s, x, rfl⟩
    · simp [hu]
    · have hx := hus x (by simp)
      simp [List.getLast?_cons, hx]
  · rw [isStripped] at h ⊢
    simpa [List.getLast?_cons] using h

private theorem weight_lt_capital {us more : List Char} {c u : Char}
    (hc : Text.isLowercase c = true) (hu : Text.isLowercase u = false) :
    weight (c :: more) < weight (u :: (us ++ more)) := by
  simp only [weight, List.length_cons, List.countP_cons, hc, hu, Bool.not_true, Bool.not_false,
    List.length_append, List.countP_append, if_true]
  simp
  omega

/-- A capital weighs more than the letter that it replaces. -/
theorem climbs_of_capitalizeName? (h : capitalizeName? l = some l') : l.Climbs true l' := by
  obtain ⟨lead, c, more, hl, hl', hlower, _⟩ := of_capitalizeName? h
  generalize hhead : l.take l.column ++ ("name:".toList ++ lead) = head at hl hl'
  have hcolon : ':' ∈ head := by
    rw [← hhead]
    simp
  rw [List.append_assoc] at hl'
  rcases Text.upperChar_of_isLowercase hlower with hsame | ⟨u, us, hupper, hu, hsolid⟩
  · have heq : l' = l := by
      rw [hl', hsame, List.singleton_append]
      exact hl.symm
    rw [heq]
    exact ⟨⟨rfl, rfl, rfl, Iff.rfl⟩, Nat.le_refl _, Nat.le_refl _, Or.inl rfl⟩
  · rw [hupper, List.cons_append] at hl'
    simp only [Text.isCapital, Bool.and_eq_true, Bool.not_eq_true'] at hu
    obtain ⟨⟨⟨hcapital, hindent⟩, _⟩, _⟩ := hu
    have hampersand : c ≠ '&' := by
      rintro rfl
      cases hlower
    rw [hl, hl']
    refine ⟨sameFrame_of_head hcolon (by decide) (by decide),
      marks_le ?_ (isStripped_capital hindent hsolid),
      stage_le_of_head hcolon (by decide) (by decide) (by decide) _ _ (Or.inl rfl),
      Or.inr (Or.inr (Or.inr ?_))⟩
    · simp only [List.count_append, List.count_cons, beq_iff_eq, hampersand, if_false]
      omega
    · rw [weight_append, weight_append]
      exact Nat.add_lt_add_left (weight_lt_capital hlower hcapital) _

/-- A module is named by text of its own at the start of the body. -/
theorem exists_body_of_qualifyModule? (h : qualifyModule? l = some l') :
    ∃ x rest, l.body = x :: rest ∧ Text.isBlank x = false ∧ x ≠ '-' ∧ x ≠ '#' := by
  have hall : builtinModules.all (fun m => m.head?.any fun x =>
      !Text.isBlank x && x != '-' && x != '#') = true := by decide
  have hm := List.all_eq_true.1 hall _ (of_qualifyModule? h).2
  cases hbody : l.body with
  | nil =>
      rw [hbody] at hm
      cases hm
  | cons x rest =>
      rw [hbody, List.takeWhile_cons] at hm
      split at hm
      · simp only [List.head?_cons, Option.any_some, Bool.and_eq_true, Bool.not_eq_true',
          bne_iff_ne, ne_eq] at hm
        exact ⟨x, rest, rfl, hm.1.1, hm.1.2, hm.2⟩
      · cases hm

private theorem sameFrame_of_qualifyModule? (h : qualifyModule? l = some l') : SameFrame l l' := by
  obtain ⟨x, rest, hbody, hx⟩ := exists_body_of_qualifyModule? h
  have hdepth := depth_of_qualifyModule? h
  have hbody' := body_of_qualifyModule? h
  have hcolumn : l'.column = l.column := by
    rw [(of_qualifyModule? h).1]
    exact column_take_column_append rfl
  rcases Nat.lt_or_eq_of_le l.depth_le_column with hlt | heq
  · have hkind : l.kind = .item :=
      kind_of_depth_lt_column hlt (by rw [hbody]; exact List.mem_cons_self) hx.1
    have hkind' : l'.kind = .item := by
      refine kind_of_depth_lt_column (c := 'a') (by rwa [hdepth, hcolumn]) ?_ (by decide)
      rw [hbody']
      exact List.mem_append_left _ (by decide)
    exact ⟨hdepth, hcolumn, by rw [hkind, hkind'], by rw [hkind, hkind']⟩
  · have hu : l.unindented = x :: rest := by rw [← hbody, body, ← heq, drop_depth]
    have hu' : l'.unindented = 'a' :: (builtinCollection.tail ++ l.body) := by
      rw [← drop_depth, hdepth, heq, ← hcolumn]
      exact hbody'
    exact sameFrame_of_plain hdepth hu hu' hx (by decide)

/-- A module that is qualified gains the name of its collection. -/
theorem climbs_of_qualifyModule? (h : qualifyModule? l = some l') : l.Climbs true l' := by
  obtain ⟨x, rest, hbody, _⟩ := exists_body_of_qualifyModule? h
  obtain ⟨hl', _⟩ := of_qualifyModule? h
  have hl := take_column_append_body l
  have hnil : l.body ≠ [] := by
    rw [hbody]
    exact List.cons_ne_nil _ _
  have hsub : l.Sublist l' := by
    rw [hl']
    conv_lhs => rw [← hl]
    exact (List.Sublist.refl _).append (List.sublist_append_right _ _)
  have hstripped : l'.isStripped = l.isStripped := by
    have hself := isStripped_append_of_ne_nil (s := l.take l.column) hnil rfl
    rw [hl] at hself
    rw [hself, hl']
    apply isStripped_append_of_ne_nil hnil
    rw [List.getLast?_append, List.getLast?_eq_some_getLast hnil, Option.some_or]
  have hignore : ignoreKey.isPrefixOf l'.unindented = false := by
    rw [← Bool.not_eq_true, List.isPrefixOf_iff_prefix]
    rintro ⟨t, ht⟩
    have hstart := body_of_startsBody (l := l') (by rw [← ht]; rfl)
    rw [body_of_qualifyModule? h, ← ht] at hstart
    cases hstart
  refine ⟨sameFrame_of_qualifyModule? h, marks_le (hsub.count_le _) fun hs => ?_, ?_, ?_⟩
  · rwa [hstripped]
  · rw [stage, stage, hignore, if_pos rfl, if_pos rfl]
    exact Nat.add_le_add_right (Bool.toNat_le _) 0
  · refine Or.inr (Or.inr (Or.inr (weight_lt_of_sublist hsub fun heq => ?_)))
    have hlen := congrArg List.length heq
    conv_rhs at hlen => rw [← hl]
    rw [hl', List.length_append, List.length_append, List.length_append] at hlen
    have hcollection : builtinCollection.length = 16 := rfl
    omega

private theorem of_valueAfterBlanks? {text value : List Char}
    (h : valueAfterBlanks? text = some value) :
    text ≠ [] ∧ value.getLast? = text.getLast? ∧ text.count '&' ≤ value.count '&' := by
  have htext := List.takeWhile_append_dropWhile (p := Text.isIndent) (l := text)
  have hblanks : ∀ c ∈ text.takeWhile Text.isIndent, Text.isIndent c = true := fun c hc =>
    List.mem_takeWhile_imp hc
  unfold valueAfterBlanks? at h
  split at h
  · next hnil =>
      dsimp only at h
      split at h
      · obtain ⟨c, hc, rfl⟩ := Option.map_eq_some_iff.1 h
        rw [hnil, List.append_nil] at htext
        rw [htext] at hc hblanks
        refine ⟨fun hempty => ?_, hc.symm, ?_⟩
        · rw [hempty] at hc
          cases hc
        · rw [count_of_isIndent hblanks]
          exact Nat.zero_le _
      · cases h
  · next hne =>
      dsimp only at h
      split at h
      · cases h
      · cases h
        refine ⟨fun hempty => hne (by rw [hempty]; rfl), ?_, ?_⟩
        · conv_rhs => rw [← htext]
          rw [List.getLast?_append, List.getLast?_eq_some_getLast hne, Option.some_or]
        · conv_lhs => rw [← htext]
          rw [List.count_append, count_of_isIndent hblanks, Nat.zero_add]

private theorem marks_le_of_unqualifyParameter? (h : unqualifyParameter? l = some l') :
    l.marks ≤ l'.marks := by
  obtain ⟨key, _, text, value, hun, hvalue, hl'⟩ := exists_of_unqualifyParameter? h
  obtain ⟨htext, hlast, hcount⟩ := of_valueAfterBlanks? hvalue
  have hl : l = l.take l.depth ++ (builtinCollection ++ (key ++ ':' :: text)) := by
    rw [← hun, take_depth, indentation_append_unindented]
  refine marks_le ?_ fun hstripped => ?_
  · have hcollection : builtinCollection.count '&' = 0 := by decide
    rw [hl, hl']
    simp only [List.count_append, List.count_cons, hcollection]
    simp
    omega
  · have hself := isStripped_append_of_ne_nil
      (s := l.take l.depth ++ (builtinCollection ++ (key ++ [':']))) htext rfl
    have hother := isStripped_append_of_ne_nil (s := l.take l.depth ++ (key ++ [':', ' '])) htext
      hlast
    simp only [List.append_assoc, List.cons_append, List.nil_append] at hself hother
    rw [hl, hself] at hstripped
    rwa [hl', hother]

/-- A parameter in a value loses the name of a collection for good. -/
theorem climbs_of_unqualifyParameter? (h : unqualifyParameter? l = some l') :
    l.Climbs false l' := by
  obtain ⟨key, hkey, text, value, hun, _, hl'⟩ := exists_of_unqualifyParameter? h
  have hdepth := depth_of_unqualifyParameter? h
  have hun' : l'.unindented = key ++ ':' :: ' ' :: value := by
    rw [hl']
    exact unindented_take_depth_append (startsIndented_ambiguous hkey _)
  have hstage : l.stage false = 1 := by
    have hcollection : builtinCollection.isPrefixOf l.unindented = true := by
      rw [hun, List.isPrefixOf_iff_prefix]
      exact List.prefix_append _ _
    rw [stage, hcollection, namesUnit, hun]
    rfl
  simp only [ambiguousParameters, Text.keys, List.map_cons, List.map_nil, List.mem_cons,
    List.not_mem_nil, or_false] at hkey
  have hstage' : l'.stage false = 2 := by
    rw [stage, namesUnit, hun']
    rcases hkey with rfl | rfl | rfl <;> rfl
  refine ⟨?_, marks_le_of_unqualifyParameter? h, by omega, Or.inr (Or.inr (Or.inl (by omega)))⟩
  rcases hkey with rfl | rfl | rfl <;>
    exact sameFrame_of_plain hdepth hun hun' (by decide) (by decide)

/-- A key with one of the given words holds only their characters and its own. -/
theorem not_mem_of_word {s key rest : List Char} {words : List (List Char)} {c : Char}
    (h : Text.dropEndWhile Text.isIndent s = key ++ rest)
    (hword : rest.dropWhile Text.isIndent ∈ words) (hkey : c ∉ key)
    (hsolid : Text.isIndent c = false) (hwords : words.all (fun w => !w.contains c) = true) :
    c ∉ s := by
  have hblank {blanks : List Char} (hblanks : ∀ x ∈ blanks, Text.isIndent x = true) :
      c ∉ blanks := by
    intro hmem
    rw [hblanks c hmem] at hsolid
    cases hsolid
  intro hmem
  rw [← Text.dropEndWhile_append_takeEndWhile Text.isIndent s, h, List.mem_append,
    List.mem_append] at hmem
  rcases hmem with (hmem | hmem) | hmem
  · exact hkey hmem
  · rw [← List.takeWhile_append_dropWhile (p := Text.isIndent) (l := rest), List.mem_append] at hmem
    rcases hmem with hmem | hmem
    · exact hblank (fun x hx => List.mem_takeWhile_imp hx) hmem
    · have hnot := List.all_eq_true.1 hwords _ hword
      simp [hmem] at hnot
  · exact hblank (fun x hx => Text.of_mem_takeEndWhile hx) hmem

private theorem eq_of_foldCase {x : Char} (h : foldCase x = 'n') : x = 'n' ∨ x = 'N' := by
  unfold foldCase at h
  split at h
  · cases h
  · split at h
    · cases h
    · unfold Char.toLower at h
      split at h
      · right
        have hval : x.val + 32 = 110 := congrArg Char.val h
        apply Char.ext
        rw [← UInt32.add_sub_cancel x.val 32, hval]
        rfl
      · exact Or.inl h

section

variable {name unit : String} {fold : Char → Char} {spellings : List String}

private theorem forall_marks {P : Char → Prop} (hand : P '&') (hbar : P '|') (hfold : P '>') :
    ∀ c ∈ ['&', '|', '>'], P c := by
  rw [List.forall_mem_cons, List.forall_mem_cons, List.forall_mem_singleton]
  exact ⟨hand, hbar, hfold⟩

/-- What the rules for units have in common: folding keeps the marks and the first letter, the
spellings hold no mark, and the names do not end in a blank. -/
theorem of_mem_unitRules (hr : (name, fold, spellings, unit) ∈ unitRules) :
    (∀ c ∈ ['&', '|', '>'],
      fold c = c ∧ ((Text.keys spellings).all fun w => !w.contains c) = true) ∧
      (∀ x, fold x = 'n' → x = 'n' ∨ x = 'N') ∧
        isStripped ("name: ".toList ++ unit.toList) = true := by
  simp only [unitRules, List.mem_cons, Prod.mk.injEq, List.not_mem_nil, or_false] at hr
  rcases hr with ⟨_, rfl, rfl, rfl⟩ | ⟨_, rfl, rfl, rfl⟩ | ⟨_, rfl, rfl, rfl⟩
  · exact ⟨forall_marks (by decide) (by decide) (by decide), fun x hx => Or.inl hx, by decide⟩
  · exact ⟨forall_marks (by decide) (by decide) (by decide), fun x hx => eq_of_foldCase hx,
      by decide⟩
  · exact ⟨forall_marks (by decide) (by decide) (by decide), fun x hx => eq_of_foldCase hx,
      by decide⟩

/-- A mark in the line stands in no name of a unit. -/
theorem not_mem_of_renameUnit? {c : Char} (hr : (name, fold, spellings, unit) ∈ unitRules)
    (h : renameUnit? fold spellings unit l = some l') (hc : c ∈ ['&', '|', '>']) : c ∉ l := by
  obtain ⟨⟨rest, hrest, hword⟩, _⟩ := of_renameUnit? h
  obtain ⟨hfold, hspellings⟩ := (of_mem_unitRules hr).1 c hc
  obtain ⟨hsolid, hkey⟩ : Text.isIndent c = false ∧ c ∉ "name:".toList :=
    forall_marks (P := fun c => Text.isIndent c = false ∧ c ∉ "name:".toList) (by decide)
      (by decide) (by decide) c hc
  intro hmem
  apply not_mem_of_word hrest hword hkey hsolid hspellings
  have hfolded := List.mem_map_of_mem (f := fold) (mem_unindented hmem hsolid)
  rwa [hfold] at hfolded

/-- A line that is renamed starts with the letter of its key. -/
theorem exists_cons_of_renameUnit? (hr : (name, fold, spellings, unit) ∈ unitRules)
    (h : renameUnit? fold spellings unit l = some l') :
    ∃ x more, l.unindented = x :: more ∧ (x = 'n' ∨ x = 'N') := by
  obtain ⟨⟨rest, hrest, _⟩, _⟩ := of_renameUnit? h
  obtain ⟨_, hfirst, _⟩ := of_mem_unitRules hr
  cases hu : l.unindented with
  | nil =>
      rw [hu] at hrest
      cases hrest
  | cons x more =>
      refine ⟨x, more, rfl, hfirst x ?_⟩
      have happ := Text.dropEndWhile_append_takeEndWhile Text.isIndent (l.unindented.map fold)
      rw [hrest, hu, List.map_cons] at happ
      exact (List.cons.inj happ).1.symm

theorem depth_of_renameUnit? (h : renameUnit? fold spellings unit l = some l') :
    l'.depth = l.depth := by
  rw [(of_renameUnit? h).2]
  exact depth_take_depth_append rfl

private theorem unindented_of_renameUnit? (h : renameUnit? fold spellings unit l = some l') :
    l'.unindented = "name: ".toList ++ unit.toList := by
  rw [(of_renameUnit? h).2]
  exact unindented_take_depth_append rfl

private theorem sameFrame_of_renameUnit? (hr : (name, fold, spellings, unit) ∈ unitRules)
    (h : renameUnit? fold spellings unit l = some l') : SameFrame l l' := by
  have hdepth := depth_of_renameUnit? h
  obtain ⟨x, more, hu, rfl | rfl⟩ := exists_cons_of_renameUnit? hr h
  · exact sameFrame_of_plain hdepth hu (unindented_of_renameUnit? h) (by decide) (by decide)
  · exact sameFrame_of_plain hdepth hu (unindented_of_renameUnit? h) (by decide) (by decide)

/-- The name of a unit is as far as a line in a value comes. -/
theorem climbs_of_renameUnit? (hr : (name, fold, spellings, unit) ∈ unitRules)
    (h : renameUnit? fold spellings unit l = some l') : l.Climbs false l' := by
  obtain ⟨_, hl'⟩ := of_renameUnit? h
  obtain ⟨_, _, hunit⟩ := of_mem_unitRules hr
  have hcount : l.count '&' = 0 :=
    List.count_eq_zero.2 (not_mem_of_renameUnit? hr h List.mem_cons_self)
  have hstage' : l'.stage false = 3 := by
    rw [stage, namesUnit, unindented_of_renameUnit? h]
    simp only [unitRules, List.mem_cons, Prod.mk.injEq, List.not_mem_nil, or_false] at hr
    rcases hr with ⟨_, rfl, rfl, rfl⟩ | ⟨_, rfl, rfl, rfl⟩ | ⟨_, rfl, rfl, rfl⟩ <;> decide
  have hstage : l.stage false ≤ 2 + l.namesUnit.toNat := by
    have hignore := Bool.toNat_le (!ignoreKey.isPrefixOf l.unindented)
    have hcollection := Bool.toNat_le (!builtinCollection.isPrefixOf l.unindented)
    rw [stage, if_neg (by decide)]
    omega
  refine ⟨sameFrame_of_renameUnit? hr h, marks_le (by omega) fun _ => ?_, ?_, ?_⟩
  · rw [hl', isStripped_append_of_ne_nil (t := "name: ".toList ++ unit.toList) (by simp) rfl]
    exact hunit
  · have hle := Bool.toNat_le l.namesUnit
    omega
  · cases hnames : l.namesUnit with
    | false =>
        rw [hnames, Bool.toNat_false] at hstage
        omega
    | true =>
        left
        obtain ⟨r, hr', hun⟩ := List.any_eq_true.1 hnames
        rcases renameUnit?_unit hr' hr (beq_iff_eq.1 hun) with hnone | hsome
        · rw [hnone] at h
          cases h
        · rw [hsome] at h
          exact (Option.some.inj h).symm

end

/-- A key that ignores errors is never written again. -/
theorem climbs_of_replaceIgnoreErrors? (own : Bool) (h : replaceIgnoreErrors? l = some l') :
    l.Climbs own l' := by
  obtain ⟨rest, hrest, hword, hl'⟩ := exists_of_replaceIgnoreErrors? h
  obtain ⟨⟨more, hun⟩, _⟩ := of_replaceIgnoreErrors? h
  have hun' : l'.unindented = "failed_when: false".toList := by
    rw [hl']
    exact unindented_take_depth_append rfl
  have hcount : l.count '&' = 0 := by
    apply List.count_eq_zero.2
    intro hmem
    exact not_mem_of_word hrest hword (by decide) (by decide) (by decide)
      (mem_unindented hmem (by decide))
  have hstage : l.stage own < l'.stage own := by
    simp only [stage, namesUnit, hun, hun']
    cases own <;> exact Nat.lt_succ_self _
  refine ⟨?_, marks_le (by omega) fun _ => ?_, Nat.le_of_lt hstage, Or.inr (Or.inr (Or.inl hstage))⟩
  · exact sameFrame_of_plain (sameExtent_of_replaceIgnoreErrors? h).1 hun hun' (by decide)
      (by decide)
  · rw [hl', isStripped_append_of_ne_nil (t := "failed_when: false".toList) (by decide) rfl]
    decide

end RuleSets

end TaskTidy
