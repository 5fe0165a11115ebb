import TaskTidy.Proofs.Blocks
import TaskTidy.Proofs.LineSets
import TaskTidy.Proofs.RenameEdits

/-!
# Outlines

The outline of a line is all that the structure of the blocks is read from: whether the line holds
text, how deep it is if it does, and whether it is significant. Seven of the rule sets rewrite lines
without touching their outlines, so every line of text keeps its depth, its block and its parent.
-/

namespace TaskTidy

namespace Line

variable {l l' : Line} {c : Char}

/-- Two lines of the same outline. Lines without text have one outline, whatever their depth. -/
structure SameOutline (l l' : Line) : Prop where
  allBlank_eq : Text.allBlank l' = Text.allBlank l
  depth_eq : Text.allBlank l = false → l'.depth = l.depth
  isSignificant_eq : l'.kind.isSignificant = l.kind.isSignificant

namespace SameOutline

theorem refl (l : Line) : SameOutline l l :=
  ⟨rfl, fun _ => rfl, rfl⟩

theorem symm (h : SameOutline l l') : SameOutline l' l :=
  ⟨h.allBlank_eq.symm, fun htext => (h.depth_eq (h.allBlank_eq.symm.trans htext)).symm,
    h.isSignificant_eq.symm⟩

theorem trans {l'' : Line} (h : SameOutline l l') (h' : SameOutline l' l'') :
    SameOutline l l'' where
  allBlank_eq := h'.allBlank_eq.trans h.allBlank_eq
  depth_eq htext := (h'.depth_eq (h.allBlank_eq.trans htext)).trans (h.depth_eq htext)
  isSignificant_eq := h'.isSignificant_eq.trans h.isSignificant_eq

theorem of_sameFrame (h : SameFrame l l') (hblank : Text.allBlank l' = Text.allBlank l) :
    SameOutline l l' :=
  ⟨hblank, fun _ => h.depth_eq, h.isSignificant_eq⟩

theorem of_allBlank (h : Text.allBlank l = true) (h' : Text.allBlank l' = true) :
    SameOutline l l' where
  allBlank_eq := by rw [h, h']
  depth_eq htext := by
    rw [h] at htext
    cases htext
  isSignificant_eq := by rw [kind_of_allBlank h, kind_of_allBlank h']

/-- Lines of one outline are inside the same blocks. -/
theorem isInside_eq (h : SameOutline l l') (base : Nat) : l'.isInside base = l.isInside base := by
  rw [isInside, isInside, h.allBlank_eq]
  cases htext : Text.allBlank l with
  | true => rfl
  | false => rw [h.depth_eq htext]

/-- Lines of one outline are parents of the same lines. -/
theorem encloses_eq (h : SameOutline l l') (d : Nat) :
    Buffer.encloses d l' = Buffer.encloses d l := by
  rw [Buffer.encloses, Buffer.encloses, h.isSignificant_eq]
  cases htext : Text.allBlank l with
  | true => rw [kind_of_allBlank htext, Kind.isSignificant, Bool.false_and, Bool.false_and]
  | false => rw [h.depth_eq htext]

end SameOutline

/-- A beginning with text other than dashes decides the outline of a line. -/
theorem sameOutline_of_head {head t t' : Line} (hc : c ∈ head) (hsolid : Text.isBlank c = false)
    (hdash : c ≠ '-') : SameOutline (head ++ t) (head ++ t') := by
  apply SameOutline.of_sameFrame (sameFrame_of_head hc hsolid hdash)
  rw [allBlank_eq_false (List.mem_append_left t' hc) hsolid,
    allBlank_eq_false (List.mem_append_left t hc) hsolid]

private theorem allBlank_append_of_indent {s t : Line} (ht : ∀ x ∈ t, Text.isIndent x = true) :
    Text.allBlank (s ++ t) = Text.allBlank s := by
  have hall : t.all Text.isBlank = true :=
    List.all_eq_true.2 fun x hx => Text.isBlank_of_isIndent (ht x hx)
  rw [Text.allBlank, List.all_append, hall, Bool.and_true]
  rfl

/-- Blanks behind a line that starts with a dash leave it significant or not. -/
private theorem isSignificant_append_of_dash {rest t : Line} (hu : l.unindented = '-' :: rest)
    (hun : unindented (l ++ t) = '-' :: (rest ++ t)) (ht : ∀ x ∈ t, Text.isIndent x = true) :
    (kind (l ++ t)).isSignificant = l.kind.isSignificant := by
  have hlong := allBlank_append_of_indent (s := rest) ht
  cases hrest : Text.allBlank rest with
  | true =>
      have hdash {u : Line} : Text.allBlank ('-' :: u) = false :=
        allBlank_eq_false List.mem_cons_self (by decide)
      rw [hrest] at hlong
      simp only [kind, hu, hun, hdash, hrest, hlong, Bool.false_eq_true, if_false, if_true]
  | false =>
      rw [hrest] at hlong
      rw [(kind_of_dash hu hrest).1, (kind_of_dash hun hlong).1]
      split <;> split <;> rfl

/-- Blanks behind a line do not show in its outline, also behind a dash that stands alone. -/
theorem sameOutline_append_indent {t : Line} (ht : ∀ x ∈ t, Text.isIndent x = true) :
    SameOutline (l ++ t) l := by
  have hblank := allBlank_append_of_indent (s := l) ht
  cases htext : Text.allBlank l with
  | true => exact .of_allBlank (hblank.trans htext) htext
  | false =>
      obtain ⟨c, hc, hsolid⟩ := List.all_eq_false.1 htext
      rw [Bool.not_eq_true] at hsolid
      have hindent := isIndent_of_isBlank hsolid
      have hun := unindented_append_of_mem hc hindent t
      have hmem := mem_unindented hc hindent
      cases hu : l.unindented with
      | nil =>
          rw [hu] at hmem
          cases hmem
      | cons x rest =>
          rw [hu] at hun hmem
          refine ⟨hblank.symm, fun _ => (depth_append_of_mem hc hindent).symm, ?_⟩
          by_cases hdash : x = '-'
          · subst hdash
            exact (isSignificant_append_of_dash hu hun ht).symm
          · by_cases hhash : x = '#'
            · subst hhash
              rw [(kind_of_hash hu).1, (kind_of_hash hun).1]
            · have hplain := allBlank_eq_false hmem hsolid
              have hplain' := allBlank_eq_false (List.mem_append_left t hmem) hsolid
              rcases (kind_of_plain hu hplain hdash hhash).1 with h | h <;>
                rcases (kind_of_plain hun hplain' hdash hhash).1 with h' | h' <;> rw [h, h'] <;> rfl

end Line

namespace Buffer

variable {b c : Buffer} {i : Nat} {l : Line}

/-- Documents whose lines have the same outlines, one by one. -/
structure SameOutlines (b c : Buffer) : Prop where
  length_eq : c.length = b.length
  line : ∀ i, (b.line i).SameOutline (c.line i)

namespace SameOutlines

theorem refl (b : Buffer) : SameOutlines b b :=
  ⟨rfl, fun i => .refl (b.line i)⟩

theorem symm (h : SameOutlines b c) : SameOutlines c b :=
  ⟨h.length_eq.symm, fun i => (h.line i).symm⟩

theorem set (h : SameOutlines b c) (hi : i < c.length) (hl : (c.line i).SameOutline l) :
    SameOutlines b (c.set i l) where
  length_eq := by rw [List.length_set, h.length_eq]
  line j := by
    by_cases hji : j = i
    · subst hji
      rw [line_set_self hi]
      exact (h.line j).trans hl
    · rw [line_set_of_ne hji]
      exact h.line j

private theorem stopOf_le_of_outlines (h : SameOutlines b c)
    (hi : Text.allBlank (b.line i) = false) : b.stopOf i ≤ c.stopOf i := by
  apply Nat.le_of_not_lt
  intro hlt
  have hi' := lt_stopOf c i
  obtain ⟨hlen, hall⟩ := (lt_stopOf_iff hi').1 hlt
  refine absurd ((lt_stopOf_iff hi').2 ⟨by rwa [h.length_eq], fun k hik hk => ?_⟩)
    (Nat.lt_irrefl _)
  rw [(h.line k).isInside_eq, (h.line i).depth_eq hi]
  exact hall k hik hk

/-- The block of a line of text ends at the same index. -/
theorem stopOf_eq (h : SameOutlines b c) (hi : Text.allBlank (b.line i) = false) :
    c.stopOf i = b.stopOf i := by
  have hi' : Text.allBlank (c.line i) = false := by rw [(h.line i).allBlank_eq, hi]
  exact Nat.le_antisymm (stopOf_le_of_outlines h.symm hi') (stopOf_le_of_outlines h hi)

theorem extentOf_eq (h : SameOutlines b c) (hi : Text.allBlank (b.line i) = false) :
    c.extentOf i = b.extentOf i := by
  rw [extentOf, extentOf, h.length_eq, h.stopOf_eq hi]

/-- The parent of a line of text stands at the same index. -/
theorem parent?_eq (h : SameOutlines b c) (hi : i < b.length)
    (htext : Text.allBlank (b.line i) = false) : c.parent? i = b.parent? i := by
  have search (d : Nat) : ∀ j ≤ b.length,
      c.lastBefore? (encloses d) j = b.lastBefore? (encloses d) j := by
    intro j
    induction j with
    | zero => exact fun _ => rfl
    | succ j ih =>
        intro hj
        rw [lastBefore?_succ hj, lastBefore?_succ (by rwa [h.length_eq]),
          (h.line j).encloses_eq, ih (Nat.le_of_succ_le hj)]
  rw [parent?, parent?, (h.line i).depth_eq htext]
  exact search _ i (Nat.le_of_lt hi)

end SameOutlines

end Buffer

namespace RuleSets

open Line

variable {l l' : Line}

/-- A rewrite that keeps the outline of the line. -/
def KeepsOutline (f : Line → Option Line) : Prop :=
  ∀ ⦃l l' : Line⦄, f l = some l' → l.SameOutline l'

theorem keepsOutline_stripTrailing : KeepsOutline stripTrailing? := by
  intro l l' h
  simp only [stripTrailing?] at h
  split at h
  · cases h
  · cases h
    have hline := sameOutline_append_indent (l := Text.dropEndWhile Text.isIndent l)
      (t := Text.takeEndWhile Text.isIndent l) fun _ hx => Text.of_mem_takeEndWhile hx
    rwa [Text.dropEndWhile_append_takeEndWhile] at hline

theorem keepsOutline_normalizeTruthy : KeepsOutline normalizeTruthy? := by
  intro l l' h
  obtain ⟨head, word, value, blanks, rfl, rfl, _, _, hcolon, _⟩ := of_normalizeTruthy? h
  rw [List.append_assoc]
  exact sameOutline_of_head hcolon (by decide) (by decide)

theorem keepsOutline_spaceLine : KeepsOutline spaceLine? := by
  intro l l' h
  obtain ⟨_, head, t, t', hcomma, rfl, rfl⟩ := of_spaceLine? h
  exact sameOutline_of_head hcomma (by decide) (by decide)

theorem keepsOutline_capitalizeName : KeepsOutline capitalizeName? := by
  intro l l' h
  obtain ⟨lead, c, more, hl, rfl, _⟩ := of_capitalizeName? h
  have hcolon : ':' ∈ l.take l.column ++ ("name:".toList ++ lead) := by simp
  rw [List.append_assoc]
  conv => arg 1; rw [hl]
  exact sameOutline_of_head hcolon (by decide) (by decide)

/-- A rewrite that keeps the layout and the frame of a line keeps its outline. -/
private theorem keepsOutline_of_climbs {f : Line → Option Line} (hf : KeepsLayout f)
    (hclimbs : ∀ ⦃l l' : Line⦄, f l = some l' → ∃ own, l.Climbs own l') : KeepsOutline f := by
  intro l l' h
  obtain ⟨own, hown⟩ := hclimbs h
  exact .of_sameFrame hown.sameFrame (hf.extent h).2

theorem keepsOutline_qualifyModule : KeepsOutline qualifyModule? :=
  keepsOutline_of_climbs keepsLayout_qualifyModule fun _ _ h => ⟨true, climbs_of_qualifyModule? h⟩

theorem keepsOutline_unqualifyParameter : KeepsOutline unqualifyParameter? :=
  keepsOutline_of_climbs keepsLayout_unqualifyParameter fun _ _ h =>
    ⟨false, climbs_of_unqualifyParameter? h⟩

theorem keepsOutline_renameUnit {name unit : String} {fold : Char → Char}
    {spellings : List String} (hr : (name, fold, spellings, unit) ∈ unitRules) :
    KeepsOutline (renameUnit? fold spellings unit) :=
  keepsOutline_of_climbs (keepsLayout_renameUnit hr) fun _ _ h =>
    ⟨false, climbs_of_renameUnit? hr h⟩

theorem keepsOutline_replaceIgnoreErrors : KeepsOutline replaceIgnoreErrors? :=
  keepsOutline_of_climbs keepsLayout_replaceIgnoreErrors fun _ _ h =>
    ⟨false, climbs_of_replaceIgnoreErrors? false h⟩

end RuleSets

namespace Pass

open RuleSets

variable {s : RuleSet} {rules : List (String × List Guard × (Line → Option Line))} {b c : Buffer}
  {i : Nat} {v : Visit}

/-- A visit keeps the outlines of all lines if every rule keeps that of its line. -/
theorem Replaces.sameOutlines_visit (hs : Replaces s rules)
    (hrules : ∀ r ∈ rules, KeepsOutline r.2.2) (hi : i < c.length) (h : b.SameOutlines c)
    (hv : visit s c i = .ok v) : b.SameOutlines v.buffer := by
  rcases hs.exists_visit hi hv with ⟨hbuffer, _⟩ | ⟨r, hr, l, hl, _, hbuffer⟩
  · rwa [hbuffer]
  · rw [hbuffer]
    exact h.set hi (hrules r hr hl)

end Pass

namespace Document

open Pass RuleSets

variable {s : RuleSet}

private theorem exists_sameOutlines {rules : List (String × List Guard × (Line → Option Line))}
    (hs : Replaces s rules) (hone : SettlesInOne s) (hrules : ∀ r ∈ rules, KeepsOutline r.2.2)
    (d : Document) :
    ∃ outcome, d.applyPass s = .ok outcome ∧ d.lines.SameOutlines outcome.document.lines := by
  obtain ⟨outcome, hpass⟩ := exists_applyPass hone.settlesInTwo d
  refine ⟨outcome, hpass, ?_⟩
  exact applyPassWithin_induction (motive := fun b => d.lines.SameOutlines b)
    (fun hi h hv => hs.sameOutlines_visit hrules hi h hv) (.refl d.lines) hpass

theorem sameOutlines_of_mem (hs : s ∈ [formatting, truthy, commaSpacing, nameCasing, fqcn,
    serviceNames, ignoreErrors]) (d : Document) :
    ∃ outcome, d.applyPass s = .ok outcome ∧ d.lines.SameOutlines outcome.document.lines := by
  simp only [List.mem_cons, List.not_mem_nil, or_false] at hs
  rcases hs with rfl | rfl | rfl | rfl | rfl | rfl | rfl
  · exact exists_sameOutlines replaces_formatting settlesInOne_formatting
      (by simpa using keepsOutline_stripTrailing) d
  · exact exists_sameOutlines replaces_truthy settlesInOne_truthy
      (by simpa using keepsOutline_normalizeTruthy) d
  · exact exists_sameOutlines replaces_commaSpacing settlesInOne_commaSpacing
      (by simpa using keepsOutline_spaceLine) d
  · exact exists_sameOutlines replaces_nameCasing settlesInOne_nameCasing
      (by simpa using keepsOutline_capitalizeName) d
  · exact exists_sameOutlines replaces_fqcn settlesInOne_fqcn
      (by simpa using ⟨keepsOutline_qualifyModule, keepsOutline_unqualifyParameter⟩) d
  · refine exists_sameOutlines replaces_serviceNames settlesInOne_serviceNames ?_ d
    intro rule hrule
    obtain ⟨r, hr, rfl⟩ := List.mem_map.1 hrule
    exact keepsOutline_renameUnit hr
  · exact exists_sameOutlines replaces_ignoreErrors settlesInOne_ignoreErrors
      (by simpa using keepsOutline_replaceIgnoreErrors) d

/-- The sets that rewrite lines one by one leave the structure of the blocks alone: the document has
as many lines as before, lines without text stay without text, and every other line has the depth,
the block and the parent that it had. -/
theorem block_structure_kept (hs : s ∈ [formatting, truthy, commaSpacing, nameCasing, fqcn,
    serviceNames, ignoreErrors]) (d : Document) :
    ∃ outcome, d.applyPass s = .ok outcome ∧
      outcome.document.lines.length = d.lines.length ∧
      ∀ i < d.lines.length,
        Text.allBlank (outcome.document.lines.line i) = Text.allBlank (d.lines.line i) ∧
        (Text.allBlank (d.lines.line i) = false →
          (outcome.document.lines.line i).depth = (d.lines.line i).depth ∧
          outcome.document.lines.extentOf i = d.lines.extentOf i ∧
          outcome.document.lines.parent? i = d.lines.parent? i) := by
  obtain ⟨outcome, hpass, h⟩ := sameOutlines_of_mem hs d
  refine ⟨outcome, hpass, h.length_eq, fun i hi => ⟨(h.line i).allBlank_eq, fun htext => ?_⟩⟩
  exact ⟨(h.line i).depth_eq htext, h.extentOf_eq htext, h.parent?_eq hi htext⟩

/-- The line of blanks gets shallower, the dash above it stays a dash, and the field below both
stays in its block. -/
theorem block_structure_kept_blanks :
    let d := ofLines ["- file:".toList, "    -  ".toList, "      ".toList, "    path: /x ".toList]
    formatting ∈ [formatting, truthy, commaSpacing, nameCasing, fqcn, serviceNames, ignoreErrors] ∧
      ∃ outcome, d.applyPass formatting = .ok outcome ∧
        outcome.document = ofLines ["- file:".toList, "    -".toList, [], "    path: /x".toList] ∧
        outcome.document.lines.length = d.lines.length ∧
        ∀ i < d.lines.length,
          Text.allBlank (outcome.document.lines.line i) = Text.allBlank (d.lines.line i) ∧
          (Text.allBlank (d.lines.line i) = false →
            (outcome.document.lines.line i).depth = (d.lines.line i).depth ∧
            outcome.document.lines.extentOf i = d.lines.extentOf i ∧
            outcome.document.lines.parent? i = d.lines.parent? i) := by
  intro d
  have hs : formatting ∈ [formatting, truthy, commaSpacing, nameCasing, fqcn, serviceNames,
      ignoreErrors] := by
    simp
  have hpass : d.applyPass formatting =
      .ok ⟨ofLines ["- file:".toList, "    -".toList, [], "    path: /x".toList], true,
        [⟨"formatting", ⟨"trailing-whitespace", 2⟩⟩, ⟨"formatting", ⟨"trailing-whitespace", 3⟩⟩,
          ⟨"formatting", ⟨"trailing-whitespace", 4⟩⟩]⟩ := by
    decide +kernel
  obtain ⟨outcome, hpass', hkept⟩ := block_structure_kept hs d
  refine ⟨hs, outcome, hpass', ?_, hkept⟩
  rw [hpass] at hpass'
  cases hpass'
  rfl

end Document

end TaskTidy
