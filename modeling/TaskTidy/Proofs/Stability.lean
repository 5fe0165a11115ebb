import TaskTidy.Proofs.Climbs
import TaskTidy.Proofs.Convergence

/-!
# The default chain on its own output

Every visit of a default rule set leaves the document or raises its rank, so no set of the chain
takes back what another has written. Hence the chain leaves a document alone exactly if each of its
sets does. Its own output is not always such a document: a set may write text for a set that has
already run.
-/

namespace TaskTidy

namespace Pass

variable {s : RuleSet} {b : Buffer} {i : Nat}

/-- Every visit of the set leaves the document or raises its rank. -/
def Raises (s : RuleSet) : Prop :=
  ∀ ⦃b : Buffer⦄ ⦃i : Nat⦄ ⦃v : Visit⦄, i < b.length → visit s b i = .ok v →
    v.buffer = b ∨ b.rank < v.buffer.rank

/-- Rules that write a line raise the rank if each of the lines they write does. -/
theorem Replaces.raises {rules : List (String × List Guard × (Line → Option Line))}
    (hs : Replaces s rules)
    (step : ∀ r ∈ rules, ∀ (b : Buffer) (i : Nat) (l : Line), i < b.length →
      r.2.2 (b.line i) = some l → (∀ g ∈ r.2.1, g.allows b i = true) →
        b.set i l = b ∨ b.rank < Buffer.rank (b.set i l)) : Raises s := by
  intro b i v hi hv
  rcases hs.exists_visit hi hv with ⟨hbuffer, _⟩ | ⟨r, hr, l, hl, hguards, hbuffer⟩
  · exact Or.inl hbuffer
  · rw [hbuffer]
    exact step r hr b i l hi hl hguards

theorem Replaces.raises_of_single {name : String} {guards : List Guard} {f : Line → Option Line}
    (hs : Replaces s [(name, guards, f)])
    (step : ∀ {b : Buffer} {i : Nat} {l : Line}, i < b.length → f (b.line i) = some l →
      (∀ g ∈ guards, g.allows b i = true) → b.set i l = b ∨ b.rank < Buffer.rank (b.set i l)) :
    Raises s := by
  apply hs.raises
  simp only [List.mem_singleton]
  rintro r rfl b i l hi hl hguards
  exact step hi hl hguards

/-- An injection adds a line. -/
theorem raises_of_injects {r : FieldInjection} {asks : Line → List Line → Bool}
    {starts : Line → Bool} (h : Injects r asks starts) (hl : s.lineRules = [])
    (hb : s.blockRules = [r.toBlockRule]) : Raises s := by
  intro b i v hi hv
  rcases h.visit_cases hl hb hi hv with ⟨_, rfl⟩ | ⟨p, x, hx, _, _, rfl⟩
  · exact Or.inl rfl
  · right
    apply Buffer.rank_lt_of_length
    rw [List.length_insertIdx_of_le_length hx.le_length]
    exact Nat.lt_succ_self _

end Pass

namespace RuleSets

open Pass

section

variable {b : Buffer} {i : Nat} {l : Line}

/-- A rewrite in the value of a key climbs as a line that is not at the level of an item. -/
private theorem eq_or_rank_lt_of_isNested (hi : i < b.length) (hnested : b.isNested i = true)
    (h : (b.line i).Climbs false l) (hstart : Line.startsBody l.unindented = true) :
    b.set i l = b ∨ b.rank < Buffer.rank (b.set i l) := by
  have hkind : (b.line i).kind ≠ .item := by
    rw [Ne, ← h.sameFrame.isItem_iff]
    exact Line.kind_ne_item_of_column_eq (Line.column_of_startsBody hstart)
  have hlevel : b.isItemLevel i = false := by
    rw [← Bool.not_eq_true]
    intro hlevel
    rw [Buffer.isNested_of_isItemLevel hkind hlevel] at hnested
    cases hnested
  apply Buffer.rank_lt_set_of_climbs hi
  rwa [hlevel]

private theorem eq_or_rank_lt_of_isItemLevel (hi : i < b.length) (hlevel : b.isItemLevel i = true)
    (h : (b.line i).Climbs true l) : b.set i l = b ∨ b.rank < Buffer.rank (b.set i l) := by
  apply Buffer.rank_lt_set_of_climbs hi
  rwa [hlevel]

end

theorem raises_formatting : Raises formatting :=
  replaces_formatting.raises_of_single fun hi hl _ =>
    Or.inr (Buffer.rank_lt_set_of_marks hi (marks_lt_of_stripTrailing? hl))

theorem raises_truthy : Raises truthy :=
  replaces_truthy.raises_of_single fun hi hl _ =>
    Buffer.rank_lt_set_of_climbs hi (climbs_of_normalizeTruthy? _ hl)

theorem raises_commaSpacing : Raises commaSpacing :=
  replaces_commaSpacing.raises_of_single fun hi hl _ =>
    Buffer.rank_lt_set_of_climbs hi (climbs_of_spaceLine? _ hl)

theorem raises_nameCasing : Raises nameCasing :=
  replaces_nameCasing.raises_of_single fun hi hl hguards =>
    eq_or_rank_lt_of_isItemLevel hi (hguards .itemLevel (by simp)) (climbs_of_capitalizeName? hl)

theorem raises_fqcn : Raises fqcn := by
  apply replaces_fqcn.raises
  simp only [List.mem_cons, List.not_mem_nil, or_false]
  rintro r (rfl | rfl) b i l hi hl hguards
  · exact eq_or_rank_lt_of_isItemLevel hi (hguards .itemLevel (by simp))
      (climbs_of_qualifyModule? hl)
  · exact eq_or_rank_lt_of_isNested hi (hguards .nested (by simp))
      (climbs_of_unqualifyParameter? hl) (startsBody_of_unqualifyParameter? hl)

theorem raises_serviceNames : Raises serviceNames := by
  apply replaces_serviceNames.raises
  intro rule hrule b i l hi hl hguards
  obtain ⟨r, hr, rfl⟩ := List.mem_map.1 hrule
  refine eq_or_rank_lt_of_isNested hi (hguards .nested (by simp)) (climbs_of_renameUnit? hr hl) ?_
  rw [(of_renameUnit? hl).2, Line.unindented_take_depth_append rfl]
  rfl

/-- A split leaves more lines. -/
theorem raises_lineLength (limit : Nat) : Raises (lineLength limit) := by
  intro b i v hi hv
  rcases visit_lineLength_cases hi hv with hbuffer | ⟨parts, hparts, _, hbuffer⟩
  · exact Or.inl hbuffer
  · have htwo := (Reflow.of_split? hparts).1
    right
    apply Buffer.rank_lt_of_length
    rw [hbuffer, List.length_append, List.length_append, List.length_take, List.length_drop]
    omega

/-- The option for pipelines brings two ampersands, whatever becomes of the end of the line. -/
theorem raises_pipefail : Raises pipefail := by
  intro b i v hi hv
  rcases visit_pipefail_cases hi hv with rfl | ⟨k, l, _, hk, _, _, hinsert, rfl⟩
  · exact Or.inl rfl
  · obtain ⟨before, after, hbefore, hafter, _⟩ := exists_append_of_insertStrictPipes? hinsert
    refine Or.inr (Buffer.rank_lt_set_of_marks hk ?_)
    have hampersands : strictPipes.count '&' = 2 := by decide
    have hle := Bool.toNat_le (before ++ after).isStripped
    rw [hbefore, hafter, Line.marks, Line.marks]
    simp only [List.count_append, hampersands]
    omega

theorem raises_ignoreErrors : Raises ignoreErrors :=
  replaces_ignoreErrors.raises_of_single fun hi hl _ =>
    Buffer.rank_lt_set_of_climbs hi (climbs_of_replaceIgnoreErrors? _ hl)

end RuleSets

namespace Registry

variable {options : RuleOptions} {s : RuleSet}

/-- The rule sets that run when nothing is selected. -/
def defaultSets (options : RuleOptions) : List RuleSet :=
  (builtinSets options).filter fun s => s.name != RuleSets.molecule.name

theorem resolve_defaultEnabled (options : RuleOptions) :
    (builtin options).resolve (builtin options).defaultEnabled = .ok (defaultSets options) := rfl

theorem mem_builtinSets_of_mem_defaultSets (hs : s ∈ defaultSets options) :
    s ∈ builtinSets options :=
  List.mem_of_mem_filter hs

theorem raises_of_mem_defaultSets (hs : s ∈ defaultSets options) : Pass.Raises s := by
  obtain ⟨hmem, hname⟩ := List.mem_filter.1 hs
  simp only [builtinSets, List.mem_cons, List.not_mem_nil, or_false] at hmem
  rcases hmem with rfl | rfl | rfl | rfl | rfl | rfl | rfl | rfl | rfl | rfl | rfl | rfl
  · exact RuleSets.raises_formatting
  · exact RuleSets.raises_truthy
  · exact RuleSets.raises_commaSpacing
  · exact RuleSets.raises_nameCasing
  · exact RuleSets.raises_fqcn
  · exact RuleSets.raises_serviceNames
  · exact RuleSets.raises_lineLength options.maxWidth
  · exact Pass.raises_of_injects (RuleSets.injects_explicitMode options) rfl rfl
  · exact Pass.raises_of_injects RuleSets.injects_readOnlyCommand rfl rfl
  · exact RuleSets.raises_pipefail
  · exact RuleSets.raises_ignoreErrors
  · rw [bne_self_eq_false] at hname
    cases hname

end Registry

namespace Document

variable {d last : Document} {s : RuleSet} {sets : List RuleSet} {outcome : Outcome}
  {applied : List Applied}

/-- The rank of the lines, and with equal lines whether the last one is ended. -/
def rank (d : Document) : (Nat ×ₗ Nat ×ₗ Nat ×ₗ Nat) ×ₗ Bool :=
  toLex (d.lines.rank, d.finalNewline)

/-- A pass leaves the document or raises its rank, if every visit does. -/
theorem eq_or_rank_lt_of_applyPass (hs : Pass.Raises s) (h : d.applyPass s = .ok outcome) :
    outcome.document = d ∨ d.rank < outcome.document.rank := by
  have step {b : Buffer} {i : Nat} {v : Pass.Visit} (hi : i < b.length)
      (hinv : b = d.lines ∨ d.lines.rank < b.rank) (hv : Pass.visit s b i = .ok v) :
      v.buffer = d.lines ∨ d.lines.rank < v.buffer.rank := by
    rcases hinv with rfl | hlt
    · exact hs hi hv
    · rcases hs hi hv with heq | hraise
      · rw [heq]
        exact Or.inr hlt
      · exact Or.inr (hlt.trans hraise)
  have hlines := applyPassWithin_induction step (Or.inl rfl) h
  obtain ⟨lines, edits, _, hdocument, _⟩ := of_applyPassWithin h
  rw [hdocument, withLines_lines] at hlines
  rw [hdocument]
  rcases hlines with rfl | hlt
  · cases hflag : d.newlineAfter s d.lines with
    | false =>
        left
        rw [newlineAfter, Bool.or_eq_false_iff] at hflag
        rw [withLines, ← hflag.1]
    | true =>
        cases hd : d.finalNewline with
        | true =>
            left
            rw [withLines, ← hd]
        | false =>
            right
            refine Prod.Lex.toLex_lt_toLex.2 (Or.inr ⟨rfl, ?_⟩)
            dsimp only [withLines]
            rw [hd]
            decide
  · exact Or.inr (Prod.Lex.toLex_lt_toLex.2 (Or.inl hlt))

theorem of_applyEach_cons (h : d.applyEach (s :: sets) = .ok (last, applied)) :
    ∃ outcome more, d.applyPass s = .ok outcome ∧
      outcome.document.applyEach sets = .ok (last, more) := by
  unfold applyEach at h
  split at h
  · cases h
  · next outcome hpass =>
      split at h
      · cases h
      · next last' more hmore =>
          cases h
          exact ⟨outcome, more, hpass, hmore⟩

/-- A chain leaves the document or raises its rank. -/
theorem eq_or_rank_lt_of_applyEach (hs : ∀ s ∈ sets, Pass.Raises s)
    (h : d.applyEach sets = .ok (last, applied)) : last = d ∨ d.rank < last.rank := by
  induction sets generalizing d applied with
  | nil =>
      cases h
      exact Or.inl rfl
  | cons s rest ih =>
      obtain ⟨outcome, more, hpass, hmore⟩ := of_applyEach_cons h
      have hrest := ih (fun t ht => hs t (List.mem_cons_of_mem s ht)) hmore
      rcases eq_or_rank_lt_of_applyPass (hs s List.mem_cons_self) hpass with heq | hlt
      · rwa [heq] at hrest
      · rcases hrest with rfl | hlt'
        · exact Or.inr hlt
        · exact Or.inr (hlt.trans hlt')

/-- A chain that ends where it has started changes nothing on the way, in whatever order its sets
run and however often. -/
theorem applyPass_of_applyEach_self (hs : ∀ s ∈ sets, Pass.Raises s)
    (h : d.applyEach sets = .ok (d, applied)) :
    ∀ s ∈ sets, ∃ outcome, d.applyPass s = .ok outcome ∧ outcome.document = d := by
  induction sets generalizing applied with
  | nil => simp
  | cons s rest ih =>
      obtain ⟨outcome, more, hpass, hmore⟩ := of_applyEach_cons h
      have hrest : ∀ t ∈ rest, Pass.Raises t := fun t ht => hs t (List.mem_cons_of_mem s ht)
      have hfirst : outcome.document = d := by
        rcases eq_or_rank_lt_of_applyPass (hs s List.mem_cons_self) hpass with heq | hlt
        · exact heq
        · rcases eq_or_rank_lt_of_applyEach hrest hmore with heq | hlt'
          · exact heq.symm
          · exact absurd (hlt.trans hlt') (lt_irrefl _)
      rw [hfirst] at hmore
      intro t ht
      rcases List.mem_cons.1 ht with rfl | ht
      · exact ⟨outcome, hpass, hfirst⟩
      · exact ih hrest hmore t ht

theorem applyEach_self
    (h : ∀ s ∈ sets, ∃ outcome, d.applyPass s = .ok outcome ∧ outcome.document = d) :
    ∃ applied, d.applyEach sets = .ok (d, applied) := by
  induction sets with
  | nil => exact ⟨[], rfl⟩
  | cons s rest ih =>
      obtain ⟨outcome, hpass, hdocument⟩ := h s List.mem_cons_self
      obtain ⟨more, hmore⟩ := ih fun t ht => h t (List.mem_cons_of_mem s ht)
      refine ⟨outcome.applied ++ more, ?_⟩
      simp only [applyEach, hpass, hdocument, hmore]

theorem exists_applyEach (hs : ∀ s ∈ sets, Pass.SettlesInTwo s) (d : Document) :
    ∃ last applied, d.applyEach sets = .ok (last, applied) := by
  induction sets generalizing d with
  | nil => exact ⟨d, [], rfl⟩
  | cons s rest ih =>
      obtain ⟨outcome, hpass⟩ := exists_applyPass (hs s List.mem_cons_self) d
      obtain ⟨last, more, hmore⟩ :=
        ih (fun t ht => hs t (List.mem_cons_of_mem s ht)) outcome.document
      exact ⟨last, outcome.applied ++ more, by simp only [applyEach, hpass, hmore]⟩

/-- A chain leaves a document alone exactly if each of its sets does. -/
theorem changed_eq_false_iff_of_applySets (hs : ∀ s ∈ sets, Pass.Raises s)
    (h : d.applySets sets = .ok outcome) :
    outcome.changed = false ↔
      ∀ s ∈ sets, ∃ alone, d.applyPass s = .ok alone ∧ alone.changed = false := by
  have halone : (∀ s ∈ sets, ∃ alone, d.applyPass s = .ok alone ∧ alone.changed = false) ↔
      ∀ s ∈ sets, ∃ alone, d.applyPass s = .ok alone ∧ alone.document = d := by
    refine forall₂_congr fun s _ => exists_congr fun alone => and_congr_right fun hpass => ?_
    exact changed_eq_false_iff_of_applyPass hpass
  rw [halone]
  unfold applySets at h
  split at h
  · cases h
  · next last applied heach =>
      cases h
      rw [bne_eq_false_iff_eq]
      constructor
      · rintro rfl
        exact applyPass_of_applyEach_self hs heach
      · intro hself
        obtain ⟨applied', hself'⟩ := applyEach_self hself
        rw [heach] at hself'
        cases hself'
        rfl

theorem exists_applySets_default (options : RuleOptions) (d : Document) :
    ∃ outcome, d.applySets (Registry.defaultSets options) = .ok outcome := by
  obtain ⟨last, applied, h⟩ := exists_applyEach
    (fun _ hs => Registry.settlesInTwo_of_mem_builtinSets
      (Registry.mem_builtinSets_of_mem_defaultSets hs)) d
  exact ⟨⟨last, last != d, applied⟩, by rw [applySets, h]⟩

/-- The default chain gives a document for its own output, and leaves that output alone exactly if
each of its sets does. -/
theorem applySets_default_again (options : RuleOptions) (d : Document) :
    ∃ sets, (Registry.builtin options).resolve (Registry.builtin options).defaultEnabled =
        .ok sets ∧
      ∃ outcome again, d.applySets sets = .ok outcome ∧
        outcome.document.applySets sets = .ok again ∧
          (again.changed = false ↔ ∀ s ∈ sets, ∃ alone,
            outcome.document.applyPass s = .ok alone ∧ alone.changed = false) := by
  obtain ⟨outcome, houtcome⟩ := exists_applySets_default options d
  obtain ⟨again, hagain⟩ := exists_applySets_default options outcome.document
  refine ⟨_, Registry.resolve_defaultEnabled options, outcome, again, houtcome, hagain, ?_⟩
  exact changed_eq_false_iff_of_applySets (fun _ => Registry.raises_of_mem_defaultSets) hagain

/-- Capitalizing a name can write a word for no, which the next run takes for a value. -/
theorem not_stable_applySets_default :
    ∃ sets, (Registry.builtin .standard).resolve (Registry.builtin .standard).defaultEnabled =
        .ok sets ∧
      ∃ outcome again, (ofLines ["- name: nO".toList]).applySets sets = .ok outcome ∧
        outcome.document = ofLines ["- name: NO".toList] ∧
          outcome.document.applySets sets = .ok again ∧
            again.document = ofLines ["- name: False".toList] ∧ again.changed = true := by
  refine ⟨_, Registry.resolve_defaultEnabled _,
    ⟨ofLines ["- name: NO".toList], true, [⟨"name-casing", ⟨"capitalize-name", 1⟩⟩]⟩,
    ⟨ofLines ["- name: False".toList], true,
      [⟨"truthy", ⟨"truthy-value", 1⟩⟩, ⟨"name-casing", ⟨"capitalize-name", 1⟩⟩]⟩,
    ?_, rfl, ?_, rfl, rfl⟩
  · decide +kernel
  · decide +kernel

end Document

end TaskTidy
