import TaskTidy.Proofs.LineEdits
import TaskTidy.Proofs.LineRules
import TaskTidy.Proofs.Patterns
import TaskTidy.RuleSets.LineLength
import TaskTidy.RuleSets.Molecule

/-!
# Sets of line rules settle

Most line rules write text they have no further answer for, and look at nothing below their line.
Two sets ask for the other fields of the owner of a line. Their rewrites never take a key away that
was asked for, and a line cannot be a field of an item and nested in a value at once.
-/

namespace TaskTidy

namespace LineRule

variable {name : String} {guards : List Guard} {f : Line → Option Line} {b c : Buffer} {i : Nat}
  {l : Line}

theorem of_replacing {a : Rewrite} (h : (replacing name guards f).rewrite b i = some a) :
    ∃ l, f (b.line i) = some l ∧ a = .replace l ∧ ∀ g ∈ guards, g.allows b i = true := by
  obtain ⟨hf, hguards⟩ := guarded_rewrite_eq_some_iff.1 h
  obtain ⟨l, hl, rfl⟩ := Option.map_eq_some_iff.1 hf
  exact ⟨l, hl, rfl, hguards⟩

theorem replacing_rewrite_eq_none_iff :
    (replacing name [] f).rewrite b i = none ↔ f (b.line i) = none := by
  cases hf : f (b.line i) <;> simp [replacing, guarded, hf]

theorem deleting_rewrite_eq_some_iff {p : Line → Bool} {a : Rewrite} :
    (deleting name [] p).rewrite b i = some a ↔ p (b.line i) = true ∧ a = .delete := by
  rw [deleting, guarded_rewrite_eq_some_iff]
  constructor
  · rintro ⟨hdelete, _⟩
    split at hdelete
    · next hp => exact ⟨hp, (Option.some.inj hdelete).symm⟩
    · cases hdelete
  · rintro ⟨hp, rfl⟩
    exact ⟨if_pos hp, by simp⟩

/-- A rule is silent on a line if its function has no answer or gives the line back. -/
theorem isSilent_replacing (h : f (b.line i) = none ∨ f (b.line i) = some (b.line i)) :
    (replacing name guards f).IsSilent b i := by
  intro a ha
  obtain ⟨l, hl, rfl, _⟩ := of_replacing ha
  rcases h with h | h
  · rw [h] at hl
    cases hl
  · rw [h] at hl
    cases hl
    rfl

/-- A rule stays silent where its guards allow no more than before. -/
theorem IsSilent.replacing_mono (hline : c.line i = b.line i)
    (hguards : ∀ g ∈ guards, g.allows c i = true → g.allows b i = true)
    (h : (replacing name guards f).IsSilent b i) : (replacing name guards f).IsSilent c i := by
  intro a ha
  obtain ⟨l, hl, rfl, hallow⟩ := of_replacing ha
  rw [hline] at hl ⊢
  refine h _ (guarded_rewrite_eq_some_iff.2 ⟨?_, fun g hg => hguards g hg (hallow g hg)⟩)
  rw [hl, Option.map_some]

end LineRule

namespace Pass

variable {s : RuleSet} {rules : List (String × List Guard × (Line → Option Line))} {b : Buffer}
  {i : Nat}

/-- All rules of the set write a line in the place of a line. Each is given by its name, its guards
and its function. -/
structure Replaces (s : RuleSet) (rules : List (String × List Guard × (Line → Option Line))) :
    Prop where
  blockRules_eq : s.blockRules = []
  lineRules_eq : s.lineRules = rules.map fun r => LineRule.replacing r.1 r.2.1 r.2.2

theorem Replaces.exists_of_mem (hs : Replaces s rules) {rule : LineRule}
    (hrule : rule ∈ s.lineRules) :
    ∃ r ∈ rules, rule = LineRule.replacing r.1 r.2.1 r.2.2 := by
  rw [hs.lineRules_eq] at hrule
  obtain ⟨r, hr, rfl⟩ := List.mem_map.1 hrule
  exact ⟨r, hr, rfl⟩

/-- An answer of such a set is the line that one of its functions writes, and the guards of that
rule hold. -/
theorem Replaces.exists_of_rewrite (hs : Replaces s rules) {rule : LineRule}
    (hrule : rule ∈ s.lineRules) {a : Rewrite} (ha : rule.rewrite b i = some a) :
    ∃ r ∈ rules, ∃ l, r.2.2 (b.line i) = some l ∧ a = .replace l ∧
      ∀ g ∈ r.2.1, g.allows b i = true := by
  obtain ⟨r, hr, rfl⟩ := hs.exists_of_mem hrule
  exact ⟨r, hr, LineRule.of_replacing ha⟩

theorem Replaces.exists_of_firstAnswer? (hs : Replaces s rules) {name : String} {a : Rewrite}
    (h : firstAnswer? s.lineRules b i = some (name, a)) :
    ∃ r ∈ rules, ∃ l, r.2.2 (b.line i) = some l ∧ a = .replace l ∧
      ∀ g ∈ r.2.1, g.allows b i = true := by
  obtain ⟨rule, hrule, ha⟩ := of_firstAnswer? h
  exact hs.exists_of_rewrite hrule ha

/-- A visit leaves the document where no rule has an answer, or replaces the line. -/
theorem Replaces.exists_visit (hs : Replaces s rules) (hi : i < b.length) {v : Visit}
    (hv : visit s b i = .ok v) :
    (v.buffer = b ∧ ∀ rule ∈ s.lineRules, rule.rewrite b i = none) ∨
      ∃ r ∈ rules, ∃ l, r.2.2 (b.line i) = some l ∧ (∀ g ∈ r.2.1, g.allows b i = true) ∧
        v.buffer = b.set i l := by
  obtain ⟨v', hv', hcases⟩ := Pass.exists_visit hs.blockRules_eq hi fun rule hrule a ha => by
    obtain ⟨_, _, l, _, rfl, _⟩ := hs.exists_of_rewrite hrule ha
    trivial
  obtain rfl : v = v' := Except.ok.inj (hv.symm.trans hv')
  rcases hcases with ⟨hbuffer, _, hnone⟩ | ⟨rule, hrule, a, ha, hbuffer, _⟩
  · exact Or.inl ⟨hbuffer, hnone⟩
  · obtain ⟨r, hr, l, hl, rfl, hguards⟩ := hs.exists_of_rewrite hrule ha
    exact Or.inr ⟨r, hr, l, hl, hguards, hbuffer⟩

/-- Rules that write a line settle if none of them changes what another has written. -/
theorem Replaces.settlesInOne (hs : Replaces s rules)
    (hup : ∀ r ∈ rules, ∀ g ∈ r.2.1, g.looksUp = true)
    (hstable : ∀ r ∈ rules, ∀ r' ∈ rules, ∀ l l' : Line, r.2.2 l = some l' →
      r'.2.2 l' = none ∨ r'.2.2 l' = some l') : SettlesInOne s := by
  refine settlesInOne_of_looksUp hs.blockRules_eq (fun rule hrule => ?_)
    (fun {b i a rule} hrule hi ha => ?_)
  · obtain ⟨r, hr, rfl⟩ := hs.exists_of_mem hrule
    exact LineRule.looksUp_guarded (f := fun l => (r.2.2 l).map Rewrite.replace) (hup r hr)
  · obtain ⟨r, hr, l, hl, rfl, _⟩ := hs.exists_of_rewrite hrule ha
    refine ⟨trivial, fun j hij hj rule' hrule' => ?_⟩
    obtain rfl : j = i := Nat.le_antisymm (Nat.lt_succ_iff.1 hj) hij
    obtain ⟨r', hr', rfl⟩ := hs.exists_of_mem hrule'
    apply LineRule.isSilent_replacing
    rw [Rewrite.apply, Buffer.line_set_self hi]
    exact hstable r hr r' hr' _ _ hl

/-- A single rule settles if it has no answer for the lines it writes. -/
theorem Replaces.settlesInOne_of_single {name : String} {guards : List Guard}
    {f : Line → Option Line} (hs : Replaces s [(name, guards, f)])
    (hup : ∀ g ∈ guards, g.looksUp = true)
    (hstable : ∀ l l' : Line, f l = some l' → f l' = none ∨ f l' = some l') : SettlesInOne s := by
  refine hs.settlesInOne ?_ ?_
  · simpa using hup
  · simpa using hstable

end Pass

namespace RuleSets

open Pass

/-! ### The rules of the sets -/

theorem replaces_formatting : Replaces formatting [("trailing-whitespace", [], stripTrailing?)] :=
  ⟨rfl, rfl⟩

theorem replaces_truthy : Replaces truthy [("truthy-value", [.outsideScalar], normalizeTruthy?)] :=
  ⟨rfl, rfl⟩

theorem replaces_commaSpacing :
    Replaces commaSpacing [("space-after-comma", [.outsideScalar], spaceLine?)] :=
  ⟨rfl, rfl⟩

theorem replaces_nameCasing : Replaces nameCasing
    [("capitalize-name", [.itemLevel, .taskList, .outsideScalar], capitalizeName?)] :=
  ⟨rfl, rfl⟩

theorem replaces_fqcn : Replaces fqcn
    [("qualify-module", [.itemLevel, .taskList, .ownerLacks "hosts".toList, .outsideScalar],
        qualifyModule?), ("unqualify-parameter", [.nested], unqualifyParameter?)] :=
  ⟨rfl, rfl⟩

theorem replaces_serviceNames : Replaces serviceNames
    (unitRules.map fun r => (r.1, [Guard.nested], renameUnit? r.2.1 r.2.2.1 r.2.2.2)) :=
  ⟨rfl, rfl⟩

theorem replaces_ignoreErrors : Replaces ignoreErrors
    [("failed-when", [.itemLevel, .notAfterComment, .ownerLacks "failed_when".toList],
      replaceIgnoreErrors?)] :=
  ⟨rfl, rfl⟩

/-! ### Each set settles -/

theorem settlesInOne_formatting : SettlesInOne formatting :=
  replaces_formatting.settlesInOne_of_single (by simp) fun _ _ h =>
    Or.inl (stripTrailing?_of_eq_some h)

theorem settlesInOne_truthy : SettlesInOne truthy :=
  replaces_truthy.settlesInOne_of_single (by decide) fun _ _ h =>
    Or.inl (normalizeTruthy?_of_eq_some h)

theorem settlesInOne_commaSpacing : SettlesInOne commaSpacing :=
  replaces_commaSpacing.settlesInOne_of_single (by decide) fun _ _ h =>
    Or.inl (spaceLine?_of_eq_some h)

theorem settlesInOne_nameCasing : SettlesInOne nameCasing :=
  replaces_nameCasing.settlesInOne_of_single (by decide) fun _ _ h => capitalizeName?_of_eq_some h

theorem settlesInOne_serviceNames : SettlesInOne serviceNames := by
  refine replaces_serviceNames.settlesInOne (by decide) ?_
  intro rule hrule rule' hrule' l l' h
  obtain ⟨r, hr, rfl⟩ := List.mem_map.1 hrule
  obtain ⟨r', hr', rfl⟩ := List.mem_map.1 hrule'
  exact renameUnit?_of_eq_some hr hr' h

/-- The only answer is the split of a line outside the block scalars. -/
theorem of_rewrite_lineLength {limit : Nat} {b : Buffer} {i : Nat} {r : LineRule} {a : Rewrite}
    (hr : r ∈ (lineLength limit).lineRules) (ha : r.rewrite b i = some a) :
    ∃ parts, a = .split parts ∧ Reflow.split? limit (b.line i) = some parts ∧
      b.inScalar i = false := by
  obtain rfl := List.mem_singleton.1 hr
  obtain ⟨hsplit, hguards⟩ := LineRule.guarded_rewrite_eq_some_iff.1 ha
  obtain ⟨parts, hparts, rfl⟩ := Option.map_eq_some_iff.1 hsplit
  have houtside := hguards .outsideScalar List.mem_cons_self
  rw [Guard.allows, Bool.not_eq_true'] at houtside
  exact ⟨parts, rfl, hparts, houtside⟩

/-- A visit leaves the document, or splits the line. -/
theorem visit_lineLength_cases {limit : Nat} {b : Buffer} {i : Nat} {v : Visit}
    (hi : i < b.length) (hv : visit (lineLength limit) b i = .ok v) :
    v.buffer = b ∨ ∃ parts, Reflow.split? limit (b.line i) = some parts ∧
      b.inScalar i = false ∧ v.buffer = b.take i ++ parts ++ b.drop (i + 1) := by
  obtain ⟨v', hv', hcases⟩ := exists_visit (s := lineLength limit) rfl hi fun r hr a ha => by
    obtain ⟨parts, rfl, hparts, _⟩ := of_rewrite_lineLength hr ha
    exact (Reflow.of_split? hparts).1
  cases Except.ok.inj (hv.symm.trans hv')
  rcases hcases with ⟨hbuffer, _⟩ | ⟨r, hr, a, ha, hbuffer, _⟩
  · exact Or.inl hbuffer
  · obtain ⟨parts, rfl, hparts, houtside⟩ := of_rewrite_lineLength hr ha
    exact Or.inr ⟨parts, hparts, houtside, hbuffer⟩

/-- The parts of a line are within the limit, so none of them is split again. -/
theorem settlesInOne_lineLength (limit : Nat) : SettlesInOne (lineLength limit) := by
  refine settlesInOne_of_looksUp rfl (fun rule hrule => ?_) (fun {b i a rule} hrule hi ha => ?_)
  · obtain rfl := List.mem_singleton.1 hrule
    exact LineRule.looksUp_guarded (f := fun l => (Reflow.split? limit l).map Rewrite.split)
      (by decide)
  · obtain ⟨parts, rfl, hparts, _⟩ := of_rewrite_lineLength hrule ha
    obtain ⟨htwo, hwidth⟩ := Reflow.of_split? hparts
    refine ⟨htwo, fun j hij hj rule' hrule' answer hanswer => ?_⟩
    obtain ⟨again, _, hagain, _⟩ := of_rewrite_lineLength hrule' hanswer
    have hline : Buffer.line (Rewrite.apply b i (.split parts)) j ∈ parts := by
      have hj' : j - i < parts.length := by
        change j < i + parts.length at hj
        omega
      have hlen : (b.take i).length = i := by
        rw [List.length_take, Nat.min_eq_left (Nat.le_of_lt hi)]
      rw [Rewrite.apply, Buffer.line, List.getD_eq_getElem?_getD, List.append_assoc,
        List.getElem?_append_right (by omega), hlen, List.getElem?_append_left hj',
        List.getElem?_eq_getElem hj', Option.getD_some]
      exact List.getElem_mem hj'
    rw [Reflow.split?_eq_none (hwidth _ hline)] at hagain
    cases hagain

/-- Whether a line names the command module. -/
def namesCommand (l : Line) : Bool :=
  Text.contains "ansible.builtin.command:".toList l

theorem lineRules_molecule :
    molecule.lineRules = [LineRule.deleting "stray-command" [] namesCommand] := rfl

/-- A visit deletes a line that names the command module and leaves the others. -/
theorem visit_molecule_cases {i : Nat} {v : Visit} (hi : i < b.length)
    (hv : visit molecule b i = .ok v) :
    namesCommand (b.line i) = false ∧ v.buffer = b ∨
      namesCommand (b.line i) = true ∧ v.buffer = b.eraseIdx i := by
  obtain ⟨v', hv', hcases⟩ := exists_visit (s := molecule) rfl hi fun rule hr a ha => by
    rw [lineRules_molecule, List.mem_singleton] at hr
    subst hr
    rw [(LineRule.deleting_rewrite_eq_some_iff.1 ha).2]
    trivial
  cases Except.ok.inj (hv.symm.trans hv')
  rcases hcases with ⟨hbuffer, _, hnone⟩ | ⟨rule, hr, a, ha, hbuffer, _⟩
  · refine Or.inl ⟨?_, hbuffer⟩
    rw [← Bool.not_eq_true]
    intro hnames
    have hdelete := hnone _ (by rw [lineRules_molecule]; exact List.mem_singleton_self _)
    rw [LineRule.deleting_rewrite_eq_some_iff.2 ⟨hnames, rfl⟩] at hdelete
    cases hdelete
  · rw [lineRules_molecule, List.mem_singleton] at hr
    subst hr
    obtain ⟨hnames, rfl⟩ := LineRule.deleting_rewrite_eq_some_iff.1 ha
    exact Or.inr ⟨hnames, hbuffer⟩

/-- A deleted line leaves nothing in its place. -/
theorem settlesInOne_molecule : SettlesInOne molecule := by
  refine settlesInOne_of_looksUp rfl (fun rule hrule => ?_) (fun {b i a rule} hrule hi ha => ?_)
  · obtain rfl := List.mem_singleton.1 hrule
    exact LineRule.looksUp_guarded
      (f := fun l => if namesCommand l then some .delete else none) (by decide)
  · rw [lineRules_molecule, List.mem_singleton] at hrule
    subst hrule
    obtain ⟨_, rfl⟩ := LineRule.deleting_rewrite_eq_some_iff.1 ha
    exact ⟨trivial, fun j hij hj => absurd hj (Nat.not_lt_of_le hij)⟩

section

variable {b : Buffer} {i : Nat} {l : Line}

/-- The guards of a rule allow no more after a rewrite below, if the rewritten line did not carry
the key that one of them asks for. -/
private theorem allows_of_allows_set {g : Guard} {key : List Char} {j : Nat} (hji : j < i)
    (hl : (b.line i).SameExtent l) (hkey : (b.line i).hasKey key = false)
    (hg : g.looksUp = true ∨ g = .ownerLacks key) (h : g.allows (b.set i l) j = true) :
    g.allows b j = true := by
  rcases hg with hup | rfl
  · rwa [Guard.allows_congr hup (List.take_set_of_le hji)] at h
  · simp only [Guard.allows, Bool.not_eq_true'] at h ⊢
    rw [← Bool.not_eq_true] at h ⊢
    intro hhas
    exact h (Buffer.ownerHas_set hji hl hkey hhas)

/-- A line whose module is qualified as a field of its item is not nested afterwards. -/
private theorem isNested_of_qualifyModule? (hi : i < b.length)
    (hl : qualifyModule? (b.line i) = some l) (hstart : Line.startsBody l.unindented = true)
    (h : b.isItemLevel i = true) : Buffer.isNested (b.set i l) i = false := by
  have hdepth := depth_of_qualifyModule? hl
  have hcolumn : l.column = (b.line i).column := by
    rw [(of_qualifyModule? hl).1]
    exact Line.column_take_column_append rfl
  rw [Line.column_of_startsBody hstart, hdepth] at hcolumn
  rw [Buffer.isNested_set hi hdepth]
  exact Buffer.isNested_of_isItemLevel (Line.kind_ne_item_of_column_eq hcolumn.symm) h

/-- A line whose parameter is shortened in the value of a key is no field of an item afterwards. -/
private theorem isItemLevel_of_unqualifyParameter? (hi : i < b.length)
    (hl : unqualifyParameter? (b.line i) = some l) (h : b.isNested i = true) :
    Buffer.isItemLevel (b.set i l) i = false := by
  have hdepth := depth_of_unqualifyParameter? hl
  have hstart := startsBody_of_unqualifyParameter? hl
  rw [← Bool.not_eq_true]
  intro hitem
  have hkind : (Buffer.line (b.set i l) i).kind ≠ .item := by
    rw [Buffer.line_set_self hi]
    exact Line.kind_ne_item_of_column_eq (Line.column_of_startsBody hstart)
  have hnested := Buffer.isNested_of_isItemLevel hkind hitem
  rw [Buffer.isNested_set hi hdepth, h] at hnested
  cases hnested

private theorem of_mem_lineRules_fqcn {rule : LineRule} (h : rule ∈ fqcn.lineRules) :
    rule = LineRule.replacing "qualify-module"
      [.itemLevel, .taskList, .ownerLacks "hosts".toList, .outsideScalar] qualifyModule? ∨
    rule = LineRule.replacing "unqualify-parameter" [.nested] unqualifyParameter? := by
  simpa using (show rule ∈ [_, _] from h)

/-- Above a line that either rule has rewritten the guards allow no more than before. -/
private theorem silentAbove_fqcn_set (hl : (b.line i).SameExtent l)
    (hkey : (b.line i).hasKey "hosts".toList = false) (habove : SilentAbove fqcn b i) :
    SilentAbove fqcn (b.set i l) i := by
  intro j hji rule hrule
  have hline := Buffer.line_set_of_ne (b := b) (Nat.ne_of_lt hji) l
  have hsilent := habove j hji rule hrule
  rcases of_mem_lineRules_fqcn hrule with rfl | rfl
  · refine hsilent.replacing_mono hline fun g hg => allows_of_allows_set hji hl hkey ?_
    simp only [List.mem_cons, List.not_mem_nil, or_false] at hg
    rcases hg with rfl | rfl | rfl | rfl <;> simp [Guard.looksUp]
  · refine hsilent.replacing_mono hline fun g hg => allows_of_allows_set hji hl hkey ?_
    obtain rfl := List.mem_singleton.1 hg
    exact Or.inl rfl

/-- A line whose module was qualified is no parameter of a module. -/
private theorem isSilent_fqcn_of_qualifyModule? (hi : i < b.length)
    (hl : qualifyModule? (b.line i) = some l) (hlevel : b.isItemLevel i = true) :
    ∀ rule ∈ fqcn.lineRules, rule.IsSilent (b.set i l) i := by
  intro rule hrule
  rcases of_mem_lineRules_fqcn hrule with rfl | rfl
  · refine LineRule.isSilent_replacing (Or.inl ?_)
    rw [Buffer.line_set_self hi]
    exact qualifyModule?_of_eq_some hl
  · intro answer hanswer
    obtain ⟨l', hl', _, hguards⟩ := LineRule.of_replacing hanswer
    rw [Buffer.line_set_self hi] at hl'
    obtain ⟨⟨rest, hrest⟩, _⟩ := of_unqualifyParameter? hl'
    have hnested := isNested_of_qualifyModule? hi hl (by rw [hrest]; rfl) hlevel
    have hallow : Buffer.isNested (b.set i l) i = true := hguards .nested (by simp)
    rw [hnested] at hallow
    cases hallow

/-- A line whose parameter was shortened is no module. -/
private theorem isSilent_fqcn_of_unqualifyParameter? (hi : i < b.length)
    (hl : unqualifyParameter? (b.line i) = some l) (hnested : b.isNested i = true) :
    ∀ rule ∈ fqcn.lineRules, rule.IsSilent (b.set i l) i := by
  intro rule hrule
  rcases of_mem_lineRules_fqcn hrule with rfl | rfl
  · intro answer hanswer
    obtain ⟨l', _, _, hguards⟩ := LineRule.of_replacing hanswer
    have hitem := isItemLevel_of_unqualifyParameter? hi hl hnested
    have hallow : Buffer.isItemLevel (b.set i l) i = true := hguards .itemLevel (by simp)
    rw [hitem] at hallow
    cases hallow
  · refine LineRule.isSilent_replacing (Or.inl ?_)
    rw [Buffer.line_set_self hi]
    exact unqualifyParameter?_of_eq_some hl

/-- Neither rule takes up what one of them has written. -/
theorem settlesInOne_fqcn : SettlesInOne fqcn := by
  apply settlesInOne_of_silentAbove rfl
  intro b i a rule hrule hi ha
  rcases of_mem_lineRules_fqcn hrule with rfl | rfl
  · obtain ⟨l, hl, rfl, hguards⟩ := LineRule.of_replacing ha
    refine ⟨trivial, fun habove => ?_⟩
    have hset := silentAbove_fqcn_set (sameExtent_of_qualifyModule? hl)
      (hasKey_of_qualifyModule? hl) habove
    exact hset.succ (isSilent_fqcn_of_qualifyModule? hi hl (hguards .itemLevel (by simp)))
  · obtain ⟨l, hl, rfl, hguards⟩ := LineRule.of_replacing ha
    refine ⟨trivial, fun habove => ?_⟩
    have hset := silentAbove_fqcn_set (sameExtent_of_unqualifyParameter? hl)
      (hasKey_of_unqualifyParameter? hl) habove
    exact hset.succ (isSilent_fqcn_of_unqualifyParameter? hi hl (hguards .nested (by simp)))

/-- The line that replaces an `ignore_errors` gives its item one more key. -/
theorem settlesInOne_ignoreErrors : SettlesInOne ignoreErrors := by
  apply settlesInOne_of_silentAbove rfl
  intro b i a rule hrule hi ha
  obtain rfl := List.mem_singleton.1 hrule
  obtain ⟨l, hl, rfl, _⟩ := LineRule.of_replacing ha
  refine ⟨trivial, fun habove => ?_⟩
  refine SilentAbove.succ (fun j hji rule' hrule' => ?_) fun rule' hrule' => ?_
  · obtain rfl := List.mem_singleton.1 hrule'
    refine (habove j hji _ hrule').replacing_mono (Buffer.line_set_of_ne (Nat.ne_of_lt hji) l)
      fun g hg => allows_of_allows_set hji (sameExtent_of_replaceIgnoreErrors? hl)
        (hasKey_of_replaceIgnoreErrors? hl) ?_
    simp only [List.mem_cons, List.not_mem_nil, or_false] at hg
    rcases hg with rfl | rfl | rfl <;> simp [Guard.looksUp]
  · obtain rfl := List.mem_singleton.1 hrule'
    refine LineRule.isSilent_replacing (Or.inl ?_)
    rw [Rewrite.apply, Buffer.line_set_self hi]
    exact replaceIgnoreErrors?_of_eq_some hl

end

end RuleSets

end TaskTidy
