import TaskTidy.Proofs.InjectingSets
import TaskTidy.Proofs.LineSets
import TaskTidy.Proofs.Siblings

/-!
# Rule sets that write keys keep them unique

Three rule sets give a task a key: two of them inject it, and one rewrites another field. None of
them repeats a key among siblings in a document whose blocks hold their fields. Without that, a
comment or a bare dash that ends a block hides its later fields from the set.
-/

namespace TaskTidy

open Pass

/-- A rule set that writes a key, with the lines at which the blocks start that it searches for the
key, and the lines that carry the key or are rewritten to carry it. -/
structure KeyWriter where
  ruleSet : RuleSet
  starts : Line → Bool
  carries : Line → Bool

namespace KeyWriter

/-- Explicit modes in the blocks of file modules. -/
def mode (options : RuleOptions) : KeyWriter :=
  ⟨RuleSets.filePermissions options, fun l => l.hasKeyIn RuleSets.fileModules,
    Line.carries "mode".toList⟩

/-- Marks of read-only commands in the blocks of list items. -/
def changedWhen : KeyWriter :=
  ⟨RuleSets.changedWhen, fun l => l.kind = .item, Line.carries "changed_when".toList⟩

/-- Fields that replace `ignore_errors` in the blocks of list items. -/
def failedWhen : KeyWriter :=
  ⟨RuleSets.ignoreErrors, fun l => l.kind = .item, fun l =>
    l.carries "failed_when".toList || (RuleSets.replaceIgnoreErrors? l).isSome⟩

/-- The built-in rule sets that write a key. -/
def all (options : RuleOptions) : List KeyWriter :=
  [mode options, changedWhen, failedWhen]

/-- Keys are unique, and the blocks that the set searches hold the fields that matter to it. -/
def Inv (w : KeyWriter) (b : Buffer) : Prop :=
  b.UniqueKeys ∧ b.HoldsFields w.starts w.carries

end KeyWriter

theorem Line.isEntry_of_carries {key : List Char} {l : Line} (h : l.carries key = true) :
    l.kind.isEntry = true := by
  rw [carries, Bool.and_eq_true, decide_eq_true_eq] at h
  rw [h.1]
  rfl

/-! ### Injections -/

section

variable {r : FieldInjection} {asks : Line → List Line → Bool} {starts : Line → Bool}
  {s : RuleSet} {b : Buffer} {i : Nat}

/-- Every visit of a set of one injection keeps the keys unique. -/
theorem Injects.inv_visit (h : Injects r asks starts)
    (hentry : ∀ l, starts l = true → l.kind.isEntry = true) (hl : s.lineRules = [])
    (hb : s.blockRules = [r.toBlockRule]) {v : Visit} (hi : i < b.length)
    (hinv : KeyWriter.Inv ⟨s, starts, Line.carries r.field⟩ b) (hv : visit s b i = .ok v) :
    KeyWriter.Inv ⟨s, starts, Line.carries r.field⟩ v.buffer := by
  obtain ⟨hunique, hholds⟩ := hinv
  rcases h.visit_cases hl hb hi hv with ⟨_, rfl⟩ | ⟨p, x, hx, hstart, hsome, rfl⟩
  · exact ⟨hunique, hholds⟩
  · have hnot : starts x = false := by
      obtain ⟨value, _, rfl⟩ := hx.isLine
      exact h.not_starts _ _
    have hmissing := h.missing (h.of_isSome hsome).2
    constructor
    · exact hx.uniqueKeys h hstart hmissing hholds hunique
    · exact hx.holdsFields h hentry (fun _ => Line.isEntry_of_carries) hnot hholds

end

/-! ### Replaced fields -/

section

variable {b : Buffer} {i : Nat} {l : Line}

/-- A field of an item whose block lacks the key has no sibling with the key. -/
private theorem key?_ne_of_ownerHas {key : List Char} {k : Nat} (hkind : (b.line i).kind ≠ .item)
    (hlevel : b.isItemLevel i = true) (howner : b.ownerHas i key = false)
    (hholds : b.HoldsFields (fun l => l.kind = .item) KeyWriter.failedWhen.carries)
    (hparam : (b.line k).kind = .parameter) (hdepth : (b.line k).depth = (b.line i).depth)
    (hparent : b.parent? k = b.parent? i)
    (hcarries : (b.line k).key? = some key → KeyWriter.failedWhen.carries (b.line k) = true) :
    (b.line k).key? ≠ some key := by
  intro hkey
  obtain ⟨j, hj⟩ := Option.isSome_iff_exists.1 hlevel
  have hj' := hj
  simp only [Buffer.owner?, if_neg hkind] at hj'
  obtain ⟨hp, hitem⟩ := Option.filter_eq_some_iff.1 hj'
  simp only [Bool.and_eq_true, decide_eq_true_eq] at hitem
  rw [Buffer.ownerHas, hj] at howner
  dsimp only at howner
  rw [Buffer.itemHas, Bool.or_eq_false_iff, List.any_eq_false] at howner
  rw [hp] at hparent
  have hjk := Buffer.parent?_lt hparent
  have hstop := hholds k (Buffer.lt_length_of_kind (by rw [hparam]; decide)) (hcarries hkey) j
    hparent j (Nat.le_refl j) (decide_eq_true hitem.1) (Buffer.lt_stopOf b j)
  apply howner.2 _ (Buffer.mem_runAfter hjk hstop)
  simp [hparam, hdepth, hitem.2, Line.hasKey, hkey]

/-- The line keeps its parent and every other line keeps its own. -/
private theorem parent?_set_replaceIgnoreErrors (hi : i < b.length)
    (hl : RuleSets.replaceIgnoreErrors? (b.line i) = some l) {j : Nat} (hj : j < b.length) :
    Buffer.parent? (b.set i l) j = b.parent? j := by
  refine Buffer.parent?_set_of_isSignificant hi (RuleSets.sameExtent_of_replaceIgnoreErrors? hl).1
    ?_ hj
  rw [RuleSets.kind_replaceIgnoreErrors? hl, (RuleSets.kind_of_replaceIgnoreErrors? hl).1]
  rfl

/-- The line that replaces `ignore_errors` has no sibling of its key. -/
private theorem key?_ne_of_replaceIgnoreErrors {k : Nat} (hi : i < b.length)
    (hholds : b.HoldsFields (fun l => l.kind = .item) KeyWriter.failedWhen.carries)
    (hl : RuleSets.replaceIgnoreErrors? (b.line i) = some l) (hlevel : b.isItemLevel i = true)
    (howner : b.ownerHas i "failed_when".toList = false) (hk : k ≠ i) (hklen : k < b.length)
    (hsib : Buffer.AreSiblings (b.set i l) k i) : (b.line k).key? ≠ some "failed_when".toList := by
  obtain ⟨hparam, _, hdepth, hsame⟩ := hsib
  rw [Buffer.line_set_of_ne hk] at hparam
  rw [Buffer.line_set_of_ne hk, Buffer.line_set_self hi,
    (RuleSets.sameExtent_of_replaceIgnoreErrors? hl).1] at hdepth
  rw [parent?_set_replaceIgnoreErrors hi hl hklen,
    parent?_set_replaceIgnoreErrors hi hl hi] at hsame
  refine key?_ne_of_ownerHas (RuleSets.kind_of_replaceIgnoreErrors? hl).2 hlevel howner hholds
    hparam hdepth hsame fun hkey => ?_
  simp [KeyWriter.failedWhen, Line.carries, hparam, Line.hasKey, hkey]

private theorem uniqueKeys_replaceIgnoreErrors (hi : i < b.length)
    (hinv : KeyWriter.failedWhen.Inv b)
    (hl : RuleSets.replaceIgnoreErrors? (b.line i) = some l) (hlevel : b.isItemLevel i = true)
    (howner : b.ownerHas i "failed_when".toList = false) :
    Buffer.UniqueKeys (b.set i l) := by
  obtain ⟨hunique, hholds⟩ := hinv
  rw [Buffer.uniqueKeys_iff] at hunique
  refine Buffer.uniqueKeys_of_new (n := i) (fun k hki hsib => ?_) fun j k hji hki hsib hsame => ?_
  · have hk := hsib.symm.lt_length
    rw [List.length_set] at hk
    rw [Buffer.line_set_self hi, Buffer.line_set_of_ne hki, RuleSets.key?_replaceIgnoreErrors? hl]
    exact key?_ne_of_replaceIgnoreErrors hi hholds hl hlevel howner hki hk hsib
  · have hj := hsib.symm.lt_length
    have hk := hsib.lt_length
    rw [List.length_set] at hj hk
    obtain ⟨hparam, hparam', hdepth, hparent⟩ := hsib
    rw [Buffer.line_set_of_ne hji] at hparam
    rw [Buffer.line_set_of_ne hki] at hparam'
    rw [Buffer.line_set_of_ne hji, Buffer.line_set_of_ne hki] at hdepth hsame
    rw [parent?_set_replaceIgnoreErrors hi hl hj, parent?_set_replaceIgnoreErrors hi hl hk]
      at hparent
    exact hunique j k ⟨hparam, hparam', hdepth, hparent⟩ hsame

private theorem holdsFields_replaceIgnoreErrors (hi : i < b.length)
    (hholds : b.HoldsFields KeyWriter.failedWhen.starts KeyWriter.failedWhen.carries)
    (hl : RuleSets.replaceIgnoreErrors? (b.line i) = some l) :
    Buffer.HoldsFields (b.set i l) KeyWriter.failedWhen.starts KeyWriter.failedWhen.carries := by
  intro k hk hcarries j hj n hnj hstart hstop
  rw [List.length_set] at hk
  rw [parent?_set_replaceIgnoreErrors hi hl hk] at hj
  have hni : n ≠ i := by
    rintro rfl
    rw [Buffer.line_set_self hi] at hstart
    simp [KeyWriter.failedWhen, RuleSets.kind_replaceIgnoreErrors? hl] at hstart
  rw [Buffer.line_set_of_ne hni] at hstart
  rw [Buffer.stopOf_set_of_sameExtent hi (RuleSets.sameExtent_of_replaceIgnoreErrors? hl)]
    at hstop ⊢
  refine hholds k hk ?_ j hj n hnj hstart hstop
  by_cases hki : k = i
  · rw [hki]
    simp [KeyWriter.failedWhen, hl]
  · rwa [Buffer.line_set_of_ne hki] at hcarries

/-- Replacing `ignore_errors` keeps the keys unique, and the blocks hold their fields. -/
theorem inv_replaceIgnoreErrors (hi : i < b.length) (hinv : KeyWriter.failedWhen.Inv b)
    (hl : RuleSets.replaceIgnoreErrors? (b.line i) = some l) (hlevel : b.isItemLevel i = true)
    (howner : b.ownerHas i "failed_when".toList = false) :
    KeyWriter.failedWhen.Inv (b.set i l) := by
  constructor
  · exact uniqueKeys_replaceIgnoreErrors hi hinv hl hlevel howner
  · exact holdsFields_replaceIgnoreErrors hi hinv.2 hl

/-- Every visit of the set that replaces `ignore_errors` keeps the keys unique. -/
theorem inv_visit_ignoreErrors {v : Visit} (hi : i < b.length) (hinv : KeyWriter.failedWhen.Inv b)
    (hv : visit RuleSets.ignoreErrors b i = .ok v) : KeyWriter.failedWhen.Inv v.buffer := by
  obtain ⟨v', hv', hcases⟩ := exists_visit (s := RuleSets.ignoreErrors) rfl hi fun r hr a ha => by
    obtain rfl := List.mem_singleton.1 hr
    obtain ⟨l, _, rfl, _⟩ := LineRule.of_replacing ha
    trivial
  cases Except.ok.inj (hv.symm.trans hv')
  rcases hcases with ⟨hbuffer, _, _⟩ | ⟨r, hr, a, ha, hbuffer, _⟩
  · rw [hbuffer]
    exact hinv
  · obtain rfl := List.mem_singleton.1 hr
    obtain ⟨l, hl, rfl, hguards⟩ := LineRule.of_replacing ha
    rw [hbuffer]
    have hlevel := hguards .itemLevel (by simp)
    have howner := hguards (.ownerLacks "failed_when".toList) (by simp)
    rw [Guard.allows, Bool.not_eq_true'] at howner
    exact inv_replaceIgnoreErrors hi hinv hl hlevel howner

end

theorem KeyWriter.inv_visit {options : RuleOptions} {w : KeyWriter} (hw : w ∈ all options)
    {b : Buffer} {i : Nat} {v : Visit} (hi : i < b.length) (hinv : w.Inv b)
    (hv : visit w.ruleSet b i = .ok v) : w.Inv v.buffer := by
  simp only [all, List.mem_cons, List.not_mem_nil, or_false] at hw
  rcases hw with rfl | rfl | rfl
  · exact (RuleSets.injects_explicitMode options).inv_visit (fun _ => Line.isEntry_of_hasKeyIn)
      rfl rfl hi hinv hv
  · refine RuleSets.injects_readOnlyCommand.inv_visit (fun l hl => ?_) rfl rfl hi hinv hv
    rw [decide_eq_true_eq] at hl
    rw [hl]
    rfl
  · exact inv_visit_ignoreErrors hi hinv hv

namespace Document

/-- A pass of a set that writes a key keeps the keys of siblings apart in a document whose blocks
hold the fields that matter to the set. -/
theorem uniqueKeys_of_applyPass {options : RuleOptions} {w : KeyWriter}
    (hw : w ∈ KeyWriter.all options) {d : Document} (hunique : d.lines.UniqueKeys)
    (hholds : d.lines.HoldsFields w.starts w.carries) {outcome : Outcome}
    (h : d.applyPass w.ruleSet = .ok outcome) : outcome.document.lines.UniqueKeys :=
  (applyPassWithin_induction (fun hi hinv hv => w.inv_visit hw hi hinv hv) ⟨hunique, hholds⟩ h).1

/-- A comment as deep as the fields of a block does not end it. -/
theorem uniqueKeys_of_applyPass_mode :
    (ofLines ["- file:".toList, "    # where".toList, "    path: /x".toList]).applyPass
        (RuleSets.filePermissions .standard) =
      .ok ⟨ofLines ["- file:".toList, "    # where".toList, "    path: /x".toList,
        "    mode: '0644'".toList], true, [⟨"file-permissions", ⟨"explicit-mode", 4⟩⟩]⟩ ∧
    (ofLines ["- file:".toList, "    # where".toList, "    path: /x".toList,
      "    mode: '0644'".toList]).lines.UniqueKeys := by
  have hw : KeyWriter.mode .standard ∈ KeyWriter.all .standard := List.mem_cons_self
  have hpass : (ofLines ["- file:".toList, "    # where".toList, "    path: /x".toList]).applyPass
      (KeyWriter.mode .standard).ruleSet =
        .ok ⟨ofLines ["- file:".toList, "    # where".toList, "    path: /x".toList,
          "    mode: '0644'".toList], true, [⟨"file-permissions", ⟨"explicit-mode", 4⟩⟩]⟩ := by
    decide +kernel
  exact ⟨hpass, uniqueKeys_of_applyPass hw (by decide +kernel) (by decide +kernel) hpass⟩

/-- A comment that ends the block hides the mode below it, and the set writes a second one. -/
theorem not_uniqueKeys_of_applyPass_mode :
    '\n' ∉ RuleOptions.standard.fileMode ∧ '\n' ∉ RuleOptions.standard.directoryMode ∧
      (ofLines ["- file:".toList, "    path: /x".toList, "# about the mode".toList,
        "    mode: '0600'".toList]).lines.UniqueKeys ∧
      ∃ outcome, (ofLines ["- file:".toList, "    path: /x".toList, "# about the mode".toList,
        "    mode: '0600'".toList]).applyPass (RuleSets.filePermissions .standard) = .ok outcome ∧
          ¬outcome.document.lines.UniqueKeys := by
  refine ⟨by decide, by decide, by decide +kernel, ⟨ofLines ["- file:".toList,
    "    path: /x".toList, "    mode: '0644'".toList, "# about the mode".toList,
    "    mode: '0600'".toList], true, [⟨"file-permissions", ⟨"explicit-mode", 3⟩⟩]⟩,
    by decide +kernel, by decide +kernel⟩

end Document

end TaskTidy
