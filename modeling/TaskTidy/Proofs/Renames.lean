import TaskTidy.Proofs.LineSets
import TaskTidy.Proofs.RenameEdits
import TaskTidy.Proofs.ScalarGuards

/-!
# Renames in the text of block scalars

Three sets rename modules, units and keys, and all but one of their rules take the text of a block
scalar for fields. No rename moves a line to another block or breaks a header. So below a header
whose value has not been touched, a rule has an answer exactly where it has one in the document that
the pass starts from, and the text stays if and only if there is no such answer.
-/

namespace TaskTidy

namespace Pass

open RuleSets

/-- A set of rules that rename what a line says. A rule stays out of block scalars or does not ask
for the list of its task, and a text that a rule gives back is changed by none of the others. -/
structure Renames (s : RuleSet) (rules : List (String × List Guard × (Line → Option Line))) : Prop
    extends Replaces s rules where
  keepsLayout : ∀ r ∈ rules, KeepsLayout r.2.2
  guards : ∀ r ∈ rules, .outsideScalar ∈ r.2.1 ∨ .taskList ∉ r.2.1
  fixed : ∀ r ∈ rules, ∀ r' ∈ rules, ∀ l, r.2.2 l = some l →
    r'.2.2 l = none ∨ r'.2.2 l = some l

namespace Renames

variable {s : RuleSet} {rules : List (String × List Guard × (Line → Option Line))}
  {b b' : Buffer} {h i j : Nat} {v : Visit}

/-- A visit keeps headers, and leaves every line in its blocks. -/
theorem keepsHeader_visit (hr : Renames s rules) (hi : i < b'.length)
    (hk : b.KeepsHeader h b' ∧ b.SameExtents b') (hv : visit s b' i = .ok v) :
    b.KeepsHeader h v.buffer ∧ b.SameExtents v.buffer := by
  rcases hr.exists_visit hi hv with ⟨hbuffer, _⟩ | ⟨r, hmem, l, hl, _, hbuffer⟩
  · rwa [hbuffer]
  · rw [hbuffer]
    have hlayout := hr.keepsLayout r hmem
    constructor
    · refine hk.1.set hi ?_
      rintro rfl
      exact hlayout.header hl hk.1.opens
    · exact hk.2.set hi (hlayout.extent hl)

section

variable (hr : Renames s rules) (hh : (b.line h).opensScalar = true) (hk : b.KeepsValue h b')
  (he : b.SameExtents b') (hj : j ∈ b.valueLines h)

include hr hh hk he hj

/-- A rule has the same answers for the text of a value that stands in both documents. -/
theorem isSilent_iff {rule : LineRule} (hrule : rule ∈ s.lineRules) :
    rule.IsSilent b' j ↔ rule.IsSilent b j := by
  obtain ⟨r, hmem, rfl⟩ := hr.exists_of_mem hrule
  have hline := hk.line_eq j hj
  by_cases htext : Text.allBlank (b.line j) = true
  · have hnone : r.2.2 (b.line j) = none := by
      cases hl : r.2.2 (b.line j) with
      | none => rfl
      | some l =>
          rw [(hr.keepsLayout r hmem).text hl] at htext
          cases htext
    have hnone' : r.2.2 (b'.line j) = none := by rwa [hline]
    exact iff_of_true (LineRule.isSilent_replacing (Or.inl hnone'))
      (LineRule.isSilent_replacing (Or.inl hnone))
  rw [Bool.not_eq_true] at htext
  rcases hr.guards r hmem with hscalar | hlist
  · have houtside (c : Buffer) (hin : c.inScalar j = true) :
        (LineRule.replacing r.1 r.2.1 r.2.2).IsSilent c j := by
      intro a ha
      obtain ⟨l, _, _, hallow⟩ := LineRule.of_replacing ha
      have hout := hallow _ hscalar
      rw [Guard.allows, hin] at hout
      cases hout
    exact iff_of_true (houtside b' (hk.inScalar hj (by rwa [hline])))
      (houtside b (Buffer.inScalar_of_mem_valueLines hh hj htext))
  · have hallows : ∀ g ∈ r.2.1, g.allows b' j = g.allows b j := fun g hg =>
      hk.allows_eq hh hj htext he (by
        rintro rfl
        exact hlist hg)
    constructor
    · refine LineRule.IsSilent.replacing_mono hline.symm fun g hg hallow => ?_
      rwa [hallows g hg]
    · refine LineRule.IsSilent.replacing_mono hline fun g hg hallow => ?_
      rwa [← hallows g hg]

end

/-- A visit keeps a value for whose lines no rule has an answer. -/
theorem keepsValue_visit (hr : Renames s rules) (hh : (b.line h).opensScalar = true)
    (hsilent : ∀ j ∈ b.valueLines h, ∀ rule ∈ s.lineRules, rule.IsSilent b j)
    (hi : i < b'.length) (hk : b.KeepsValue h b' ∧ b.SameExtents b') (hv : visit s b' i = .ok v) :
    b.KeepsValue h v.buffer ∧ b.SameExtents v.buffer := by
  have hheader := hr.keepsHeader_visit hi ⟨hk.1.toKeepsHeader, hk.2⟩ hv
  refine ⟨⟨hheader.1, fun j hj => ?_⟩, hheader.2⟩
  rcases hr.exists_visit hi hv with ⟨hbuffer, _⟩ | ⟨r, hmem, l, hl, hguards, hbuffer⟩
  · rw [hbuffer, hk.1.line_eq j hj]
  · rw [hbuffer]
    by_cases hji : j = i
    · subst hji
      have hrule : LineRule.replacing r.1 r.2.1 r.2.2 ∈ s.lineRules := by
        rw [hr.lineRules_eq]
        exact List.mem_map.2 ⟨r, hmem, rfl⟩
      have ha : (LineRule.replacing r.1 r.2.1 r.2.2).rewrite b' j = some (.replace l) :=
        LineRule.guarded_rewrite_eq_some_iff.2 ⟨by rw [hl, Option.map_some], hguards⟩
      have hself := (hr.isSilent_iff hh hk.1 hk.2 hj hrule).2 (hsilent j hj _ hrule) _ ha
      rw [Buffer.line_set_self hi, Rewrite.replace.inj hself, hk.1.line_eq j hj]
    · rw [Buffer.line_set_of_ne hji, hk.1.line_eq j hj]

/-- No rule has an answer for a settled document, unless it is the line itself. -/
theorem isSilent_of_isSettled (hr : Renames s rules) (hs : IsSettled s b) (hi : i < b.length) :
    ∀ rule ∈ s.lineRules, rule.IsSilent b i := by
  intro rule hrule
  rcases hr.exists_visit hi (hs i hi) with ⟨_, hnone⟩ | ⟨r, hmem, l, hl, _, hbuffer⟩
  · intro a ha
    rw [hnone rule hrule] at ha
    cases ha
  · obtain ⟨r', hmem', rfl⟩ := hr.exists_of_mem hrule
    have hline : b.line i = l := by
      conv_lhs => rw [show b = b.set i l from hbuffer]
      exact Buffer.line_set_self hi l
    apply LineRule.isSilent_replacing
    apply hr.fixed r hmem r' hmem'
    rw [hl, hline]

end Renames

end Pass

namespace Document

open Pass RuleSets

variable {s : RuleSet} {rules : List (String × List Guard × (Line → Option Line))}
  {d : Document} {outcome : Outcome} {h : Nat}

/-- A pass of a set of renames leaves the value of a header alone exactly if no rule has an answer
for a line of it. -/
theorem valueLines_kept_iff (hr : Renames s rules) (hpass : d.applyPass s = .ok outcome)
    (hh : (d.lines.line h).opensScalar = true) :
    (∀ j ∈ d.lines.valueLines h, outcome.document.lines[j]? = d.lines[j]?) ↔
      ∀ j ∈ d.lines.valueLines h, ∀ rule ∈ s.lineRules, rule.IsSilent d.lines j := by
  constructor
  · intro hkept j hj rule hrule
    obtain ⟨hheader, hextents⟩ := applyPassWithin_induction
      (motive := fun b => d.lines.KeepsHeader h b ∧ d.lines.SameExtents b)
      (fun hi hk hv => hr.keepsHeader_visit hi hk hv) ⟨.refl hh, .refl _⟩ hpass
    have hvalue : d.lines.KeepsValue h outcome.document.lines := by
      refine ⟨hheader, fun k hk => ?_⟩
      rw [Buffer.line, Buffer.line, List.getD_eq_getElem?_getD, List.getD_eq_getElem?_getD,
        hkept k hk]
    have hlen : j < outcome.document.lines.length := by
      rw [hheader.length_eq]
      exact (Buffer.mem_valueLines_iff.1 hj).2.1
    exact (hr.isSilent_iff hh hvalue hextents hj hrule).1
      (hr.isSilent_of_isSettled (isSettled_of_applyPass hpass) hlen rule hrule)
  · intro hsilent j hj
    have hkept := applyPassWithin_induction
      (motive := fun b => d.lines.KeepsValue h b ∧ d.lines.SameExtents b)
      (fun hi hk hv => hr.keepsValue_visit hh hsilent hi hk hv) ⟨.refl hh, .refl _⟩ hpass
    exact hkept.1.getElem?_eq hj

end Document

namespace RuleSets

open Pass

theorem renames_fqcn : Renames fqcn
    [("qualify-module", [.itemLevel, .taskList, .ownerLacks "hosts".toList, .outsideScalar],
        qualifyModule?), ("unqualify-parameter", [.nested], unqualifyParameter?)] where
  toReplaces := replaces_fqcn
  keepsLayout := by
    simpa using ⟨keepsLayout_qualifyModule, keepsLayout_unqualifyParameter⟩
  guards := by simp
  fixed := by
    intro r hr r' _ l hl
    simp only [List.mem_cons, List.not_mem_nil, or_false] at hr
    rcases hr with rfl | rfl
    · cases (qualifyModule?_of_eq_some hl).symm.trans hl
    · cases (unqualifyParameter?_of_eq_some hl).symm.trans hl

theorem renames_serviceNames : Renames serviceNames
    (unitRules.map fun r => (r.1, [Guard.nested], renameUnit? r.2.1 r.2.2.1 r.2.2.2)) where
  toReplaces := replaces_serviceNames
  keepsLayout := by
    intro rule hrule
    obtain ⟨r, hr, rfl⟩ := List.mem_map.1 hrule
    exact keepsLayout_renameUnit hr
  guards := by decide
  fixed := by
    intro rule hrule rule' hrule' l hl
    obtain ⟨r, hr, rfl⟩ := List.mem_map.1 hrule
    obtain ⟨r', hr', rfl⟩ := List.mem_map.1 hrule'
    exact renameUnit?_of_eq_some hr hr' hl

theorem renames_ignoreErrors : Renames ignoreErrors
    [("failed-when", [.itemLevel, .notAfterComment, .ownerLacks "failed_when".toList],
      replaceIgnoreErrors?)] where
  toReplaces := replaces_ignoreErrors
  keepsLayout := by simpa using keepsLayout_replaceIgnoreErrors
  guards := by simp
  fixed := by
    intro r hr r' hr' l hl
    obtain rfl := List.mem_singleton.1 hr
    obtain rfl := List.mem_singleton.1 hr'
    exact Or.inr hl

end RuleSets

namespace Document

open Pass RuleSets

variable {s : RuleSet} {d : Document} {outcome : Outcome} {h : Nat}

/-- A pass that renames modules, units or keys leaves the text of a block scalar alone if and only
if none of its rules has an answer for a line of it. -/
theorem scalarText_kept_renames_iff (hs : s ∈ [fqcn, serviceNames, ignoreErrors])
    (hpass : d.applyPass s = .ok outcome) (hh : (d.lines.line h).opensScalar = true) :
    (∀ j ∈ d.lines.valueLines h, outcome.document.lines[j]? = d.lines[j]?) ↔
      ∀ j ∈ d.lines.valueLines h, ∀ rule ∈ s.lineRules, rule.IsSilent d.lines j := by
  simp only [List.mem_cons, List.not_mem_nil, or_false] at hs
  rcases hs with rfl | rfl | rfl
  · exact valueLines_kept_iff renames_fqcn hpass hh
  · exact valueLines_kept_iff renames_serviceNames hpass hh
  · exact valueLines_kept_iff renames_ignoreErrors hpass hh

/-- A unit is renamed above a script, and no rule has an answer for the script. -/
theorem scalarText_kept_renames_units :
    ∃ outcome, (ofLines ["- service:".toList, "    name: Nginx".toList, "- shell: |".toList,
        "    name: Nginx -t".toList]).applyPass serviceNames = .ok outcome ∧
      outcome.changed = true ∧ ∀ rule ∈ serviceNames.lineRules, rule.IsSilent
        ["- service:".toList, "    name: Nginx".toList, "- shell: |".toList,
          "    name: Nginx -t".toList] 3 := by
  have hpass : (ofLines ["- service:".toList, "    name: Nginx".toList, "- shell: |".toList,
      "    name: Nginx -t".toList]).applyPass serviceNames =
        .ok ⟨ofLines ["- service:".toList, "    name: nginx".toList, "- shell: |".toList,
          "    name: Nginx -t".toList], true, [⟨"service-names", ⟨"nginx-unit", 2⟩⟩]⟩ := by
    decide +kernel
  exact ⟨_, hpass, rfl, (scalarText_kept_renames_iff (h := 2) (by simp) hpass (by decide +kernel)).1
    (by decide +kernel) 3 (by decide +kernel)⟩

/-- Each of the sets renames a line of this script. -/
theorem not_scalarText_kept_renames :
    ∃ (d : Document) (h : Nat), (d.lines.line h).opensScalar = true ∧
      ∀ s ∈ [fqcn, serviceNames, ignoreErrors], ∃ outcome, d.applyPass s = .ok outcome ∧
        ¬ ∀ j ∈ d.lines.valueLines h, outcome.document.lines[j]? = d.lines[j]? := by
  refine ⟨ofLines ["- ansible.builtin.shell: |".toList, "    ansible.builtin.user: web".toList,
    "    name: Nginx".toList, "    - debug:".toList, "      ignore_errors: true".toList], 0,
    by decide +kernel, fun s hs => ?_⟩
  simp only [List.mem_cons, List.not_mem_nil, or_false] at hs
  rcases hs with rfl | rfl | rfl
  · exact ⟨⟨ofLines ["- ansible.builtin.shell: |".toList, "    user: web".toList,
      "    name: Nginx".toList, "    - debug:".toList, "      ignore_errors: true".toList], true,
      [⟨"fqcn", ⟨"unqualify-parameter", 2⟩⟩]⟩, by decide +kernel, by decide +kernel⟩
  · exact ⟨⟨ofLines ["- ansible.builtin.shell: |".toList, "    ansible.builtin.user: web".toList,
      "    name: nginx".toList, "    - debug:".toList, "      ignore_errors: true".toList], true,
      [⟨"service-names", ⟨"nginx-unit", 3⟩⟩]⟩, by decide +kernel, by decide +kernel⟩
  · exact ⟨⟨ofLines ["- ansible.builtin.shell: |".toList, "    ansible.builtin.user: web".toList,
      "    name: Nginx".toList, "    - debug:".toList, "      failed_when: false".toList], true,
      [⟨"ignore-errors", ⟨"failed-when", 5⟩⟩]⟩, by decide +kernel, by decide +kernel⟩

end Document

end TaskTidy
