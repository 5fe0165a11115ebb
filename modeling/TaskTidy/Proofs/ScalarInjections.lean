import Mathlib.Order.Monotone.Basic
import TaskTidy.Proofs.InjectingSets
import TaskTidy.Proofs.ScalarEnds

/-!
# Injections around block scalars

A field that is injected above a header moves the text below it. A field that is injected below the
header stands behind the text, unless the block that asks for it starts in the text or measures its
fields there.
-/

namespace TaskTidy

/-- The block scalar of a header is out of reach of an injection: no line of its value asks for the
field, a header that asks for it has no fields as deep as the text, and the text ends with a line
that counts for the run of fields. -/
structure Sheltered (r : FieldInjection) (asks : Line → List Line → Bool) (b : Buffer) (h : Nat) :
    Prop where
  answer : ∀ j ∈ b.valueLines h, r.toBlockRule.answer? b j = none
  depth : asks (b.line h) (b.drop (h + 1)) = true → ∀ d, b.fieldDepth? ⟨h, b.stopOf h⟩ = some d →
    d ≤ (b.line h).column
  kind : ∀ l ∈ (b.scalarText h).getLast?, l.kind ≠ .blank

/-- The lines of `b` stand in `b'` in their order. Below a sheltered header stands the same text,
sheltered again. -/
def KeepsSheltered (r : FieldInjection) (asks : Line → List Line → Bool) (b b' : Buffer) : Prop :=
  ∃ f : Nat → Nat, StrictMono f ∧ (∀ i, b'[f i]? = b[i]?) ∧
    ∀ h, (b.line h).opensScalar = true → Sheltered r asks b h →
      b'.scalarText (f h) = b.scalarText h ∧ Sheltered r asks b' (f h)

section

variable {r : FieldInjection} {asks : Line → List Line → Bool} {b b' b'' : Buffer}

theorem KeepsSheltered.refl (b : Buffer) : KeepsSheltered r asks b b :=
  ⟨id, strictMono_id, fun _ => rfl, fun _ _ hs => ⟨rfl, hs⟩⟩

theorem KeepsSheltered.trans (hk : KeepsSheltered r asks b b')
    (hk' : KeepsSheltered r asks b' b'') : KeepsSheltered r asks b b'' := by
  obtain ⟨f, hf, hget, hscalar⟩ := hk
  obtain ⟨g, hg, hget', hscalar'⟩ := hk'
  refine ⟨g ∘ f, hg.comp hf, fun i => (hget' (f i)).trans (hget i), fun h hh hs => ?_⟩
  obtain ⟨htext, hs'⟩ := hscalar h hh hs
  have hh' : (b'.line (f h)).opensScalar = true := by
    rwa [Buffer.line, List.getD_eq_getElem?_getD, hget, ← List.getD_eq_getElem?_getD]
  obtain ⟨htext', hs''⟩ := hscalar' (f h) hh' hs'
  exact ⟨htext'.trans htext, hs''⟩

end

namespace Buffer

variable {b : Buffer} {h j k p : Nat} {x : Line}

/-- The new field of a header is placed behind its text, if the fields are not as deep. -/
theorem lt_insertionIndex (a : Anchors)
    (hdepth : ∀ d, b.fieldDepth? ⟨h, b.stopOf h⟩ = some d → d ≤ (b.line h).column)
    (hhk : h < k) (hk : k < b.valueEnd h) (htext : Text.allBlank (b.line k) = false)
    (hkind : (b.line k).kind ≠ .blank) : k < b.insertionIndex ⟨h, b.stopOf h⟩ a := by
  obtain ⟨hlen, hrun⟩ := (lt_valueEnd_iff hhk).1 hk
  have field {f : Field} (hf : f ∈ b.fields ⟨h, b.stopOf h⟩) : k < f.index := by
    obtain ⟨d, hd, hmem, hfd⟩ := mem_fieldRun_of_mem_fields hf
    obtain ⟨_, _, _, hparameter, _⟩ := of_mem_fields hf
    apply Nat.lt_of_not_le
    intro hfk
    have hdeep := depth_of_isInside (by rw [hparameter]; rfl)
      (hrun f.index (of_mem_fieldRun hmem).1 hfk)
    have := hdepth d hd
    omega
  unfold insertionIndex
  split
  · next f hf =>
      have hmem := List.mem_of_find?_eq_some hf
      rw [List.mem_reverse] at hmem
      exact Nat.lt_trans (field ((List.takeWhile_sublist _).mem hmem)) (b.lt_fieldEnd f.index)
  · next f _ hf => exact field (List.mem_of_find?_eq_some hf)
  · next d _ _ hd =>
      have hle := hdepth d hd
      have hmem : k ∈ b.fieldRun ⟨h, b.stopOf h⟩ d := by
        rw [fieldRun_eq, List.mem_range'_1]
        refine ⟨hhk, (lt_runAfter_iff hhk).2 ⟨hlen, fun m hhm hmk => ?_⟩⟩
        exact Line.inRun_of_isInside (b.line h).depth_le_column hle (hrun m hhm hmk)
      apply lt_runEnd_of_mem hmem
      have hk := hrun k hhk (Nat.le_refl k)
      simp only [Line.isInside, htext, Bool.false_or, decide_eq_true_eq] at hk
      simp only [Bool.and_eq_true, bne_iff_ne, decide_eq_true_eq]
      exact ⟨hkind, by omega⟩
  · rw [contentEnd_eq]
    apply Nat.lt_of_not_le
    intro hle
    have hblank := allBlank_of_lastContent_le hle
      (Nat.lt_of_lt_of_le hk (b.valueEnd_le_stopOf h))
    rw [htext] at hblank
    cases hblank

end Buffer

section

variable {r : FieldInjection} {asks : Line → List Line → Bool} {starts : Line → Bool} {b : Buffer}
  {h i p : Nat} {x : Line}

namespace Sheltered

variable (hs : Sheltered r asks b h)

include hs

/-- A block that asks below the header starts behind the value. -/
theorem valueEnd_le (hsome : (r.toBlockRule.answer? b i).isSome = true) (hhi : h < i) :
    b.valueEnd h ≤ i := by
  apply Nat.le_of_not_lt
  intro hlt
  rw [hs.answer i (Buffer.mem_valueLines_iff_lt_valueEnd.2 ⟨hhi, hlt⟩)] at hsome
  cases hsome

/-- A line that is inserted above the header leaves its scalar sheltered. -/
theorem insertIdx_of_le (hinj : Injects r asks starts) (hp : p ≤ b.length) (hph : p ≤ h)
    (hh : (b.line h).opensScalar = true) : Sheltered r asks (b.insertIdx p x) (h + 1) where
  answer j' hj' := by
    obtain ⟨j, hj, rfl⟩ := Buffer.exists_of_mem_valueLines_insertIdx hp hph hj'
    have hpj : p ≤ j := Nat.le_trans hph (Nat.le_of_lt (Buffer.mem_valueLines_iff.1 hj).1)
    rw [hinj.answer?_eq_none_iff]
    rintro ⟨htask, hasks⟩
    rw [Buffer.line_insertIdx_of_le hp x hpj,
      Buffer.drop_insertIdx_of_le hp x (Nat.le_succ_of_le hpj)] at hasks
    have htext := allBlank_of_isEntry (hinj.isEntry hasks)
    have htask' : b.isTask ⟨j, b.stopOf j⟩ = true := by
      rwa [← Buffer.isTask_insertIdx_of_mem_valueLines hp hph hh hj htext]
    exact hinj.answer?_eq_none_iff.1 (hs.answer j hj) ⟨htask', hasks⟩
  depth hasks d hd := by
    rw [Buffer.fieldDepth?_eq] at hd
    rw [Buffer.line_insertIdx_of_le hp x hph,
      Buffer.drop_insertIdx_of_le hp x (Nat.le_succ_of_le hph)] at hasks hd
    rw [Buffer.line_insertIdx_of_le hp x hph]
    exact hs.depth hasks d (by rw [Buffer.fieldDepth?_eq, hd])
  kind := by
    rw [Buffer.scalarText_insertIdx_of_le hp hph]
    exact hs.kind

end Sheltered

end

namespace Injects

variable {r : FieldInjection} {asks : Line → List Line → Bool} {starts : Line → Bool} {b : Buffer}
  {h i j p : Nat} {x : Line}

section

variable (hinj : Injects r asks starts) (hx : At r b i p x)

include hinj hx

variable (hsome : (r.toBlockRule.answer? b i).isSome = true)
  (hh : (b.line h).opensScalar = true) (hs : Sheltered r asks b h)

include hsome hh hs

/-- A place below the header stands behind its text. -/
theorem At.scalarEnd_le (hhp : h < p) : b.scalarEnd h ≤ p := by
  apply Nat.le_of_not_lt
  intro hlt
  obtain ⟨hlast, htext⟩ := Buffer.getLast?_scalarText (b := b) (h := h) (by omega)
  have hkind := hs.kind _ (Option.mem_def.2 hlast)
  have hend := b.scalarEnd_le_valueEnd h
  rcases Nat.lt_trichotomy i h with hih | rfl | hhi
  · have hstop := b.valueEnd_le_stopOf h
    exact hkind (hx.cutsNoBlock h hih hhp
      (isSignificant_of_isEntry (Line.isEntry_of_opensScalar hh)) _ (by omega) (by omega))
  · have hplace := Buffer.lt_insertionIndex r.anchors (hs.depth (hinj.of_isSome hsome).2)
      (by omega) (by omega) htext hkind
    rw [← hx.place_eq] at hplace
    omega
  · have := hs.valueEnd_le hsome hhi
    have := hx.isPlace.1
    omega

variable (hitem : ∀ {l : Line} {below : List Line}, asks l below = true → l.opensScalar = true →
  l.kind = .item)

include hitem

/-- A field of a block that starts at or above the header is no deeper than its content. -/
theorem At.depth_le_column (hih : i ≤ h) (hhp : h < p) : x.depth ≤ (b.line h).column := by
  rcases Nat.lt_or_eq_of_le hih with hih | rfl
  · exact Nat.le_trans (hx.depth_le_of_lt hinj.isBareKey hih hhp (Line.isEntry_of_opensScalar hh))
      (b.line h).depth_le_column
  · have hasks := (hinj.of_isSome hsome).2
    rw [hx.depth_eq hinj.isBareKey, Buffer.childDepth]
    split
    · next d hd => exact hs.depth hasks d hd
    · simp only [hitem hasks hh, if_true, Nat.le_refl]

/-- The new line does not continue the value. -/
theorem At.isInside_eq_false (hhp : h < p) (hp : p ≤ b.valueEnd h) :
    x.isInside (b.line h).column = false := by
  rcases Nat.lt_or_ge h i with hhi | hih
  · have := hs.valueEnd_le hsome hhi
    have := hx.isPlace.1
    omega
  · exact hx.isInside_of_le hinj.isBareKey (hx.depth_le_column hinj hsome hh hs hitem hih hhp)

omit hh hitem in
/-- The blocks in the value keep their fields. -/
theorem At.keepsFields_of_mem (hj : j ∈ b.valueLines h) (hentry : (b.line j).kind.isEntry = true)
    (hjp : j < p) :
    KeepsFields (b.line j).depth ((b.drop (j + 1)).take (p - (j + 1))) (b.drop p) x := by
  obtain ⟨hhj, hje⟩ := Buffer.mem_valueLines_iff_lt_valueEnd.1 hj
  refine hx.keepsFields hinj.isBareKey hentry ?_ hjp
  rcases Nat.lt_or_ge h i with hhi | hih
  · exact Nat.ne_of_gt (Nat.lt_of_lt_of_le hje (hs.valueEnd_le hsome hhi))
  · exact Nat.ne_of_lt (Nat.lt_of_le_of_lt hih hhj)

theorem At.scalarText_insertIdx_of_lt (hhp : h < p) :
    Buffer.scalarText (b.insertIdx p x) h = b.scalarText h :=
  Buffer.scalarText_insertIdx_of_lt hx.le_length hhp
    (hx.isInside_eq_false hinj hsome hh hs hitem hhp) (hx.scalarEnd_le hinj hsome hh hs hhp)

/-- An injection below the header leaves its scalar sheltered. -/
theorem At.sheltered_of_lt (hhp : h < p) : Sheltered r asks (b.insertIdx p x) h where
  answer j hj := by
    obtain ⟨hjp, hmem⟩ := Buffer.of_mem_valueLines_insertIdx hx.le_length hhp
      (hx.isInside_eq_false hinj hsome hh hs hitem hhp) hj
    rw [hinj.answer?_eq_none_iff]
    rintro ⟨htask, hasks⟩
    rw [Buffer.isTask_insertIdx_of_lt hx.le_length hjp] at htask
    rw [Buffer.line_insertIdx_of_lt hx.le_length x hjp,
      Buffer.drop_insertIdx_of_lt hx.le_length x hjp] at hasks
    have hfields := hx.keepsFields_of_mem hinj hsome hs hmem (hinj.isEntry hasks) hjp
    have hbefore := hx.asks_of_insert hinj hfields hasks
    rw [← Buffer.drop_of_lt hjp] at hbefore
    exact hinj.answer?_eq_none_iff.1 (hs.answer j hmem) ⟨htask, hbefore⟩
  depth hasks d hd := by
    rw [Buffer.fieldDepth?_eq] at hd
    rw [Buffer.line_insertIdx_of_lt hx.le_length x hhp,
      Buffer.drop_insertIdx_of_lt hx.le_length x hhp] at hasks hd
    rw [Buffer.line_insertIdx_of_lt hx.le_length x hhp]
    by_cases hne : i = h
    · subst hne
      obtain ⟨⟨l, below'⟩, hfirst, rfl⟩ := Option.map_eq_some_iff.1 hd
      rcases of_firstIn?_insert hfirst with rfl | ⟨below, hbefore, _⟩
      · exact hx.depth_le_column hinj hsome hh hs hitem (Nat.le_refl i) hhp
      · apply hs.depth (hinj.of_isSome hsome).2
        rw [Buffer.fieldDepth?_eq, Buffer.drop_of_lt hhp, entryDepth?, hbefore, Option.map_some]
    · have hfields := hx.keepsFields hinj.isBareKey (Line.isEntry_of_opensScalar hh) hne hhp
      have hbefore := hx.asks_of_insert hinj hfields hasks
      rw [hfields.entryDepth_eq] at hd
      rw [← Buffer.drop_of_lt hhp] at hbefore hd
      exact hs.depth hbefore d (by rw [Buffer.fieldDepth?_eq, hd])
  kind := by
    rw [hx.scalarText_insertIdx_of_lt hinj hsome hh hs hitem hhp]
    exact hs.kind

end

/-- An injection keeps the text of sheltered scalars. -/
theorem At.keepsSheltered (hinj : Injects r asks starts) (hx : At r b i p x)
    (hsome : (r.toBlockRule.answer? b i).isSome = true)
    (hitem : ∀ {l : Line} {below : List Line}, asks l below = true → l.opensScalar = true →
      l.kind = .item) : KeepsSheltered r asks b (b.insertIdx p x) := by
  refine ⟨Buffer.shift p, Buffer.strictMono_shift p,
    Buffer.getElem?_insertIdx_shift x, fun h hh hs => ?_⟩
  rcases Nat.lt_or_ge h p with hhp | hph
  · rw [Buffer.shift_of_lt hhp]
    exact ⟨hx.scalarText_insertIdx_of_lt hinj hsome hh hs hitem hhp,
      hx.sheltered_of_lt hinj hsome hh hs hitem hhp⟩
  · rw [Buffer.shift_of_le hph]
    exact ⟨Buffer.scalarText_insertIdx_of_le hx.le_length hph,
      hs.insertIdx_of_le hinj hx.le_length hph hh⟩

section

open Pass

variable {s : RuleSet} (hinj : Injects r asks starts) (hl : s.lineRules = [])
  (hb : s.blockRules = [r.toBlockRule])
  (hitem : ∀ {l : Line} {below : List Line}, asks l below = true → l.opensScalar = true →
    l.kind = .item)

include hinj hl hb hitem

theorem keepsSheltered_visit {b' : Buffer} {v : Visit} (hi : i < b'.length)
    (hk : KeepsSheltered r asks b b') (hv : visit s b' i = .ok v) :
    KeepsSheltered r asks b v.buffer := by
  rcases hinj.visit_cases hl hb hi hv with ⟨_, rfl⟩ | ⟨p, x, hx, _, hsome, rfl⟩
  · exact hk
  · exact hk.trans (hx.keepsSheltered hinj hsome hitem)

/-- A pass of one injection keeps the text of sheltered scalars. -/
theorem keepsSheltered_applyPass {d : Document} {outcome : Outcome}
    (hpass : d.applyPass s = .ok outcome) :
    KeepsSheltered r asks d.lines outcome.document.lines :=
  Document.applyPassWithin_induction
    (fun hi hk hv => hinj.keepsSheltered_visit hl hb hitem hi hk hv) (.refl d.lines) hpass

end

end Injects

namespace RuleSets

variable {l : Line} {below : List Line}

/-- A file module that is given in a block scalar has room for a mode only on a dash line. -/
theorem item_of_asksForMode (hasks : asksForMode l below = true) (hl : l.opensScalar = true) :
    l.kind = .item := by
  simp only [asksForMode, Bool.and_eq_true] at hasks
  have hroom := hasks.2.1.1
  unfold leavesRoom at hroom
  unfold Line.opensScalar at hl
  split at hroom
  · next hvalue =>
      rw [hvalue] at hl
      cases hl
  · simp only [Bool.and_eq_true, decide_eq_true_eq] at hroom
    exact hroom.1

theorem item_of_asksForChangedWhen (hasks : asksForChangedWhen l below = true) :
    l.kind = .item := by
  simp only [asksForChangedWhen, Bool.and_eq_true, decide_eq_true_eq] at hasks
  exact hasks.1.1.1

/-- The sets of a single injection, each with its injection and the question that it asks. -/
def injections (options : RuleOptions) :
    List (RuleSet × FieldInjection × (Line → List Line → Bool)) :=
  [(filePermissions options, explicitMode options, asksForMode),
    (changedWhen, readOnlyCommand, asksForChangedWhen)]

end RuleSets

namespace Document

open RuleSets

variable {options : RuleOptions} {s : RuleSet} {r : FieldInjection}
  {asks : Line → List Line → Bool} {d : Document} {outcome : Outcome}

/-- A pass of an injecting set keeps the lines in their order, and below every sheltered header the
same text. -/
theorem scalarText_kept_injections (hs : (s, r, asks) ∈ injections options)
    (hpass : d.applyPass s = .ok outcome) :
    ∃ f : Nat → Nat, StrictMono f ∧ (∀ i, outcome.document.lines[f i]? = d.lines[i]?) ∧
      ∀ h, (d.lines.line h).opensScalar = true → Sheltered r asks d.lines h →
        outcome.document.lines.scalarText (f h) = d.lines.scalarText h := by
  have hkeeps : KeepsSheltered r asks d.lines outcome.document.lines := by
    simp only [injections, List.mem_cons, Prod.mk.injEq, List.not_mem_nil, or_false] at hs
    rcases hs with ⟨rfl, rfl, rfl⟩ | ⟨rfl, rfl, rfl⟩
    · exact (injects_explicitMode options).keepsSheltered_applyPass rfl rfl
        (fun hasks hl => item_of_asksForMode hasks hl) hpass
    · exact injects_readOnlyCommand.keepsSheltered_applyPass rfl rfl
        (fun hasks _ => item_of_asksForChangedWhen hasks) hpass
  obtain ⟨f, hf, hget, hscalar⟩ := hkeeps
  exact ⟨f, hf, hget, fun h hh hs => (hscalar h hh hs).1⟩

/-- A script below a task that gets a mode, and the script of a task that is marked itself. -/
theorem scalarText_kept_injections_script :
    (∃ outcome f, (ofLines ["- copy:".toList, "    src: a".toList, "- shell: |".toList,
        "    cat /etc/hosts".toList]).applyPass (filePermissions .standard) = .ok outcome ∧
      outcome.changed = true ∧ StrictMono f ∧
      outcome.document.lines.scalarText (f 2) = ["    cat /etc/hosts".toList]) ∧
    ∃ outcome f, (ofLines ["- shell: |".toList, "    cat /etc/hosts".toList,
        "  register: out".toList]).applyPass changedWhen = .ok outcome ∧
      outcome.changed = true ∧ StrictMono f ∧
      outcome.document.lines.scalarText (f 0) = ["    cat /etc/hosts".toList] := by
  constructor
  · have hpass : (ofLines ["- copy:".toList, "    src: a".toList, "- shell: |".toList,
        "    cat /etc/hosts".toList]).applyPass (filePermissions .standard) =
          .ok ⟨ofLines ["- copy:".toList, "    src: a".toList, "    mode: '0644'".toList,
            "- shell: |".toList, "    cat /etc/hosts".toList], true,
            [⟨"file-permissions", ⟨"explicit-mode", 3⟩⟩]⟩ := by
      decide +kernel
    have hmem : (filePermissions .standard, explicitMode .standard, asksForMode) ∈
        injections .standard := List.mem_cons_self
    obtain ⟨f, hf, _, hscalar⟩ := scalarText_kept_injections hmem hpass
    have hs : Sheltered (explicitMode .standard) asksForMode
        ["- copy:".toList, "    src: a".toList, "- shell: |".toList,
          "    cat /etc/hosts".toList] 2 :=
      ⟨by decide +kernel, fun hasks => absurd hasks (by decide +kernel), by decide +kernel⟩
    exact ⟨_, f, hpass, rfl, hf, hscalar 2 (by decide +kernel) hs⟩
  · have hpass : (ofLines ["- shell: |".toList, "    cat /etc/hosts".toList,
        "  register: out".toList]).applyPass changedWhen =
          .ok ⟨ofLines ["- shell: |".toList, "    cat /etc/hosts".toList,
            "  register: out".toList, "  changed_when: false".toList], true,
            [⟨"changed-when", ⟨"read-only-command", 4⟩⟩]⟩ := by
      decide +kernel
    have hmem : (changedWhen, readOnlyCommand, asksForChangedWhen) ∈ injections .standard :=
      List.mem_cons_of_mem _ List.mem_cons_self
    obtain ⟨f, hf, _, hscalar⟩ := scalarText_kept_injections hmem hpass
    have hs : Sheltered readOnlyCommand asksForChangedWhen
        ["- shell: |".toList, "    cat /etc/hosts".toList, "  register: out".toList] 0 :=
      ⟨by decide +kernel, fun _ d hd => by
        obtain rfl : 2 = d := Option.some.inj hd
        decide +kernel, by decide +kernel⟩
    exact ⟨_, f, hpass, rfl, hf, hscalar 0 (by decide +kernel) hs⟩

/-- A task in a script gets a mode, and a script with a line that reads like a field gets the
mark. -/
theorem not_scalarText_kept_injections :
    (∃ (d : Document) (outcome : Outcome), (d.lines.line 0).opensScalar = true ∧
      d.applyPass (filePermissions .standard) = .ok outcome ∧
      outcome.document.lines[0]? = d.lines[0]? ∧
      outcome.document.lines.scalarText 0 ≠ d.lines.scalarText 0) ∧
    ∃ (d : Document) (outcome : Outcome), (d.lines.line 0).opensScalar = true ∧
      d.applyPass changedWhen = .ok outcome ∧
      outcome.document.lines[0]? = d.lines[0]? ∧
      outcome.document.lines.scalarText 0 ≠ d.lines.scalarText 0 := by
  constructor
  · exact ⟨ofLines ["- shell: |".toList, "    tasks:".toList, "      - copy:".toList,
      "          src: a".toList],
      ⟨ofLines ["- shell: |".toList, "    tasks:".toList, "      - copy:".toList,
        "          src: a".toList, "          mode: '0644'".toList], true,
        [⟨"file-permissions", ⟨"explicit-mode", 5⟩⟩]⟩,
      by decide +kernel, by decide +kernel, by decide +kernel, by decide +kernel⟩
  · exact ⟨ofLines ["- shell: |".toList, "    cat /etc/hosts".toList, "    port: 22".toList],
      ⟨ofLines ["- shell: |".toList, "    cat /etc/hosts".toList, "    port: 22".toList,
        "    changed_when: false".toList], true, [⟨"changed-when", ⟨"read-only-command", 4⟩⟩]⟩,
      by decide +kernel, by decide +kernel, by decide +kernel, by decide +kernel⟩

end Document

end TaskTidy
