import TaskTidy.Proofs.Canonical
import TaskTidy.Proofs.Climbs
import TaskTidy.Proofs.Convergence

/-!
# A second run on the written text

A run writes the text of its document, and the next run reads that text. A canonical document is
found again, settled as it is. The other documents are read with the carriage returns of their lines
taken for a part of the line ending, or cut at a newline that stands in an option.
-/

namespace TaskTidy

namespace Document

open Pass

variable {d : Document} {s : RuleSet} {outcome : Outcome}

theorem IsCanonical.isSettled_reread (h : outcome.document.IsCanonical)
    (hpass : d.applyPass s = .ok outcome) : IsSettled s (parse outcome.document.render).lines := by
  rw [h.parse_render]
  exact isSettled_of_applyPass hpass

/-- A written document is read with the same end, and above it with the lines that the document
terminates or their beginnings. -/
theorem exists_parse_render_eq (hnewline : ∀ l ∈ d.lines, '\n' ∉ l) :
    ∃ front ending, parse d.render = ofParts front ending d.unterminated ∧
      ∀ l ∈ front, ∃ l' ∈ d.lines, l <+: l' := by
  have hfront : ∀ l ∈ d.terminated, '\n' ∉ l := fun l hl =>
    hnewline l (mem_lines_of_mem_terminated hl)
  have hlast := newline_not_mem_unterminated hnewline
  have of_terminated : ∀ l ∈ d.terminated, ∃ l' ∈ d.lines, l <+: l' := fun l hl =>
    ⟨l, mem_lines_of_mem_terminated hl, List.prefix_rfl⟩
  rw [render_eq]
  cases d.ending with
  | lf =>
      rw [LineEnding.text, parse_endEach_append hfront hlast]
      split
      · refine ⟨_, _, rfl, List.forall_mem_map.2 fun l hl => ?_⟩
        exact ⟨l, mem_lines_of_mem_terminated hl, List.dropLast_prefix l⟩
      · exact ⟨_, _, rfl, of_terminated⟩
  | crlf =>
      have hreturns : ∀ l ∈ d.terminated.map (· ++ ['\r']), '\n' ∉ l := by
        rw [List.forall_mem_map]
        exact fun l hl => by simpa using hfront l hl
      rw [LineEnding.text, ← endEach_map_append_return, parse_endEach_append hreturns hlast]
      split
      · refine ⟨_, _, rfl, List.forall_mem_map.2 (List.forall_mem_map.2 fun l hl => ?_)⟩
        rw [List.dropLast_concat]
        exact of_terminated l hl
      · next hall =>
          have hnil : d.terminated = [] := by
            by_contra hne
            exact hall (allReturn_eq_true_iff.2 ⟨by simpa using hne, by simp [endsInReturn]⟩)
          refine ⟨_, _, rfl, ?_⟩
          simp [hnil]

/-- The lines of a text that was written are the lines of the document, or beginnings of them. -/
theorem exists_isPrefix_of_mem_reread (hnewline : ∀ l ∈ d.lines, '\n' ∉ l) {l : Line}
    (hl : l ∈ (parse d.render).lines) : ∃ l' ∈ d.lines, l <+: l' := by
  obtain ⟨front, ending, hparse, hfront⟩ := exists_parse_render_eq hnewline
  rw [hparse, ofParts, List.mem_append] at hl
  rcases hl with hl | hl
  · exact hfront l hl
  · split at hl
    · cases hl
    · next hne =>
        obtain rfl := List.mem_singleton.1 hl
        exact ⟨_, unterminated_mem_lines (by simpa using hne), List.prefix_rfl⟩

end Document

/-! ### Injections -/

theorem Line.depth_le_of_isPrefix {l l' : Line} (h : l <+: l') : l.depth ≤ l'.depth := by
  obtain ⟨rest, rfl⟩ := h
  rw [depth, depth, List.takeWhile_append]
  split
  · next hall =>
      rw [hall, List.length_append]
      exact Nat.le_add_right _ _
  · exact Nat.le_refl _

theorem Buffer.newline_not_mem_of_isBareKey {key : List Char} (h : Buffer.isBareKey key = true) :
    '\n' ∉ key := by
  cases key with
  | nil => cases h
  | cons c rest =>
      simp only [isBareKey, Bool.and_eq_true, List.all_eq_true] at h
      intro hmem
      rcases List.mem_cons.1 hmem with rfl | hmem
      · exact absurd h.1 (by decide)
      · exact absurd (h.2 _ hmem) (by decide)

/-- A document of two lines, of which the first ends in a carriage return and the second, which is
not terminated, is a field below the first. -/
structure Document.IsReturnPair (field : List Char) (d : Document) : Prop where
  lines : ∃ y depth value, d.lines = [y, Buffer.fieldLine depth field value] ∧ '\n' ∉ y ∧
    endsInReturn y = true ∧ '\n' ∉ value ∧ y.depth < depth
  ending : d.ending = .lf
  finalNewline : d.finalNewline = false

/-- The field below the only line of a canonical document, which is not terminated. -/
theorem Document.IsCanonical.isReturnPair_insert {d : Document} {field value : List Char} {y : Line}
    {depth : Nat} (hd : d.IsCanonical) (hlines : d.lines = [y]) (hflag : d.finalNewline = false)
    (hreturn : endsInReturn y = true) (hvalue : '\n' ∉ value) (hdepth : y.depth < depth) :
    (d.withLines [y, Buffer.fieldLine depth field value] d.finalNewline).IsReturnPair field where
  lines := ⟨y, depth, value, rfl, hd.noNewline y (by simp [hlines]), hreturn, hvalue, hdepth⟩
  ending := by
    cases hending : d.ending with
    | lf => exact hending
    | crlf =>
        have hterminated := hd.crlf hending
        rw [terminated, hflag, hlines] at hterminated
        exact absurd rfl hterminated
  finalNewline := hflag

namespace Injects

open Pass Document

variable {r : FieldInjection} {asks : Line → List Line → Bool} {starts : Line → Bool}
  {s : RuleSet} (h : Injects r asks starts) (hl : s.lineRules = [])
  (hb : s.blockRules = [r.toBlockRule])

include h

theorem newline_not_mem_fieldLine {depth : Nat} {value : List Char} (hvalue : '\n' ∉ value) :
    '\n' ∉ Buffer.fieldLine depth r.field value := by
  have hkey := Buffer.newline_not_mem_of_isBareKey h.isBareKey
  simp only [Buffer.fieldLine, List.mem_append, List.mem_cons, not_or]
  exact ⟨⟨fun hmem => absurd (List.eq_of_mem_replicate hmem) (by decide), hkey⟩, by decide,
    by decide, hvalue⟩

/-- With the field a canonical document is canonical, unless the field is below a single line that
ends in a carriage return. -/
theorem canonical_insert (hvalue : ∀ b e value, r.value? b e = some value → '\n' ∉ value)
    {d : Document} {i p : Nat} {x : Line} (hd : d.IsCanonical) (hx : At r d.lines i p x) :
    (d.withLines (d.lines.insertIdx p x) d.finalNewline).IsCanonical ∨
      (d.withLines (d.lines.insertIdx p x) d.finalNewline).IsReturnPair r.field := by
  obtain ⟨k, rfl⟩ := Nat.exists_eq_succ_of_ne_zero (Nat.ne_zero_of_lt hx.isPlace.1)
  have hk : k < d.lines.length := hx.le_length
  obtain ⟨value, hval, hline⟩ := hx.isLine
  by_cases hsingle : d.lines = [d.lines.line k] ∧ d.finalNewline = false ∧
      endsInReturn (d.lines.line k) = true
  · right
    obtain ⟨hlines, hflag, hreturn⟩ := hsingle
    have hlen := congrArg List.length hlines
    rw [List.length_singleton] at hlen
    have hi := hx.lt_length
    obtain rfl : k = 0 := by omega
    obtain rfl : i = 0 := by omega
    have hinsert : d.lines.insertIdx 1 x = [d.lines.line 0, x] := by
      conv_lhs => rw [hlines]
      rfl
    rw [hinsert, hline]
    exact hd.isReturnPair_insert hlines hflag hreturn (hvalue _ _ value hval)
      (Buffer.depth_lt_childDepth d.lines 0)
  · left
    have hnewline : '\n' ∉ x := by
      rw [hline]
      exact h.newline_not_mem_fieldLine (hvalue _ _ value hval)
    have hne : x ≠ [] := by
      rintro rfl
      cases hx.kind_eq h.isBareKey
    refine hd.insertIdx hk hne hnewline fun hlines hflag => ?_
    rw [← Bool.not_eq_true]
    exact fun hreturn => hsingle ⟨hlines, hflag, hreturn⟩

include hl hb

/-- A line with the field below it asks for nothing, and neither does the field. -/
theorem isSettled_pair {y : Line} {depth : Nat} {value : List Char} (hdepth : y.depth < depth) :
    IsSettled s [y, Buffer.fieldLine depth r.field value] := by
  have hkind := Buffer.kind_fieldLine h.isBareKey depth value
  have hkey := Buffer.key?_fieldLine h.isBareKey depth value
  have hfield := Buffer.depth_fieldLine h.isBareKey depth value
  generalize hx : Buffer.fieldLine depth r.field value = x at hkind hkey hfield
  refine isSettled_of_answer? hl hb fun i hi => ?_
  rw [h.answer?_eq_none_iff]
  rintro ⟨_, hasks⟩
  match i, hi with
  | 0, _ =>
      have hmissing := h.missing hasks
      have hinside : x.isInside y.depth = true := by
        simp [Line.isInside, hfield, hdepth]
      have hfound : fieldBelow? y.depth [r.field] [x] = some (x, []) := by
        simp [fieldBelow?, entryDepth?, firstIn?, hinside, hkind, Line.Kind.isEntry, Line.inRun,
          Line.isFieldIn, Line.hasKeyIn, hkey]
      exact absurd (hfound.symm.trans hmissing) (Option.some_ne_none _)
  | 1, _ =>
      have hstarts := h.starts_of_asks hasks
      rw [show Buffer.line [y, x] 1 = x from rfl, ← hx, h.not_starts] at hstarts
      cases hstarts

/-- A visit leaves a canonical document canonical, or adds the field to a single line that ends in a
carriage return. Then nothing more happens. -/
theorem canonical_visit (hvalue : ∀ b e value, r.value? b e = some value → '\n' ∉ value)
    {d : Document} {i : Nat} {v : Visit} (hi : i < d.lines.length)
    (hd : d.IsCanonical ∨ d.IsReturnPair r.field) (hv : visit s d.lines i = .ok v) :
    (d.withLines v.buffer d.finalNewline).IsCanonical ∨
      (d.withLines v.buffer d.finalNewline).IsReturnPair r.field := by
  rcases hd with hd | hd
  · rcases h.visit_cases hl hb hi hv with ⟨_, rfl⟩ | ⟨p, x, hx, _, _, rfl⟩
    · exact Or.inl hd
    · exact h.canonical_insert hvalue hd hx
  · obtain ⟨y, depth, value, hlines, _, _, _, hdepth⟩ := hd.lines
    have hquiet : visit s d.lines i = .ok ⟨d.lines, [], i + 1⟩ := by
      rw [hlines] at hi ⊢
      exact h.isSettled_pair hl hb hdepth i hi
    cases Except.ok.inj (hv.symm.trans hquiet)
    exact Or.inr hd

/-- The text that an injection leaves is read without a question left, if no field that it adds
holds a newline. -/
theorem isSettled_reread (hend : s.endsWithNewline = false)
    (hvalue : ∀ b e value, r.value? b e = some value → '\n' ∉ value)
    {d : Document} {outcome : Outcome} (hd : d.IsCanonical) (hpass : d.applyPass s = .ok outcome) :
    IsSettled s (parse outcome.document.render).lines := by
  have hrun := applyPassWithin_induction
    (motive := fun b => (d.withLines b d.finalNewline).IsCanonical ∨
      (d.withLines b d.finalNewline).IsReturnPair r.field)
    (fun {b _ _} hi hb' hv =>
      h.canonical_visit hl hb hvalue (d := d.withLines b d.finalNewline) hi hb' hv)
    (Or.inl hd) hpass
  have hdocument : d.withLines outcome.document.lines d.finalNewline = outcome.document := by
    obtain ⟨lines, edits, _, hdocument, _⟩ := of_applyPassWithin hpass
    rw [hdocument, newlineAfter_of_endsWithNewline hend]
    rfl
  rw [hdocument] at hrun
  rcases hrun with hcanonical | hpair
  · exact hcanonical.isSettled_reread hpass
  · obtain ⟨y, depth, value, hlines, hy, hreturn, hval, hdepth⟩ := hpair.lines
    have hx : '\n' ∉ Buffer.fieldLine depth r.field value := h.newline_not_mem_fieldLine hval
    have hterminated : outcome.document.terminated = [y] := by
      rw [terminated, hpair.finalNewline, hlines]
      rfl
    have hunterminated :
        outcome.document.unterminated = Buffer.fieldLine depth r.field value := by
      rw [unterminated, hpair.finalNewline, hlines]
      rfl
    have hall : allReturn [y] = true := by
      rw [allReturn_eq_true_iff, List.forall_mem_singleton]
      exact ⟨List.cons_ne_nil y [], hreturn⟩
    have hne : (Buffer.fieldLine depth r.field value).isEmpty = false := by
      simp [Buffer.fieldLine]
    have hshorter : Line.depth y.dropLast < depth :=
      Nat.lt_of_le_of_lt (Line.depth_le_of_isPrefix (List.dropLast_prefix y)) hdepth
    rw [render_eq, hterminated, hunterminated, hpair.ending, LineEnding.text,
      parse_endEach_append (by rwa [List.forall_mem_singleton]) hx, if_pos hall, ofParts, hne]
    exact h.isSettled_pair hl hb hshorter

end Injects

namespace RuleSets

open Pass Document

variable {b : Buffer} {d : Document} {outcome : Outcome}

/-- A document is settled if no line names the command module. -/
theorem isSettled_molecule_iff : IsSettled molecule b ↔ ∀ l ∈ b, namesCommand l = false := by
  constructor
  · intro hs l hl
    obtain ⟨i, hi, rfl⟩ := List.getElem_of_mem hl
    rw [← Buffer.line_eq_getElem b i hi]
    rcases visit_molecule_cases hi (hs i hi) with ⟨hnames, _⟩ | ⟨_, hbuffer⟩
    · exact hnames
    · have hlen := congrArg List.length hbuffer
      rw [List.length_eraseIdx_of_lt hi] at hlen
      dsimp only at hlen
      omega
  · intro hall i hi
    apply isQuiet_of_isSilent rfl
    rw [lineRules_molecule, List.forall_mem_singleton]
    intro a ha
    have hnames := (LineRule.deleting_rewrite_eq_some_iff.1 ha).1
    rw [Buffer.line_eq_getElem b i hi, hall _ (List.getElem_mem hi)] at hnames
    cases hnames

/-- No line of the written text names the command module, as no line of the document does. -/
theorem isSettled_reread_molecule (hd : d.IsCanonical)
    (hpass : d.applyPass molecule = .ok outcome) :
    IsSettled molecule (parse outcome.document.render).lines := by
  have hsublist : outcome.document.lines.Sublist d.lines := by
    refine applyPassWithin_induction (motive := fun b => b.Sublist d.lines)
      (fun {b i v} hi hb hv => ?_) (List.Sublist.refl _) hpass
    rcases visit_molecule_cases hi hv with ⟨_, hbuffer⟩ | ⟨_, hbuffer⟩
    · rwa [hbuffer]
    · rw [hbuffer]
      exact (List.eraseIdx_sublist b i).trans hb
  have hsettled := isSettled_molecule_iff.1 (isSettled_of_applyPass hpass)
  rw [isSettled_molecule_iff]
  intro l hl
  obtain ⟨l', hl', hprefix⟩ :=
    exists_isPrefix_of_mem_reread (fun l hl => hd.noNewline l (hsublist.mem hl)) hl
  have hnames := hsettled l' hl'
  rw [← Bool.not_eq_true, namesCommand, Text.contains_iff] at hnames ⊢
  exact fun hcontains => hnames (hcontains.trans hprefix.isInfix)

theorem newline_not_mem_of_stripTrailing? {l l' : Line} (h : stripTrailing? l = some l')
    (hl : '\n' ∉ l) : '\n' ∉ l' := by
  rw [stripTrailing?] at h
  split at h
  · cases h
  · obtain rfl := Option.some.inj h
    rw [← Text.dropEndWhile_append_takeEndWhile Text.isIndent l, List.mem_append, not_or] at hl
    exact hl.1

/-- A document is settled if no line ends in a blank. -/
theorem isSettled_formatting_iff : IsSettled formatting b ↔ ∀ l ∈ b, l.isStripped = true := by
  have hnone {l : Line} : stripTrailing? l = none ↔ l.isStripped = true := by
    rw [← Line.dropEndWhile_eq_self_iff, stripTrailing?]
    split
    · next h => exact iff_of_true rfl h
    · next h => exact iff_of_false (Option.some_ne_none _) h
  have hrules : formatting.lineRules =
    [LineRule.replacing "trailing-whitespace" [] stripTrailing?] := rfl
  constructor
  · intro hs l hl
    obtain ⟨i, hi, rfl⟩ := List.getElem_of_mem hl
    rw [← Buffer.line_eq_getElem b i hi, ← hnone]
    rcases replaces_formatting.exists_visit hi (hs i hi) with
      ⟨_, hrule⟩ | ⟨r, hr, l, hl, _, hbuffer⟩
    · have hrule' := hrule _ (by rw [hrules]; exact List.mem_singleton_self _)
      rwa [LineRule.replacing_rewrite_eq_none_iff] at hrule'
    · rw [List.mem_singleton] at hr
      subst hr
      have hline : b.line i = l := by
        conv_lhs => rw [show b = b.set i l from hbuffer]
        exact Buffer.line_set_self hi l
      rw [hline]
      exact stripTrailing?_of_eq_some hl
  · intro hall i hi
    apply isQuiet_of_isSilent rfl
    rw [hrules, List.forall_mem_singleton]
    apply LineRule.isSilent_replacing
    rw [Buffer.line_eq_getElem b i hi]
    exact Or.inl (hnone.2 (hall _ (List.getElem_mem hi)))

end RuleSets

namespace Document

open Pass RuleSets

variable {d : Document} {s : RuleSet} {outcome : Outcome} {options : RuleOptions}

/-- Every line ends in a carriage return, which a reader takes for a part of the line ending, and in
front of one of them stands a blank. -/
def HidesTrailing (d : Document) : Prop :=
  d.ending = .lf ∧ (∀ l ∈ d.lines, endsInReturn l = true) ∧
    ∃ l ∈ d.lines, ∃ front c, l = front ++ [c, '\r'] ∧ Text.isIndent c = true

/-- Without its carriage return a line is stripped unless a blank stands in front of the return. -/
theorem isStripped_dropLast_eq_false_iff {l : Line} (h : endsInReturn l = true) :
    Line.isStripped l.dropLast = false ↔
      ∃ front c, l = front ++ [c, '\r'] ∧ Text.isIndent c = true := by
  have hl := dropLast_append_return h
  generalize l.dropLast = front at hl ⊢
  subst hl
  have hcancel {start : Line} {c : Char} :
      front ++ ['\r'] = start ++ [c, '\r'] ↔ front = start ++ [c] := by
    rw [show start ++ [c, '\r'] = start ++ [c] ++ ['\r'] by simp]
    exact List.append_left_inj ['\r']
  simp only [hcancel, Line.isStripped]
  rcases List.eq_nil_or_concat front with rfl | ⟨start, c, rfl⟩
  · simp
  · simp

/-- Of lines that end in a carriage return one hides a blank if it is not stripped without it. -/
theorem hidesTrailing_iff (hlf : d.ending = .lf)
    (hreturns : ∀ l ∈ d.lines, endsInReturn l = true) :
    d.HidesTrailing ↔ ∃ l ∈ d.lines, Line.isStripped l.dropLast = false := by
  rw [HidesTrailing, and_iff_right hlf, and_iff_right hreturns]
  refine exists_congr fun l => and_congr_right fun hl => ?_
  exact (isStripped_dropLast_eq_false_iff (hreturns l hl)).symm

theorem HidesTrailing.allReturn (h : d.HidesTrailing) : allReturn d.lines = true := by
  obtain ⟨_, hreturns, l, hl, _⟩ := h
  exact allReturn_eq_true_iff.2 ⟨List.ne_nil_of_mem hl, hreturns⟩

/-- A pass of the formatting set leaves lines without newlines, each of them terminated. -/
theorem eq_ofParts_of_applyPass_formatting (hd : d.IsCanonical)
    (hpass : d.applyPass formatting = .ok outcome) :
    outcome.document = ofParts outcome.document.lines d.ending [] ∧
      outcome.document.lines.length = d.lines.length ∧
      ∀ l ∈ outcome.document.lines, '\n' ∉ l := by
  have hrun : outcome.document.lines.length = d.lines.length ∧
      ∀ l ∈ outcome.document.lines, '\n' ∉ l := by
    refine applyPassWithin_induction
      (motive := fun b => b.length = d.lines.length ∧ ∀ l ∈ b, '\n' ∉ l)
      (fun {b i v} hi hb hv => ?_) ⟨rfl, hd.noNewline⟩ hpass
    rcases replaces_formatting.exists_visit hi hv with ⟨hbuffer, _⟩ | ⟨r, hr, l, hl, _, hbuffer⟩
    · rwa [hbuffer]
    · rw [List.mem_singleton] at hr
      subst hr
      rw [hbuffer, List.length_set]
      refine ⟨hb.1, fun l' hl' => ?_⟩
      rcases List.mem_or_eq_of_mem_set hl' with hl' | rfl
      · exact hb.2 l' hl'
      · have hline := hb.2 (b.line i) (by
          rw [Buffer.line_eq_getElem b i hi]
          exact List.getElem_mem hi)
        exact newline_not_mem_of_stripTrailing? hl hline
  refine ⟨?_, hrun⟩
  obtain ⟨lines, edits, _, hdocument, _⟩ := of_applyPassWithin hpass
  have hlines : outcome.document.lines = lines := by rw [hdocument, withLines_lines]
  have hflag : d.newlineAfter formatting lines = !lines.isEmpty := by
    have hempty : lines = [] → d.finalNewline = false := by
      rintro rfl
      have hlen := hrun.1
      rw [hlines] at hlen
      exact (hd.empty (List.length_eq_zero_iff.1 hlen.symm)).2
    cases lines with
    | nil => simp [newlineAfter, hempty]
    | cons l rest => simp [newlineAfter, formatting]
  rw [hlines, hdocument, hflag]
  simp [ofParts, withLines]

/-- The formatting set leaves a document as a reader gives it back, unless that is an LF document
whose lines all end in a carriage return. -/
theorem isCanonical_of_applyPass_formatting (hd : d.IsCanonical)
    (hpass : d.applyPass formatting = .ok outcome)
    (hshow : d.ending = .lf → allReturn outcome.document.lines = false) :
    outcome.document.IsCanonical := by
  obtain ⟨hparts, hlen, hnewline⟩ := eq_ofParts_of_applyPass_formatting hd hpass
  rw [hparts]
  refine isCanonical_ofParts hnewline List.not_mem_nil (fun hcrlf hnil => ?_) fun hlf =>
    allReturn_eq_false_iff.1 (hshow hlf)
  rw [hnil] at hlen
  have hnone := List.length_eq_zero_iff.1 hlen.symm
  exact hd.crlf hcrlf (by rw [terminated, hnone]; exact ite_self [])

theorem newlineAfter_formatting_ofParts (front : Buffer) (ending : LineEnding) :
    (ofParts front ending []).newlineAfter formatting (ofParts front ending []).lines =
      (ofParts front ending []).finalNewline := by
  simp [newlineAfter, ofParts, formatting]

/-- The text that the formatting set leaves is read with its last newline in place, and with all
lines stripped unless the document hides a blank. -/
theorem isSettled_reread_formatting_iff (hd : d.IsCanonical)
    (hpass : d.applyPass formatting = .ok outcome) :
    (parse outcome.document.render).newlineAfter formatting (parse outcome.document.render).lines =
        (parse outcome.document.render).finalNewline ∧
      (IsSettled formatting (parse outcome.document.render).lines ↔
        ¬ outcome.document.HidesTrailing) := by
  obtain ⟨hparts, _, hnewline⟩ := eq_ofParts_of_applyPass_formatting hd hpass
  have hending : outcome.document.ending = d.ending := by
    rw [hparts]
    rfl
  by_cases hall : d.ending = .lf ∧ allReturn outcome.document.lines = true
  · obtain ⟨hlf, hall⟩ := hall
    have hreread : parse outcome.document.render =
        ofParts (outcome.document.lines.map List.dropLast) .crlf [] := by
      conv_lhs => rw [hparts, hlf]
      rw [render_ofParts, LineEnding.text, parse_endEach_append hnewline List.not_mem_nil,
        if_pos hall]
    rw [hreread, isSettled_formatting_iff,
      hidesTrailing_iff (hending.trans hlf) (allReturn_eq_true_iff.1 hall).2]
    exact ⟨newlineAfter_formatting_ofParts _ _, by simp [ofParts]⟩
  · have hcanonical := isCanonical_of_applyPass_formatting hd hpass fun hlf =>
      Bool.eq_false_iff.2 fun hreturn => hall ⟨hlf, hreturn⟩
    have hshows : ¬ outcome.document.HidesTrailing := fun hhides =>
      hall ⟨hending.symm.trans hhides.1, hhides.allReturn⟩
    rw [hcanonical.parse_render]
    refine ⟨?_, iff_of_true (isSettled_of_applyPass hpass) hshows⟩
    rw [hparts]
    exact newlineAfter_formatting_ofParts _ _

end Document

end TaskTidy
