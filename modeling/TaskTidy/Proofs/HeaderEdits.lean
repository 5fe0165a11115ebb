import TaskTidy.Proofs.Headers

/-!
# Headers under the rules

No header is a truthy value or a name to capitalize, and spacing commas touches at most the comment
of a header. So a line that opens a block scalar still does so after these rules, with its content
at the same column.
-/

namespace TaskTidy

/-- A text keeps its end if the last character is to stay. -/
theorem Text.dropEndWhile_eq_self_iff {p : Char → Bool} {s : List Char} :
    dropEndWhile p s = s ↔ ∀ c ∈ s.getLast?, p c = false := by
  rcases List.eq_nil_or_concat s with rfl | ⟨s, c, rfl⟩
  · simp [dropEndWhile]
  · rw [List.concat_eq_append, List.getLast?_concat]
    cases hc : p c with
    | false => simp [dropEndWhile_append_of_last hc, hc]
    | true =>
        refine iff_of_false (fun heq => ?_) (by simp [hc])
        rw [dropEndWhile_append_of_pos (by simpa using hc)] at heq
        have hlength := congrArg List.length (dropEndWhile_append_takeEndWhile p s)
        rw [heq, List.length_append, List.length_append, List.length_singleton] at hlength
        omega

namespace RuleSets

open Line Quoting

variable {l l' : Line} {s : List Char}

/-! ### Truthy values -/

/-- A word for yes or no ends with a letter. -/
private theorem exists_last_of_booleanOf? {word value : List Char}
    (h : booleanOf? word = some value) :
    ∃ start c, word = start ++ [c] ∧ '#' ∉ word ∧ Text.isBlank c = false ∧
      isHeaderMark c = false := by
  have hwords : (affirmatives ++ negatives).all (fun word => !word.contains '#' &&
      word.getLast?.any fun c => !Text.isBlank c && !isHeaderMark c) = true := by decide
  have hword := List.all_eq_true.1 hwords word (mem_of_booleanOf? h)
  rcases List.eq_nil_or_concat word with rfl | ⟨start, c, rfl⟩
  · cases hword
  · rw [List.concat_eq_append] at hword ⊢
    simp only [List.getLast?_concat, Option.any_some, Bool.and_eq_true, Bool.not_eq_true',
      List.contains_eq_mem, decide_eq_false_iff_not] at hword
    exact ⟨start, c, rfl, hword.1, hword.2.1, hword.2.2⟩

/-- A truthy value is no header: without a comment a header ends with a mark. -/
theorem opensScalar_of_normalizeTruthy? (h : normalizeTruthy? l = some l') :
    l.opensScalar = false := by
  obtain ⟨head, word, value, blanks, hl, _, hvalue, hblanks, _, hhash, _⟩ := of_normalizeTruthy? h
  obtain ⟨start, c, rfl, hhash', hc, hlast⟩ := exists_last_of_booleanOf? hvalue
  have hback : ∀ x ∈ blanks, Text.isBlank x = true :=
    fun x hx => Text.isBlank_of_isIndent (hblanks x hx)
  rw [← Bool.not_eq_true]
  intro hopens
  obtain ⟨key, gap, d, rest, hbody, _, _, hheader, _, _⟩ := exists_header_of_opensScalar hopens
  have hline : l = l.take l.column ++ (key ++ (gap ++ [':', d])) ++ rest := by
    rw [List.append_assoc, ← hbody, take_column_append_body]
  have hfree : '#' ∉ rest := by
    intro hmem
    have hmem' : '#' ∈ l := by
      rw [hline]
      exact List.mem_append_right _ hmem
    rw [hl, List.mem_append, List.mem_append] at hmem'
    rcases hmem' with (hmem' | hmem') | hmem'
    · exact hhash hmem'
    · exact hhash' hmem'
    · exact absurd (hblanks _ hmem') (by decide)
  obtain ⟨front, m, tail, rfl, hm, htail⟩ := exists_last_of_isScalarHeader hheader hfree
  have hword : (Text.dropEndWhile Text.isBlank l).getLast? = some c := by
    rw [hl, ← List.append_assoc head]
    exact Text.getLast?_dropEndWhile hc hback
  have hmark : (Text.dropEndWhile Text.isBlank l).getLast? = some m := by
    rw [hline, ← List.append_assoc, ← List.append_assoc (l.take l.column ++ _)]
    exact Text.getLast?_dropEndWhile (isBlank_of_isHeaderMark hm) htail
  rw [hword] at hmark
  cases hmark
  rw [hm] at hlast
  cases hlast

/-! ### Commas -/

theorem trimEnd_spaceFrom {state : Quoting} :
    Text.trimEnd (spaceFrom state s) = spaceFrom state (Text.trimEnd s) := by
  have hcut := Text.dropEndWhile_append_takeEndWhile Text.isBlank s
  have hback : ∀ c ∈ Text.takeEndWhile Text.isBlank s, Text.isBlank c = true :=
    fun c hc => Text.of_mem_takeEndWhile hc
  rw [← Text.trimEnd] at hcut
  have hcore : Text.trimEnd (spaceFrom state (Text.trimEnd s)) =
      spaceFrom state (Text.trimEnd s) := by
    rw [Text.trimEnd, Text.dropEndWhile_eq_self_iff, getLast?_spaceFrom,
      ← Text.dropEndWhile_eq_self_iff]
    exact Text.dropEndWhile_idem Text.isBlank s
  calc Text.trimEnd (spaceFrom state s)
      = Text.trimEnd (spaceFrom state (Text.trimEnd s) ++ Text.takeEndWhile Text.isBlank s) := by
        rw [← spaceFrom_append_blank hback, hcut]
    _ = Text.trimEnd (spaceFrom state (Text.trimEnd s)) := Text.dropEndWhile_append_of_pos hback
    _ = spaceFrom state (Text.trimEnd s) := hcore

theorem newline_not_mem_spaceCommas (hs : '\n' ∉ s) : '\n' ∉ spaceCommas none s := by
  rw [spaceCommas_eq_spaceFrom, mem_spaceFrom_iff (by decide)]
  exact hs

/-- Up to the end of its key and of a text without commas behind it, a line has its commas in
quotes. -/
private theorem quotesCommas_take_column_append {body key more t : List Char}
    (hkey : splitKey? body = some (key, more)) (ht : ',' ∉ t) :
    QuotesCommas .outside (l.take l.column ++ (key ++ t)) := by
  have hindent : ∀ x ∈ l.take l.column, isMark x = false ∧ x ≠ ',' := by
    intro x hx
    rcases of_mem_take_column hx with hx | rfl
    · rcases Text.isIndent_iff.1 hx with rfl | rfl <;> decide
    · decide
  refine (quotesCommas_of_not_mem fun hmem => (hindent _ hmem).2 rfl).append ?_
  rw [after_eq_outside fun x hx => (hindent x hx).1]
  exact (quotesCommas_of_splitKey? hkey).append (quotesCommas_of_not_mem ht)

/-- A header is a lead and blanks or a comment. The commas of the lead stand in quotes, and behind
it any comment may stand. -/
theorem exists_lead_of_opensScalar (hopens : l.opensScalar = true) :
    ∃ lead tail, l = lead ++ tail ∧ QuotesCommas .outside lead ∧
      ((∀ c ∈ tail, Text.isBlank c = true) ∨
        ∃ text, tail = '#' :: text ∧ '\n' ∉ Text.trimEnd text) ∧
      ∀ text, '\n' ∉ Text.trimEnd text →
        Line.opensScalar (lead ++ '#' :: text) = true ∧
          Line.column (lead ++ '#' :: text) = l.column := by
  obtain ⟨key, blanks, c, rest, hbody, hblanks, hc, hheader, ⟨more, hkey⟩, hfree⟩ :=
    exists_header_of_opensScalar hopens
  obtain ⟨front, mark, marks, gap, tail, rfl, hfront, hmark, hmarks, hgap, htail⟩ :=
    exists_of_isScalarHeader hheader
  refine ⟨l.take l.column ++ (key ++ (blanks ++ [':', c] ++ (front ++ mark :: (marks ++ gap)))),
    tail, ?_, ?_, ?_, fun text htext => ?_⟩
  · have hcut := take_column_append_body l
    rw [hbody] at hcut
    exact hcut.symm.trans (by simp)
  · refine quotesCommas_take_column_append hkey fun hmem => ?_
    simp only [List.mem_append, List.mem_cons, List.not_mem_nil, or_false] at hmem
    rcases hmem with (hmem | hmem | rfl) | hmem | rfl | hmem | hmem
    · exact absurd (hblanks _ hmem) (by decide)
    · exact absurd hmem (by decide)
    · exact absurd hc (by decide)
    · exact absurd (hfront _ hmem) (by decide)
    · simp at hmark
    · exact absurd (hmarks _ hmem) (by decide)
    · exact absurd (hgap _ hmem) (by decide)
  · refine htail.imp id ?_
    rintro ⟨text, back, rfl, htext, hback⟩
    refine ⟨text ++ back, rfl, ?_⟩
    rw [Text.trimEnd, Text.dropEndWhile_append_of_pos hback]
    intro hmem
    apply htext
    rw [← Text.dropEndWhile_append_takeEndWhile Text.isBlank text]
    exact List.mem_append_left _ hmem
  · have hentry := hfree (front ++ mark :: (marks ++ gap) ++ '#' :: text)
    have hagain := isScalarHeader_comment hfront hmark hmarks hgap htext
    have hstarts := startsBody_of_entryOf? hentry
    have hline :
        l.take l.column ++ (key ++ (blanks ++ [':', c] ++ (front ++ mark :: (marks ++ gap)))) ++
          '#' :: text = l.take l.column ++ (key ++ (blanks ++ [':', c]) ++
            (front ++ mark :: (marks ++ gap) ++ '#' :: text)) := by
      simp
    rw [hline]
    refine ⟨opensScalar_iff.2 ⟨⟨key, _⟩, ?_, hagain⟩, column_take_column_append hstarts⟩
    rw [body_take_column_append hstarts, hentry]

/-- The commas of a header stand in its comment, so the line stays a header. -/
theorem opensScalar_spaceCommas (hopens : l.opensScalar = true) :
    Line.opensScalar (spaceCommas none l) = true ∧
      Line.column (spaceCommas none l) = l.column := by
  obtain ⟨lead, tail, hl, hlead, htail, hfree⟩ := exists_lead_of_opensScalar hopens
  have hspaced : spaceCommas none l = lead ++ spaceFrom (behind anywhere lead) tail := by
    rw [spaceCommas_eq_spaceFrom, hl]
    exact spaceFrom_append hlead
  rcases htail with hblank | ⟨text, rfl, htext⟩
  · rw [hspaced, spaceFrom_blank hblank, ← hl]
    exact ⟨hopens, rfl⟩
  · rw [hspaced, spaceFrom_of_ne (.inr (by decide))]
    apply hfree
    rwa [trimEnd_spaceFrom, mem_spaceFrom_iff (by decide)]

/-- The space behind a comma makes no header: it stands in the comment of one. -/
theorem opensScalar_of_spaceCommas (hopens : Line.opensScalar (spaceCommas none l) = true) :
    l.opensScalar = true := by
  have hself := spaceCommas_eq_spaceFrom none l
  rcases spaceFrom_cases (ofQuote? none) l with heq | ⟨t, u, u', hl, hstate, heq⟩
  · rwa [hself, heq] at hopens
  · obtain ⟨lead, tail, hspaced, hlead, htail, hfree⟩ := exists_lead_of_opensScalar hopens
    rw [hself] at hspaced
    rcases List.append_eq_append_iff.1 (heq.symm.trans hspaced) with
      ⟨v, rfl, hv⟩ | ⟨v, rfl, rfl⟩
    · cases v with
      | nil =>
          rw [List.nil_append] at hv
          subst hv
          rcases htail with hblank | ⟨text, htail, _⟩
          · exact absurd (hblank ',' List.mem_cons_self) (by decide)
          · cases htail
      | cons x v =>
          obtain ⟨rfl, _⟩ := List.cons.inj hv
          exact absurd hstate (hlead t v rfl)
    · rcases htail with hblank | ⟨text, htail, htext⟩
      · exact absurd (hblank ',' (by simp)) (by decide)
      · cases v with
        | nil => cases htail
        | cons x v =>
            obtain ⟨rfl, hv⟩ := List.cons.inj htail
            have hcomment : spaceFrom (ofQuote? none) l = lead ++ '#' ::
                spaceFrom ((behind anywhere lead).step true '#') (v ++ ',' :: u) := by
              rw [hl, List.append_assoc, ← spaceFrom_of_ne (.inr (by decide))]
              exact spaceFrom_append hlead
            rw [heq, List.append_assoc] at hcomment
            have htext' := hv.symm.trans (List.cons.inj (List.append_cancel_left hcomment)).2
            rw [htext', trimEnd_spaceFrom, mem_spaceFrom_iff (by decide)] at htext
            rw [hl, List.append_assoc]
            exact (hfree (v ++ ',' :: u) htext).1

/-! ### Names -/

theorem isLowercase_of_isBlank {c : Char} (h : Text.isBlank c = true) :
    Text.isLowercase c = false :=
  Text.eq_false_of_isBlank (by decide +kernel) h

/-- The first character of a header behind its blanks is no lowercase letter. -/
private theorem not_isLowercase_of_dropQuote {front rest more : List Char} {mark c : Char}
    (hfront : ∀ x ∈ front, Text.isBlank x = true) (hmark : mark = '|' ∨ mark = '>')
    (h : dropQuote ((front ++ mark :: rest).dropWhile Text.isIndent) = c :: more) :
    Text.isLowercase c = false := by
  induction front with
  | nil =>
      rcases hmark with rfl | rfl
      · cases h
        decide
      · cases h
        decide
  | cons x front ih =>
      obtain ⟨hx, hfront⟩ := List.forall_mem_cons.1 hfront
      by_cases hindent : Text.isIndent x = true
      · rw [List.cons_append, List.dropWhile_cons_of_pos hindent] at h
        exact ih hfront h
      · have hquote : ¬ (x = '"' ∨ x = '\'') := by
          rintro (rfl | rfl) <;> cases hx
        rw [List.cons_append, List.dropWhile_cons_of_neg hindent, dropQuote, if_neg hquote] at h
        cases h
        exact isLowercase_of_isBlank hx

/-- A header holds no name to capitalize: its value starts with a mark. -/
theorem opensScalar_of_capitalizeName? (h : capitalizeName? l = some l') :
    l.opensScalar = false := by
  unfold capitalizeName? at h
  split at h
  · cases h
  next rest hrest =>
    split at h
    · cases h
    next c more hname =>
      split at h
      · next hc =>
          rw [Text.strip?_eq_some_iff] at hrest
          rw [Bool.and_eq_true] at hc
          rw [← Bool.not_eq_true]
          intro hopens
          obtain ⟨entry, hentry, hheader⟩ := opensScalar_iff.1 hopens
          cases rest with
          | nil => cases hname
          | cons d rest =>
              have hd : Text.isIndent d = true := hc.1
              have hown : entryOf? l.body = some ⟨"name".toList, rest⟩ := by
                rw [hrest]
                have hkey : splitKey? ("name".toList ++ [':']) = some ("name".toList, [':']) := rfl
                exact entryOf?_append hkey hd rest
              rw [hown] at hentry
              cases hentry
              obtain ⟨front, mark, marks, gap, tail, rfl, hfront, hmark, _⟩ :=
                exists_of_isScalarHeader hheader
              rw [List.dropWhile_cons_of_pos hd, List.append_assoc, List.cons_append] at hname
              have hlower := not_isLowercase_of_dropQuote hfront hmark hname
              rw [hc.2] at hlower
              cases hlower
      · cases h

/-! ### Rewrites that keep headers -/

/-- A rewrite that has nothing to say about blank lines and leaves a header in place of a header. -/
structure KeepsHeaders (f : Line → Option Line) : Prop where
  text : ∀ {l l' : Line}, f l = some l' → Text.allBlank l = false
  header : ∀ {l l' : Line}, f l = some l' → l.opensScalar = true →
    l'.opensScalar = true ∧ l'.column = l.column

theorem keepsHeaders_truthy : KeepsHeaders normalizeTruthy? where
  text h := by
    obtain ⟨head, word, value, blanks, rfl, _, _, _, hcolon, _⟩ := of_normalizeTruthy? h
    exact allBlank_eq_false (c := ':') (by simp [hcolon]) (by decide)
  header h hopens := by
    rw [opensScalar_of_normalizeTruthy? h] at hopens
    cases hopens

theorem keepsHeaders_commaSpacing : KeepsHeaders spaceLine? where
  text h := by
    obtain ⟨_, head, t, t', hcomma, rfl, _⟩ := of_spaceLine? h
    exact allBlank_eq_false (c := ',') (by simp [hcomma]) (by decide)
  header h hopens := by
    rw [(of_spaceLine? h).1]
    exact opensScalar_spaceCommas hopens

theorem keepsHeaders_nameCasing : KeepsHeaders capitalizeName? where
  text h := by
    obtain ⟨lead, c, more, hl, _⟩ := of_capitalizeName? h
    rw [hl]
    exact allBlank_eq_false (c := ':') (by simp) (by decide)
  header h hopens := by
    rw [opensScalar_of_capitalizeName? h] at hopens
    cases hopens

end RuleSets

end TaskTidy
