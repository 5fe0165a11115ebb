import TaskTidy.Proofs.Entries
import TaskTidy.Rule.Reflow
import TaskTidy.RuleSets.CommaSpacing

/-!
# Scans for quotes

Two functions read the quotes of a line. The search for a comment lets a quote open only at the
start of a token; the spacing of commas lets it open at every quote mark, also within a word.
Otherwise they take the same steps, so they agree down to the first quote mark within a word.
-/

namespace TaskTidy

/-- Where a scan for quotes stands: outside quotes, behind the quote mark that opened one, or in
double quotes behind a backslash. -/
inductive Quoting
  | outside
  | inside (mark : Char)
  | escaped
  deriving DecidableEq

namespace Quoting

variable {opens : Char → Bool} {state : Quoting} {before c : Char} {s t : List Char}

/-- The characters that open and close quotes. -/
def isMark (c : Char) : Bool :=
  c == '"' || c == '\''

/-- The state behind one more character, given whether a quote may open there. -/
def step (opens : Bool) : Quoting → Char → Quoting
  | outside, c => if isMark c && opens then inside c else outside
  | inside mark, c =>
      if mark = '"' ∧ c = '\\' then escaped else if c = mark then outside else inside mark
  | escaped, _ => inside '"'

/-- The state behind a text. Whether a quote may open depends on the character before the mark. -/
def after (opens : Char → Bool) : Quoting → Char → List Char → Quoting
  | state, _, [] => state
  | state, before, c :: rest => after opens (state.step (opens before) c) c rest

/-- The reading that opens a quote at every mark. -/
def anywhere : Char → Bool := fun _ => true

/-- The reading that opens a quote at the start of a token. -/
def atToken (before : Char) : Bool :=
  Text.isBlank before || ['[', '{', ',', ':'].contains before

/-- The state behind the beginning of a line. -/
def behind (opens : Char → Bool) (s : List Char) : Quoting :=
  after opens outside ' ' s

/-- The state of a scan that remembers the open quote only. -/
def ofQuote? : Option Char → Quoting
  | none => outside
  | some mark => inside mark

theorem after_append :
    after opens state before (s ++ t) =
      after opens (after opens state before s) (s.getLast?.getD before) t := by
  induction s generalizing state before with
  | nil => rfl
  | cons c s ih => rw [List.cons_append, after, ih, after, List.getLast?_cons, Option.getD_some]

theorem behind_concat :
    behind opens (s ++ [c]) = (behind opens s).step (opens (s.getLast?.getD ' ')) c :=
  after_append

/-- A reading that opens quotes anywhere does not look at the character before. -/
theorem after_anywhere (before before' : Char) :
    after anywhere state before s = after anywhere state before' s := by
  cases s <;> rfl

theorem after_anywhere_cons :
    after anywhere state before (c :: s) = after anywhere (state.step true c) ' ' s :=
  after_anywhere c ' '

/-! ### Commas outside quotes -/

/-- Space the commas outside quotes of a text, given the state in front of it. -/
def spaceFrom : Quoting → List Char → List Char
  | _, [] => []
  | state, c :: rest =>
      if state = outside ∧ c = ',' ∧ RuleSets.startsSolid rest then
        c :: ' ' :: spaceFrom (state.step true c) rest
      else c :: spaceFrom (state.step true c) rest

theorem spaceFrom_of_ne (h : state ≠ outside ∨ c ≠ ',') :
    spaceFrom state (c :: s) = c :: spaceFrom (state.step true c) s := by
  rw [spaceFrom, if_neg]
  rintro ⟨hstate, hc, _⟩
  rcases h with h | h
  · exact h hstate
  · exact h hc

/-- A comma outside quotes is spaced in front of a character that is not blank. -/
theorem spaceFrom_comma (h : RuleSets.startsSolid s = true) :
    spaceFrom outside (',' :: s) = ',' :: ' ' :: spaceFrom outside s := by
  rw [spaceFrom, if_pos ⟨rfl, rfl, h⟩]
  rfl

theorem spaceCommas_eq_spaceFrom (quote? : Option Char) (s : List Char) :
    RuleSets.spaceCommas quote? s = spaceFrom (ofQuote? quote?) s := by
  fun_induction RuleSets.spaceCommas quote? s with
  | case1 quote => rfl
  | case2 quote c h =>
      obtain ⟨rfl, rfl⟩ := h
      rfl
  | case3 quote c h escaped more ih =>
      obtain ⟨rfl, rfl⟩ := h
      rw [ofQuote?, spaceFrom_of_ne (.inl (by simp)), step, if_pos ⟨rfl, rfl⟩,
        spaceFrom_of_ne (.inl (by simp)), ih]
      rfl
  | case4 quote c rest h ih =>
      rw [ofQuote?, spaceFrom_of_ne (.inl (by simp)), step, if_neg h, ih]
      split <;> rfl
  | case5 c rest h ih =>
      have hcomma : c ≠ ',' := by
        rintro rfl
        simp at h
      have hmark : isMark c = true := by simpa [isMark] using h
      rw [ofQuote?, spaceFrom_of_ne (.inr hcomma), step, hmark, ih]
      rfl
  | case6 c rest hquote h ih =>
      obtain ⟨rfl, hsolid⟩ := h
      rw [ofQuote?, spaceFrom, if_pos ⟨rfl, rfl, hsolid⟩, ih]
      rfl
  | case7 c rest hquote h ih =>
      have hmark : isMark c = false := by simpa [isMark] using hquote
      rw [ofQuote?, spaceFrom, if_neg (fun hall => h hall.2), step, hmark, ih]
      rfl

theorem startsSolid_spaceFrom :
    RuleSets.startsSolid (spaceFrom state s) = RuleSets.startsSolid s := by
  cases s with
  | nil => rfl
  | cons c s =>
      rw [spaceFrom]
      split <;> rfl

theorem spaceFrom_spaceFrom : spaceFrom state (spaceFrom state s) = spaceFrom state s := by
  induction s generalizing state with
  | nil => rfl
  | cons c s ih =>
      by_cases h : state = outside ∧ c = ',' ∧ RuleSets.startsSolid s = true
      · obtain ⟨rfl, rfl, hsolid⟩ := h
        rw [spaceFrom, if_pos ⟨rfl, rfl, hsolid⟩, spaceFrom,
          if_neg (fun hall => Bool.false_ne_true hall.2.2), spaceFrom_of_ne (.inr (by decide))]
        exact congrArg (',' :: ' ' :: ·) ih
      · rw [spaceFrom, if_neg h, spaceFrom, startsSolid_spaceFrom, if_neg h, ih]

theorem sublist_spaceFrom : s.Sublist (spaceFrom state s) := by
  induction s generalizing state with
  | nil => exact List.Sublist.refl _
  | cons c s ih =>
      rw [spaceFrom]
      split
      · exact (ih.cons ' ').cons_cons c
      · exact ih.cons_cons c

/-- Whether the comma at an index of a line stands outside quotes, with text behind it. -/
def isSeparator (l : Line) (n : Nat) : Bool :=
  behind anywhere (l.take n) == outside && l[n]? == some ',' &&
    RuleSets.startsSolid (l.drop (n + 1))

theorem isSeparator_append_cons :
    isSeparator (s ++ c :: t) s.length =
      (behind anywhere s == outside && c == ',' && RuleSets.startsSolid t) := by
  simp [isSeparator]

/-- A line is spaced behind its separators, and nowhere else. -/
theorem spaceCommas_eq_flatMap (l : Line) :
    RuleSets.spaceCommas none l =
      l.zipIdx.flatMap fun x => if isSeparator l x.2 then [x.1, ' '] else [x.1] := by
  have from_prefix (s t : List Char) : spaceFrom (behind anywhere s) t =
      (t.zipIdx s.length).flatMap fun x =>
        if isSeparator (s ++ t) x.2 then [x.1, ' '] else [x.1] := by
    induction t generalizing s with
    | nil => rfl
    | cons c t ih =>
        have hnext := ih (s ++ [c])
        rw [behind_concat, List.length_append, List.length_singleton, List.append_assoc,
          List.singleton_append] at hnext
        rw [List.zipIdx_cons, List.flatMap_cons, ← hnext, isSeparator_append_cons, spaceFrom]
        simp only [Bool.and_eq_true, beq_iff_eq, and_assoc]
        split <;> rfl
  rw [spaceCommas_eq_spaceFrom]
  exact from_prefix [] l

/-- A text without a comma to be spaced stays as it is. -/
theorem spaceFrom_eq_self_iff :
    spaceFrom state s = s ↔
      ∀ t u, s = t ++ ',' :: u → after anywhere state ' ' t = outside →
        RuleSets.startsSolid u = false := by
  induction s generalizing state with
  | nil => simp [spaceFrom]
  | cons c s ih =>
      by_cases h : state = outside ∧ c = ',' ∧ RuleSets.startsSolid s = true
      · obtain ⟨rfl, rfl, hsolid⟩ := h
        refine iff_of_false (fun heq => ?_) fun hall => ?_
        · rw [spaceFrom, if_pos ⟨rfl, rfl, hsolid⟩, List.cons_inj_right] at heq
          rw [← heq] at hsolid
          cases hsolid
        · rw [hall [] s rfl rfl] at hsolid
          cases hsolid
      · rw [spaceFrom, if_neg h, List.cons_inj_right, ih]
        constructor
        · rintro hall t u htu hstate
          cases t with
          | nil =>
              obtain ⟨rfl, rfl⟩ := List.cons.inj htu
              rw [← Bool.not_eq_true]
              exact fun hsolid => h ⟨hstate, rfl, hsolid⟩
          | cons x t =>
              obtain ⟨rfl, rfl⟩ := List.cons.inj htu
              rw [after_anywhere_cons] at hstate
              exact hall t u rfl hstate
        · rintro hall t u rfl hstate
          exact hall (c :: t) u rfl (by rwa [after_anywhere_cons])

/-- A line is changed by spacing if it has a separator. -/
theorem spaceCommas_ne_self_iff {l : Line} :
    RuleSets.spaceCommas none l ≠ l ↔ ∃ n, isSeparator l n = true := by
  rw [spaceCommas_eq_spaceFrom, ne_eq, spaceFrom_eq_self_iff]
  constructor
  · intro h
    by_contra hnone
    refine h fun t u htu hstate => ?_
    rw [← Bool.not_eq_true]
    intro hsolid
    refine hnone ⟨t.length, ?_⟩
    have hbehind : behind anywhere t = outside := hstate
    rw [htu, isSeparator_append_cons, hbehind, hsolid]
    rfl
  · rintro ⟨n, hn⟩ hall
    simp only [isSeparator, Bool.and_eq_true, beq_iff_eq] at hn
    obtain ⟨⟨hstate, hcomma⟩, hsolid⟩ := hn
    have hcut : l = l.take n ++ ',' :: l.drop (n + 1) := by
      obtain ⟨hlt, hget⟩ := List.getElem?_eq_some_iff.1 hcomma
      rw [← hget, ← List.drop_eq_getElem_cons hlt, List.take_append_drop]
    rw [hall _ _ hcut hstate] at hsolid
    cases hsolid

/-- The first difference of a spaced text is a space behind a comma outside quotes. -/
theorem spaceFrom_cases (state : Quoting) (s : List Char) :
    spaceFrom state s = s ∨
      ∃ t u u', s = t ++ ',' :: u ∧ after anywhere state ' ' t = outside ∧
        spaceFrom state s = t ++ ',' :: u' := by
  induction s generalizing state with
  | nil => exact .inl rfl
  | cons c s ih =>
      rw [spaceFrom]
      split
      · next h =>
          obtain ⟨rfl, rfl, _⟩ := h
          exact .inr ⟨[], s, _, rfl, rfl, rfl⟩
      · rcases ih (state.step true c) with heq | ⟨t, u, u', rfl, hstate, heq⟩
        · exact .inl (by rw [heq])
        · exact .inr ⟨c :: t, u, u', rfl, by rwa [after_anywhere_cons], by rw [heq]; rfl⟩

/-! ### Text in which every comma is quoted -/

/-- Every comma of the text stands in quotes. -/
def QuotesCommas (state : Quoting) (s : List Char) : Prop :=
  ∀ t u, s = t ++ ',' :: u → after anywhere state ' ' t ≠ outside

theorem quotesCommas_of_not_mem (h : ',' ∉ s) : QuotesCommas state s := by
  rintro t u rfl
  exact absurd (by simp) h

theorem QuotesCommas.append (hs : QuotesCommas state s)
    (ht : QuotesCommas (after anywhere state ' ' s) t) : QuotesCommas state (s ++ t) := by
  intro u v h
  rw [List.append_eq_append_iff] at h
  rcases h with ⟨w, rfl, hw⟩ | ⟨w, hs', hv⟩
  · rw [after_append, after_anywhere _ ' ']
    exact ht w v hw
  · cases w with
    | nil =>
        rw [List.append_nil] at hs'
        subst hs'
        exact ht [] v hv.symm
    | cons x w =>
        obtain ⟨rfl, _⟩ := List.cons.inj hv
        exact hs u w hs'

/-- Text in which every comma is quoted stays. -/
theorem spaceFrom_append (hs : QuotesCommas state s) :
    spaceFrom state (s ++ t) = s ++ spaceFrom (after anywhere state ' ' s) t := by
  induction s generalizing state with
  | nil => rfl
  | cons c s ih =>
      have hc : state ≠ outside ∨ c ≠ ',' := by
        by_cases hc : c = ','
        · subst hc
          exact .inl (hs [] s rfl)
        · exact .inr hc
      have hrest : QuotesCommas (state.step true c) s := by
        rintro t u rfl
        have := hs (c :: t) u rfl
        rwa [after_anywhere_cons] at this
      rw [List.cons_append, spaceFrom_of_ne hc, ih hrest, after_anywhere_cons]
      rfl

theorem after_eq_outside (hs : ∀ c ∈ s, isMark c = false) :
    after opens outside before s = outside := by
  induction s generalizing before with
  | nil => rfl
  | cons c s ih =>
      obtain ⟨hc, hs⟩ := List.forall_mem_cons.1 hs
      rw [after, step, hc]
      exact ih hs

/-- A quote is not left before its mark comes again. -/
theorem after_ne_outside {mark : Char} (hs : mark ∉ s)
    (hstate : state = inside mark ∨ state = escaped ∧ mark = '"') :
    after opens state before s ≠ outside := by
  induction s generalizing state before with
  | nil =>
      rcases hstate with rfl | ⟨rfl, _⟩
      · exact nofun
      · exact nofun
  | cons c s ih =>
      rw [List.mem_cons, not_or] at hs
      rw [after]
      apply ih hs.2
      rcases hstate with rfl | ⟨rfl, rfl⟩
      · by_cases hescape : mark = '"' ∧ c = '\\'
        · exact .inr ⟨by rw [step, if_pos hescape], hescape.1⟩
        · exact .inl (by rw [step, if_neg hescape, if_neg (Ne.symm hs.1)])
      · exact .inl rfl

/-- A text in quotes has its commas in quotes. -/
theorem quotesCommas_quoted {mark : Char} (hmark : mark = '"' ∨ mark = '\'') (hs : mark ∉ s) :
    QuotesCommas outside (mark :: s ++ [mark]) := by
  intro t u htu
  cases t with
  | nil =>
      obtain ⟨rfl, _⟩ := List.cons.inj htu
      simp at hmark
  | cons x t =>
      obtain ⟨rfl, hinner⟩ : mark = x ∧ s ++ [mark] = t ++ ',' :: u := List.cons.inj htu
      have hopen : step true outside mark = inside mark := by
        rcases hmark with rfl | rfl <;> rfl
      rw [after_anywhere_cons, hopen]
      refine after_ne_outside (fun hmem => hs ?_) (.inl rfl)
      rcases List.append_eq_append_iff.1 hinner with ⟨w, _, hw⟩ | ⟨w, hw, _⟩
      · have hcomma : ',' ∈ [mark] := by simp [hw]
        obtain rfl := List.mem_singleton.1 hcomma
        simp at hmark
      · rw [hw]
        exact List.mem_append_left w hmem

/-- The commas of a key stand between its quote marks. -/
theorem quotesCommas_of_splitKey? {key more : List Char} (h : Line.splitKey? s = some (key, more)) :
    QuotesCommas outside key := by
  rcases Line.splitKey?_cases h with ⟨mark, inside, hmark, hinside, rfl⟩ |
    ⟨c, rest, hstart, hrest, rfl, _⟩
  · exact quotesCommas_quoted hmark hinside
  · apply quotesCommas_of_not_mem
    intro hmem
    rcases List.mem_cons.1 hmem with rfl | hmem
    · cases hstart
    · exact absurd (hrest _ hmem) (by decide)

/-! ### The end of a spaced text -/

theorem spaceFrom_blank (ht : ∀ c ∈ t, Text.isBlank c = true) : spaceFrom state t = t := by
  have hcomma : ',' ∉ t := fun hmem => absurd (ht _ hmem) (by decide)
  have hquoted : QuotesCommas state t := quotesCommas_of_not_mem hcomma
  have happ := spaceFrom_append (t := []) hquoted
  rwa [List.append_nil, spaceFrom, List.append_nil] at happ

/-- Blanks at the end stay, and a comma in front of them is not spaced. -/
theorem spaceFrom_append_blank (ht : ∀ c ∈ t, Text.isBlank c = true) :
    spaceFrom state (s ++ t) = spaceFrom state s ++ t := by
  induction s generalizing state with
  | nil => exact spaceFrom_blank ht
  | cons c s ih =>
      have hsolid : RuleSets.startsSolid (s ++ t) = RuleSets.startsSolid s := by
        cases s with
        | nil =>
            cases t with
            | nil => rfl
            | cons x t => simp [RuleSets.startsSolid, ht x List.mem_cons_self]
        | cons x s => rfl
      rw [List.cons_append, spaceFrom, hsolid, ih, spaceFrom]
      split <;> rfl

theorem mem_spaceFrom_iff (hc : c ≠ ' ') : c ∈ spaceFrom state s ↔ c ∈ s := by
  induction s generalizing state with
  | nil => rfl
  | cons x s ih =>
      rw [spaceFrom]
      split <;> simp [ih, hc]

theorem getLast?_spaceFrom : (spaceFrom state s).getLast? = s.getLast? := by
  induction s generalizing state with
  | nil => rfl
  | cons c s ih =>
      rw [spaceFrom]
      split
      · next h =>
          cases s with
          | nil => cases h.2.2
          | cons x s => simp only [List.getLast?_cons, ih, Option.getD_some]
      · simp only [List.getLast?_cons, ih]

/-! ### Quotes in words -/

theorem after_inside {mark : Char} (before before' : Char) :
    after opens (inside mark) before s = after opens (inside mark) before' s := by
  cases s <;> rfl

theorem commentAfter_quoted {mark : Char} (h : ¬(mark = '"' ∧ c = '\\')) :
    Reflow.commentAfter (some mark) before (c :: s) =
      Reflow.commentAfter (if c = mark then none else some mark) c s := by
  cases s <;> simp [Reflow.commentAfter, h]

/-- The search for comments reads quotes at the start of tokens: a comment that is written behind a
text is found if there is one already, or if no quote is open. -/
theorem commentAfter_append_hash {quote? : Option Char}
    (hquote : ∀ mark ∈ quote?, isMark mark = true) :
    Reflow.commentAfter quote? before (s ++ [' ', '#']) =
      (Reflow.commentAfter quote? before s ||
        after atToken (ofQuote? quote?) before s == outside) := by
  fun_induction Reflow.commentAfter quote? before s with
  | case1 quote? before =>
      cases quote? with
      | none => rfl
      | some mark =>
          have hmark := hquote mark rfl
          simp only [isMark, Bool.or_eq_true, beq_iff_eq] at hmark
          rcases hmark with rfl | rfl <;> rfl
  | case2 quote before c h =>
      obtain ⟨rfl, rfl⟩ := h
      rfl
  | case3 quote before c h escaped more ih =>
      obtain ⟨rfl, rfl⟩ := h
      rw [List.cons_append, List.cons_append, Reflow.commentAfter, if_pos ⟨rfl, rfl⟩]
      exact (ih hquote).trans (by rw [ofQuote?, after_inside '\\' escaped]; rfl)
  | case4 quote before c rest h ih =>
      have hnext : ∀ mark ∈ if c = quote then none else some quote, isMark mark = true := by
        split
        · exact nofun
        · exact hquote
      rw [List.cons_append, commentAfter_quoted h, ih hnext, ofQuote?, after, step, if_neg h]
      split <;> rfl
  | case5 before c rest h ih =>
      have hmark : isMark c = true := by simpa [isMark] using h.1
      have htoken : atToken before = true := by simpa [atToken] using h.2
      rw [List.cons_append, Reflow.commentAfter, if_pos h, ofQuote?, after, step, hmark, htoken]
      exact ih (by simpa using hmark)
  | case6 before c rest hmark h =>
      rw [List.cons_append, Reflow.commentAfter, if_neg hmark, if_pos h, Bool.true_or]
  | case7 before c rest hmark h ih =>
      have hstay : (isMark c && atToken before) = false := by
        simpa [isMark, atToken] using hmark
      rw [List.cons_append, Reflow.commentAfter, if_neg hmark, if_neg h, ih nofun, ofQuote?, after,
        step, hstay]
      rfl

/-- Whether the character at an index of a line is a quote mark within a word that opens a quote if
quotes may open anywhere. -/
def opensInWord (l : Line) (n : Nat) : Bool :=
  l[n]?.any isMark && behind anywhere (l.take n) == outside &&
    !atToken ((l.take n).getLast?.getD ' ')

/-- The two readings agree down to the first quote mark that opens a quote within a word. -/
theorem behind_atToken_eq {l : Line} {n : Nat} (h : ∀ m < n, opensInWord l m = false) :
    behind atToken (l.take n) = behind anywhere (l.take n) := by
  induction n with
  | zero => rfl
  | succ n ih =>
      have hsame := ih fun m hm => h m (Nat.lt_succ_of_lt hm)
      have hn := h n (Nat.lt_succ_self n)
      rw [List.take_add_one]
      cases hc : l[n]? with
      | none => rwa [Option.toList_none, List.append_nil]
      | some c =>
          rw [Option.toList_some, behind_concat, behind_concat, hsame]
          cases hstate : behind anywhere (l.take n) with
          | outside =>
              have hopens : (isMark c && atToken ((l.take n).getLast?.getD ' ')) = isMark c := by
                rw [opensInWord, hc, hstate] at hn
                cases hmark : isMark c <;> simp_all
              rw [step, step, hopens, anywhere, Bool.and_true]
          | inside mark => rfl
          | escaped => rfl

/-- A separator that the search for comments takes to be quoted stands behind a quote mark that
opens a quote within a word. -/
theorem exists_opensInWord {l : Line} {n : Nat} (hsep : isSeparator l n = true)
    (hquoted : Reflow.hasComment (l.take n ++ [' ', '#']) = false) :
    ∃ m < n, opensInWord l m = true := by
  by_contra hnone
  have hagree := behind_atToken_eq (l := l) (n := n) fun m hm => by
    rw [← Bool.not_eq_true]
    exact fun hopens => hnone ⟨m, hm, hopens⟩
  simp only [isSeparator, Bool.and_eq_true, beq_iff_eq] at hsep
  rw [Reflow.hasComment, commentAfter_append_hash (by simp), Bool.or_eq_false_iff] at hquoted
  have hopen : behind atToken (l.take n) ≠ outside := beq_eq_false_iff_ne.1 hquoted.2
  exact hopen (hagree.trans hsep.1.1)

end Quoting

end TaskTidy
