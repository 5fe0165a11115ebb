import TaskTidy.Proofs.Parents
import TaskTidy.Proofs.PlainPipes

/-!
# Notes behind keys

A note is a comment behind a key without a value. It is read as the value of the key, so the line no
longer leaves its value to the lines below. For most keys this does not matter to the modes and the
marks: a note does not matter unless the key heads a sequence at its own depth, holds the arguments
or the target of a file module, or is a module whose command only reads state.
-/

namespace TaskTidy

namespace Text

variable {c : Char} {needle s t : List Char}

/-- What starts a text and lacks a character of it starts the part in front of that character. -/
theorem isPrefixOf_append_cons (hc : c ∉ needle) (s t : List Char) :
    needle.isPrefixOf (s ++ c :: t) = needle.isPrefixOf s := by
  induction s generalizing needle with
  | nil =>
      cases needle with
      | nil => rfl
      | cons x needle =>
          rw [List.nil_append, List.isPrefixOf_cons_cons, beq_eq_false_iff_ne.2]
          · rfl
          · rintro rfl
            exact hc List.mem_cons_self
  | cons y s ih =>
      cases needle with
      | nil => rfl
      | cons x needle =>
          rw [List.cons_append, List.isPrefixOf_cons_cons, List.isPrefixOf_cons_cons,
            ih fun hmem => hc (List.mem_cons_of_mem _ hmem)]

/-- A text is found on one side of a character that it lacks. -/
theorem contains_append_cons (hc : c ∉ needle) (hne : needle ≠ []) (s t : List Char) :
    contains needle (s ++ c :: t) = (contains needle s || contains needle t) := by
  have hstart := isPrefixOf_append_cons hc
  have hnil : needle.isPrefixOf [] = false := by
    obtain ⟨x, more, rfl⟩ := List.exists_cons_of_ne_nil hne
    rfl
  induction s with
  | nil =>
      have hempty : contains needle [] = false := by rwa [contains, List.isEmpty_eq_false_iff]
      rw [hempty, Bool.false_or, List.nil_append, contains]
      have h := hstart [] t
      rw [List.nil_append, hnil] at h
      rw [h, Bool.false_or]
  | cons y s ih => rw [List.cons_append, contains, contains, ← List.cons_append, hstart, ih,
      Bool.or_assoc]

/-- A literal beginning is stripped in front of a character that it lacks. -/
theorem strip?_append_cons {start : List Char} (hc : c ∉ start) (s t : List Char) :
    strip? start (s ++ c :: t) = (strip? start s).map (· ++ c :: t) := by
  rw [strip?, strip?, isPrefixOf_append_cons hc]
  split
  · next h =>
      rw [Option.map_some, List.drop_append_of_le_length
        (List.isPrefixOf_iff_prefix.1 h).length_le]
  · rfl

/-- A text around a character that is not blank is trimmed on either side of it. -/
theorem trim_append_cons_eq (hc : isBlank c = false) (s t : List Char) :
    trim (s ++ c :: t) = trimStart s ++ c :: trimEnd t := by
  rw [trim, trimStart, dropWhile_append_cons hc, trimEnd, dropEndWhile_append_cons hc]
  rfl

/-- What follows a blank does not belong to the first word of a text that is not blank. -/
theorem firstWord_append_cons (hs : allBlank s = false) (hc : isBlank c = true) (t : List Char) :
    firstWord (s ++ c :: t) = firstWord s := by
  obtain ⟨x, hx, hsolid⟩ := List.all_eq_false.1 hs
  obtain ⟨front, back, rfl⟩ := List.append_of_mem hx
  have hx : isBlank x = false := by simpa using hsolid
  rw [firstWord, firstWord, trimStart, trimStart, List.append_assoc, List.cons_append,
    dropWhile_append_cons hx, dropWhile_append_cons hx, ← List.cons_append, ← List.append_assoc,
    List.takeWhile_append]
  split
  · next hall =>
      rw [List.takeWhile_cons_of_neg (by simp [hc]), List.append_nil]
      exact ((List.takeWhile_prefix _).eq_of_length hall).symm
  · rfl

end Text

/-! ### Lines with a note -/

namespace Line

variable {l : Line}

/-- The line with a note behind it. -/
def withNote (l : Line) (text : List Char) : Line :=
  l ++ ' ' :: '#' :: text

/-- A line that carries a key and no value. -/
def LacksValue (l : Line) : Prop :=
  l.key?.isSome = true ∧ l.value? = none

instance (l : Line) : Decidable l.LacksValue :=
  inferInstanceAs (Decidable (_ ∧ _))

/-- Behind the colon of a key without a value stand blanks at most. With one more blank behind them
the first of these blanks ends the key, whatever follows. -/
theorem LacksValue.exists_colon (h : l.LacksValue) :
    ∃ key gap back c blanks, l.key? = some key ∧ l.body = key ++ (gap ++ ':' :: back) ∧
      back ++ [' '] = c :: blanks ∧ (∀ x ∈ back ++ [' '], Text.isBlank x = true) ∧
        ∀ rest, entryOf? (key ++ (gap ++ ':' :: c :: rest)) = some ⟨key, rest⟩ := by
  obtain ⟨hkey, hvalue⟩ := h
  obtain ⟨key, hkey⟩ := Option.isSome_iff_exists.1 hkey
  obtain ⟨entry, hentry, rfl⟩ := exists_entry_of_key? hkey
  obtain ⟨gap, back, hsplit, _, hback, hfree⟩ := exists_colon_of_entryOf? hentry
  have hbody := append_of_splitKey? hsplit
  have hblank : ∀ x ∈ entry.rest, Text.isBlank x = true := by
    rw [value?, hentry] at hvalue
    dsimp only at hvalue
    split at hvalue
    · next hall => exact List.all_eq_true.1 hall
    · cases hvalue
  obtain ⟨rfl, _⟩ | ⟨c, hc, rfl⟩ := hback
  · exact ⟨entry.key, gap, [], ' ', [], hkey, hbody, rfl, by simp [Text.isBlank],
      fun rest => hfree ' ' rest rfl⟩
  · refine ⟨entry.key, gap, c :: entry.rest, c, entry.rest ++ [' '], hkey, hbody, rfl, ?_,
      fun rest => hfree c rest hc⟩
    intro x hx
    rcases List.mem_append.1 hx with hx | hx
    · rcases List.mem_cons.1 hx with rfl | hx
      · exact Text.isBlank_of_isIndent hc
      · exact hblank x hx
    · rw [List.mem_singleton.1 hx]
      decide

namespace LacksValue

variable (h : l.LacksValue) (text : List Char)

include h

/-- The line ends in a colon and blanks. -/
theorem exists_front :
    ∃ front back, l = front ++ ':' :: back ∧ ∀ x ∈ back, Text.isBlank x = true := by
  obtain ⟨key, gap, back, _, _, _, hbody, _, hblank, _⟩ := h.exists_colon
  refine ⟨l.take l.column ++ (key ++ gap), back, ?_,
    fun x hx => hblank x (List.mem_append_left _ hx)⟩
  conv_lhs => rw [← take_column_append_body l, hbody]
  simp only [List.append_assoc]

theorem sameFrame_withNote : SameFrame l (l.withNote text) := by
  obtain ⟨front, back, hline, _⟩ := h.exists_front
  have hcolon : ':' ∈ l := by
    rw [hline]
    simp
  exact sameFrame_append hcolon (by decide) (by decide) (' ' :: '#' :: text)

/-- The note is the value of the key. -/
theorem exists_hasValue_withNote :
    ∃ key head blanks, l.key? = some key ∧ HasValue (l.withNote text) key head blanks '#' text := by
  obtain ⟨key, gap, back, c, blanks, hkey, hbody, hback, hblank, hfree⟩ := h.exists_colon
  have hlength : l.column ≤ l.length := by
    have hlen := congrArg List.length hbody
    rw [body, List.length_drop, List.length_append, List.length_append, List.length_cons] at hlen
    omega
  refine ⟨key, key ++ (gap ++ [':', c]), blanks, hkey, ?_, by simp, fun rest => ?_,
    fun x hx => hblank x (hback ▸ List.mem_cons_of_mem c hx), by decide⟩
  · calc (l.withNote text).body
        = l.body ++ ' ' :: '#' :: text := by
          rw [body, (h.sameFrame_withNote text).column_eq, withNote,
            List.drop_append_of_le_length hlength, body]
      _ = key ++ (gap ++ ':' :: ((back ++ [' ']) ++ '#' :: text)) := by
          rw [hbody]
          simp
      _ = key ++ (gap ++ [':', c]) ++ (blanks ++ '#' :: text) := by
          rw [hback]
          simp
  · rw [← hfree rest]
    simp

/-- A note leaves the place, the kind and the key of a line. -/
theorem sameEntry_withNote : SameEntry l (l.withNote text) := by
  obtain ⟨key, _, _, hkey, hl⟩ := h.exists_hasValue_withNote text
  obtain ⟨entry, hentry, _⟩ := exists_entry_of_key? hkey
  exact .of_isEntry (h.sameFrame_withNote text) (isEntry_of_entryOf? hentry) hl.isEntry
    (by rw [hkey, hl.key?_eq])

theorem value?_withNote : (l.withNote text).value? = some (Text.trim ('#' :: text)) := by
  obtain ⟨_, _, _, _, hl⟩ := h.exists_hasValue_withNote text
  rw [hl.value?_eq, Text.trim_cons (by decide)]

/-- Read as a line of a script, a line ends at the colon of its key, and the note stands behind. -/
theorem exists_trim_withNote :
    ∃ front back, Text.trim l = front ++ [':'] ∧ (∀ x ∈ back, Text.isBlank x = true) ∧
      Text.trim (l.withNote text) =
        front ++ ':' :: (back ++ ' ' :: '#' :: Text.trimEnd text) := by
  obtain ⟨front, back, hline, hback⟩ := h.exists_front
  refine ⟨Text.trimStart front, back, ?_, hback, ?_⟩
  · conv_lhs => rw [hline]
    rw [Text.trim_append_cons_eq (by decide), Text.trimEnd,
      ← List.nil_append back, Text.dropEndWhile_append_of_pos hback]
    rfl
  · have hend : Text.trimEnd (back ++ ' ' :: '#' :: text) =
        back ++ ' ' :: '#' :: Text.trimEnd text := by
      rw [List.append_cons, Text.trimEnd, Text.dropEndWhile_append_cons (by decide),
        ← List.append_cons]
      rfl
    rw [withNote]
    conv_lhs => rw [hline]
    rw [List.append_assoc, List.cons_append, Text.trim_append_cons_eq (by decide), hend]

end LacksValue

end Line

namespace RuleSets

variable {l : Line} {text : List Char}

/-- Whether a text is a command that only reads state is decided before the blank behind a colon. -/
theorem isReadOnlyText_append_colon {c : Char} (hc : Text.isBlank c = true) (s t : List Char) :
    isReadOnlyText (s ++ ':' :: c :: t) = isReadOnlyText (s ++ [':']) := by
  have hquote : (c == '"' || c == '\'') = false :=
    Text.eq_false_of_isBlank (p := fun c => c == '"' || c == '\'') (by decide +kernel) hc
  have hcommand (t : List Char) : (Text.strip? strictPipes (s ++ ':' :: t)).getD (s ++ ':' :: t) =
      (Text.strip? strictPipes s).getD s ++ ':' :: t := by
    rw [Text.strip?_append_cons (by decide)]
    cases Text.strip? strictPipes s <;> rfl
  have hunquote (r t : List Char) : unquote (r ++ ':' :: t) =
      r.dropWhile (fun c => c == '"' || c == '\'') ++
        ':' :: Text.dropEndWhile (fun c => c == '"' || c == '\'') t := by
    rw [unquote, Text.trimMatches, Text.dropWhile_append_cons (by decide),
      Text.dropEndWhile_append_cons (by decide)]
  have hend : Text.dropEndWhile (fun c => c == '"' || c == '\'') (c :: t) =
      c :: Text.dropEndWhile (fun c => c == '"' || c == '\'') t :=
    Text.dropEndWhile_append_cons (s := []) hquote
  rw [isReadOnlyText, isReadOnlyText, hcommand, hcommand, hunquote, hunquote, hend,
    List.append_cons, Text.firstWord_append_cons _ hc]
  · rfl
  · exact Line.allBlank_eq_false (List.mem_append_right _ (List.mem_singleton_self ':')) (by decide)

/-- A text names a file if it does so on one side of a colon. -/
theorem namesEffect_append_colon (s t : List Char) :
    namesEffect (s ++ ':' :: t) = (namesEffect s || namesEffect t) := by
  have hpart {needle : List Char} (h : (':' ∉ needle) ∧ needle ≠ []) :
      Text.contains needle (s ++ ':' :: t) = (Text.contains needle s || Text.contains needle t) :=
    Text.contains_append_cons h.1 h.2 s t
  have hcreates := hpart (show (':' ∉ "creates=".toList) ∧ "creates=".toList ≠ [] by decide)
  have hremoves := hpart (show (':' ∉ "removes=".toList) ∧ "removes=".toList ≠ [] by decide)
  simp only [namesEffect, hcreates, hremoves, Bool.or_assoc, Bool.or_left_comm]

/-- A note that names a file does so at its beginning. -/
theorem namesEffect_trimEnd (h : namesEffect text = false) :
    namesEffect (Text.trimEnd text) = false := by
  have hpart : Text.trimEnd text <:+: text :=
    ⟨[], _, Text.dropEndWhile_append_takeEndWhile Text.isBlank text⟩
  rw [← Bool.not_eq_true, namesEffect, Bool.or_eq_true, Text.contains_iff, Text.contains_iff]
    at h ⊢
  exact fun hin => h (hin.imp (fun h => h.trans hpart) fun h => h.trans hpart)

/-- Read as a line of a script, a line with a note is a command that reads state as before, unless
the note names a file behind such a command. -/
theorem readsState_withNote (h : l.LacksValue)
    (htext : isReadOnlyText (Text.trim l) = true → namesEffect text = false) :
    readsState (Text.trim (l.withNote text)) = readsState (Text.trim l) := by
  obtain ⟨front, back, htrim, hback, htrim'⟩ := h.exists_trim_withNote text
  rw [htrim] at htext
  have hreads : isReadOnlyText (front ++ ':' :: (back ++ ' ' :: '#' :: Text.trimEnd text)) =
      isReadOnlyText (front ++ [':']) := by
    cases back with
    | nil => exact isReadOnlyText_append_colon (by decide) _ _
    | cons c back => exact isReadOnlyText_append_colon (hback c List.mem_cons_self) _ _
  rw [htrim, htrim', readsState, readsState, hreads]
  cases hread : isReadOnlyText (front ++ [':']) with
  | false => rw [Bool.and_false, Bool.and_false]
  | true =>
      have hblank {c : Char} (hc : Text.isBlank c = false) (hhash : c ∉ [' ', '#']) :
          c ∉ back ++ [' ', '#'] := fun hmem => by
        rw [List.mem_append, or_iff_left hhash] at hmem
        rw [hback c hmem] at hc
        cases hc
      have hnote : namesEffect (back ++ ' ' :: '#' :: Text.trimEnd text) = false := by
        have happ : namesEffect ((back ++ [' ', '#']) ++ Text.trimEnd text) =
            namesEffect (Text.trimEnd text) :=
          namesEffect_append (hblank (by decide) (by decide)) (hblank (by decide) (by decide))
        rw [List.append_assoc] at happ
        exact happ.trans (namesEffect_trimEnd (htext hread))
      rw [namesEffect_append_colon, namesEffect_append_colon, hnote]
      rfl

theorem holdsCommand_withNote (h : l.LacksValue) :
    holdsCommand (l.withNote text) = holdsCommand l := by
  obtain ⟨front, back, htrim, _, htrim'⟩ := h.exists_trim_withNote text
  rw [holdsCommand, holdsCommand, htrim, htrim']
  cases front <;> rfl

/-- A note opens no block scalar. -/
theorem isScalarHeader_note (text : List Char) :
    Line.isScalarHeader (Text.trim ('#' :: text)) = false := by
  rw [Line.isScalarHeader_trim]
  exact isScalarHeader_cons (by decide) (by decide) text

/-- A note is no command that only reads state. -/
theorem readsState_note (text : List Char) : readsState (Text.trim ('#' :: text)) = false := by
  have hreads : isReadOnlyText ("#".toList ++ Text.dropEndWhile Text.isBlank text) = false :=
    isReadOnlyText_append (List.cons_ne_nil '#' []) (by simp [Text.isBlank]) (by decide) rfl
  rw [Text.trim_cons (by decide), readsState, Bool.and_eq_false_iff]
  exact Or.inr hreads

end RuleSets

namespace Buffer

/-! ### Sequences under a key -/

section

variable {A C D below : List Line} {d : Nat} {x y : Line}

/-- Whether the first line of structure that is no deeper than `d` opens an item at that depth. -/
def startsSequence (d : Nat) (below : List Line) : Bool :=
  (below.find? (encloses (d + 1))).any (isInsideSequence d)

private theorem encloses_succ_iff :
    encloses (d + 1) x = true ↔ x.kind.isSignificant = true ∧ x.depth ≤ d := by
  rw [encloses, Bool.and_eq_true, decide_eq_true_eq, Nat.lt_succ_iff]

private theorem isInside_of_encloses (h : encloses (d + 1) x = true) : x.isInside d = false := by
  obtain ⟨hsig, hle⟩ := encloses_succ_iff.1 h
  rw [Line.isInside, Line.allBlank_of_isSignificant hsig, Bool.false_or, decide_eq_false_iff_not]
  exact Nat.not_lt_of_le hle

/-- Without a sequence at its depth a key with a value and a key without one end alike. -/
theorem takeWhile_isInsideSequence (h : startsSequence d below = false) :
    below.takeWhile (isInsideSequence d) = below.takeWhile (Line.isInside d) := by
  induction below with
  | nil => rfl
  | cons x below ih =>
      by_cases hx : x.isInside d = true
      · have hskip : encloses (d + 1) x = false := by
          rw [← Bool.not_eq_true]
          intro hencloses
          rw [isInside_of_encloses hencloses] at hx
          cases hx
        rw [startsSequence, List.find?_cons, hskip] at h
        rw [List.takeWhile_cons_of_pos hx,
          List.takeWhile_cons_of_pos (by rw [isInsideSequence, hx]; rfl), ih h]
      · have hout : isInsideSequence d x = false := by
          rw [← Bool.not_eq_true]
          intro hsequence
          have hitem : x.kind = .item ∧ x.depth = d := by
            simpa [isInsideSequence, hx] using hsequence
          have hencloses : encloses (d + 1) x = true :=
            encloses_succ_iff.2 ⟨by rw [hitem.1]; rfl, hitem.2.le⟩
          rw [startsSequence, List.find?_cons, hencloses, Option.any_some, hsequence] at h
          cases h
        rw [List.takeWhile_cons_of_neg hx, List.takeWhile_cons_of_neg (by simp [hout])]

/-- An item whose list has no line between it and its key that ends the list starts a sequence. -/
theorem exists_endsList (h : startsSequence d (C.reverse ++ y :: D) = false)
    (hy : y.kind = .item) (hdepth : y.depth = d) : ∃ c ∈ C, EndsList d c := by
  by_contra hnone
  push Not at hnone
  have hany (c : Line) (hc : encloses (d + 1) c = true) (hends : ¬EndsList d c) :
      isInsideSequence d c = true := by
    obtain ⟨hsig, hle⟩ := encloses_succ_iff.1 hc
    have hitem : c.kind = .item ∧ d ≤ c.depth := by
      by_contra hother
      exact hends ⟨hsig, hle, fun hitem => Nat.lt_of_not_le fun hge => hother ⟨hitem, hge⟩⟩
    simp [isInsideSequence, hitem.1, Nat.le_antisymm hle hitem.2]
  rw [startsSequence, List.find?_append] at h
  cases hfind : C.reverse.find? (encloses (d + 1)) with
  | some c =>
      rw [hfind, Option.some_or, Option.any_some] at h
      have hc := hany c (List.find?_some hfind)
        (hnone c (List.mem_reverse.1 (List.mem_of_find?_eq_some hfind)))
      rw [hc] at h
      cases h
  | none =>
      have hencloses : encloses (d + 1) y = true :=
        encloses_succ_iff.2 ⟨by rw [hy]; rfl, hdepth.le⟩
      rw [hfind, Option.none_or, List.find?_cons, hencloses, Option.any_some, isInsideSequence, hy,
        hdepth] at h
      simp at h

/-- An inserted field starts no sequence. -/
theorem startsSequence_of_insert (hx : x.kind = .parameter)
    (h : startsSequence d (A ++ x :: D) = true) : startsSequence d (A ++ D) = true := by
  rw [startsSequence, List.find?_append] at h ⊢
  cases hfind : A.find? (encloses (d + 1)) with
  | some c => rwa [hfind] at h
  | none =>
      rw [hfind, Option.none_or, List.find?_cons] at h
      rw [Option.none_or]
      split at h
      · next hencloses =>
          rw [Option.any_some, isInsideSequence, isInside_of_encloses hencloses, hx] at h
          cases h
      · exact h

/-- The key of a list is searched alike above two lines if it is searched alike from them on. -/
theorem listKeyAmong?_append_congr (h : listKeyAmong? d (x :: A) = listKeyAmong? d (y :: A)) :
    listKeyAmong? d (C ++ x :: A) = listKeyAmong? d (C ++ y :: A) := by
  induction C with
  | nil => exact h
  | cons c C ih =>
      simp only [List.cons_append, listKeyAmong?, ih, List.length_append, List.length_cons]

end

variable {b : Buffer} {i k p : Nat} {x : Line} {text : List Char}

/-- Whether the key on line `k` heads a sequence at its own depth. -/
def headsSequence (b : Buffer) (k : Nat) : Bool :=
  (b.line k).kind = .parameter && startsSequence (b.line k).depth (b.drop (k + 1))

theorem headsSequence_of_parameter (h : (b.line k).kind = .parameter) :
    b.headsSequence k = startsSequence (b.line k).depth (b.drop (k + 1)) := by
  rw [headsSequence, h]
  rfl

/-- An inserted field does not make a key head a sequence. -/
theorem headsSequence_insertIdx (hp : p ≤ b.length) (hx : x.kind = .parameter)
    (h : b.headsSequence k = false) : headsSequence (b.insertIdx p x) (shift p k) = false := by
  rw [← Bool.not_eq_true] at h ⊢
  refine fun hseq => h ?_
  rw [headsSequence, line_insertIdx_shift hp, Bool.and_eq_true] at hseq
  rw [headsSequence, hseq.1, Bool.true_and]
  rcases Nat.lt_or_ge k p with hkp | hpk
  · rw [shift_of_lt hkp, drop_insertIdx_of_lt hp x hkp] at hseq
    rw [drop_of_lt hkp]
    exact startsSequence_of_insert hx hseq.2
  · rw [shift_of_le hpk, drop_insertIdx_of_le hp x (Nat.le_succ_of_le hpk)] at hseq
    exact hseq.2

/-- The document with a note behind the key on line `k`. -/
def withNote (b : Buffer) (k : Nat) (text : List Char) : Buffer :=
  b.set k ((b.line k).withNote text)

theorem lt_length_of_lacksValue (h : (b.line k).LacksValue) : k < b.length := by
  by_contra hk
  have hkey := h.1
  rw [line_of_length_le (Nat.le_of_not_lt hk)] at hkey
  cases hkey

section

variable (h : (b.line k).LacksValue)

include h

/-! ### Places -/

private theorem line_withNote_self (text : List Char) :
    Buffer.line (b.withNote k text) k = (b.line k).withNote text :=
  line_set_self (lt_length_of_lacksValue h) _

theorem sameEntry_line_withNote (text : List Char) (j : Nat) :
    (b.line j).SameEntry (Buffer.line (b.withNote k text) j) :=
  sameEntry_line_set (lt_length_of_lacksValue h) (h.sameEntry_withNote text) j

section

variable (hseq : b.headsSequence k = false)

include hseq

/-- An item hangs off the line that it hung off. -/
theorem listKey?_withNote (text : List Char) (hi : i < b.length) (hitem : (b.line i).kind = .item) :
    Buffer.listKey? (b.withNote k text) i = b.listKey? i := by
  have hk := lt_length_of_lacksValue h
  have hline := h.sameEntry_withNote text
  have hamong : listKeyAmong? (b.line i).depth (Buffer.above (b.withNote k text) i) =
      listKeyAmong? (b.line i).depth (b.above i) := by
    rcases Nat.lt_or_ge k i with hki | hik
    · rw [withNote, above_of_lt hki (Nat.le_of_lt hi), above_set_of_lt hki (Nat.le_of_lt hi)]
      by_cases hhead : (b.line k).kind = .parameter ∧ (b.line i).depth = (b.line k).depth
      · have hbelow : b.drop (k + 1) = ((b.take i).drop (k + 1)).reverse.reverse ++
            b.line i :: b.drop (i + 1) := by
          rw [List.reverse_reverse, ← drop_eq_line_cons hi, List.drop_take]
          exact drop_of_lt hki
        rw [headsSequence_of_parameter hhead.1, hbelow, ← hhead.2] at hseq
        have hends := exists_endsList hseq hitem rfl
        rw [listKeyAmong?_insert_of_endsList fun _ => hends,
          listKeyAmong?_insert_of_endsList fun _ => hends]
      · apply listKeyAmong?_append_congr
        simp only [listKeyAmong?, hline.kind_eq, hline.sameFrame.depth_eq]
        split
        · rfl
        · next hdeep =>
            split
            · rfl
            · next hshallow =>
                split
                · rfl
                · next hparameter =>
                    exact absurd ⟨hparameter, by simp at hdeep; omega⟩ hhead
                · rfl
    · rw [withNote, above_set hik]
  rw [listKey?, listKey?, (sameEntry_line_withNote h text i).sameFrame.depth_eq, hamong, withNote,
    parent?_set_of_isSignificant hk hline.sameFrame.depth_eq hline.sameFrame.isSignificant_eq hi]

theorem isTask_withNote (text : List Char) {e : Extent} (he : e.start < b.length) :
    Buffer.isTask (b.withNote k text) e = b.isTask e := by
  have hk := lt_length_of_lacksValue h
  have hline := h.sameEntry_withNote text
  rw [isTask, isTask, withNote, isItemLevel_set hk hline.sameFrame he,
    inTaskList_set_of_listKey? hk (hline.sharesKeys taskListKeys) (List.Subset.refl _)
      (fun _ hi hitem => listKey?_withNote h hseq text hi hitem) he]

/-- A field ends where it ended. -/
theorem fieldEnd_withNote (text : List Char) {e : Extent} {f : Field} (hf : f ∈ b.fields e) :
    Buffer.fieldEnd (b.withNote k text) f.index = b.fieldEnd f.index := by
  have hk := lt_length_of_lacksValue h
  have hline := h.sameEntry_withNote text
  by_cases hfk : f.index = k
  · obtain ⟨_, _, _, hkind, _, _⟩ := of_mem_fields hf
    rw [hfk] at hkind ⊢
    rw [headsSequence_of_parameter hkind] at hseq
    have hbelow : (b.withNote k text).drop (k + 1) = b.drop (k + 1) :=
      List.drop_set_of_lt (Nat.lt_succ_self k)
    simp only [fieldEnd, line_withNote_self h, h.value?_withNote, h.2, hline.sameFrame.depth_eq,
      runAfter, hbelow, takeWhile_isInsideSequence hseq, ite_self]
  · exact fieldEnd_set_of_isSome hk hline (by rw [line_set_of_ne hfk])

end

/-! ### Values -/

/-- The value of a field stays, or the note takes its place. -/
theorem fieldValue?_withNote (text key : List Char) (e : Extent) :
    Buffer.fieldValue? (b.withNote k text) e key = b.fieldValue? e key ∨
      (b.line k).hasKey key = true ∧ b.fieldValue? e key = none ∧
        Buffer.fieldValue? (b.withNote k text) e key = some (Text.trim ('#' :: text)) := by
  have hk := lt_length_of_lacksValue h
  have hfields := fields_set hk (h.sameEntry_withNote text) e
  rw [fieldValue?, fieldValue?, field?, field?, withNote, hfields]
  cases hfind : (b.fields e).find? fun f => f.key == key with
  | none => exact Or.inl rfl
  | some f =>
      by_cases hfk : f.index = k
      · obtain ⟨_, _, _, _, _, hkey⟩ := of_mem_fields (List.mem_of_find?_eq_some hfind)
        have hsame : f.key = key := by simpa using List.find?_some hfind
        rw [hfk, hsame] at hkey
        refine Or.inr ⟨by rw [Line.hasKey, hkey, beq_self_eq_true], ?_, ?_⟩
        · rw [Option.bind_some, hfk, h.2]
        · rw [Option.bind_some, hfk, line_set_self hk, h.value?_withNote]
      · rw [Option.bind_some, Option.bind_some, line_set_of_ne hfk]
        exact Or.inl rfl

/-- The line that holds the command of another module stands where it stood. -/
theorem commandKey?_withNote (text : List Char) (hik : i ≠ k) :
    Buffer.commandKey? (b.withNote k text) i = b.commandKey? i := by
  have hline := sameEntry_line_withNote h text
  have hshares (j : Nat) := (hline j).sharesKeys ["cmd".toList]
  have hlines : Buffer.valueLines (b.withNote k text) i = b.valueLines i :=
    valueLines_set (lt_length_of_lacksValue h) ((h.sameEntry_withNote text).sharesKeys []) i
  have hvalue : (Buffer.line (b.withNote k text) i).value? = (b.line i).value? := by
    rw [withNote, line_set_of_ne hik]
  simp only [commandKey?, hvalue, hlines, (hline _).kind_eq,
    (hshares _).hasKey_eq _ (List.mem_singleton_self _)]

open RuleSets

/-- The command of the module on the line of the note is the note. -/
theorem any_commandLine?_withNote_self (text : List Char) :
    (Buffer.commandLine? (b.withNote k text) k).any (fun c => readsState c.text) = false := by
  rw [commandLine?, commandKey?, line_withNote_self h, h.value?_withNote]
  simp only [Option.isSome_some, if_true, line_withNote_self h, h.value?_withNote,
    isScalarHeader_note, Bool.false_eq_true, if_false, Option.any_some, readsState_note]

/-- Other commands read state as before, unless the note names a file behind one of them. -/
theorem any_commandLine?_withNote
    (htext : isReadOnlyText (Text.trim (b.line k)) = true → namesEffect text = false)
    (hik : i ≠ k) :
    (Buffer.commandLine? (b.withNote k text) i).any (fun c => readsState c.text) =
      (b.commandLine? i).any fun c => readsState c.text := by
  have hk := lt_length_of_lacksValue h
  have hholds (j : Nat) : holdsCommand (Buffer.line (b.withNote k text) j) =
      holdsCommand (b.line j) := map_line_set hk (holdsCommand_withNote h) j
  have hreads (j : Nat) : readsState (Text.trim (Buffer.line (b.withNote k text) j)) =
      readsState (Text.trim (b.line j)) :=
    map_line_set (f := fun x => readsState (Text.trim x)) hk (readsState_withNote h htext) j
  have hlines (j : Nat) : Buffer.valueLines (b.withNote k text) j = b.valueLines j :=
    valueLines_set hk ((h.sameEntry_withNote text).sharesKeys []) j
  rw [commandLine?, commandLine?, commandKey?_withNote h text hik]
  cases b.commandKey? i with
  | none => rfl
  | some key =>
      by_cases hkey : key = k
      · simp only [hkey, line_withNote_self h, h.value?_withNote, h.2, isScalarHeader_note,
          Bool.false_eq_true, if_false, Option.any_some, Option.any_none, readsState_note]
      · have hvalue : (Buffer.line (b.withNote k text) key).value? = (b.line key).value? := by
          rw [withNote, line_set_of_ne hkey]
        simp only [holdsCommand] at hholds
        simp only [hvalue, hlines, hholds]
        cases (b.line key).value? with
        | none => rfl
        | some value =>
            dsimp only
            split
            · simp only [Option.any_map, hreads]
            · rfl

end

end Buffer

end TaskTidy
