import Mathlib.Data.List.Basic
import TaskTidy.Proofs.Headers
import TaskTidy.Proofs.RoundTrip

/-!
# Reassembling a split line

A line is cut behind commas. The blanks behind such a comma are dropped, and the text behind them
starts the next part, below the content of the line. So the parts and the dropped blanks give the
line back, and parts that are read with a single space between them give it back exactly if a single
space was dropped at every cut.
-/

namespace TaskTidy

namespace Text

variable {s t : List Char} {c : Char}

theorem joinWith_cons (sep s : List Char) (rest : List (List Char)) :
    joinWith sep (s :: rest) = s ++ rest.flatMap (sep ++ ·) := by
  induction rest generalizing s with
  | nil => simp [joinWith]
  | cons next rest ih =>
      rw [joinWith, ih, List.flatMap_cons, List.append_assoc, List.append_assoc]

/-- A text is its first piece and, each behind a separator, the others. -/
theorem eq_of_pieces {sep : Char} {first : List Char} {rest : List (List Char)}
    (h : pieces sep s = first :: rest) : s = first ++ rest.flatMap (sep :: ·) := by
  rw [← joinWith_pieces sep s, h, joinWith_cons]
  rfl

theorem trimStart_append (hs : allBlank s = true) : trimStart (s ++ t) = trimStart t :=
  List.dropWhile_append_of_pos (List.all_eq_true.1 hs)

/-- A text is trimmed at its end behind the last part that holds text. -/
theorem trimEnd_append (hsolid : isBlank c = false) (hc : c ∈ t) :
    trimEnd (s ++ t) = s ++ trimEnd t := by
  obtain ⟨u, v, rfl⟩ := List.append_of_mem hc
  rw [← List.append_assoc, trimEnd, trimEnd, dropEndWhile_append_cons hsolid,
    dropEndWhile_append_cons hsolid, List.append_assoc]

theorem trimEnd_of_getLast? (hsolid : isBlank c = false) (hlast : s.getLast? = some c) :
    trimEnd s = s := by
  obtain ⟨init, rfl⟩ := List.getLast?_eq_some_iff.1 hlast
  exact dropEndWhile_append_of_last hsolid

/-- A single space in front of a solid character is found again only as a single space. -/
theorem space_cons_eq_append_iff {u v gap : List Char} (hgap : allBlank gap = true)
    (hsolid : isBlank c = false) : ' ' :: c :: u = gap ++ c :: v ↔ gap = [' '] ∧ u = v := by
  constructor
  · intro h
    cases gap with
    | nil =>
        obtain ⟨rfl, _⟩ := List.cons.inj h
        cases hsolid
    | cons g gap =>
        rw [List.cons_append, List.cons.injEq] at h
        obtain ⟨rfl, h⟩ := h
        cases gap with
        | nil => exact ⟨rfl, (List.cons.inj h).2⟩
        | cons g gap =>
            rw [List.cons_append, List.cons.injEq] at h
            obtain ⟨rfl, _⟩ := h
            simp [allBlank, hsolid] at hgap
  · rintro ⟨rfl, rfl⟩
    rfl

end Text

namespace Reflow

/-- A cut behind a comma of a line: the blanks that are dropped there, and the text that starts the
next part. -/
structure Cut where
  gap : List Char
  text : List Char
  allBlank_gap : Text.allBlank gap = true
  solid_text : ∃ c rest, text = c :: rest ∧ Text.isBlank c = false

namespace Cut

/-- What stands in the line from the comma on. -/
def original (cut : Cut) : List Char :=
  cut.gap ++ cut.text

theorem trimStart_text (cut : Cut) : Text.trimStart cut.text = cut.text := by
  obtain ⟨c, rest, htext, hsolid⟩ := cut.solid_text
  rw [htext]
  exact List.dropWhile_cons_of_neg (by simp [hsolid])

theorem exists_solid (cut : Cut) : ∃ c ∈ cut.text, Text.isBlank c = false := by
  obtain ⟨c, rest, htext, hsolid⟩ := cut.solid_text
  exact ⟨c, by simp [htext], hsolid⟩

/-- The end of a line that is cut is the end of the text behind its last cut. -/
theorem trimEnd_flatMap_original {cuts : List Cut}
    (hcomma : ∀ cut ∈ cuts.dropLast, cut.text.getLast? = some ',') :
    Text.trimEnd (cuts.flatMap original) =
      cuts.flatMap fun cut => cut.gap ++ Text.trimEnd cut.text := by
  induction cuts with
  | nil => rfl
  | cons cut rest ih =>
      obtain ⟨c, hc, hsolid⟩ := cut.exists_solid
      cases rest with
      | nil =>
          simp only [List.flatMap_cons, List.flatMap_nil, List.append_nil, original,
            Text.trimEnd_append hsolid hc]
      | cons next rest =>
          rw [List.dropLast_cons_of_ne_nil (List.cons_ne_nil next rest)] at hcomma
          have hlast : Text.trimEnd cut.text = cut.text :=
            Text.trimEnd_of_getLast? (by decide) (hcomma cut List.mem_cons_self)
          obtain ⟨d, hd, hd'⟩ := next.exists_solid
          have hmem : d ∈ (next :: rest).flatMap original := by
            simp [original, hd]
          calc Text.trimEnd (cut.original ++ (next :: rest).flatMap original)
              = cut.original ++ Text.trimEnd ((next :: rest).flatMap original) :=
                Text.trimEnd_append hd' hmem
            _ = (cut.gap ++ Text.trimEnd cut.text) ++
                  (next :: rest).flatMap fun cut => cut.gap ++ Text.trimEnd cut.text := by
                rw [ih fun cut hcut => hcomma cut (List.mem_cons_of_mem _ hcut), hlast, original]

/-- Texts that are joined with single spaces are the texts with their gaps exactly if every gap is a
single space. -/
theorem flatMap_trimEnd_eq_iff (cuts : List Cut) :
    (cuts.flatMap fun cut => ' ' :: Text.trimEnd cut.text) =
        cuts.flatMap (fun cut => cut.gap ++ Text.trimEnd cut.text) ↔
      ∀ cut ∈ cuts, cut.gap = [' '] := by
  induction cuts with
  | nil => simp
  | cons cut rest ih =>
      obtain ⟨c, u, htext, hsolid⟩ := cut.solid_text
      have hv : Text.trimEnd (c :: u) = c :: Text.trimEnd u :=
        Text.dropEndWhile_append_cons (s := []) hsolid
      rw [List.flatMap_cons, List.flatMap_cons, List.forall_mem_cons, ← ih, htext, hv,
        List.append_assoc, List.cons_append, List.cons_append, List.cons_append,
        Text.space_cons_eq_append_iff cut.allBlank_gap hsolid, List.append_cancel_left_eq]

end Cut

variable {limit : Nat} {l indent current : Line} {pieces parts : List Line}

/-- A piece joins the current line, or the line ends in a comma and the piece starts the next. -/
theorem of_pack_cons {piece : Line} (h : pack limit indent current (piece :: pieces) = some parts) :
    pack limit indent (current ++ ',' :: piece) pieces = some parts ∨
      Text.trimStart piece ≠ [] ∧
        ∃ more, pack limit indent (indent ++ Text.trimStart piece) pieces = some more ∧
          parts = (current ++ [',']) :: more := by
  rw [pack] at h
  split at h
  · exact Or.inl h
  · dsimp only at h
    split at h
    · cases h
    · next hne =>
        obtain ⟨more, hmore, rfl⟩ := Option.map_eq_some_iff.1 h
        exact Or.inr ⟨by simpa using hne, more, hmore, rfl⟩

/-- A packed line ends in a comma if another one follows. -/
theorem getLast?_of_pack (h : pack limit indent current pieces = some parts) {part : Line}
    (hpart : part ∈ parts.dropLast) : part.getLast? = some ',' := by
  induction pieces generalizing current parts with
  | nil =>
      cases h
      cases hpart
  | cons piece rest ih =>
      rcases of_pack_cons h with hjoin | ⟨_, more, hmore, rfl⟩
      · exact ih hjoin hpart
      · cases more with
        | nil => cases hpart
        | cons next more =>
            rw [List.dropLast_cons_of_ne_nil (List.cons_ne_nil next more)] at hpart
            rcases List.mem_cons.1 hpart with rfl | hpart
            · exact List.getLast?_concat
            · exact ih hmore hpart

/-- A line is cut at its commas, and its parts are packed behind the first piece. -/
theorem exists_pack_of_split? (h : split? limit l = some parts) :
    ∃ first rest, Text.pieces ',' l = first :: rest ∧
      pack limit (continuationIndent l) first rest = some parts ∧ isClean limit parts = true := by
  unfold split? at h
  split at h
  · split at h
    · cases h
    · next first rest hpieces =>
        split at h
        · cases h
        · next hpack =>
            split at h
            · next hclean =>
                cases h
                exact ⟨first, rest, hpieces, hpack, hclean⟩
            · cases h
  · cases h

theorem isPlainContinuation_of_split? (h : split? limit l = some parts) {part : Line}
    (hpart : part ∈ parts.tail) : isPlainContinuation part = true := by
  obtain ⟨_, _, _, _, hclean⟩ := exists_pack_of_split? h
  rw [isClean, Bool.and_eq_true, List.all_eq_true] at hclean
  exact hclean.2 part hpart

/-- Packed lines start with the first piece, and the text that is packed is the first line with the
original text of every cut behind it. -/
theorem exists_cuts_of_pack (h : pack limit indent current pieces = some parts) :
    ∃ (t : Line) (cuts : List Cut), parts = (current ++ t) :: cuts.map (indent ++ ·.text) ∧
      pieces.flatMap (',' :: ·) = t ++ cuts.flatMap Cut.original := by
  induction pieces generalizing current parts with
  | nil =>
      cases h
      exact ⟨[], [], by simp, rfl⟩
  | cons piece rest ih =>
      rcases of_pack_cons h with hjoin | ⟨hne, more, hmore, rfl⟩
      · obtain ⟨t, cuts, rfl, htext⟩ := ih hjoin
        exact ⟨',' :: piece ++ t, cuts, by simp, by simp [htext]⟩
      · obtain ⟨t, cuts, rfl, htext⟩ := ih hmore
        obtain ⟨c, start, hstart⟩ := List.exists_cons_of_ne_nil hne
        have hc : Text.isBlank c = false := by
          have := List.head?_dropWhile_not Text.isBlank piece
          rw [← Text.trimStart, hstart] at this
          simpa using this
        have hgap : Text.allBlank (piece.takeWhile Text.isBlank) = true :=
          List.all_eq_true.2 fun c hc => List.mem_takeWhile_imp hc
        have hpiece : piece = piece.takeWhile Text.isBlank ++ c :: start := by
          rw [← hstart, Text.trimStart, List.takeWhile_append_dropWhile]
        rw [hstart]
        refine ⟨[','], ⟨piece.takeWhile Text.isBlank, c :: start ++ t, hgap, c, start ++ t, rfl,
          hc⟩ :: cuts, by simp, ?_⟩
        conv => lhs; rw [hpiece]
        simp [htext, Cut.original]

/-- The parts of a line are its first part and, below the content, the text behind each cut. All but
the last of them end in a comma. -/
theorem exists_cuts_of_split? (h : split? limit l = some parts) :
    ∃ (first : Line) (cuts : List Cut), parts = first :: cuts.map (continuationIndent l ++ ·.text) ∧
      l = first ++ cuts.flatMap Cut.original ∧ first.getLast? = some ',' ∧
      ∀ cut ∈ cuts.dropLast, cut.text.getLast? = some ',' := by
  obtain ⟨piece, pieces, hpieces, hpack, _⟩ := exists_pack_of_split? h
  have htwo := (of_split? h).1
  obtain ⟨t, cuts, rfl, htext⟩ := exists_cuts_of_pack hpack
  have hne : cuts.map (continuationIndent l ++ ·.text) ≠ [] := by
    intro hnil
    simp [hnil] at htwo
  have hcomma {part : Line} (hpart : part ∈ (piece ++ t) ::
      cuts.dropLast.map (continuationIndent l ++ ·.text)) : part.getLast? = some ',' := by
    refine getLast?_of_pack hpack ?_
    rwa [List.dropLast_cons_of_ne_nil hne, ← List.map_dropLast]
  refine ⟨piece ++ t, cuts, rfl, ?_, hcomma List.mem_cons_self, fun cut hcut => ?_⟩
  · rw [Text.eq_of_pieces hpieces, htext, List.append_assoc]
  · have hlast := hcomma (List.mem_cons_of_mem _ (List.mem_map_of_mem hcut))
    obtain ⟨c, rest, hcut, _⟩ := cut.solid_text
    rwa [hcut, List.getLast?_append_of_ne_nil _ (List.cons_ne_nil c rest), ← hcut] at hlast

/-- The parts hold characters of the line and the spaces that indent its continuation. -/
theorem mem_of_split? (h : split? limit l = some parts) {part : Line} (hpart : part ∈ parts)
    {c : Char} (hc : c ∈ part) : c ∈ l ∨ c = ' ' := by
  obtain ⟨first, cuts, rfl, hl, _, _⟩ := exists_cuts_of_split? h
  rw [hl]
  rcases List.mem_cons.1 hpart with rfl | hpart
  · exact Or.inl (List.mem_append_left _ hc)
  · obtain ⟨cut, hcut, rfl⟩ := List.mem_map.1 hpart
    rcases List.mem_append.1 hc with hspace | htext
    · exact Or.inr (List.eq_of_mem_replicate hspace)
    · exact Or.inl (List.mem_append_right _
        (List.mem_flatMap.2 ⟨cut, hcut, List.mem_append_right _ htext⟩))

/-- A line is split into at least two parts within the limit, none of which is split again. All but
the last end in a comma, and all but the first are plain text below the content of the line. With
the blanks that are dropped at the cuts they give the line back. -/
theorem shape_of_split? (h : split? limit l = some parts) :
    2 ≤ parts.length ∧ (∀ part ∈ parts, width part ≤ limit ∧ split? limit part = none) ∧
    (∀ part ∈ parts.dropLast, part.getLast? = some ',') ∧
    (∀ part ∈ parts.tail, part.kind = .continuation ∧ ¬[':', ' '] <:+: part) ∧
    ∃ (first : Line) (cuts : List Cut),
      parts = first :: cuts.map (fun cut => List.replicate (l.column + 2) ' ' ++ cut.text) ∧
      l = first ++ cuts.flatMap fun cut => cut.gap ++ cut.text := by
  obtain ⟨_, _, _, hpack, _⟩ := exists_pack_of_split? h
  obtain ⟨htwo, hwidth⟩ := of_split? h
  refine ⟨htwo, fun part hpart => ?_, fun part hpart => ?_, fun part hpart => ?_, ?_⟩
  · exact ⟨hwidth part hpart, split?_eq_none (hwidth part hpart)⟩
  · exact getLast?_of_pack hpack hpart
  · have hplain := isPlainContinuation_of_split? h hpart
    simp only [isPlainContinuation, Bool.and_eq_true, decide_eq_true_eq,
      Bool.not_eq_true'] at hplain
    refine ⟨hplain.1.2, fun hcolon => ?_⟩
    rw [Text.contains_iff.2 hcolon] at hplain
    exact absurd hplain.2 (by decide)
  · obtain ⟨first, cuts, hparts, hl, _⟩ := exists_cuts_of_split? h
    exact ⟨first, cuts, hparts, hl⟩

/-- A list of packages with uneven blanks behind its commas. -/
theorem shape_of_split?_packages :
    split? 16 "- pkgs: aaa,  bbb,ccc, ddd".toList =
      some ["- pkgs: aaa,".toList, "    bbb,ccc,".toList, "    ddd".toList] ∧
    ∃ (first : Line) (cuts : List Cut),
      ["- pkgs: aaa,".toList, "    bbb,ccc,".toList, "    ddd".toList] =
        first :: cuts.map (fun cut => List.replicate 4 ' ' ++ cut.text) ∧
      "- pkgs: aaa,  bbb,ccc, ddd".toList =
        first ++ cuts.flatMap fun cut => cut.gap ++ cut.text := by
  have h : split? 16 "- pkgs: aaa,  bbb,ccc, ddd".toList =
      some ["- pkgs: aaa,".toList, "    bbb,ccc,".toList, "    ddd".toList] := by
    decide +kernel
  obtain ⟨_, _, _, _, first, cuts, hparts, hl⟩ := shape_of_split? h
  exact ⟨h, first, cuts, hparts, hl⟩

/-! ### Reading the parts as one value -/

/-- The text of the parts when they are read as one folded value: each part trimmed, with a single
space between any two. -/
def readBack (parts : List Line) : List Char :=
  Text.joinWith [' '] (parts.map Text.trim)

/-- Parts that are read back: the first one, and the text behind each cut after a single space. -/
theorem readBack_cons {init indent : Line} (hindent : Text.allBlank indent = true)
    (cuts : List Cut) :
    readBack ((init ++ [',']) :: cuts.map (indent ++ ·.text)) =
      Text.trimStart init ++ ',' :: cuts.flatMap fun cut => ' ' :: Text.trimEnd cut.text := by
  have hsolid : Text.isBlank ',' = false := by decide
  have hhead : Text.trim (init ++ [',']) = Text.trimStart init ++ [','] := by
    rw [Text.trim, Text.trimStart, Text.dropWhile_append_cons hsolid]
    exact Text.dropEndWhile_append_of_last hsolid
  have htext (cut : Cut) : Text.trim (indent ++ cut.text) = Text.trimEnd cut.text := by
    rw [Text.trim, Text.trimStart_append hindent, cut.trimStart_text]
  calc readBack ((init ++ [',']) :: cuts.map (indent ++ ·.text))
      = Text.trim (init ++ [',']) ++
          cuts.flatMap fun cut => ' ' :: Text.trim (indent ++ cut.text) := by
        rw [readBack, List.map_cons, Text.joinWith_cons, List.map_map, List.flatMap_map]
        rfl
    _ = (Text.trimStart init ++ [',']) ++
          cuts.flatMap fun cut => ' ' :: Text.trimEnd cut.text := by
        simp only [hhead, htext]
    _ = _ := List.append_assoc _ _ _

/-- The trimmed line: the first part, and the text behind each cut after its own gap. -/
theorem trim_append_flatMap {init : Line} {cuts : List Cut}
    (hcomma : ∀ cut ∈ cuts.dropLast, cut.text.getLast? = some ',') :
    Text.trim ((init ++ [',']) ++ cuts.flatMap Cut.original) =
      Text.trimStart init ++ ',' :: cuts.flatMap fun cut => cut.gap ++ Text.trimEnd cut.text := by
  have hsolid : Text.isBlank ',' = false := by decide
  rw [List.append_assoc, List.singleton_append, Text.trim, Text.trimStart, Text.trimEnd,
    Text.dropWhile_append_cons hsolid, Text.dropEndWhile_append_cons hsolid, ← Text.trimEnd,
    Cut.trimEnd_flatMap_original hcomma]
  rfl

/-- The parts of a line are read back as the line exactly if a single space was dropped at every
cut. -/
theorem readBack_eq_trim_iff (h : split? limit l = some parts) :
    ∃ (first : Line) (cuts : List Cut),
      parts = first :: cuts.map (fun cut => List.replicate (l.column + 2) ' ' ++ cut.text) ∧
      l = first ++ (cuts.flatMap fun cut => cut.gap ++ cut.text) ∧
      (readBack parts = Text.trim l ↔ ∀ cut ∈ cuts, cut.gap = [' ']) := by
  obtain ⟨first, cuts, hparts, hl, hfirst, hcomma⟩ := exists_cuts_of_split? h
  refine ⟨first, cuts, hparts, hl, ?_⟩
  have hindent : Text.allBlank (continuationIndent l) = true := by
    rw [Text.allBlank, List.all_eq_true]
    intro c hc
    rw [List.eq_of_mem_replicate hc]
    decide
  obtain ⟨init, rfl⟩ := List.getLast?_eq_some_iff.1 hfirst
  have htrim : Text.trim l = _ := (congrArg Text.trim hl).trans (trim_append_flatMap hcomma)
  rw [hparts, readBack_cons hindent, htrim, List.append_cancel_left_eq, List.cons.injEq,
    ← Cut.flatMap_trimEnd_eq_iff]
  simp only [true_and]

/-- In a list with single spaces behind its commas nothing else is dropped. -/
theorem readBack_eq_trim_iff_packages :
    split? 16 "- pkgs: aaa, bbb,ccc, ddd".toList =
      some ["- pkgs: aaa,".toList, "    bbb,ccc,".toList, "    ddd".toList] ∧
    ∃ (first : Line) (cuts : List Cut),
      ["- pkgs: aaa,".toList, "    bbb,ccc,".toList, "    ddd".toList] =
        first :: cuts.map (fun cut => List.replicate 4 ' ' ++ cut.text) ∧
      "- pkgs: aaa, bbb,ccc, ddd".toList =
        first ++ (cuts.flatMap fun cut => cut.gap ++ cut.text) ∧
      ∀ cut ∈ cuts, cut.gap = [' '] := by
  have h : split? 16 "- pkgs: aaa, bbb,ccc, ddd".toList =
      some ["- pkgs: aaa,".toList, "    bbb,ccc,".toList, "    ddd".toList] := by
    decide +kernel
  obtain ⟨first, cuts, hparts, hl, hiff⟩ := readBack_eq_trim_iff h
  exact ⟨h, first, cuts, hparts, hl, hiff.1 (by decide +kernel)⟩

/-- A command that is split at a comma without a space gets one when it is read back. -/
theorem not_readBack_eq_trim :
    ∃ (limit : Nat) (l : Line) (parts : List Line), l = "- shell: cp x.\x7baa,bb\x7d".toList ∧
      split? limit l = some parts ∧ readBack parts = "- shell: cp x.\x7baa, bb\x7d".toList ∧
      readBack parts ≠ Text.trim l :=
  ⟨20, _, ["- shell: cp x.\x7baa,".toList, "    bb\x7d".toList], rfl, by decide +kernel,
    by decide +kernel, by decide +kernel⟩

end Reflow

end TaskTidy
