import TaskTidy.Document
import TaskTidy.Proofs.Encoding

/-!
# Reading and rendering a document

Rendering undoes reading, for texts and for the bytes of texts. The documents that a second reading
gives back are the canonical ones: those whose ending and whose last line can be told from the
rendered text.
-/

namespace TaskTidy

namespace Text

theorem exists_pieces_cons {sep c : Char} (h : c ≠ sep) (s : List Char) :
    ∃ first more, pieces sep s = first :: more ∧ pieces sep (c :: s) = (c :: first) :: more := by
  cases hs : pieces sep s with
  | nil => exact absurd hs (pieces_ne_nil sep s)
  | cons first more => exact ⟨first, more, rfl, by simp [pieces, h, hs]⟩

theorem pieces_append_cons {sep : Char} {piece : List Char} (h : sep ∉ piece) (s : List Char) :
    pieces sep (piece ++ sep :: s) = piece :: pieces sep s := by
  induction piece with
  | nil => simp [pieces]
  | cons c piece ih =>
      rw [List.mem_cons, not_or] at h
      simp [pieces, Ne.symm h.1, ih h.2]

theorem pieces_of_not_mem {sep : Char} {piece : List Char} (h : sep ∉ piece) :
    pieces sep piece = [piece] := by
  induction piece with
  | nil => rfl
  | cons c piece ih =>
      rw [List.mem_cons, not_or] at h
      simp [pieces, Ne.symm h.1, ih h.2]

theorem not_mem_of_mem_pieces {sep : Char} {s piece : List Char} (h : piece ∈ pieces sep s) :
    sep ∉ piece := by
  induction s generalizing piece with
  | nil => simp_all [pieces]
  | cons c rest ih =>
      unfold pieces at h
      split at h
      · cases h with
        | head => exact List.not_mem_nil
        | tail _ h => exact ih h
      · next hc =>
          cases hp : pieces sep rest with
          | nil => exact absurd hp (pieces_ne_nil sep rest)
          | cons first more =>
              rw [hp] at h ih
              cases h with
              | head => simp [Ne.symm hc, ih List.mem_cons_self]
              | tail _ h => exact ih (List.mem_cons_of_mem first h)

/-- The text of pieces that are each followed by `sep`. -/
def endEach (sep : List Char) (pieces : List (List Char)) : List Char :=
  pieces.flatMap (· ++ sep)

/-- Terminated pieces and the text after them are found again by cutting. -/
theorem pieces_endEach_append {sep : Char} {terminated : List (List Char)} {last : List Char}
    (h : ∀ piece ∈ terminated, sep ∉ piece) (hlast : sep ∉ last) :
    pieces sep (endEach [sep] terminated ++ last) = terminated ++ [last] := by
  induction terminated with
  | nil => exact pieces_of_not_mem hlast
  | cons piece more ih =>
      obtain ⟨hpiece, hmore⟩ := List.forall_mem_cons.1 h
      calc pieces sep (endEach [sep] (piece :: more) ++ last)
          = pieces sep (piece ++ sep :: (endEach [sep] more ++ last)) := by simp [endEach]
        _ = piece :: pieces sep (endEach [sep] more ++ last) := pieces_append_cons hpiece _
        _ = piece :: more ++ [last] := by rw [ih hmore, List.cons_append]

/-- Joining leaves the last piece without a separator. -/
theorem joinWith_append_singleton (sep : List Char) (terminated : List (List Char))
    (last : List Char) : joinWith sep (terminated ++ [last]) = endEach sep terminated ++ last := by
  induction terminated with
  | nil => rfl
  | cons piece more ih =>
      cases hmore : more ++ [last] with
      | nil => simp at hmore
      | cons next others =>
          rw [List.cons_append, hmore, joinWith, ← hmore, ih]
          simp [endEach]

end Text

namespace Document

open Text

/-- The lines that are followed by the ending. -/
def terminated (d : Document) : Buffer :=
  if d.finalNewline then d.lines else d.lines.dropLast

/-- The text after the last ending. -/
def unterminated (d : Document) : Line :=
  if d.finalNewline then [] else d.lines.getLast?.getD []

/-- A document that can be told from its text: no line contains a newline, a document without lines
has the default ending, a last line without ending is not empty, and the terminated lines show which
ending they have. -/
structure IsCanonical (d : Document) : Prop where
  noNewline : ∀ l ∈ d.lines, '\n' ∉ l
  empty : d.lines = [] → d.ending = .lf ∧ d.finalNewline = false
  last : d.lines ≠ [] → d.finalNewline = true ∨ d.lines.getLast? ≠ some []
  crlf : d.ending = .crlf → d.terminated ≠ []
  lf : d.ending = .lf → d.terminated = [] ∨ ∃ l ∈ d.terminated, endsInReturn l = false

/-- A rendered document is its terminated lines and the text after them. -/
theorem render_eq (d : Document) :
    d.render = endEach d.ending.text d.terminated ++ d.unterminated := by
  obtain ⟨lines, ending, finalNewline⟩ := d
  rcases List.eq_nil_or_concat lines with rfl | ⟨front, last, rfl⟩
  · cases finalNewline <;> rfl
  · cases finalNewline <;>
      simp [render, terminated, unterminated, joinWith_append_singleton, endEach]

/-- The document of given terminated lines and the text after them. -/
def ofParts (front : Buffer) (ending : LineEnding) (last : Line) : Document :=
  ⟨front ++ if last.isEmpty then [] else [last], ending, last.isEmpty && !front.isEmpty⟩

section OfParts

variable {front : Buffer} {ending : LineEnding} {last : Line}

@[simp]
theorem terminated_ofParts : (ofParts front ending last).terminated = front := by
  by_cases hlast : last = []
  · cases front <;> simp [ofParts, terminated, hlast]
  · simp [ofParts, terminated, hlast]

@[simp]
theorem unterminated_ofParts : (ofParts front ending last).unterminated = last := by
  by_cases hlast : last = []
  · cases front <;> simp [ofParts, unterminated, hlast]
  · simp [ofParts, unterminated, hlast]

theorem render_ofParts :
    (ofParts front ending last).render = endEach ending.text front ++ last := by
  rw [render_eq, terminated_ofParts, unterminated_ofParts]
  rfl

theorem isCanonical_ofParts (hfront : ∀ l ∈ front, '\n' ∉ l) (hlast : '\n' ∉ last)
    (hcrlf : ending = .crlf → front ≠ [])
    (hlf : ending = .lf → front = [] ∨ ∃ l ∈ front, endsInReturn l = false) :
    (ofParts front ending last).IsCanonical where
  noNewline := by
    intro l hl
    simp only [ofParts, List.mem_append] at hl
    cases hl with
    | inl hl => exact hfront l hl
    | inr hl =>
        split at hl
        · cases hl
        · rwa [List.mem_singleton.1 hl]
  empty := by
    intro hlines
    obtain ⟨rfl, _⟩ := List.append_eq_nil_iff.1 hlines
    refine ⟨?_, by simp [ofParts]⟩
    cases ending with
    | lf => rfl
    | crlf => exact absurd rfl (hcrlf rfl)
  last := by
    by_cases hempty : last = []
    · simpa [ofParts, hempty] using Or.inl
    · simp [ofParts, hempty]
  crlf := by
    rw [terminated_ofParts]
    exact hcrlf
  lf := by
    rw [terminated_ofParts]
    exact hlf

end OfParts

/-- A canonical document is made of its terminated lines and the text after them. -/
theorem IsCanonical.eq_ofParts {d : Document} (h : d.IsCanonical) :
    ofParts d.terminated d.ending d.unterminated = d := by
  have hempty := h.empty
  have hlast := h.last
  obtain ⟨lines, ending, finalNewline⟩ := d
  rcases List.eq_nil_or_concat lines with rfl | ⟨front, last, rfl⟩
  · obtain ⟨rfl, rfl⟩ := hempty rfl
    rfl
  · cases finalNewline with
    | true => simp [ofParts, terminated, unterminated]
    | false =>
        have hne : last ≠ [] := by simpa using hlast
        simp [ofParts, terminated, unterminated, hne]

/-- Whether there are terminated pieces and a carriage return ends each of them. -/
def allReturn (front : Buffer) : Bool :=
  !front.isEmpty && front.all endsInReturn

theorem allReturn_eq_true_iff {front : Buffer} :
    allReturn front = true ↔ front ≠ [] ∧ ∀ l ∈ front, endsInReturn l = true := by
  simp [allReturn]

theorem allReturn_eq_false_iff {front : Buffer} :
    allReturn front = false ↔ front = [] ∨ ∃ l ∈ front, endsInReturn l = false := by
  simp [allReturn, Decidable.or_iff_not_imp_left]

section Pieces

variable {front : Buffer} {last : Line}

/-- Reading cuts at the newlines, and at the carriage returns before them if they are everywhere. -/
theorem parse_endEach_append (hfront : ∀ l ∈ front, '\n' ∉ l) (hlast : '\n' ∉ last) :
    parse (endEach ['\n'] front ++ last) =
      if allReturn front then ofParts (front.map List.dropLast) .crlf last
      else ofParts front .lf last := by
  simp only [parse, pieces_endEach_append hfront hlast, List.dropLast_concat,
    List.getLast?_concat, Option.getD_some]
  change (if allReturn front then _ else _) = _
  by_cases hall : allReturn front = true
  · have hne : front ≠ [] := (allReturn_eq_true_iff.1 hall).1
    rw [if_pos hall, if_pos hall]
    simp [ofParts, hne]
  · rw [if_neg hall, if_neg hall]
    rfl

/-- Every text is made of the pieces between its newlines. -/
theorem exists_eq_endEach_append (s : List Char) :
    ∃ front last, s = endEach ['\n'] front ++ last ∧ (∀ l ∈ front, '\n' ∉ l) ∧ '\n' ∉ last := by
  have hne := pieces_ne_nil '\n' s
  refine ⟨(pieces '\n' s).dropLast, (pieces '\n' s).getLast hne, ?_, ?_, ?_⟩
  · rw [← joinWith_append_singleton, List.dropLast_concat_getLast hne, joinWith_pieces]
  · intro l hl
    exact not_mem_of_mem_pieces (List.dropLast_subset _ hl)
  · exact not_mem_of_mem_pieces (List.getLast_mem hne)

theorem dropLast_append_return {l : Line} (h : endsInReturn l = true) :
    l.dropLast ++ ['\r'] = l := by
  have hlast : l.getLast? = some '\r' := by simpa [endsInReturn] using h
  obtain ⟨start, rfl⟩ := List.getLast?_eq_some_iff.1 hlast
  simp

/-- Pieces that end in a carriage return are lines with the longer ending. -/
theorem endEach_map_dropLast (h : ∀ l ∈ front, endsInReturn l = true) :
    endEach ['\r', '\n'] (front.map List.dropLast) = endEach ['\n'] front := by
  induction front with
  | nil => rfl
  | cons l more ih =>
      obtain ⟨hl, hmore⟩ := List.forall_mem_cons.1 h
      calc endEach ['\r', '\n'] ((l :: more).map List.dropLast)
          = (l.dropLast ++ ['\r']) ++ '\n' :: endEach ['\r', '\n'] (more.map List.dropLast) := by
            simp [endEach]
        _ = l ++ '\n' :: endEach ['\n'] more := by rw [dropLast_append_return hl, ih hmore]
        _ = endEach ['\n'] (l :: more) := by simp [endEach]

/-- Lines with the longer ending are pieces that end in a carriage return. -/
theorem endEach_map_append_return (front : Buffer) :
    endEach ['\n'] (front.map (· ++ ['\r'])) = endEach ['\r', '\n'] front := by
  simp [endEach, List.flatMap_map]

end Pieces

/-- Rendering what was read gives the text back. -/
theorem render_parse (s : List Char) : (parse s).render = s := by
  obtain ⟨front, last, rfl, hfront, hlast⟩ := exists_eq_endEach_append s
  rw [parse_endEach_append hfront hlast]
  split
  · next hall =>
      calc (ofParts (front.map List.dropLast) .crlf last).render
          = endEach ['\r', '\n'] (front.map List.dropLast) ++ last := render_ofParts
        _ = endEach ['\n'] front ++ last := by
            rw [endEach_map_dropLast (allReturn_eq_true_iff.1 hall).2]
  · exact render_ofParts

/-- What was read is canonical. -/
theorem isCanonical_parse (s : List Char) : (parse s).IsCanonical := by
  obtain ⟨front, last, rfl, hfront, hlast⟩ := exists_eq_endEach_append s
  rw [parse_endEach_append hfront hlast]
  split
  · next hall =>
      refine isCanonical_ofParts ?_ hlast (fun _ => ?_) nofun
      · intro l hl
        obtain ⟨piece, hpiece, rfl⟩ := List.mem_map.1 hl
        exact fun hmem => hfront piece hpiece (List.dropLast_subset _ hmem)
      · simpa using (allReturn_eq_true_iff.1 hall).1
  · next hall =>
      exact isCanonical_ofParts hfront hlast nofun fun _ =>
        allReturn_eq_false_iff.1 (Bool.eq_false_iff.2 hall)

section

variable {d : Document} {l : Line}

theorem mem_lines_of_mem_terminated (hl : l ∈ d.terminated) : l ∈ d.lines := by
  unfold terminated at hl
  split at hl
  · exact hl
  · exact List.dropLast_subset _ hl

theorem unterminated_mem_lines (hne : d.unterminated ≠ []) : d.unterminated ∈ d.lines := by
  unfold unterminated at hne ⊢
  split at hne
  · exact absurd rfl hne
  · next hflag =>
      rw [if_neg hflag]
      cases hlast : d.lines.getLast? with
      | none => exact absurd (by rw [hlast]; rfl) hne
      | some l => exact List.mem_of_getLast? hlast

theorem newline_not_mem_unterminated (h : ∀ l ∈ d.lines, '\n' ∉ l) : '\n' ∉ d.unterminated :=
  fun hmem => h _ (unterminated_mem_lines (List.ne_nil_of_mem hmem)) hmem

end

/-- Reading what a canonical document renders gives the document back. -/
theorem IsCanonical.parse_render {d : Document} (h : d.IsCanonical) : parse d.render = d := by
  have hfront : ∀ l ∈ d.terminated, '\n' ∉ l := fun l hl =>
    h.noNewline l (mem_lines_of_mem_terminated hl)
  have hlast := newline_not_mem_unterminated h.noNewline
  rw [render_eq]
  cases hending : d.ending with
  | lf =>
      have hall := allReturn_eq_false_iff.2 (h.lf hending)
      rw [LineEnding.text, parse_endEach_append hfront hlast, hall,
        if_neg Bool.false_ne_true, ← hending]
      exact h.eq_ofParts
  | crlf =>
      have hall : allReturn (d.terminated.map (· ++ ['\r'])) = true := by
        refine allReturn_eq_true_iff.2 ⟨by simpa using h.crlf hending, ?_⟩
        simp [endsInReturn]
      have hreturns : ∀ l ∈ d.terminated.map (· ++ ['\r']), '\n' ∉ l := by
        intro l hl
        obtain ⟨line, hline, rfl⟩ := List.mem_map.1 hl
        simpa using hfront line hline
      have hlines : (d.terminated.map (· ++ ['\r'])).map List.dropLast = d.terminated := by
        simp [Function.comp_def]
      rw [LineEnding.text, ← endEach_map_append_return,
        parse_endEach_append hreturns hlast, if_pos hall, hlines, ← hending]
      exact h.eq_ofParts

/-- Reading undoes rendering for the canonical documents and for no others. -/
theorem parse_render_eq_self_iff {d : Document} : parse d.render = d ↔ d.IsCanonical := by
  constructor
  · intro h
    rw [← h]
    exact isCanonical_parse d.render
  · exact IsCanonical.parse_render

/-- Bytes are accepted as the canonical document they are the bytes of. -/
theorem ofBytes_eq_ok_iff {bytes : List UInt8} {d : Document} :
    ofBytes bytes = .ok d ↔ d.IsCanonical ∧ Utf8.encode d.render = bytes := by
  unfold ofBytes
  constructor
  · intro h
    cases hs : Utf8.decode bytes with
    | error n =>
        rw [hs] at h
        cases h
    | ok s =>
        rw [hs] at h
        cases h
        refine ⟨isCanonical_parse s, ?_⟩
        rw [render_parse]
        exact Utf8.decode_eq_ok_iff.1 hs
  · rintro ⟨hcanonical, hbytes⟩
    rw [Utf8.decode_eq_ok_iff.2 hbytes]
    exact congrArg Except.ok hcanonical.parse_render

/-- Reading and rendering are mutually inverse between all texts and the canonical documents, and
accepted bytes are rendered as they were. -/
theorem reading_inverts_rendering :
    (∀ s, (parse s).render = s) ∧
      (∀ bytes d, ofBytes bytes = .ok d ↔ d.IsCanonical ∧ Utf8.encode d.render = bytes) ∧
      ∀ d, parse d.render = d ↔ d.IsCanonical :=
  ⟨render_parse, fun _ _ => ofBytes_eq_ok_iff, fun _ => parse_render_eq_self_iff⟩

end Document
end TaskTidy
