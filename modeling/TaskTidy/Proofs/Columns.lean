import Mathlib.Data.List.TakeWhile
import TaskTidy.Line.Basic

/-!
# Writing behind the indentation

A line is its indentation and the text after it, or the part before its content column and its body.
A rewrite that keeps the first part and starts the second with a character that is neither an
indentation nor a dash keeps the depth and the content column.
-/

namespace TaskTidy.Line

/-- The indentation of a line. -/
def indentation (l : Line) : Line :=
  l.takeWhile Text.isIndent

theorem isIndent_of_mem_indentation {l : Line} {c : Char} (h : c ∈ l.indentation) :
    Text.isIndent c = true :=
  List.mem_takeWhile_imp h

theorem indentation_append_unindented (l : Line) : l.indentation ++ l.unindented = l :=
  List.takeWhile_append_dropWhile

theorem mem_of_mem_unindented {l : Line} {c : Char} (h : c ∈ l.unindented) : c ∈ l :=
  (List.dropWhile_sublist _).mem h

theorem take_depth (l : Line) : l.take l.depth = l.indentation := by
  calc l.take l.depth = (l.indentation ++ l.unindented).take l.indentation.length := by
        rw [indentation_append_unindented]
        rfl
    _ = l.indentation := List.take_left

theorem take_depth_append (l t : Line) : (l.take l.depth ++ t).take l.depth = l.take l.depth := by
  rw [take_depth]
  exact List.take_left

theorem startsIndented_unindented (l : Line) : startsIndented l.unindented = false := by
  induction l with
  | nil => rfl
  | cons c rest ih =>
      by_cases h : Text.isIndent c = true
      · simpa [unindented, h] using ih
      · simp [unindented, h, startsIndented]

section

variable {s t : Line} (hs : ∀ c ∈ s, Text.isIndent c = true) (ht : startsIndented t = false)

include hs ht

theorem indentation_append : indentation (s ++ t) = s := by
  rw [indentation, List.takeWhile_append_of_pos hs]
  cases t with
  | nil => simp
  | cons c rest => simp [show Text.isIndent c = false from ht]

theorem unindented_append : unindented (s ++ t) = t := by
  rw [unindented, List.dropWhile_append_of_pos hs]
  cases t with
  | nil => rfl
  | cons c rest => simp [show Text.isIndent c = false from ht]

theorem depth_append : depth (s ++ t) = s.length :=
  congrArg List.length (indentation_append hs ht)

end

/-- What stands behind a text does not change its depth. -/
theorem depth_append_of_mem {s t : Line} {c : Char} (hc : c ∈ s)
    (hsolid : Text.isIndent c = false) : depth (s ++ t) = depth s := by
  have hne : (s.takeWhile Text.isIndent).length ≠ s.length := by
    intro hlen
    have hs := (List.takeWhile_prefix Text.isIndent).eq_of_length hlen
    have hall := List.mem_takeWhile_imp (hs.symm ▸ hc)
    rw [hsolid] at hall
    cases hall
  rw [depth, depth, List.takeWhile_append, if_neg hne]

/-- The width of the dash of a list item and the blanks after it, at the start of a text. -/
def dashWidth (s : List Char) : Nat :=
  match s with
  | '-' :: after => if startsIndented after then 1 + depth after else 0
  | _ => 0

theorem column_eq (l : Line) : l.column = l.depth + dashWidth l.unindented := by
  unfold column
  split
  · next after h =>
      rw [h, dashWidth]
      split
      · omega
      · rfl
  · next h =>
      rw [dashWidth]
      · rfl
      · exact h

theorem dashWidth_le_length (s : List Char) : dashWidth s ≤ s.length := by
  unfold dashWidth
  split
  · next after =>
      split
      · have : depth after ≤ after.length := by
          rw [depth]
          exact (List.takeWhile_sublist _).length_le
        rw [List.length_cons]
        omega
      · exact Nat.zero_le _
  · exact Nat.zero_le _

theorem take_column (l : Line) :
    l.take l.column = l.indentation ++ l.unindented.take (dashWidth l.unindented) := by
  calc l.take l.column
      = (l.indentation ++ l.unindented).take (l.indentation.length + dashWidth l.unindented) := by
        rw [indentation_append_unindented, column_eq]
        rfl
    _ = _ := List.take_length_add_append _

theorem body_eq (l : Line) : l.body = l.unindented.drop (dashWidth l.unindented) := by
  rw [body, column_eq, ← List.drop_drop, drop_depth]

theorem take_column_append_body (l : Line) : l.take l.column ++ l.body = l :=
  List.take_append_drop _ _

/-- A character that stands for itself at the start of a body: it is no indentation and no dash. -/
def startsBody (s : List Char) : Bool :=
  match s with
  | [] => false
  | c :: _ => !Text.isIndent c && c != '-'

theorem startsIndented_of_startsBody {s : List Char} (h : startsBody s = true) :
    startsIndented s = false := by
  cases s with
  | nil => rfl
  | cons c rest =>
      simp only [startsBody, Bool.and_eq_true, Bool.not_eq_true'] at h
      exact h.1

theorem dashWidth_cons_of_ne {c : Char} {rest : List Char} (hc : c ≠ '-') :
    dashWidth (c :: rest) = 0 := by
  unfold dashWidth
  split
  · next heq =>
      cases heq
      exact absurd rfl hc
  · rfl

theorem dashWidth_of_startsBody {s : List Char} (h : startsBody s = true) : dashWidth s = 0 := by
  cases s with
  | nil => rfl
  | cons c rest =>
      simp only [startsBody, Bool.and_eq_true, bne_iff_ne, ne_eq] at h
      exact dashWidth_cons_of_ne h.2

theorem dashWidth_cons_of_startsIndented {after : List Char}
    (h : startsIndented after = true) : dashWidth ('-' :: after) = 1 + depth after := by
  simp only [dashWidth, h, if_true]

/-- In front of the content stand blanks and at most a dash. -/
theorem of_mem_take_column {l : Line} {c : Char} (h : c ∈ l.take l.column) :
    Text.isIndent c = true ∨ c = '-' := by
  rw [take_column, List.mem_append] at h
  rcases h with h | h
  · exact Or.inl (isIndent_of_mem_indentation h)
  · cases hu : l.unindented with
    | nil =>
        rw [hu] at h
        cases h
    | cons x after =>
        rw [hu] at h
        unfold dashWidth at h
        split at h
        · next heq =>
            cases heq
            split at h
            · rw [Nat.add_comm, List.take_succ_cons, take_depth] at h
              rcases List.mem_cons.1 h with rfl | h
              · exact Or.inr rfl
              · exact Or.inl (isIndent_of_mem_indentation h)
            · cases h
        · cases h

private theorem dashWidth_take_append {u t : List Char} (ht : startsBody t = true) :
    dashWidth (u.take (dashWidth u) ++ t) = dashWidth u ∧
      startsIndented (u.take (dashWidth u) ++ t) = startsIndented (u.take (dashWidth u)) := by
  have hzero := dashWidth_of_startsBody ht
  by_cases hu : dashWidth u = 0
  · rw [hu]
    simp only [List.take_zero, List.nil_append, hzero, true_and]
    rw [startsIndented_of_startsBody ht]
    rfl
  · cases u with
    | nil => exact absurd rfl hu
    | cons c after =>
        unfold dashWidth at hu
        split at hu
        · next heq =>
            cases heq
            split at hu
            · next hafter =>
                have hwidth := dashWidth_cons_of_startsIndented hafter
                have htake : ('-' :: after).take (1 + depth after) = '-' :: indentation after := by
                  rw [Nat.add_comm, List.take_succ_cons, take_depth]
                have hind : startsIndented (indentation after ++ t) = true := by
                  cases after with
                  | nil => cases hafter
                  | cons d more =>
                      have hd : Text.isIndent d = true := hafter
                      simp [indentation, hd, startsIndented]
                have hdepth : depth (indentation after ++ t) = depth after :=
                  depth_append (fun _ => isIndent_of_mem_indentation)
                    (startsIndented_of_startsBody ht)
                rw [hwidth, htake]
                refine ⟨?_, rfl⟩
                simp [dashWidth, hind, hdepth]
            · exact absurd rfl hu
        · exact absurd rfl hu

section

variable {l : Line} {t : List Char} (ht : startsBody t = true)

include ht

/-- The line after a rewrite of its body. -/
private theorem take_column_append_eq : ∃ u, l.take l.column ++ t = l.indentation ++ u ∧
    startsIndented u = false ∧ dashWidth u = dashWidth l.unindented ∧
    u.drop (dashWidth u) = t := by
  obtain ⟨hwidth, hind⟩ := dashWidth_take_append (u := l.unindented) ht
  refine ⟨l.unindented.take (dashWidth l.unindented) ++ t, ?_, ?_, hwidth, ?_⟩
  · rw [take_column, List.append_assoc]
  · rw [hind]
    have hun := l.startsIndented_unindented
    cases hu : l.unindented with
    | nil => rfl
    | cons c rest =>
        rw [hu] at hun
        cases dashWidth (c :: rest) with
        | zero => rfl
        | succ n => exact hun
  · rw [hwidth]
    apply List.drop_left'
    rw [List.length_take, Nat.min_eq_left (dashWidth_le_length _)]

theorem depth_take_column_append : depth (l.take l.column ++ t) = l.depth := by
  obtain ⟨u, heq, hu, _, _⟩ := take_column_append_eq (l := l) ht
  rw [heq, depth_append (fun _ => isIndent_of_mem_indentation) hu]
  rfl

theorem column_take_column_append : column (l.take l.column ++ t) = l.column := by
  obtain ⟨u, heq, hu, hwidth, _⟩ := take_column_append_eq (l := l) ht
  rw [column_eq (l.take l.column ++ t), depth_take_column_append ht, heq,
    unindented_append (fun _ => isIndent_of_mem_indentation) hu, hwidth, ← column_eq]

theorem body_take_column_append : body (l.take l.column ++ t) = t := by
  obtain ⟨u, heq, hu, hwidth, hdrop⟩ := take_column_append_eq (l := l) ht
  rw [body_eq, heq, unindented_append (fun _ => isIndent_of_mem_indentation) hu, hdrop]

end

section

variable {l : Line} {t : List Char} (ht : startsIndented t = false)

include ht

theorem depth_take_depth_append : depth (l.take l.depth ++ t) = l.depth := by
  rw [take_depth, depth_append (fun _ => isIndent_of_mem_indentation) ht]
  rfl

theorem unindented_take_depth_append : unindented (l.take l.depth ++ t) = t := by
  rw [take_depth, unindented_append (fun _ => isIndent_of_mem_indentation) ht]

end

end TaskTidy.Line
