import TaskTidy.Proofs.RenameEdits
import TaskTidy.Proofs.Replacements

/-!
# Truthy values and names of units

The words for yes and no and the names of units are told apart by the ends of their lines. A name of
a unit opens no block scalar before or after it is rewritten, so both sets may run at once.
-/

namespace TaskTidy

namespace Buffer

variable {b : Buffer} {i j : Nat} {l : Line}

/-- All lines keep their ancestors when a line is replaced by one of its frame. -/
theorem ancestors_set (hj : j < b.length) (hl : (b.line j).SameFrame l) (hi : i < b.length) :
    Buffer.ancestors (b.set j l) i = b.ancestors i := by
  induction i using Nat.strongRecOn with
  | ind i ih =>
      rw [ancestors_eq, ancestors_eq b,
        parent?_set_of_isSignificant hj hl.depth_eq hl.isSignificant_eq hi]
      cases hparent : b.parent? i with
      | none => rfl
      | some k =>
          have hki := parent?_lt hparent
          simp only [ih k hki (Nat.lt_trans hki hi)]

/-- A line of the same frame that opens a block scalar no more than before puts no line into one. -/
theorem inScalar_set (hj : j < b.length) (hl : (b.line j).SameFrame l)
    (hopens : l.opensScalar = (b.line j).opensScalar) (hi : i < b.length) :
    Buffer.inScalar (b.set j l) i = b.inScalar i := by
  have hself := map_line_set hj hopens
  have hframe := sameFrame_line_set hj hl
  simp only [inScalar, ancestors_set hj hl hi, (hframe _).column_eq, (hframe _).depth_eq, hself]

end Buffer

namespace RuleSets

open Pass

variable {l l' : Line} {name unit : String} {fold : Char → Char} {spellings : List String}

/-- Neither of the texts ends with the other. -/
def EndApart (s t : List Char) : Prop :=
  ¬ s <:+ t ∧ ¬ t <:+ s

instance (s t : List Char) : Decidable (EndApart s t) :=
  inferInstanceAs (Decidable (_ ∧ _))

theorem EndApart.false_of_suffix {s t text : List Char} (h : EndApart s t) (hs : s <:+ text)
    (ht : t <:+ text) : False :=
  (List.suffix_or_suffix_of_suffix hs ht).elim h.1 h.2

/-- No spelling of a unit ends a line that ends with a boolean. -/
theorem endApart_of_mem_unitRules (hr : (name, fold, spellings, unit) ∈ unitRules)
    {value : List Char} (hvalue : value = "true".toList ∨ value = "false".toList) :
    value.map fold = value ∧ ∀ spelling ∈ Text.keys spellings, EndApart value spelling := by
  simp only [unitRules, List.mem_cons, Prod.mk.injEq, List.not_mem_nil, or_false] at hr
  rcases hr with ⟨_, rfl, rfl, rfl⟩ | ⟨_, rfl, rfl, rfl⟩ | ⟨_, rfl, rfl, rfl⟩ <;>
    rcases hvalue with rfl | rfl <;> decide

/-- A line that ends with a boolean names no unit. -/
theorem renameUnit?_of_normalizeTruthy? (hr : (name, fold, spellings, unit) ∈ unitRules)
    (h : normalizeTruthy? l = some l') : renameUnit? fold spellings unit l' = none := by
  obtain ⟨head, word, value, _, _, rfl, hboolean, _, hcolon, _⟩ := of_normalizeTruthy? h
  obtain ⟨hfold, hapart⟩ := endApart_of_mem_unitRules hr (of_booleanOf? hboolean)
  rw [Option.eq_none_iff_forall_ne_some]
  intro l'' hrename
  obtain ⟨⟨rest, hrest, hword⟩, _⟩ := of_renameUnit? hrename
  have htext : (Line.unindented (head ++ value)).map fold = head.unindented.map fold ++ value := by
    rw [Line.unindented_append_of_mem hcolon (by decide), List.map_append, hfold]
  have hstripped : Text.dropEndWhile Text.isIndent (head.unindented.map fold ++ value) =
      head.unindented.map fold ++ value := by
    rw [Line.dropEndWhile_eq_self_iff]
    rcases of_booleanOf? hboolean with rfl | rfl
    · exact (Line.isStripped_append_of_ne_nil (by decide) rfl).trans (by decide)
    · exact (Line.isStripped_append_of_ne_nil (by decide) rfl).trans (by decide)
  rw [htext, hstripped] at hrest
  have hends : value <:+ "name:".toList ++ rest := by
    rw [← hrest]
    exact List.suffix_append _ _
  exact (hapart _ hword).false_of_suffix hends
    ((List.dropWhile_suffix _).trans (List.suffix_append _ _))

/-- No word for yes or no ends a line that ends with the name of a unit. -/
theorem normalizeTruthy?_of_renameUnit? (hr : (name, fold, spellings, unit) ∈ unitRules)
    (h : renameUnit? fold spellings unit l = some l') : normalizeTruthy? l' = none := by
  obtain ⟨_, hl'⟩ := of_renameUnit? h
  have hunits : unitRules.all (fun r => (affirmatives ++ negatives).all fun word =>
      decide (EndApart word r.2.2.2.toList)) = true := by
    decide
  have hunit := List.all_eq_true.1 hunits _ hr
  rw [Option.eq_none_iff_forall_ne_some]
  intro l'' htruthy
  obtain ⟨head, word, value, blanks, hline, _, hboolean, hblanks, _⟩ := of_normalizeTruthy? htruthy
  have hapart := of_decide_eq_true (List.all_eq_true.1 hunit word (mem_of_booleanOf? hboolean))
  have hstripped : Line.isStripped l' = true := by
    rw [hl', Line.isStripped_append_of_ne_nil (t := "name: ".toList ++ unit.toList) (by simp) rfl]
    exact (of_mem_unitRules hr).2.2
  have hnil : blanks = [] := by
    by_contra hne
    rw [hline, Line.isStripped_append_of_ne_nil hne rfl, Line.isStripped,
      List.getLast?_eq_some_getLast hne, Option.all_some,
      hblanks _ (List.getLast_mem hne)] at hstripped
    cases hstripped
  have hword : word <:+ l' := by
    rw [hline, hnil, List.append_nil]
    exact List.suffix_append _ _
  have hname : unit.toList <:+ l' := by
    rw [hl', ← List.append_assoc]
    exact List.suffix_append _ _
  exact hapart.false_of_suffix hword hname

/-- The name of a unit opens no block scalar, and neither does what stood there before. -/
theorem opensScalar_of_renameUnit? (hr : (name, fold, spellings, unit) ∈ unitRules)
    (h : renameUnit? fold spellings unit l = some l') : l'.opensScalar = l.opensScalar := by
  obtain ⟨_, hl'⟩ := of_renameUnit? h
  have hunits : unitRules.all (fun r => ['|', '>'].all fun c =>
      !("name: ".toList ++ r.2.2.2.toList).contains c) = true := by
    decide
  have hnot (c : Char) (hc : c ∈ ['|', '>']) (hsolid : Text.isIndent c = false) : c ∉ l' := by
    have hunit := List.all_eq_true.1 (List.all_eq_true.1 hunits _ hr) c hc
    rw [hl', Line.take_depth, List.mem_append]
    rintro (hmem | hmem)
    · rw [Line.isIndent_of_mem_indentation hmem] at hsolid
      cases hsolid
    · rw [List.contains_iff_mem.2 hmem] at hunit
      cases hunit
  rw [Line.opensScalar_eq_false (hnot '|' (by decide) rfl) (hnot '>' (by decide) rfl),
    Line.opensScalar_eq_false (not_mem_of_renameUnit? hr h (by decide))
      (not_mem_of_renameUnit? hr h (by decide))]

/-- The rules of the two sets, as they are listed by them. -/
theorem keepApart_truthy_serviceNames :
    KeepApart [("truthy-value", [Guard.outsideScalar], normalizeTruthy?)]
      (unitRules.map fun r => (r.1, [Guard.nested], renameUnit? r.2.1 r.2.2.1 r.2.2.2)) where
  looksUp := by decide
  looksUp' := by decide
  ne r hr l l' h := by
    obtain rfl := List.mem_singleton.1 hr
    rintro rfl
    exact Option.some_ne_none _ (h.symm.trans (normalizeTruthy?_of_eq_some h))
  silent r hr r' hr' l l' h := by
    obtain rfl := List.mem_singleton.1 hr
    obtain ⟨unit, hunit, rfl⟩ := List.mem_map.1 hr'
    exact renameUnit?_of_normalizeTruthy? hunit h
  silent' r hr r' hr' l l' h := by
    obtain rfl := List.mem_singleton.1 hr
    obtain ⟨unit, hunit, rfl⟩ := List.mem_map.1 hr'
    exact normalizeTruthy?_of_renameUnit? hunit h
  allows_set r hr g hg r' hr' b i j l hi hj h := by
    obtain rfl := List.mem_singleton.1 hr
    obtain rfl := List.mem_singleton.1 hg
    obtain ⟨unit, hunit, rfl⟩ := List.mem_map.1 hr'
    rw [Guard.allows, Guard.allows, Buffer.inScalar_set hj (climbs_of_renameUnit? hunit h).sameFrame
      (opensScalar_of_renameUnit? hunit h) hi]

end RuleSets

end TaskTidy
