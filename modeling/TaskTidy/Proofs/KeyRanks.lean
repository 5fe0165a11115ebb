import TaskTidy.Proofs.Injections
import TaskTidy.Proofs.LineSeparation

/-!
# Ranks that are read off keys

A rank of keys is a rank of lines, with the lines without a key ranking lowest. A line that is split
at its commas keeps its key in the first part and gives none to the others. A field injection adds a
line of a lower rank if the field ranks below the keys that start its blocks.
-/

namespace TaskTidy

namespace Line

variable {l : Line} {s t : List Char} {c : Char}

/-- The rank of the key of a line; zero without a key. -/
def keyRank (rank : List Char → Nat) (l : Line) : Nat :=
  match l.key? with
  | none => 0
  | some key => rank key

theorem keyRank_of_key? {rank : List Char → Nat} {key : List Char} (h : l.key? = some key) :
    l.keyRank rank = rank key := by
  rw [keyRank, h]

theorem keyRank_of_key?_eq_none {rank : List Char → Nat} (h : l.key? = none) :
    l.keyRank rank = 0 := by
  rw [keyRank, h]

/-- A text that ends in its key ends in the colon or a blank behind it. -/
theorem getLast?_of_entryOf? {key : List Char} (h : entryOf? s = some ⟨key, []⟩) :
    ∃ c, s.getLast? = some c ∧ (c = ':' ∨ Text.isIndent c = true) := by
  obtain ⟨blanks, after, hsplit, _, hafter, _⟩ := exists_colon_of_entryOf? h
  rw [append_of_splitKey? hsplit]
  obtain ⟨rfl, _⟩ | ⟨c, hc, rfl⟩ := hafter
  · exact ⟨':', by simp, .inl rfl⟩
  · exact ⟨c, by simp, .inr hc⟩

/-- A text that ends in the value of its key may be continued. -/
theorem entryOf?_append_of_getLast? {entry : Entry} (h : entryOf? s = some entry)
    (hlast : s.getLast? = some c) (hcolon : c ≠ ':') (hc : Text.isIndent c = false)
    (t : List Char) : entryOf? (s ++ t) = some ⟨entry.key, entry.rest ++ t⟩ := by
  have hrest : entry.rest ≠ [] := by
    intro hnil
    obtain ⟨key, rest⟩ := entry
    subst hnil
    obtain ⟨c', hlast', hc'⟩ := getLast?_of_entryOf? h
    cases hlast.symm.trans hlast'
    rcases hc' with rfl | hindent
    · exact hcolon rfl
    · rw [hc] at hindent
      cases hindent
  obtain ⟨blanks, x, hs, _, _, hfree⟩ := exists_lead_of_entryOf? h hrest
  rw [hs, List.append_assoc, hfree]

theorem exists_entry_of_key? {key : List Char} (h : l.key? = some key) :
    ∃ entry, entryOf? l.body = some entry ∧ entry.key = key := by
  unfold key? at h
  split at h
  · exact Option.map_eq_some_iff.1 h
  · cases h

theorem key?_of_entryOf? {entry : Entry} (h : entryOf? l.body = some entry) :
    l.key? = some entry.key := by
  rw [key?, if_pos (isEntry_of_entryOf? h), h]
  rfl

/-- A line that ends in a comma holds the comma in its body, and what follows it stands in the body
as well. -/
theorem body_append_of_comma (hlast : l.getLast? = some ',') (t : Line) :
    l.body.getLast? = some ',' ∧ body (l ++ t) = l.body ++ t := by
  have hlt : l.column < l.length := by
    apply Nat.lt_of_not_le
    intro hle
    have hcomma := List.mem_of_getLast? hlast
    rw [← List.take_of_length_le hle] at hcomma
    exact absurd (of_mem_take_column hcomma) (by decide)
  have hframe := sameFrame_append (List.mem_of_getLast? hlast) (by decide) (by decide) t
  constructor
  · rw [body, List.getLast?_drop, if_neg (Nat.not_le_of_lt hlt), hlast]
  · rw [body, body, hframe.column_eq, List.drop_append_of_le_length hlt.le]

/-- A line that ends in a comma keeps its key whatever follows. -/
theorem key?_append_of_comma {key : List Char} (hlast : l.getLast? = some ',')
    (h : l.key? = some key) (t : Line) : key? (l ++ t) = some key := by
  obtain ⟨entry, hentry, rfl⟩ := exists_entry_of_key? h
  obtain ⟨hlast', hbody⟩ := body_append_of_comma hlast t
  have hagain := entryOf?_append_of_getLast? hentry hlast' (by decide) (by decide) t
  rw [← hbody] at hagain
  exact (key?_of_entryOf? hagain :)

end Line

namespace Reflow

variable {limit : Nat} {l first : Line} {rest : List Line}

/-- The first part of a line is a beginning of it that ends in a comma, and the other parts are
plain text. -/
theorem of_split?_cons (h : split? limit l = some (first :: rest)) :
    first <+: l ∧ first.getLast? = some ',' ∧ ∀ part ∈ rest, part.key? = none := by
  obtain ⟨_, cuts, hparts, hl, hfirst, _⟩ := exists_cuts_of_split? h
  obtain ⟨rfl, rfl⟩ := List.cons.inj hparts
  refine ⟨⟨_, hl.symm⟩, hfirst, fun part hpart => ?_⟩
  have hplain := isPlainContinuation_of_split? h hpart
  simp only [isPlainContinuation, Bool.and_eq_true, decide_eq_true_eq] at hplain
  rw [Line.key?, hplain.1.2]
  rfl

/-- A split does not raise the rank of a line in its first part, and its other parts rank lowest. -/
theorem keyRank_of_split? (rank : List Char → Nat) (h : split? limit l = some (first :: rest)) :
    first.keyRank rank ≤ l.keyRank rank ∧ ∀ part ∈ rest, part.keyRank rank = 0 := by
  obtain ⟨⟨t, rfl⟩, hlast, hrest⟩ := of_split?_cons h
  refine ⟨?_, fun part hpart => Line.keyRank_of_key?_eq_none (hrest part hpart)⟩
  cases hkey : first.key? with
  | none =>
      rw [Line.keyRank_of_key?_eq_none hkey]
      exact Nat.zero_le _
  | some key =>
      rw [Line.keyRank_of_key? hkey, Line.keyRank_of_key? (Line.key?_append_of_comma hlast hkey t)]

end Reflow

namespace FieldInjection

variable {r : FieldInjection} {wanted : List (List Char)} {b : Buffer} {i : Nat}

/-- An injection into the blocks of some keys answers at lines that carry one of them, and inserts
the line of its field. -/
theorem of_answer?_of_keys (htarget : r.target = .keys wanted)
    (hfield : Buffer.isBareKey r.field = true) {edit : BlockEdit}
    (h : r.toBlockRule.answer? b i = some edit) :
    ∃ k l, edit = .insert k l ∧ l.key? = some r.field ∧
      ∃ key ∈ wanted, (b.line i).key? = some key := by
  obtain ⟨value, _, rfl⟩ := FieldInjection.of_answer? h
  refine ⟨_, _, rfl, Buffer.key?_fieldLine hfield _ value, ?_⟩
  have hselects := (BlockRule.answer?_eq_some_iff.1 h).1
  simp only [toBlockRule, htarget, Target.selects] at hselects
  exact Line.hasKeyIn_iff.1 hselects

/-- An injection whose field ranks below the keys that start its blocks inserts lines of a lower
rank. -/
theorem keyRank_lt_of_answer? {rank : List Char → Nat} (htarget : r.target = .keys wanted)
    (hfield : Buffer.isBareKey r.field = true) (hrank : ∀ key ∈ wanted, rank r.field < rank key)
    {k : Nat} {l : Line} (h : r.toBlockRule.answer? b i = some (.insert k l)) :
    l.keyRank rank < (b.line i).keyRank rank := by
  obtain ⟨k', l', heq, hl, key, hmem, hkey⟩ := of_answer?_of_keys htarget hfield h
  cases heq
  rw [Line.keyRank_of_key? hl, Line.keyRank_of_key? hkey]
  exact hrank key hmem

end FieldInjection

end TaskTidy
