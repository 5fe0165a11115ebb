import TaskTidy.Proofs.KeyRanks

/-!
# The key of a split line

A line is split at commas, and a comma may stand in a quoted key. The first part has the frame of
the line, and as long as it reaches past the key it is of the same kind and carries the same key.
The parts behind the first must not hold a colon and a space, so a key is cut only if its colon ends
the line or stands in front of a tab. Then the first part carries no key.
-/

namespace TaskTidy

namespace Text

variable {s t : List Char} {c d : Char}

/-- Two neighbours in a text stand in its first half, in its second half, or at the seam. -/
theorem of_pair_infix_append (h : [c, d] <:+: s ++ t) :
    [c, d] <:+: s ∨ [c, d] <:+: t ∨ s.getLast? = some c ∧ t.head? = some d := by
  induction s with
  | nil => exact .inr (.inl h)
  | cons x s ih =>
      rw [List.cons_append, List.infix_cons_iff] at h
      rcases h with hprefix | hinfix
      · obtain ⟨rfl, hd⟩ := List.cons_prefix_cons.1 hprefix
        cases s with
        | nil =>
            obtain ⟨more, rfl⟩ := hd
            exact .inr (.inr ⟨rfl, rfl⟩)
        | cons y s =>
            obtain ⟨rfl, _⟩ := List.cons_prefix_cons.1 hd
            exact .inl ⟨[], s, rfl⟩
      · rcases ih hinfix with hleft | hright | ⟨hlast, hhead⟩
        · exact .inl (List.infix_cons hleft)
        · exact .inr (.inl hright)
        · refine .inr (.inr ⟨?_, hhead⟩)
          rw [List.getLast?_cons, hlast]
          rfl

end Text

namespace Line

variable {l l' : Line} {key : List Char} {c : Char}

/-- Behind the key of a line stand blanks and a colon, and a blank behind the colon unless the line
ends there. The text after that blank is free. -/
theorem exists_colon_of_key? (h : l.key? = some key) :
    ∃ blanks after, l.body = key ++ (blanks ++ ':' :: after) ∧
      (∀ x ∈ blanks, Text.isIndent x = true) ∧
      (after = [] ∨ ∃ c rest, Text.isIndent c = true ∧ after = c :: rest) ∧
      ∀ c rest, Text.isIndent c = true →
        entryOf? (key ++ (blanks ++ ':' :: c :: rest)) = some ⟨key, rest⟩ := by
  obtain ⟨entry, hentry, rfl⟩ := exists_entry_of_key? h
  obtain ⟨blanks, after, hsplit, hblanks, hafter, hfree⟩ := exists_colon_of_entryOf? hentry
  refine ⟨blanks, after, append_of_splitKey? hsplit, hblanks, ?_, hfree⟩
  exact hafter.imp And.left fun ⟨c, hc, hrest⟩ => ⟨c, entry.rest, hc, hrest⟩

/-- A line that holds text other than dashes carries structure unless it is a comment. -/
theorem isSignificant_of_mem (hc : c ∈ l) (hsolid : Text.isBlank c = false) (hdash : c ≠ '-')
    (hcomment : l.kind ≠ .comment) : l.kind.isSignificant = true := by
  have hmem := mem_unindented hc (isIndent_of_isBlank hsolid)
  cases hu : l.unindented with
  | nil =>
      rw [hu] at hmem
      cases hmem
  | cons x rest =>
      rw [hu] at hmem
      by_cases hx : x = '-'
      · subst hx
        have hrest := (List.mem_cons.1 hmem).resolve_left hdash
        rw [(kind_of_dash hu (allBlank_eq_false hrest hsolid)).1]
        split <;> rfl
      · have hhash : x ≠ '#' := by
          rintro rfl
          exact hcomment (kind_of_hash hu).1
        rcases (kind_of_plain hu (allBlank_eq_false hmem hsolid) hx hhash).1 with h | h <;>
          rw [h] <;> rfl

/-- A parameter is a line other than an item that carries a key. -/
theorem kind_eq_parameter_iff :
    l.kind = .parameter ↔ l.kind ≠ .item ∧ l.key?.isSome = true := by
  constructor
  · intro h
    refine ⟨by rw [h]; decide, ?_⟩
    obtain ⟨entry, hentry⟩ := Option.isSome_iff_exists.1 (describes_of_kind h)
    have hbody := body_of_startsBody (startsBody_of_entryOf? hentry)
    rw [key?_of_entryOf? (hbody ▸ hentry), Option.isSome_some]
  · rintro ⟨hitem, hkey⟩
    unfold key? at hkey
    split at hkey
    · next hentry =>
        cases hkind : l.kind <;> rw [hkind] at hentry hitem
        case item => exact absurd rfl hitem
        all_goals cases hentry
    · cases hkey

/-- The frame of a line and whether it carries a key decide what a line with structure is. -/
theorem SameFrame.kind_eq (h : SameFrame l l') (hsig : l.kind.isSignificant = true)
    (hkey : l'.key?.isSome = l.key?.isSome) : l'.kind = l.kind := by
  have hsig' := h.isSignificant_eq.trans hsig
  have hparameter : l'.kind = .parameter ↔ l.kind = .parameter := by
    rw [kind_eq_parameter_iff, kind_eq_parameter_iff, ne_eq, h.isItem_iff, hkey]
  have hitem := h.isItem_iff
  cases hk : l.kind <;> cases hk' : l'.kind <;> simp_all [Kind.isSignificant]

end Line

namespace Reflow

variable {limit : Nat} {l first : Line} {rest : List Line} {key : List Char}

/-- A line that is split carries structure. -/
theorem isSignificant_of_split? {parts : List Line} (h : split? limit l = some parts) :
    l.kind.isSignificant = true := by
  unfold split? at h
  split at h
  · next hsplittable =>
      simp only [isSplittable, Bool.and_eq_true, List.contains_eq_mem, decide_eq_true_eq,
        bne_iff_ne] at hsplittable
      exact Line.isSignificant_of_mem hsplittable.1.1.2 (by decide) (by decide)
        hsplittable.1.1.1.2
  · cases h

/-- Parts that end in a comma and hold no colon in front of a space have none between them either:
it would stand in the blanks that are dropped, or behind the comma. -/
private theorem not_infix_flatMap_original {cuts : List Cut}
    (hcomma : ∀ cut ∈ cuts.dropLast, cut.text.getLast? = some ',')
    (hplain : ∀ cut ∈ cuts, ¬[':', ' '] <:+: cut.text) :
    ¬[':', ' '] <:+: cuts.flatMap Cut.original := by
  induction cuts with
  | nil => simp
  | cons cut cuts ih =>
      intro hcolon
      rw [List.flatMap_cons, Cut.original, List.append_assoc] at hcolon
      rcases Text.of_pair_infix_append hcolon with hgap | htext | ⟨hlast, _⟩
      · have hblank := List.all_eq_true.1 cut.allBlank_gap ':' (hgap.subset (by simp))
        exact absurd hblank (by decide)
      · rcases Text.of_pair_infix_append htext with hcut | hcuts | ⟨hlast, hhead⟩
        · exact hplain cut List.mem_cons_self hcut
        · refine ih (fun cut' hcut' => hcomma cut' ?_)
            (fun cut' hcut' => hplain cut' (List.mem_cons_of_mem _ hcut')) hcuts
          cases cuts with
          | nil => cases hcut'
          | cons next cuts => exact List.mem_cons_of_mem _ hcut'
        · cases cuts with
          | nil => cases hhead
          | cons next cuts =>
              have := hcomma cut List.mem_cons_self
              rw [hlast] at this
              cases this
      · have hblank := List.all_eq_true.1 cut.allBlank_gap ':' (List.mem_of_getLast? hlast)
        exact absurd hblank (by decide)

/-- Behind the first part there is no colon in front of a space: neither in another part, nor in the
blanks that are dropped between them. -/
theorem no_colon_before_space (h : split? limit l = some (first :: rest)) {t : List Char}
    (ht : l = first ++ t) : ¬[':', ' '] <:+: t := by
  obtain ⟨_, cuts, hparts, hl, _, hcomma⟩ := exists_cuts_of_split? h
  obtain ⟨rfl, rfl⟩ := List.cons.inj hparts
  obtain rfl := List.append_cancel_left (ht.symm.trans hl)
  refine not_infix_flatMap_original hcomma fun cut hcut hcolon => ?_
  obtain ⟨_, _, _, hlater, _⟩ := shape_of_split? h
  exact (hlater _ (List.mem_map_of_mem hcut)).2 (hcolon.trans (List.suffix_append _ _).isInfix)

/-- A first part that reaches past the key carries it, because it ends in a comma behind the
colon. -/
theorem key?_of_lt_length (h : split? limit l = some (first :: rest)) (hkey : l.key? = some key)
    (hlt : l.column + key.length < first.length) : first.key? = some key := by
  obtain ⟨⟨t, rfl⟩, hlast, _⟩ := of_split?_cons h
  obtain ⟨hlast', hbody⟩ := Line.body_append_of_comma hlast t
  have hframe := Line.sameFrame_append (List.mem_of_getLast? hlast) (by decide) (by decide) t
  obtain ⟨blanks, after, hcolon, hblanks, hafter, hfree⟩ := Line.exists_colon_of_key? hkey
  have hlong : key.length < first.body.length := by
    rw [hframe.column_eq] at hlt
    rw [Line.body, List.length_drop]
    omega
  rw [hbody, List.append_eq_append_iff] at hcolon
  obtain ⟨u, rfl, _⟩ | ⟨u, hu, hcolon⟩ := hcolon
  · simp at hlong
  have hcomma : ',' ∉ blanks := fun hmem => absurd (hblanks _ hmem) (by decide)
  have hu' : u.getLast? = some ',' := by
    have hne : u ≠ [] := by
      rintro rfl
      simp [hu] at hlong
    rwa [hu, List.getLast?_append_of_ne_nil _ hne] at hlast'
  obtain ⟨v, rfl, hafter'⟩ | ⟨v, rfl, _⟩ := List.append_eq_append_iff.1 hcolon
  · cases v with
    | nil =>
        rw [List.append_nil] at hu'
        exact absurd (List.mem_of_getLast? hu') hcomma
    | cons x v =>
        obtain ⟨rfl, rfl⟩ := List.cons.inj hafter'
        cases v with
        | nil => simp at hu'
        | cons c v =>
            obtain hnil | ⟨c', more, hc, hmore⟩ := hafter
            · cases hnil
            · obtain ⟨rfl, _⟩ := List.cons.inj hmore
              have hentry := hfree c v hc
              rw [← hu] at hentry
              exact Line.key?_of_entryOf? hentry
  · exact absurd (List.mem_append_left _ (List.mem_of_getLast? hu')) hcomma

/-- A first part that ends in the key carries none. The key holds the comma, and behind its colon
the line ends or goes on with a tab. -/
theorem of_length_le (h : split? limit l = some (first :: rest)) (hkey : l.key? = some key)
    (hle : first.length ≤ l.column + key.length) :
    first.key? = none ∧ ',' ∈ key ∧
      ∃ blanks after, l = l.take l.column ++ (key ++ (blanks ++ ':' :: after)) ∧
        (∀ c ∈ blanks, Text.isIndent c = true) ∧ (after = [] ∨ after.head? = some '\t') := by
  obtain ⟨⟨t, rfl⟩, hlast, _⟩ := of_split?_cons h
  obtain ⟨hlast', hbody⟩ := Line.body_append_of_comma hlast t
  have hframe := Line.sameFrame_append (List.mem_of_getLast? hlast) (by decide) (by decide) t
  obtain ⟨blanks, after, hcolon, hblanks, hafter, _⟩ := Line.exists_colon_of_key? hkey
  have hshort : first.body.length ≤ key.length := by
    rw [hframe.column_eq] at hle
    rw [Line.body, List.length_drop]
    omega
  have hsplit := hcolon
  rw [hbody] at hsplit
  obtain ⟨u, rfl, ht⟩ : ∃ u, key = first.body ++ u ∧ t = u ++ (blanks ++ ':' :: after) := by
    obtain ⟨u, hkey, ht⟩ | ⟨u, hbody, ht⟩ := List.append_eq_append_iff.1 hsplit
    · exact ⟨u, hkey, ht⟩
    · obtain rfl : u = [] := by
        rw [hbody, List.length_append] at hshort
        exact List.eq_nil_of_length_eq_zero (by omega)
      exact ⟨[], by simp [hbody], by simpa using ht.symm⟩
  refine ⟨?_, List.mem_append_left _ (List.mem_of_getLast? hlast'), blanks, after, ?_, hblanks, ?_⟩
  · rw [Option.eq_none_iff_forall_ne_some]
    intro key' hkey'
    obtain rfl := Option.some.inj ((Line.key?_append_of_comma hlast hkey' t).symm.trans hkey)
    obtain ⟨_, _, hcolon', _⟩ := Line.exists_colon_of_key? hkey'
    have := congrArg List.length hcolon'
    simp only [List.length_append, List.length_cons] at this
    omega
  · rw [← hcolon, Line.take_column_append_body]
  · refine hafter.imp id ?_
    rintro ⟨c, more, hc, rfl⟩
    rcases Text.isIndent_iff.1 hc with rfl | rfl
    · refine absurd ?_ (no_colon_before_space h rfl)
      exact ⟨u ++ blanks, more, by simp [ht]⟩
    · rfl

/-- The first part of a split line has the depth and the content column of the line. It is of the
same kind and carries the same key exactly if it reaches past the key. Otherwise it carries no key;
then the key holds a comma, and its colon ends the line or stands in front of a tab. -/
theorem keeps_key_iff_of_split? {parts : List Line} (h : split? limit l = some parts) :
    ∃ first rest, parts = first :: rest ∧ first.depth = l.depth ∧ first.column = l.column ∧
      (first.kind = l.kind ∧ first.key? = l.key? ↔
        ∀ key, l.key? = some key → l.column + key.length < first.length) ∧
      ∀ key, l.key? = some key → first.length ≤ l.column + key.length →
        first.key? = none ∧ ',' ∈ key ∧
        ∃ blanks after, l = l.take l.column ++ (key ++ (blanks ++ ':' :: after)) ∧
          (∀ c ∈ blanks, Text.isIndent c = true) ∧ (after = [] ∨ after.head? = some '\t') := by
  obtain ⟨first, cuts, rfl, _⟩ := exists_cuts_of_split? h
  obtain ⟨⟨t, ht⟩, hlast, _⟩ := of_split?_cons h
  have hframe : first.SameFrame l := by
    rw [← ht]
    exact Line.sameFrame_append (List.mem_of_getLast? hlast) (by decide) (by decide) t
  refine ⟨first, _, rfl, hframe.depth_eq.symm, hframe.column_eq.symm, ⟨?_, fun hlt => ?_⟩,
    fun key hkey hle => of_length_le h hkey hle⟩
  · rintro ⟨_, hkeep⟩ key hkey
    by_contra hle
    have hnone := (of_length_le h hkey (Nat.le_of_not_lt hle)).1
    rw [hkeep, hkey] at hnone
    cases hnone
  · have hkeep : first.key? = l.key? := by
      cases hkey : l.key? with
      | some key => exact key?_of_lt_length h hkey (hlt key hkey)
      | none =>
          rw [Option.eq_none_iff_forall_ne_some]
          intro key hfirst
          have := Line.key?_append_of_comma hlast hfirst t
          rw [ht, hkey] at this
          cases this
    exact ⟨(hframe.kind_eq (hframe.isSignificant_eq ▸ isSignificant_of_split? h)
      (by rw [hkeep])).symm, hkeep⟩

/-- A line whose key holds a comma too, but is split behind the next one. -/
theorem keeps_key_iff_of_split?_pair :
    split? 13 "\"a, b\": cc, dd".toList = some ["\"a, b\": cc,".toList, "  dd".toList] ∧
    Line.kind "\"a, b\": cc,".toList = Line.kind "\"a, b\": cc, dd".toList ∧
    Line.key? "\"a, b\": cc,".toList = Line.key? "\"a, b\": cc, dd".toList := by
  have h : split? 13 "\"a, b\": cc, dd".toList =
      some ["\"a, b\": cc,".toList, "  dd".toList] := by
    decide +kernel
  have hkey : Line.key? "\"a, b\": cc, dd".toList = some "\"a, b\"".toList := by
    decide +kernel
  obtain ⟨first, rest, hparts, _, _, hiff, _⟩ := keeps_key_iff_of_split? h
  obtain ⟨rfl, rfl⟩ := List.cons.inj hparts
  refine ⟨h, hiff.2 fun key hkey' => ?_⟩
  obtain rfl := Option.some.inj (hkey.symm.trans hkey')
  decide +kernel

/-- A quoted key whose colon ends the line is cut behind its comma. -/
theorem not_keeps_key_of_split? :
    ∃ (limit : Nat) (l first : Line) (rest : List Line), l = "\"aaaa, bbbb\":".toList ∧
      split? limit l = some (first :: rest) ∧ first.kind ≠ l.kind ∧ first.key? ≠ l.key? :=
  ⟨10, _, "\"aaaa,".toList, ["  bbbb\":".toList], rfl, by decide +kernel, by decide +kernel,
    by decide +kernel⟩

end Reflow

end TaskTidy
