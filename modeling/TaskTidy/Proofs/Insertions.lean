import TaskTidy.Proofs.Downwards

/-!
# Inserting a line

A search downwards does not see an inserted line if the line is passed over, or if the search has
ended above it. This is so for every block that starts above an entry under which a deeper line is
inserted. A search upwards does not see it if a shallower line stands below it.
-/

namespace TaskTidy

section

variable {inside p : Line → Bool} {A D : List Line} {x : Line}

/-- A search does not see `x` below the lines `A`: it finds its line among them, leaves the run
among them, or passes over `x`. -/
def Unseen (inside p : Line → Bool) (A : List Line) (x : Line) : Prop :=
  (firstIn? inside p A).isSome = true ∨ A.all inside = false ∨ inside x = true ∧ p x = false

/-- Lines below a line that is found, before and after the insertion of `x` above `D`. -/
def InsertedBelow (x : Line) (D below below' : List Line) : Prop :=
  below' = below ∨ ∃ B, below = B ++ D ∧ below' = B ++ x :: D

/-- Two searches find nothing, or the same line before and after the insertion. -/
def FindsSame (x : Line) (D : List Line) (found found' : Option (Line × List Line)) : Prop :=
  (found = none ∧ found' = none) ∨
    ∃ l below below', found = some (l, below) ∧ found' = some (l, below') ∧
      InsertedBelow x D below below'

theorem FindsSame.map_eq {α : Type} {found found' : Option (Line × List Line)}
    (h : FindsSame x D found found') (f : Line → α) :
    (found'.map fun r => f r.1) = found.map fun r => f r.1 := by
  rcases h with ⟨rfl, rfl⟩ | ⟨l, below, below', rfl, rfl, _⟩
  · rfl
  · rfl

/-- A search that does not see the inserted line finds the line that it found before. -/
theorem firstIn?_insert (h : Unseen inside p A x) :
    FindsSame x D (firstIn? inside p (A ++ D)) (firstIn? inside p (A ++ x :: D)) := by
  rw [firstIn?_append, firstIn?_append]
  cases hA : firstIn? inside p A with
  | some r => exact Or.inr ⟨r.1, r.2 ++ D, r.2 ++ x :: D, rfl, rfl, Or.inr ⟨r.2, rfl, rfl⟩⟩
  | none =>
      rcases h with hfound | hleft | ⟨hinside, hp⟩
      · rw [hA] at hfound
        cases hfound
      · simp [hleft, FindsSame]
      · have hpass : firstIn? inside p (x :: D) = firstIn? inside p D := by
          rw [firstIn?, if_pos hinside, if_neg (by simp [hp])]
        dsimp only
        rw [hpass]
        by_cases hall : A.all inside = true
        · simp only [if_pos hall]
          cases hD : firstIn? inside p D with
          | none => exact Or.inl ⟨rfl, rfl⟩
          | some r => exact Or.inr ⟨r.1, r.2, r.2, rfl, rfl, Or.inl rfl⟩
        · simp only [if_neg hall]
          exact Or.inl ⟨rfl, rfl⟩

/-- A search that ends at the inserted line finds the line that it found before, if the lines below
had nothing to be found. -/
theorem firstIn?_cut
    (h : A.all inside = true → inside x = false ∧ ∀ l ∈ D.takeWhile inside, p l = false) :
    FindsSame x D (firstIn? inside p (A ++ D)) (firstIn? inside p (A ++ x :: D)) := by
  rw [firstIn?_append, firstIn?_append]
  cases hA : firstIn? inside p A with
  | some r => exact Or.inr ⟨r.1, r.2 ++ D, r.2 ++ x :: D, rfl, rfl, Or.inr ⟨r.2, rfl, rfl⟩⟩
  | none =>
      left
      by_cases hall : A.all inside = true
      · obtain ⟨hx, hD⟩ := h hall
        have hstop : firstIn? inside p (x :: D) = none := by
          rw [firstIn?, if_neg (by simp [hx])]
        simp only [if_pos hall, hstop, firstIn?_eq_none_iff.2 hD, and_self]
      · simp only [if_neg hall, and_self]

/-- A line that a search finds after an insertion is the inserted line or was found before. -/
theorem of_firstIn?_insert {l : Line} {below' : List Line}
    (h : firstIn? inside p (A ++ x :: D) = some (l, below')) :
    l = x ∨ ∃ below, firstIn? inside p (A ++ D) = some (l, below) ∧
      InsertedBelow x D below below' := by
  by_cases hseen : Unseen inside p A x
  · rcases firstIn?_insert (D := D) hseen with ⟨_, hnone⟩ | ⟨l', below, below'', hl, hl', hbelow⟩
    · rw [hnone] at h
      cases h
    · rw [hl'] at h
      cases h
      exact Or.inr ⟨below, hl, hbelow⟩
  · simp only [Unseen, not_or, Bool.not_eq_true, Option.isSome_eq_false_iff,
      Option.isNone_iff_eq_none, Bool.not_eq_false] at hseen
    obtain ⟨hA, hall, hx⟩ := hseen
    rw [firstIn?_append, hA] at h
    simp only [hall, if_true, firstIn?] at h
    split at h
    · next hinside =>
        split at h
        · cases h
          exact Or.inl rfl
        · next hp => exact absurd ⟨hinside, by simpa using hp⟩ hx
    · cases h

end

section

variable {m d : Nat} {A D : List Line} {s x : Line}

/-- An entry is no blank line. -/
theorem allBlank_of_isEntry (hs : s.kind.isEntry = true) : Text.allBlank s = false := by
  apply Line.allBlank_of_kind_ne
  intro hblank
  rw [hblank] at hs
  cases hs

theorem isSignificant_of_isEntry (hs : s.kind.isEntry = true) : s.kind.isSignificant = true := by
  revert hs
  cases s.kind <;> simp [Line.Kind.isEntry, Line.Kind.isSignificant]

theorem depth_of_isInside (hs : s.kind.isEntry = true) (h : s.isInside m = true) :
    m < s.depth :=
  (Line.isInside_iff (allBlank_of_isEntry hs)).1 h

/-- A search for an entry ends at the entry above the inserted line or before it. -/
theorem unseen_of_isEntry (hmem : s ∈ A) (hs : s.kind.isEntry = true) (inside : Line → Bool) :
    Unseen inside (fun l => l.kind.isEntry) A x := by
  unfold Unseen
  cases hA : firstIn? inside (fun l => l.kind.isEntry) A with
  | some r => exact Or.inl rfl
  | none =>
      refine Or.inr (Or.inl ?_)
      rw [← Bool.not_eq_true]
      intro hall
      have hrun : A.takeWhile inside = A := List.takeWhile_eq_self_iff.2 (List.all_eq_true.1 hall)
      have hnone := firstIn?_eq_none_iff.1 hA s (by rwa [hrun])
      rw [hs] at hnone
      cases hnone

/-- A line that is deeper than an entry of the run belongs to the run, below the depth of the
fields. -/
theorem inRun_of_depth_lt (hs : s.kind.isEntry = true) (hrun : s.inRun m d = true)
    (hdepth : s.depth < x.depth) : x.inRun m d = true ∧ d < x.depth := by
  have hd := Line.le_depth_of_inRun hrun (isSignificant_of_isEntry hs)
  rw [Line.inRun, Bool.and_eq_true] at hrun
  have hbase := depth_of_isInside hs hrun.1
  simp only [Line.inRun, Line.isInside, Bool.and_eq_true, Bool.or_eq_true, decide_eq_true_eq]
  omega

/-- A search for a field does not see a line that is deeper than an entry above it. -/
theorem unseen_of_inRun (hmem : s ∈ A) (hs : s.kind.isEntry = true) (hdepth : s.depth < x.depth)
    (keys : List (List Char)) : Unseen (Line.inRun m d) (Line.isFieldIn d keys) A x := by
  by_cases hrun : s.inRun m d = true
  · obtain ⟨hx, hd⟩ := inRun_of_depth_lt hs hrun hdepth
    exact Or.inr (Or.inr ⟨hx, by simp [Line.isFieldIn, Nat.ne_of_gt hd]⟩)
  · refine Or.inr (Or.inl ?_)
    rw [List.all_eq_false]
    exact ⟨s, hmem, hrun⟩

/-- The run of fields of the block is cut off before its first item or parameter. -/
def IsCut (m : Nat) (below : List Line) : Prop :=
  ∃ d, entryDepth? m below = some d ∧
    firstIn? (Line.inRun m d) (fun l => l.kind.isEntry) below = none

/-- A run of fields that ends above the first entry of its block ends at a shallower line that is no
entry. -/
private theorem exists_of_firstIn?_eq_none {d : Nat} {r : Line × List Line} {below : List Line}
    (hr : firstIn? (Line.isInside m) (fun l => l.kind.isEntry) below = some r)
    (hdepth : r.1.depth = d)
    (hnone : firstIn? (Line.inRun m d) (fun l => l.kind.isEntry) below = none) :
    ∃ M q N, below = M ++ q :: N ∧ (∀ l ∈ M, l.kind.isEntry = false) ∧ q.kind.isEntry = false ∧
      q.kind.isSignificant = true ∧ q.depth < d := by
  induction below with
  | nil => cases hr
  | cons l rest ih =>
      rw [firstIn?] at hr hnone
      split at hr
      · next hinside =>
          split at hr
          · next hl =>
              cases hr
              have hrun : l.inRun m d = true := by
                simp [Line.inRun, hinside, hdepth]
              rw [if_pos hrun, if_pos hl] at hnone
              cases hnone
          · next hl =>
              by_cases hrun : l.inRun m d = true
              · rw [if_pos hrun, if_neg hl] at hnone
                obtain ⟨M, q, N, rfl, hM, hq⟩ := ih hr hnone
                refine ⟨l :: M, q, N, rfl, fun l' hl' => ?_, hq⟩
                rcases List.mem_cons.1 hl' with rfl | hl'
                · simpa using hl
                · exact hM l' hl'
              · refine ⟨[], l, rest, rfl, by simp, by simpa using hl, ?_⟩
                simp only [Line.inRun, hinside, Bool.true_and, Bool.or_eq_true, Bool.not_eq_true',
                  decide_eq_true_eq, not_or, Bool.not_eq_false, Nat.not_le] at hrun
                exact hrun
      · cases hr

/-- In a cut block a shallower line that is no entry stands above the first entry, and above it the
run of fields holds no entry either. -/
theorem exists_of_isCut {below : List Line} (h : IsCut m below) :
    ∃ d M q N, entryDepth? m below = some d ∧ below = M ++ q :: N ∧
      (∀ l ∈ M, l.kind.isEntry = false) ∧ q.kind.isEntry = false ∧ q.kind.isSignificant = true ∧
        q.depth < d := by
  obtain ⟨d, hd, hnone⟩ := h
  obtain ⟨r, hr, hdepth⟩ := Option.map_eq_some_iff.1 hd
  obtain ⟨M, q, N, hsplit⟩ := exists_of_firstIn?_eq_none hr hdepth hnone
  exact ⟨d, M, q, N, hd, hsplit⟩

section

variable (hmem : s ∈ A) (hs : s.kind.isEntry = true)

include hmem hs

theorem entryDepth?_insert : entryDepth? m (A ++ x :: D) = entryDepth? m (A ++ D) := by
  rw [entryDepth?, entryDepth?]
  exact (firstIn?_insert (unseen_of_isEntry hmem hs (Line.isInside m))).map_eq Line.depth

theorem isCut_insert (h : IsCut m (A ++ D)) : IsCut m (A ++ x :: D) := by
  obtain ⟨d, hd, hnone⟩ := h
  refine ⟨d, by rw [entryDepth?_insert hmem hs, hd], ?_⟩
  rcases firstIn?_insert (D := D) (unseen_of_isEntry (x := x) hmem hs (Line.inRun m d)) with
    ⟨_, hnone'⟩ | ⟨l, below, below', hl, _, _⟩
  · exact hnone'
  · rw [hnone] at hl
    cases hl

end

/-- The block keeps its fields and its entries when `x` is inserted below the lines `A`. -/
structure KeepsFields (m : Nat) (A D : List Line) (x : Line) : Prop where
  entryDepth_eq : entryDepth? m (A ++ x :: D) = entryDepth? m (A ++ D)
  field : ∀ keys, FindsSame x D (fieldBelow? m keys (A ++ D)) (fieldBelow? m keys (A ++ x :: D))
  mem : ∀ {l : Line}, l.kind.isEntry = true → l ∈ (A ++ D).takeWhile (Line.isInside m) →
    l ∈ (A ++ x :: D).takeWhile (Line.isInside m)

namespace KeepsFields

/-- A block keeps its fields when a deeper line is inserted below one of its entries. -/
theorem of_isEntry (hmem : s ∈ A) (hs : s.kind.isEntry = true) (hdepth : s.depth < x.depth) :
    KeepsFields m A D x where
  entryDepth_eq := entryDepth?_insert hmem hs
  field keys := by
    rw [fieldBelow?, fieldBelow?, entryDepth?_insert hmem hs]
    cases hd : entryDepth? m (A ++ D) with
    | none => exact Or.inl ⟨rfl, rfl⟩
    | some d => exact firstIn?_insert (unseen_of_inRun hmem hs hdepth keys)
  mem {l} _ hl := by
    rw [List.takeWhile_append] at hl ⊢
    split at hl
    · next hall =>
        rw [if_pos hall]
        have hs' : s.isInside m = true := by
          have htake := (List.takeWhile_prefix (l := A) (Line.isInside m)).eq_of_length hall
          rw [← htake] at hmem
          exact List.mem_takeWhile_imp hmem
        have hx : x.isInside m = true := by
          have := depth_of_isInside hs hs'
          simp only [Line.isInside, Bool.or_eq_true, decide_eq_true_eq]
          omega
        rw [List.takeWhile_cons_of_pos hx]
        rcases List.mem_append.1 hl with hl | hl
        · exact List.mem_append_left _ hl
        · exact List.mem_append_right _ (List.mem_cons_of_mem _ hl)
    · next hall => rwa [if_neg hall]

private theorem mem_takeWhile_of_imp {p q : Line → Bool} {l : Line} {lines : List Line}
    (hpq : ∀ l, p l = true → q l = true) (hl : l ∈ lines.takeWhile p) : l ∈ lines.takeWhile q := by
  induction lines with
  | nil => exact hl
  | cons y lines ih =>
      rw [List.takeWhile_cons] at hl
      split at hl
      · next hy =>
          rw [List.takeWhile_cons_of_pos (hpq y hy)]
          rcases List.mem_cons.1 hl with rfl | hl
          · exact List.mem_cons_self
          · exact List.mem_cons_of_mem y (ih hl)
      · cases hl

section

variable (h : A.all (Line.isInside m) = true →
  x.isInside m = false ∧ ∀ l ∈ D.takeWhile (Line.isInside m), l.kind = .blank)

include h

private theorem entryDepth?_cut : entryDepth? m (A ++ x :: D) = entryDepth? m (A ++ D) := by
  rw [entryDepth?, entryDepth?]
  have hentry : A.all (Line.isInside m) = true → x.isInside m = false ∧
      ∀ l ∈ D.takeWhile (Line.isInside m), l.kind.isEntry = false := by
    intro hall
    refine ⟨(h hall).1, fun l hl => ?_⟩
    rw [(h hall).2 l hl]
    rfl
  exact (firstIn?_cut hentry).map_eq Line.depth

/-- A block that ends at the inserted line keeps its fields if only blank lines of it are cut
off. -/
theorem of_cut : KeepsFields m A D x where
  entryDepth_eq := entryDepth?_cut h
  field keys := by
    rw [fieldBelow?, fieldBelow?, entryDepth?_cut h]
    cases hd : entryDepth? m (A ++ D) with
    | none => exact Or.inl ⟨rfl, rfl⟩
    | some d =>
        have hinside (l : Line) (hl : l.inRun m d = true) : l.isInside m = true := by
          rw [Line.inRun, Bool.and_eq_true] at hl
          exact hl.1
        apply firstIn?_cut
        intro hall
        have hall' : A.all (Line.isInside m) = true := by
          rw [List.all_eq_true] at hall ⊢
          exact fun l hl => hinside l (hall l hl)
        refine ⟨by rw [Line.inRun, (h hall').1, Bool.false_and], fun l hl => ?_⟩
        simp [Line.isFieldIn, (h hall').2 l (mem_takeWhile_of_imp hinside hl)]
  mem {l} hentry hl := by
    rw [List.takeWhile_append] at hl ⊢
    split at hl
    · next hall =>
        rw [if_pos hall]
        rcases List.mem_append.1 hl with hl | hl
        · exact List.mem_append_left _ hl
        · have hA : A.all (Line.isInside m) = true := by
            rw [← (List.takeWhile_prefix (l := A) (Line.isInside m)).eq_of_length hall]
            exact List.all_takeWhile
          rw [(h hA).2 l hl] at hentry
          cases hentry
    · next hall => rwa [if_neg hall]

end

variable (h : KeepsFields m A D x)

include h

theorem map_fieldBelow? (keys : List (List Char)) :
    (fieldBelow? m keys (A ++ x :: D)).map Prod.fst =
      (fieldBelow? m keys (A ++ D)).map Prod.fst := by
  exact (h.field keys).map_eq id

theorem isSome_fieldBelow? (keys : List (List Char)) :
    (fieldBelow? m keys (A ++ x :: D)).isSome = (fieldBelow? m keys (A ++ D)).isSome := by
  simpa only [Option.isSome_map] using congrArg Option.isSome (h.map_fieldBelow? keys)

end KeepsFields

end

end TaskTidy
