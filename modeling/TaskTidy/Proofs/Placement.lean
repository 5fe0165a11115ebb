import TaskTidy.Block.Placement
import TaskTidy.Proofs.Insertions

/-!
# Where a new field is placed

A new field is placed inside its block, below no line that ends the run of fields. Under measured
fields it therefore joins them. In a block without an entry it becomes the first one, and it is a
field unless a shallower line stands above it.
-/

namespace TaskTidy

section

variable {base d : Nat} {A D : List Line} {x : Line} {key : List Char}

theorem lt_of_entryDepth? {below : List Line} (h : entryDepth? base below = some d) : base < d := by
  unfold entryDepth? at h
  obtain ⟨r, hr, rfl⟩ := Option.map_eq_some_iff.1 h
  obtain ⟨hinside, hentry, _⟩ := of_firstIn? hr
  exact depth_of_isInside hentry hinside

theorem isInside_of_inRun {l : Line} (h : l.inRun base d = true) : l.isInside base = true := by
  rw [Line.inRun, Bool.and_eq_true] at h
  exact h.1

section

variable (hx : x.kind = .parameter)

include hx

private theorem isEntry_of_parameter : x.kind.isEntry = true := by
  rw [hx]
  rfl

section

variable (hd : entryDepth? base (A ++ D) = some d) (hA : A.all (Line.inRun base d) = true)
  (hdepth : x.depth = d)

include hd hA hdepth

/-- A line that joins the measured fields belongs to their run, and they are measured as before. -/
theorem inRun_of_measured : x.inRun base d = true ∧ entryDepth? base (A ++ x :: D) = some d := by
  have hA' : A.all (Line.isInside base) = true := by
    rw [List.all_eq_true] at hA ⊢
    intro l hl
    exact isInside_of_inRun (hA l hl)
  have hinside : x.isInside base = true := by
    simp [Line.isInside, hdepth, lt_of_entryDepth? hd]
  refine ⟨by simp [Line.inRun, hinside, hdepth], ?_⟩
  rw [entryDepth?, firstIn?_append] at hd ⊢
  cases hfirst : firstIn? (Line.isInside base) (fun l => l.kind.isEntry) A with
  | some r =>
      rw [hfirst] at hd
      exact hd
  | none =>
      simp only [hA', if_true, firstIn?, hinside, isEntry_of_parameter hx, Option.map_some,
        hdepth]

/-- A line that joins the measured fields is found among them. -/
theorem fieldBelow?_of_measured (hkey : x.key? = some key) :
    (fieldBelow? base [key] (A ++ x :: D)).isSome = true := by
  obtain ⟨hrun, hmeasured⟩ := inRun_of_measured hx hd hA hdepth
  have hfield : x.isFieldIn d [key] = true := by
    simp [Line.isFieldIn, hx, hdepth, Line.hasKeyIn, hkey]
  rw [fieldBelow?, hmeasured]
  dsimp only
  rw [firstIn?_append]
  split
  · rfl
  · rw [if_pos hA, firstIn?, if_pos hrun, if_pos hfield]
    rfl

/-- A line that joins the measured fields is passed over in a search for other keys. -/
theorem findsSame_of_measured {keys : List (List Char)} (hkeys : x.hasKeyIn keys = false) :
    FindsSame x D (fieldBelow? base keys (A ++ D)) (fieldBelow? base keys (A ++ x :: D)) := by
  obtain ⟨hrun, hmeasured⟩ := inRun_of_measured hx hd hA hdepth
  rw [fieldBelow?, fieldBelow?, hd, hmeasured]
  exact firstIn?_insert (Or.inr (Or.inr ⟨hrun, by simp [Line.isFieldIn, hkeys]⟩))

end

section

variable (hd : entryDepth? base (A ++ D) = none) (hA : A.all (Line.isInside base) = true)
  (hdepth : base < x.depth)

include hd

omit hx in
private theorem firstIn?_of_unmeasured :
    firstIn? (Line.isInside base) (fun l => l.kind.isEntry) A = none := by
  rw [entryDepth?, Option.map_eq_none_iff, firstIn?_append] at hd
  split at hd
  · cases hd
  · next h => exact h

include hA

omit hx in
private theorem isEntry_of_unmeasured {l : Line} (hl : l ∈ A) : l.kind.isEntry = false := by
  have hall : A.takeWhile (Line.isInside base) = A :=
    List.takeWhile_eq_self_iff.2 (List.all_eq_true.1 hA)
  exact firstIn?_eq_none_iff.1 (firstIn?_of_unmeasured hd) l (by rwa [hall])

include hdepth

/-- A line that becomes the first entry of its block measures the fields. -/
theorem entryDepth?_of_unmeasured : entryDepth? base (A ++ x :: D) = some x.depth := by
  have hinside : x.isInside base = true := by
    simp [Line.isInside, hdepth]
  rw [entryDepth?, firstIn?_append, firstIn?_of_unmeasured hd]
  simp only [hA, if_true, firstIn?, hinside, isEntry_of_parameter hx, Option.map_some]

/-- A line that becomes the first entry of its block is found exactly if no line above it ends the
run of fields. -/
theorem isSome_fieldBelow?_of_unmeasured (hkey : x.key? = some key) :
    (fieldBelow? base [key] (A ++ x :: D)).isSome = A.all (Line.inRun base x.depth) := by
  have hrun : x.inRun base x.depth = true := by
    simp [Line.inRun, Line.isInside, hdepth]
  have hfield : x.isFieldIn x.depth [key] = true := by
    simp [Line.isFieldIn, hx, Line.hasKeyIn, hkey]
  have hnone : firstIn? (Line.inRun base x.depth) (Line.isFieldIn x.depth [key]) A = none := by
    rw [firstIn?_eq_none_iff]
    intro l hl
    have hentry := isEntry_of_unmeasured hd hA ((List.takeWhile_sublist _).mem hl)
    have hkind : l.kind ≠ .parameter := by
      intro hkind
      rw [hkind] at hentry
      cases hentry
    simp [Line.isFieldIn, hkind]
  rw [fieldBelow?, entryDepth?_of_unmeasured hx hd hA hdepth]
  dsimp only
  rw [firstIn?_append, hnone, firstIn?, if_pos hrun, if_pos hfield]
  cases A.all (Line.inRun base x.depth) <;> rfl

/-- A line that becomes the first entry of its block is a field, or the fields are cut off. -/
theorem isCut_of_unmeasured (hkey : x.key? = some key)
    (hnone : fieldBelow? base [key] (A ++ x :: D) = none) : IsCut base (A ++ x :: D) := by
  refine ⟨x.depth, entryDepth?_of_unmeasured hx hd hA hdepth, ?_⟩
  have hrun := isSome_fieldBelow?_of_unmeasured hx hd hA hdepth hkey
  have hnoEntry : firstIn? (Line.inRun base x.depth) (fun l => l.kind.isEntry) A = none :=
    firstIn?_eq_none_iff.2 fun l hl =>
      isEntry_of_unmeasured hd hA ((List.takeWhile_sublist _).mem hl)
  rw [hnone, Option.isSome_none] at hrun
  rw [firstIn?_append, hnoEntry, ← hrun]
  rfl

end

end

end

namespace Buffer

theorem lt_lastContent (i : Nat) (run : List Line) : i < lastContent i run := by
  rw [lastContent]
  omega

theorem lastContent_le (i : Nat) (run : List Line) : lastContent i run ≤ i + 1 + run.length := by
  have h := (List.dropWhile_sublist (l := run.reverse) Text.allBlank).length_le
  rw [List.length_reverse] at h
  rw [lastContent]
  omega

variable {b : Buffer} {i j d : Nat}

theorem of_mem_fieldRun (h : j ∈ b.fieldRun ⟨i, b.stopOf i⟩ d) :
    i < j ∧ j < i + 1 + (b.runAfter i (Line.inRun (b.line i).depth d)).length := by
  rw [fieldRun_eq, List.mem_range'_1] at h
  rw [runAfter]
  omega

/-- The lines above a line of the run belong to the run. -/
theorem inRun_of_le (hj : j ∈ b.fieldRun ⟨i, b.stopOf i⟩ d) {k : Nat} (hik : i < k) (hkj : k ≤ j) :
    (b.line k).inRun (b.line i).depth d = true :=
  (of_lt_runAfter hik (Nat.lt_of_le_of_lt hkj (of_mem_fieldRun hj).2)).2

theorem lt_stopOf_of_mem_fieldRun (h : j ∈ b.fieldRun ⟨i, b.stopOf i⟩ d) : j < b.stopOf i := by
  rw [fieldRun] at h
  exact (Extent.mem_interior.1 ((List.takeWhile_sublist _).mem h)).2

/-- A field is a line of the run at the measured depth. -/
theorem mem_fieldRun_of_mem_fields {f : Field} (h : f ∈ b.fields ⟨i, b.stopOf i⟩) :
    ∃ d, b.fieldDepth? ⟨i, b.stopOf i⟩ = some d ∧ f.index ∈ b.fieldRun ⟨i, b.stopOf i⟩ d ∧
      (b.line f.index).depth = d := by
  unfold fields at h
  split at h
  · cases h
  · next d hd =>
      obtain ⟨k, hk, hf⟩ := List.mem_filterMap.1 h
      unfold fieldAt? at hf
      split at hf
      · next hline =>
          obtain ⟨key, _, rfl⟩ := Option.map_eq_some_iff.1 hf
          exact ⟨d, hd, hk, hline.2⟩
      · cases hf

/-- A bare key: it starts like one and has no other characters than a key may have. -/
def isBareKey (key : List Char) : Bool :=
  match key with
  | [] => false
  | c :: rest => Line.isKeyStart c && rest.all Line.isKeyChar

private theorem ne_of_isKeyStart {c d : Char} (hc : Line.isKeyStart c = true)
    (hd : Line.isKeyStart d = false) : c ≠ d := by
  rintro rfl
  rw [hc] at hd
  cases hd

section

variable {key : List Char} (hkey : isBareKey key = true) (depth : Nat) (value : List Char)

include hkey

theorem entryOf?_of_isBareKey :
    Line.entryOf? (key ++ ':' :: ' ' :: value) = some ⟨key, value⟩ := by
  cases key with
  | nil => cases hkey
  | cons c rest =>
      simp only [isBareKey, Bool.and_eq_true, List.all_eq_true] at hkey
      obtain ⟨hstart, hrest⟩ := hkey
      have hquote : ¬(c = '"' ∨ c = '\'') :=
        not_or.2 ⟨ne_of_isKeyStart hstart (by decide), ne_of_isKeyStart hstart (by decide)⟩
      have hcolon : Line.isKeyChar ':' = false := by decide
      have htake : (rest ++ ':' :: ' ' :: value).takeWhile Line.isKeyChar = rest := by
        rw [List.takeWhile_append_of_pos hrest, List.takeWhile_cons_of_neg (by simp [hcolon]),
          List.append_nil]
      have hdrop : (rest ++ ':' :: ' ' :: value).dropWhile Line.isKeyChar =
          ':' :: ' ' :: value := by
        rw [List.dropWhile_append_of_pos hrest, List.dropWhile_cons_of_neg (by simp [hcolon])]
      rw [List.cons_append, Line.entryOf?, Line.splitKey?, if_neg hquote, if_pos hstart, htake,
        hdrop]
      rfl

theorem startsBody_of_isBareKey : Line.startsBody (key ++ ':' :: ' ' :: value) = true := by
  cases key with
  | nil => cases hkey
  | cons c rest =>
      simp only [isBareKey, Bool.and_eq_true] at hkey
      have hspace := ne_of_isKeyStart (d := ' ') hkey.1 (by decide)
      have htab := ne_of_isKeyStart (d := '\t') hkey.1 (by decide)
      have hdash := ne_of_isKeyStart (d := '-') hkey.1 (by decide)
      simp [Line.startsBody, Text.isIndent, hspace, htab, hdash]

theorem unindented_fieldLine :
    (fieldLine depth key value).unindented = key ++ ':' :: ' ' :: value := by
  rw [fieldLine, List.append_assoc]
  refine Line.unindented_append (fun c hc => ?_)
    (Line.startsIndented_of_startsBody (startsBody_of_isBareKey hkey value))
  rw [List.eq_of_mem_replicate hc]
  decide

theorem depth_fieldLine : (fieldLine depth key value).depth = depth := by
  rw [fieldLine, List.append_assoc, Line.depth_append (fun c hc => ?_)
    (Line.startsIndented_of_startsBody (startsBody_of_isBareKey hkey value)), List.length_replicate]
  rw [List.eq_of_mem_replicate hc]
  decide

theorem kind_fieldLine : (fieldLine depth key value).kind = .parameter := by
  have hentry := entryOf?_of_isBareKey hkey value
  have hun := unindented_fieldLine hkey depth value
  have hblank : Text.allBlank (key ++ ':' :: ' ' :: value) = false :=
    Line.allBlank_eq_false (c := ':') (by simp) (by decide)
  unfold Line.kind
  rw [hun, if_neg (by simp [hblank])]
  cases key with
  | nil => cases hkey
  | cons c rest =>
      simp only [isBareKey, Bool.and_eq_true] at hkey
      have hhash := ne_of_isKeyStart (d := '#') hkey.1 (by decide)
      have hdash := ne_of_isKeyStart (d := '-') hkey.1 (by decide)
      split
      · next heq =>
          cases heq
          exact absurd rfl hhash
      · next heq =>
          cases heq
          exact absurd rfl hdash
      · rw [hentry]
        rfl

theorem key?_fieldLine : (fieldLine depth key value).key? = some key := by
  have hun := unindented_fieldLine hkey depth value
  have hbody : (fieldLine depth key value).body = key ++ ':' :: ' ' :: value := by
    rw [Line.body_of_startsBody (by rw [hun]; exact startsBody_of_isBareKey hkey value), hun]
  rw [Line.key?, kind_fieldLine hkey, hbody, entryOf?_of_isBareKey hkey]
  rfl

end

/-- An index below which a new field may stand: inside the block, with no line above it that ends
the run of fields. -/
def IsPlace (b : Buffer) (i p : Nat) : Prop :=
  i < p ∧ p ≤ b.stopOf i ∧ ∀ d, b.fieldDepth? ⟨i, b.stopOf i⟩ = some d →
    ∀ k, i < k → k < p → (b.line k).inRun (b.line i).depth d = true

/-- The lines above a place in a run, or at its end, belong to the run. -/
theorem all_take_of_le_runAfter {p : Nat} {q : Line → Bool}
    (hp : p ≤ i + 1 + (b.runAfter i q).length) :
    ∀ l ∈ (b.drop (i + 1)).take (p - (i + 1)), q l = true := by
  have hrun : (b.drop (i + 1)).take (p - (i + 1)) <+: (b.drop (i + 1)).takeWhile q := by
    apply List.prefix_of_prefix_length_le (List.take_prefix _ _) (List.takeWhile_prefix _)
    have := List.length_take_le (p - (i + 1)) (b.drop (i + 1))
    rw [runAfter] at hp
    omega
  exact fun l hl => List.mem_takeWhile_imp (hrun.mem hl)

section

variable {p : Nat} (hplace : b.IsPlace i p) (hi : i < b.length)

include hplace hi

theorem IsPlace.le_length : p ≤ b.length :=
  Nat.le_trans hplace.2.1 (stopOf_le_length hi)

variable (hd : b.fieldDepth? ⟨i, b.stopOf i⟩ = some d)

include hd

/-- The lines above a place belong to the run of fields. -/
theorem IsPlace.le_runAfter :
    p ≤ i + 1 + (b.runAfter i (Line.inRun (b.line i).depth d)).length := by
  have hlen := hplace.le_length hi
  obtain ⟨hip, _, hrun⟩ := hplace
  rcases Nat.eq_or_lt_of_le (Nat.succ_le_of_lt hip) with rfl | hlt
  · exact Nat.le_add_right _ _
  · have hlast : p - 1 < i + 1 + (b.runAfter i (Line.inRun (b.line i).depth d)).length :=
      (lt_runAfter_iff (by omega)).2 ⟨by omega, fun k hik hk => hrun d hd k hik (by omega)⟩
    omega

theorem IsPlace.all_inRun :
    ((b.drop (i + 1)).take (p - (i + 1))).all (Line.inRun (b.line i).depth d) = true :=
  List.all_eq_true.2 (all_take_of_le_runAfter (hplace.le_runAfter hi hd))

end

theorem isPlace_of_mem_fields {f : Field} (h : f ∈ b.fields ⟨i, b.stopOf i⟩) :
    b.IsPlace i f.index := by
  obtain ⟨d, hd, hrun, _⟩ := mem_fieldRun_of_mem_fields h
  refine ⟨(of_mem_fieldRun hrun).1, Nat.le_of_lt (lt_stopOf_of_mem_fieldRun hrun), ?_⟩
  intro d' hd' k hik hk
  rw [hd] at hd'
  cases hd'
  exact inRun_of_le hrun hik (Nat.le_of_lt hk)

theorem lt_fieldEnd (b : Buffer) (i : Nat) : i < b.fieldEnd i := by
  unfold fieldEnd
  dsimp only
  split <;> exact lt_lastContent _ _

/-- The value of a field, and a sequence below its key, belong to the run of fields. -/
theorem inRun_of_isInsideSequence {base : Nat} {l : Line} (hbase : base < d)
    (hl : isInsideSequence d l = true) : l.inRun base d = true := by
  simp only [isInsideSequence, Bool.or_eq_true, Bool.and_eq_true, decide_eq_true_eq] at hl
  rcases hl with hinside | ⟨_, hdeep⟩
  · exact Line.inRun_of_isInside (Nat.le_of_lt hbase) (Nat.le_refl d) hinside
  · simp [Line.inRun, Line.isInside, hdeep, hbase]

theorem depth_lt_of_mem_fields {f : Field} (h : f ∈ b.fields ⟨i, b.stopOf i⟩) :
    (b.line i).depth < (b.line f.index).depth := by
  obtain ⟨d, hd, _, hdepth⟩ := mem_fieldRun_of_mem_fields h
  rw [hdepth]
  exact lt_of_entryDepth? (by rw [← fieldDepth?_eq, hd])

/-- The lines below a field that belong to its value stay in the block. -/
theorem runAfter_le_of_mem_fields {f : Field} (h : f ∈ b.fields ⟨i, b.stopOf i⟩)
    {p : Line → Bool}
    (hp : ∀ l, p l = true → isInsideSequence (b.line f.index).depth l = true) :
    f.index + 1 + (b.runAfter f.index p).length ≤ b.stopOf i := by
  obtain ⟨_, _, hrun, _⟩ := mem_fieldRun_of_mem_fields h
  refine runAfter_le_stopOf (Nat.le_of_lt (of_mem_fieldRun hrun).1)
    (lt_stopOf_of_mem_fieldRun hrun) fun l hl => ?_
  exact isInside_of_inRun (inRun_of_isInsideSequence (depth_lt_of_mem_fields h) (hp l hl))

/-- The end of a field is the end of a run of lines that belong to its value. -/
theorem exists_fieldEnd_eq (b : Buffer) (i : Nat) :
    ∃ p : Line → Bool, (∀ l, p l = true → isInsideSequence (b.line i).depth l = true) ∧
      b.fieldEnd i = lastContent i (b.runAfter i p) := by
  simp only [fieldEnd]
  split
  · exact ⟨_, fun l hl => by rw [isInsideSequence, hl, Bool.true_or], rfl⟩
  · exact ⟨_, fun l hl => hl, rfl⟩

/-- The end of a field with its value is a place below the field. -/
theorem isPlace_fieldEnd {f : Field} (h : f ∈ b.fields ⟨i, b.stopOf i⟩) :
    b.IsPlace i (b.fieldEnd f.index) := by
  obtain ⟨d, hd, hrun, hdepth⟩ := mem_fieldRun_of_mem_fields h
  have hbase := depth_lt_of_mem_fields h
  have hif := (of_mem_fieldRun hrun).1
  obtain ⟨p, hp, hend⟩ := b.exists_fieldEnd_eq f.index
  have hle := runAfter_le_of_mem_fields h hp
  have hlast := lastContent_le f.index (b.runAfter f.index p)
  rw [hend]
  refine ⟨Nat.lt_trans hif (lt_lastContent _ _), Nat.le_trans hlast hle, ?_⟩
  intro d' hd' k hik hk
  rw [hd] at hd'
  cases hd'
  rcases Nat.lt_or_ge f.index k with hfk | hkf
  · rw [hdepth] at hbase hp
    exact inRun_of_isInsideSequence hbase (hp _ (of_lt_runAfter hfk (by omega)).2)
  · exact inRun_of_le hrun hik hkf

theorem isPlace_runEnd (hd : b.fieldDepth? ⟨i, b.stopOf i⟩ = some d) :
    b.IsPlace i (b.runEnd ⟨i, b.stopOf i⟩ d) := by
  unfold runEnd
  dsimp only
  split
  · next k hk =>
      have hrun : k ∈ b.fieldRun ⟨i, b.stopOf i⟩ d :=
        List.mem_of_mem_filter (List.mem_of_getLast? hk)
      refine ⟨Nat.lt_succ_of_lt (of_mem_fieldRun hrun).1, lt_stopOf_of_mem_fieldRun hrun, ?_⟩
      intro d' hd' j hij hj
      rw [hd] at hd'
      cases hd'
      exact inRun_of_le hrun hij (Nat.lt_succ_iff.1 hj)
  · exact ⟨Nat.lt_succ_self i, lt_stopOf b i, fun _ _ k hik hk => absurd hik (by omega)⟩

theorem isPlace_contentEnd (hd : b.fieldDepth? ⟨i, b.stopOf i⟩ = none) :
    b.IsPlace i (b.contentEnd ⟨i, b.stopOf i⟩) := by
  have hlast := lastContent_le i (b.interiorLines ⟨i, b.stopOf i⟩)
  have hlen : (b.interiorLines ⟨i, b.stopOf i⟩).length ≤ b.stopOf i - (i + 1) := by
    rw [interiorLines]
    exact List.length_take_le _ _
  have hstop := lt_stopOf b i
  refine ⟨lt_lastContent _ _, ?_, fun d hd' => ?_⟩
  · rw [contentEnd]
    dsimp only at *
    omega
  · rw [hd] at hd'
    cases hd'

/-- A new field is placed inside its block and below no line that ends the run of fields. -/
theorem isPlace_insertionIndex (b : Buffer) (i : Nat) (a : Anchors) :
    b.IsPlace i (b.insertionIndex ⟨i, b.stopOf i⟩ a) := by
  unfold insertionIndex
  split
  · next f hf =>
      have hmem := List.mem_of_find?_eq_some hf
      rw [List.mem_reverse] at hmem
      exact isPlace_fieldEnd ((List.takeWhile_sublist _).mem hmem)
  · next f _ hf => exact isPlace_of_mem_fields (List.mem_of_find?_eq_some hf)
  · next d _ _ hd => exact isPlace_runEnd hd
  · next _ _ hd => exact isPlace_contentEnd hd

/-- Below the last content of a run only blank lines are left of it. -/
theorem allBlank_of_lastContent_le {q : Line → Bool} {k : Nat}
    (hk : lastContent i (b.runAfter i q) ≤ k) (hlt : k < i + 1 + (b.runAfter i q).length) :
    Text.allBlank (b.line k) = true := by
  have hik : i < k := Nat.lt_of_lt_of_le (lt_lastContent _ _) hk
  have hm : k - (i + 1) < (b.runAfter i q).length := by omega
  have hline := getElem_runAfter hm
  rw [show i + 1 + (k - (i + 1)) = k by omega] at hline
  rw [← hline]
  rw [lastContent] at hk
  generalize b.runAfter i q = run at hk hm
  have hsplit : (run.reverse.dropWhile Text.allBlank).reverse ++
      (run.reverse.takeWhile Text.allBlank).reverse = run := by
    rw [← List.reverse_append, List.takeWhile_append_dropWhile, List.reverse_reverse]
  have hmem : run[k - (i + 1)] ∈ run.reverse.takeWhile Text.allBlank := by
    rw [← List.mem_reverse]
    have hright : run[k - (i + 1)]? = (run.reverse.takeWhile Text.allBlank).reverse[k - (i + 1) -
        (run.reverse.dropWhile Text.allBlank).length]? := by
      conv => lhs; rw [← hsplit]
      rw [List.getElem?_append_right (by rw [List.length_reverse]; omega), List.length_reverse]
    rw [List.getElem?_eq_getElem hm] at hright
    exact List.mem_of_getElem? hright.symm
  exact List.mem_takeWhile_imp hmem

/-- No block that starts between the start line and the place goes on below the place. -/
def CutsNoBlock (b : Buffer) (i p : Nat) : Prop :=
  ∀ j, i < j → j < p → (b.line j).kind.isSignificant = true →
    ∀ k, p ≤ k → k < b.stopOf j → (b.line k).kind = .blank

/-- A place behind the content of a run cuts no block that starts in the run and holds only lines
that belong to it. -/
private theorem kind_of_lastContent_le {q : Line → Bool} {k : Nat} (hij : i ≤ j)
    (hj : j < i + 1 + (b.runAfter i q).length)
    (hq : ∀ l, l.isInside (b.line j).depth = true → q l = true)
    (hk : lastContent i (b.runAfter i q) ≤ k) (hkj : k < b.stopOf j) :
    (b.line k).kind = .blank :=
  Line.kind_of_allBlank (allBlank_of_lastContent_le hk
    (Nat.lt_of_lt_of_le hkj (runAfter_le_runAfter hij hj hq)))

/-- A line of the run of fields starts no block that a field below it belongs to. -/
private theorem stopOf_le_of_mem_fieldRun {f : Nat} (hf : f ∈ b.fieldRun ⟨i, b.stopOf i⟩ d)
    (hdepth : (b.line f).depth = d) (hkind : (b.line f).kind = .parameter) (hij : i < j)
    (hjf : j < f) (hsig : (b.line j).kind.isSignificant = true) : b.stopOf j ≤ f := by
  by_contra hstop
  have hrun := inRun_of_le hf hij (Nat.le_of_lt hjf)
  have hinside := ((lt_stopOf_iff hjf).1 (Nat.lt_of_not_le hstop)).2 f hjf (Nat.le_refl f)
  have hdeep := depth_of_isInside (by rw [hkind]; rfl) hinside
  have := Line.le_depth_of_inRun hrun hsig
  omega

theorem cutsNoBlock_of_mem_fields {f : Field} (h : f ∈ b.fields ⟨i, b.stopOf i⟩) :
    b.CutsNoBlock i f.index := by
  obtain ⟨d, _, hrun, hdepth⟩ := mem_fieldRun_of_mem_fields h
  obtain ⟨_, _, _, hkind, _⟩ := of_mem_fields h
  intro j hij hjf hsig k hk hkj
  have hstop := stopOf_le_of_mem_fieldRun hrun hdepth hkind hij hjf hsig
  omega

/-- Whatever starts in the value of a field belongs to it. -/
theorem cutsNoBlock_fieldEnd {f : Field} (h : f ∈ b.fields ⟨i, b.stopOf i⟩) :
    b.CutsNoBlock i (b.fieldEnd f.index) := by
  obtain ⟨d, hd, hrun, hdepth⟩ := mem_fieldRun_of_mem_fields h
  obtain ⟨_, _, _, hkind, _⟩ := of_mem_fields h
  have hplace := isPlace_fieldEnd h
  intro j hij hj hsig k hk hkj
  rcases Nat.lt_or_ge j f.index with hjf | hfj
  · have hstop := stopOf_le_of_mem_fieldRun hrun hdepth hkind hij hjf hsig
    have hend := b.lt_fieldEnd f.index
    omega
  · have hdeep := Line.le_depth_of_inRun (hplace.2.2 d hd j hij hj) hsig
    have hinside (l : Line) (hl : l.isInside (b.line j).depth = true) : l.isInside d = true :=
      Line.isInside_of_le hdeep hl
    unfold fieldEnd at hk hj
    dsimp only at hk hj
    split at hk
    · next hvalue =>
        rw [if_pos hvalue] at hj
        refine kind_of_lastContent_le hfj (Nat.lt_of_lt_of_le hj (lastContent_le _ _))
          (fun l hl => ?_) hk hkj
        rw [hdepth]
        exact hinside l hl
    · next hvalue =>
        rw [if_neg hvalue] at hj
        refine kind_of_lastContent_le hfj (Nat.lt_of_lt_of_le hj (lastContent_le _ _))
          (fun l hl => ?_) hk hkj
        rw [hdepth, isInsideSequence, hinside l hl, Bool.true_or]

/-- The content of a block is the content of the run of lines inside it. -/
theorem contentEnd_eq (b : Buffer) (i : Nat) : b.contentEnd ⟨i, b.stopOf i⟩ =
    lastContent i (b.runAfter i (Line.isInside (b.line i).depth)) := by
  have htake := List.prefix_iff_eq_take.1
    (List.takeWhile_prefix (l := b.drop (i + 1)) (Line.isInside (b.line i).depth))
  rw [contentEnd, interiorLines, stopOf, runAfter, Nat.add_sub_cancel_left, ← htake]

theorem cutsNoBlock_contentEnd : b.CutsNoBlock i (b.contentEnd ⟨i, b.stopOf i⟩) := by
  intro j hij hj hsig k hk hkj
  rw [contentEnd_eq] at hj hk
  have hjrun := Nat.lt_of_lt_of_le hj (lastContent_le _ _)
  refine kind_of_lastContent_le (Nat.le_of_lt hij) hjrun (fun l hl => ?_) hk hkj
  have hdeep := (Line.isInside_iff (Line.allBlank_of_isSignificant hsig)).1
    (of_lt_runAfter hij hjrun).2
  exact Line.isInside_of_le (Nat.le_of_lt hdeep) hl

/-- The run of fields ends below each of its lines that counts. -/
theorem lt_runEnd_of_mem {k : Nat} (hk : k ∈ b.fieldRun ⟨i, b.stopOf i⟩ d)
    (hcounts : ((b.line k).kind != .blank && d ≤ (b.line k).depth) = true) :
    k < b.runEnd ⟨i, b.stopOf i⟩ d := by
  have hmem : k ∈ (b.fieldRun ⟨i, b.stopOf i⟩ d).filter fun k =>
      (b.line k).kind != .blank && d ≤ (b.line k).depth := List.mem_filter.2 ⟨hk, hcounts⟩
  have hsorted : ((b.fieldRun ⟨i, b.stopOf i⟩ d).filter fun k =>
      (b.line k).kind != .blank && d ≤ (b.line k).depth).Pairwise (· < ·) := by
    rw [fieldRun_eq]
    exact (List.pairwise_lt_range' 1).filter _
  unfold runEnd
  dsimp only
  split
  · next m hm =>
      obtain ⟨init, hinit⟩ := List.getLast?_eq_some_iff.1 hm
      rw [hinit] at hmem hsorted
      rcases List.mem_append.1 hmem with hk | hk
      · have hlt := (List.pairwise_append.1 hsorted).2.2 k hk m (List.mem_singleton_self m)
        omega
      · rw [List.mem_singleton] at hk
        omega
  · next hnone =>
      rw [List.getLast?_eq_none_iff] at hnone
      rw [hnone] at hmem
      cases hmem

/-- Below the last line of the run of fields nothing but blank lines belongs to it. -/
theorem cutsNoBlock_runEnd (hd : b.fieldDepth? ⟨i, b.stopOf i⟩ = some d) :
    b.CutsNoBlock i (b.runEnd ⟨i, b.stopOf i⟩ d) := by
  have hbase : (b.line i).depth < d := lt_of_entryDepth? (by rw [← fieldDepth?_eq, hd])
  have hplace := isPlace_runEnd hd
  intro j hij hj hsig k hk hkj
  have hjdeep := Line.le_depth_of_inRun (hplace.2.2 d hd j hij hj) hsig
  have hjk : j < k := Nat.lt_of_lt_of_le hj hk
  have hblock := (lt_stopOf_iff hjk).1 hkj
  by_contra hkind
  have hmem : k ∈ b.fieldRun ⟨i, b.stopOf i⟩ d := by
    rw [fieldRun_eq, List.mem_range'_1, ← runAfter]
    refine ⟨by omega, (lt_runAfter_iff (by omega)).2 ⟨hblock.1, fun m him hmk => ?_⟩⟩
    rcases Nat.lt_or_ge m (j + 1) with hmj | hjm
    · exact hplace.2.2 d hd m him (by omega)
    · exact Line.inRun_of_isInside (by omega) hjdeep (hblock.2 m (by omega) hmk)
  have hdeep : d ≤ (b.line k).depth := by
    have hkrun := (of_mem_fieldRun hmem).2
    have hinside := hblock.2 k hjk (Nat.le_refl k)
    simp only [Line.isInside, Bool.or_eq_true, decide_eq_true_eq] at hinside
    rcases hinside with hblank | hlt
    · exact absurd (Line.kind_of_allBlank hblank) hkind
    · omega
  have hend : k < b.runEnd ⟨i, b.stopOf i⟩ d :=
    lt_runEnd_of_mem hmem (by simp [hkind, hdeep])
  omega

/-- The place of a new field cuts no block. -/
theorem cutsNoBlock_insertionIndex (b : Buffer) (i : Nat) (a : Anchors) :
    b.CutsNoBlock i (b.insertionIndex ⟨i, b.stopOf i⟩ a) := by
  unfold insertionIndex
  split
  · next f hf =>
      have hmem := List.mem_of_find?_eq_some hf
      rw [List.mem_reverse] at hmem
      exact cutsNoBlock_fieldEnd ((List.takeWhile_sublist _).mem hmem)
  · next f _ hf => exact cutsNoBlock_of_mem_fields (List.mem_of_find?_eq_some hf)
  · next d _ _ hd => exact cutsNoBlock_runEnd hd
  · exact cutsNoBlock_contentEnd

private theorem getD_min?_pos {steps : List Nat} (h : ∀ step ∈ steps, 0 < step) :
    0 < steps.min?.getD 2 := by
  cases hmin : steps.min? with
  | none => decide
  | some step => exact h step (List.min?_mem hmin)

/-- A step of the indentation is at least one column. -/
theorem indentStep_pos (b : Buffer) : 0 < b.indentStep := by
  refine getD_min?_pos fun step hstep => ?_
  obtain ⟨⟨before, after⟩, _, h⟩ := List.mem_filterMap.1 hstep
  dsimp only at h
  split at h
  · next hlt =>
      obtain rfl := Option.some.inj h
      omega
  · cases h

/-- A new field is deeper than the start line of its block. -/
theorem depth_lt_childDepth (b : Buffer) (i : Nat) :
    (b.line i).depth < b.childDepth ⟨i, b.stopOf i⟩ := by
  unfold childDepth
  split
  · next d hd => exact lt_of_entryDepth? (by rw [← fieldDepth?_eq, hd])
  · dsimp only
    split
    · next hitem => exact Line.depth_lt_column_of_item hitem
    · have := b.indentStep_pos
      omega

end Buffer

end TaskTidy
