import TaskTidy.Proofs.Parents
import TaskTidy.Proofs.Placement

/-!
# The order of the fields

A new field joins the fields of its block and moves none of them. Its position among their keys is
decided by the anchors alone: behind the last key that it follows above the first key that it
precedes, else in front of that key, else at the end.
-/

namespace TaskTidy

/-- The position of a new key among the keys of a block: one past the last key to follow that stands
above every key to precede; without one, the position of the first key to precede. -/
def Anchors.position (a : Anchors) (keys : List (List Char)) : Nat :=
  let barrier := keys.findIdx fun key => a.before.contains key
  match ((List.range barrier).filter fun n => a.after.contains (keys.getD n [])).getLast? with
  | some n => n + 1
  | none => barrier

private theorem getLast?_filter_range {q : Nat → Bool} {n m : Nat} (hm : m < n) (hq : q m = true)
    (hrest : ∀ j, m < j → j < n → q j = false) :
    ((List.range n).filter q).getLast? = some m := by
  induction n with
  | zero => exact absurd hm (Nat.not_lt_zero m)
  | succ n ih =>
      rw [List.range_succ, List.filter_append]
      rcases Nat.lt_succ_iff_lt_or_eq.1 hm with hlt | rfl
      · have hlast := ih hlt fun j hmj hj => hrest j hmj (Nat.lt_succ_of_lt hj)
        simpa [hrest n hlt (Nat.lt_succ_self n)] using hlast
      · simp [hq]

private theorem insertIdx_append_length {α : Type} (above below : List α) (x : α) :
    (above ++ below).insertIdx above.length x = above ++ x :: below := by
  induction above with
  | nil => rfl
  | cons y above ih =>
      rw [List.cons_append, List.length_cons, List.insertIdx_succ_cons, ih, List.cons_append]

namespace Buffer

/-! ### The position that the anchors give -/

section

variable {a : Anchors} {fields above later below : List Field} {f : Field}

/-- The first key to precede stands below the fields that are no such key. -/
private theorem findIdx_eq_length_takeWhile (a : Anchors) (fields : List Field) :
    (fields.map Field.key).findIdx (fun key => a.before.contains key) =
      (fields.takeWhile fun f => !a.before.contains f.key).length := by
  induction fields with
  | nil => rfl
  | cons f rest ih =>
      rw [List.map_cons, List.findIdx_cons, List.takeWhile_cons, ih]
      cases a.before.contains f.key <;> rfl

private theorem getD_map_key :
    ((above ++ f :: below).map Field.key).getD above.length [] = f.key := by
  simp [List.getD_eq_getElem?_getD]

private theorem exists_getD_map_key (below : List Field) {j : Nat} (hj : above.length < j)
    (hlt : j < (above ++ f :: later).length) :
    ∃ g ∈ later, ((above ++ f :: (later ++ below)).map Field.key).getD j [] = g.key := by
  obtain ⟨k, rfl⟩ : ∃ k, j = above.length + (k + 1) := ⟨j - (above.length + 1), by omega⟩
  rw [List.length_append, List.length_cons] at hlt
  have hk : k < later.length := by omega
  refine ⟨later[k], List.getElem_mem hk, ?_⟩
  rw [List.getD_eq_getElem?_getD, List.getElem?_map, List.getElem?_append_right (by omega),
    Nat.add_sub_cancel_left, List.getElem?_cons_succ, List.getElem?_append_left hk,
    List.getElem?_eq_getElem hk, Option.map_some, Option.getD_some]

/-- Behind an anchor stands the new key. -/
theorem exists_position_of_anchor? (h : anchor? a fields = some f) :
    ∃ above below, fields = above ++ f :: below ∧
      a.position (fields.map Field.key) = above.length + 1 := by
  obtain ⟨hf, later, earlier, hsplit, hlater⟩ := List.find?_eq_some_iff_append.1 h
  have hfree : (fields.takeWhile fun f => !a.before.contains f.key) =
      earlier.reverse ++ f :: later.reverse := by
    rw [← List.reverse_reverse (fields.takeWhile _), hsplit]
    simp
  have hfields := List.takeWhile_append_dropWhile (p := fun f : Field => !a.before.contains f.key)
    (l := fields)
  rw [hfree, List.append_assoc, List.cons_append] at hfields
  refine ⟨earlier.reverse, _, hfields.symm, ?_⟩
  have hlast : ((List.range (earlier.reverse ++ f :: later.reverse).length).filter fun n =>
      a.after.contains ((fields.map Field.key).getD n [])).getLast? =
        some earlier.reverse.length := by
    apply getLast?_filter_range
    · simp
    · rw [← hfields, getD_map_key]
      exact hf
    · intro j hj hlt
      obtain ⟨g, hg, hkey⟩ := exists_getD_map_key (fields.dropWhile _) hj hlt
      rw [hfields] at hkey
      rw [hkey]
      simpa using hlater g (List.mem_reverse.1 hg)
  rw [Anchors.position, findIdx_eq_length_takeWhile, hfree]
  simp only [hlast]

/-- Without an anchor the new key stands below the fields that are no key to precede. -/
theorem position_of_anchor?_eq_none (h : anchor? a fields = none) :
    a.position (fields.map Field.key) =
      (fields.takeWhile fun f => !a.before.contains f.key).length := by
  rw [Anchors.position, findIdx_eq_length_takeWhile]
  have hnone : ((List.range (fields.takeWhile fun f => !a.before.contains f.key).length).filter
      fun n => a.after.contains ((fields.map Field.key).getD n [])).getLast? = none := by
    rw [List.getLast?_eq_none_iff, List.filter_eq_nil_iff]
    intro n hn hafter
    rw [List.mem_range] at hn
    have hprefix := (List.takeWhile_prefix (l := fields)
      fun f : Field => !a.before.contains f.key).getElem hn
    have hmem := List.getElem_mem hn
    have hlen := (List.takeWhile_sublist (l := fields) fun f : Field =>
      !a.before.contains f.key).length_le
    rw [List.getD_eq_getElem?_getD, List.getElem?_map,
      List.getElem?_eq_getElem (Nat.lt_of_lt_of_le hn hlen), Option.map_some, Option.getD_some,
      ← hprefix] at hafter
    exact List.find?_eq_none.1 h _ (List.mem_reverse.2 hmem) hafter
  simp only [hnone]

end

/-! ### The fields above the place -/

section

variable {b : Buffer} {i j d p : Nat} {a : Anchors} {f g : Field}

theorem index_of_fieldAt? (h : b.fieldAt? d j = some f) : f.index = j := by
  unfold fieldAt? at h
  split at h
  · obtain ⟨_, _, rfl⟩ := Option.map_eq_some_iff.1 h
    rfl
  · cases h

/-- The fields of a block stand in the order of their lines. -/
theorem pairwise_fields (b : Buffer) (i : Nat) :
    (b.fields ⟨i, b.stopOf i⟩).Pairwise fun f g => f.index < g.index := by
  unfold fields
  split
  · exact .nil
  · next d hd =>
      rw [fieldRun_eq]
      refine (List.pairwise_lt_range' 1).filterMap _ fun j k hjk f hf g hg => ?_
      rwa [index_of_fieldAt? hf, index_of_fieldAt? hg]

/-- The fields above an index are those before a split of the fields at that index. -/
private theorem takeWhile_index_eq {above below : List Field} (habove : ∀ f ∈ above, f.index < p)
    (hbelow : ∀ f ∈ below, p ≤ f.index) :
    (above ++ below).takeWhile (fun f => f.index < p) = above := by
  rw [List.takeWhile_append_of_pos fun f hf => decide_eq_true (habove f hf)]
  cases below with
  | nil => simp
  | cons f below =>
      have := hbelow f List.mem_cons_self
      rw [List.takeWhile_cons_of_neg (by simpa using this), List.append_nil]

/-- No field stands in the value of another one. -/
theorem fieldEnd_le_of_mem_fields (hf : f ∈ b.fields ⟨i, b.stopOf i⟩)
    (hg : g ∈ b.fields ⟨i, b.stopOf i⟩) (hfg : f.index < g.index) :
    b.fieldEnd f.index ≤ g.index := by
  obtain ⟨d, hd, _, hfd⟩ := mem_fieldRun_of_mem_fields hf
  obtain ⟨d', hd', _, hgd⟩ := mem_fieldRun_of_mem_fields hg
  obtain rfl := Option.some.inj (hd.symm.trans hd')
  obtain ⟨_, _, _, hkind, _⟩ := of_mem_fields hg
  apply Nat.le_of_not_lt
  intro hlt
  obtain ⟨q, hq, hend⟩ := b.exists_fieldEnd_eq f.index
  rw [hend] at hlt
  have hinside := hq _ (of_lt_runAfter hfg (Nat.lt_of_lt_of_le hlt (lastContent_le _ _))).2
  have hblank := allBlank_of_isEntry (s := b.line g.index) (by rw [hkind]; rfl)
  simp [isInsideSequence, Line.isInside, hblank, hkind, hfd, hgd] at hinside

/-- The place behind an anchor is below the anchor and the fields above it. -/
private theorem takeWhile_index_of_anchor? {above below : List Field}
    (hanchor : anchor? a (b.fields ⟨i, b.stopOf i⟩) = some f)
    (hsplit : b.fields ⟨i, b.stopOf i⟩ = above ++ f :: below) :
    (b.fields ⟨i, b.stopOf i⟩).takeWhile (fun f =>
      f.index < b.insertionIndex ⟨i, b.stopOf i⟩ a) = above ++ [f] := by
  have hmem : f ∈ b.fields ⟨i, b.stopOf i⟩ := by simp [hsplit]
  have hplace : b.insertionIndex ⟨i, b.stopOf i⟩ a = b.fieldEnd f.index := by
    simp only [insertionIndex, hanchor]
  have hcut : b.fields ⟨i, b.stopOf i⟩ = (above ++ [f]) ++ below := by simp [hsplit]
  have hsorted := b.pairwise_fields i
  rw [hcut] at hsorted
  obtain ⟨habove, _, hbelow⟩ := List.pairwise_append.1 hsorted
  have hend := b.lt_fieldEnd f.index
  rw [hplace, hcut]
  apply takeWhile_index_eq
  · intro g hg
    rcases List.mem_append.1 hg with hg | hg
    · have := (List.pairwise_append.1 habove).2.2 g hg f (List.mem_singleton_self f)
      omega
    · rw [List.mem_singleton.1 hg]
      exact hend
  · intro g hg
    apply fieldEnd_le_of_mem_fields hmem
    · rw [hcut]
      exact List.mem_append_right _ hg
    · exact hbelow f (by simp) g hg

/-- Without an anchor the place is below the fields above the first key to precede: in front of that
key, or at the end of the run if there is no such key. -/
private theorem takeWhile_index_of_anchor?_eq_none (hd : b.fieldDepth? ⟨i, b.stopOf i⟩ = some d)
    (hanchor : anchor? a (b.fields ⟨i, b.stopOf i⟩) = none) :
    (b.fields ⟨i, b.stopOf i⟩).takeWhile (fun f =>
        f.index < b.insertionIndex ⟨i, b.stopOf i⟩ a) =
      (b.fields ⟨i, b.stopOf i⟩).takeWhile fun f => !a.before.contains f.key := by
  cases hbarrier : barrier? a (b.fields ⟨i, b.stopOf i⟩) with
  | some f =>
      have hplace : b.insertionIndex ⟨i, b.stopOf i⟩ a = f.index := by
        simp only [insertionIndex, hanchor, hbarrier]
      obtain ⟨hf, above, below, hsplit, habove⟩ := List.find?_eq_some_iff_append.1 hbarrier
      have hsorted := b.pairwise_fields i
      rw [hsplit] at hsorted
      obtain ⟨_, hbelow, hacross⟩ := List.pairwise_append.1 hsorted
      rw [hplace, hsplit, List.takeWhile_append_of_pos habove,
        List.takeWhile_cons_of_neg (by simpa using hf), List.append_nil]
      apply takeWhile_index_eq
      · exact fun g hg => hacross g hg f List.mem_cons_self
      · intro g hg
        rcases List.mem_cons.1 hg with rfl | hg
        · exact Nat.le_refl _
        · exact Nat.le_of_lt ((List.pairwise_cons.1 hbelow).1 g hg)
  | none =>
      have hplace : b.insertionIndex ⟨i, b.stopOf i⟩ a = b.runEnd ⟨i, b.stopOf i⟩ d := by
        simp only [insertionIndex, hanchor, hbarrier, hd]
      have hfree : (b.fields ⟨i, b.stopOf i⟩).takeWhile (fun f => !a.before.contains f.key) =
          b.fields ⟨i, b.stopOf i⟩ :=
        List.takeWhile_eq_self_iff.2 fun g hg => by
          simpa using List.find?_eq_none.1 hbarrier g hg
      rw [hplace, hfree, List.takeWhile_eq_self_iff]
      intro g hg
      obtain ⟨d', hd', hrun, hdepth⟩ := mem_fieldRun_of_mem_fields hg
      obtain rfl := Option.some.inj (hd.symm.trans hd')
      obtain ⟨_, _, _, hkind, _⟩ := of_mem_fields hg
      exact decide_eq_true (lt_runEnd_of_mem hrun (by simp [hkind, hdepth]))

/-- The place of a new field stands below as many fields as the anchors say. -/
theorem length_takeWhile_index (b : Buffer) (i : Nat) (a : Anchors)
    (hd : b.fieldDepth? ⟨i, b.stopOf i⟩ = some d) :
    ((b.fields ⟨i, b.stopOf i⟩).takeWhile fun f =>
        f.index < b.insertionIndex ⟨i, b.stopOf i⟩ a).length =
      a.position ((b.fields ⟨i, b.stopOf i⟩).map Field.key) := by
  cases hanchor : anchor? a (b.fields ⟨i, b.stopOf i⟩) with
  | some f =>
      obtain ⟨above, below, hsplit, hposition⟩ := exists_position_of_anchor? hanchor
      rw [takeWhile_index_of_anchor? hanchor hsplit, hposition, List.length_append,
        List.length_singleton]
  | none =>
      rw [takeWhile_index_of_anchor?_eq_none hd hanchor, position_of_anchor?_eq_none hanchor]

end

/-! ### The fields after the injection -/

section

variable {b : Buffer} {i j d p : Nat} {x : Line}

section

variable (hlen : p ≤ b.length)

include hlen

/-- A run that the inserted line joins is longer by that line. -/
theorem length_runAfter_insertIdx {q : Line → Bool} (hip : i < p)
    (hp : p ≤ i + 1 + (b.runAfter i q).length) (hx : q x = true) :
    (Buffer.runAfter (b.insertIdx p x) i q).length = (b.runAfter i q).length + 1 := by
  have hall := all_take_of_le_runAfter hp
  rw [runAfter, runAfter, drop_insertIdx_of_lt hlen x hip, List.takeWhile_append_of_pos hall,
    List.takeWhile_cons_of_pos hx]
  conv => rhs; rw [drop_of_lt hip, List.takeWhile_append_of_pos hall]
  simp only [List.length_append, List.length_cons]
  omega

/-- A block that the inserted line belongs to is longer by that line. -/
theorem stopOf_insertIdx (hip : i < p) (hp : p ≤ b.stopOf i)
    (hx : x.isInside (b.line i).depth = true) :
    Buffer.stopOf (b.insertIdx p x) i = b.stopOf i + 1 := by
  rw [stopOf, line_insertIdx_of_lt hlen x hip, length_runAfter_insertIdx hlen hip hp hx, stopOf]
  omega

theorem fieldAt?_insertIdx_of_lt (hj : j < p) :
    Buffer.fieldAt? (b.insertIdx p x) d j = b.fieldAt? d j := by
  rw [fieldAt?, fieldAt?, line_insertIdx_of_lt hlen x hj]

theorem fieldAt?_insertIdx_of_le (hj : p ≤ j) :
    Buffer.fieldAt? (b.insertIdx p x) d (j + 1) =
      (b.fieldAt? d j).map fun f => ⟨f.index + 1, f.key⟩ := by
  rw [fieldAt?, fieldAt?, line_insertIdx_of_le hlen x hj]
  split
  · rw [Option.map_map]
    rfl
  · rfl

theorem filterMap_fieldAt?_insertIdx_of_le_index {k m : Nat} (hk : k + m ≤ p) :
    (List.range' k m).filterMap (Buffer.fieldAt? (b.insertIdx p x) d) =
      (List.range' k m).filterMap (b.fieldAt? d) :=
  List.filterMap_congr fun _ hj =>
    fieldAt?_insertIdx_of_lt hlen (Nat.lt_of_lt_of_le (List.mem_range'_1.1 hj).2 hk)

theorem filterMap_fieldAt?_insertIdx_of_index_le {k n : Nat} (hk : p ≤ k) :
    (List.range' (k + 1) n).filterMap (Buffer.fieldAt? (b.insertIdx p x) d) =
      ((List.range' k n).filterMap (b.fieldAt? d)).map fun f => ⟨f.index + 1, f.key⟩ := by
  rw [Nat.add_comm k 1, ← List.map_add_range', List.filterMap_map, List.map_filterMap]
  refine List.filterMap_congr fun j hj => ?_
  rw [Function.comp_apply, Nat.add_comm 1 j]
  exact fieldAt?_insertIdx_of_le hlen (Nat.le_trans hk (List.mem_range'_1.1 hj).1)

end

namespace IsPlace

variable (hplace : b.IsPlace i p) (hd : b.fieldDepth? ⟨i, b.stopOf i⟩ = some d)
  (hi : i < b.length)

include hplace hi

include hd

/-- A field at its place leaves the measured depth as it is. -/
theorem fieldDepth?_insertIdx (hkind : x.kind = .parameter) (hdepth : x.depth = d) :
    Buffer.fieldDepth? (b.insertIdx p x) ⟨i, Buffer.stopOf (b.insertIdx p x) i⟩ = some d := by
  have hlen := hplace.le_length hi
  have hall := hplace.all_inRun hi hd
  rw [fieldDepth?_eq, drop_of_lt hplace.1] at hd
  rw [fieldDepth?_eq, line_insertIdx_of_lt hlen x hplace.1, drop_insertIdx_of_lt hlen x hplace.1]
  exact (inRun_of_measured hkind hd hall hdepth).2

/-- A field at its place parts the fields of the block, and those below it move down. -/
theorem exists_fields_insertIdx {key : List Char} (hkind : x.kind = .parameter)
    (hdepth : x.depth = d) (hkey : x.key? = some key) :
    ∃ above below, b.fields ⟨i, b.stopOf i⟩ = above ++ below ∧ (∀ f ∈ above, f.index < p) ∧
      (∀ f ∈ below, p ≤ f.index) ∧
      Buffer.fields (b.insertIdx p x) ⟨i, Buffer.stopOf (b.insertIdx p x) i⟩ =
        above ++ ⟨p, key⟩ :: below.map fun f => ⟨f.index + 1, f.key⟩ := by
  have hlen := hplace.le_length hi
  have hle := hplace.le_runAfter hi hd
  have hd' := hplace.fieldDepth?_insertIdx hd hi hkind hdepth
  have hxrun : x.inRun (b.line i).depth d = true := by
    have hbase : (b.line i).depth < d := lt_of_entryDepth? (by rw [← fieldDepth?_eq, hd])
    simp [Line.inRun, Line.isInside, hdepth, hbase]
  have hrun := length_runAfter_insertIdx hlen hplace.1 hle hxrun
  have hself : Buffer.fieldAt? (b.insertIdx p x) d p = some ⟨p, key⟩ := by
    rw [fieldAt?, line_insertIdx_self hlen, if_pos ⟨hkind, hdepth⟩, hkey, Option.map_some]
  obtain ⟨m, rfl⟩ : ∃ m, p = i + 1 + m := ⟨p - (i + 1), by have := hplace.1; omega⟩
  obtain ⟨n, hn⟩ : ∃ n, (b.runAfter i (Line.inRun (b.line i).depth d)).length = m + n :=
    ⟨_, (Nat.add_sub_cancel' (Nat.le_of_add_le_add_left hle)).symm⟩
  refine ⟨(List.range' (i + 1) m).filterMap (b.fieldAt? d),
    (List.range' (i + 1 + m) n).filterMap (b.fieldAt? d), ?_, ?_, ?_, ?_⟩
  · simp only [fields, hd]
    rw [fieldRun_eq, ← runAfter, hn, ← List.filterMap_append, List.range'_append_1]
  · intro f hf
    obtain ⟨j, hj, hfj⟩ := List.mem_filterMap.1 hf
    rw [index_of_fieldAt? hfj]
    exact (List.mem_range'_1.1 hj).2
  · intro f hf
    obtain ⟨j, hj, hfj⟩ := List.mem_filterMap.1 hf
    rw [index_of_fieldAt? hfj]
    exact (List.mem_range'_1.1 hj).1
  · simp only [fields, hd']
    rw [fieldRun_eq, ← runAfter, line_insertIdx_of_lt hlen x hplace.1, hrun, hn,
      Nat.add_assoc m n 1, ← List.range'_append_1, List.range'_succ, List.filterMap_append,
      List.filterMap_cons_some hself, filterMap_fieldAt?_insertIdx_of_le_index hlen (Nat.le_refl _),
      filterMap_fieldAt?_insertIdx_of_index_le hlen (Nat.le_refl _)]

end IsPlace

theorem value?_fieldLine {key : List Char} (hkey : isBareKey key = true) (depth : Nat)
    (value : List Char) : (fieldLine depth key value).value? =
      if Text.allBlank value then none else some (Text.trim value) := by
  have hun := unindented_fieldLine hkey depth value
  have hbody : (fieldLine depth key value).body = key ++ ':' :: ' ' :: value := by
    rw [Line.body_of_startsBody (by rw [hun]; exact startsBody_of_isBareKey hkey value), hun]
  rw [Line.value?, hbody, entryOf?_of_isBareKey hkey]

/-- An injected field stands inside its block, at the measured depth. The block grows by its line,
the keys of the block by its key, in the position that the anchors give, and the value of the field
is the trimmed text. -/
theorem fields_injectField {e : Extent} {key : List Char} (a : Anchors) (value : List Char)
    (he : b.extentOf i = .ok e) (hd : b.fieldDepth? e = some d) (hkey : isBareKey key = true)
    (hno : b.hasField e key = false) :
    ∃ p e', e.start < p ∧ p < e'.stop ∧
      b.injectField e a key value =
        b.take p ++ (List.replicate d ' ' ++ key ++ [':', ' '] ++ value) :: b.drop p ∧
      Buffer.extentOf (b.injectField e a key value) i = .ok e' ∧
      e' = ⟨e.start, e.stop + 1⟩ ∧
      (Buffer.fields (b.injectField e a key value) e').map Field.key =
        ((b.fields e).map Field.key).insertIdx (a.position ((b.fields e).map Field.key)) key ∧
      a.position ((b.fields e).map Field.key) ≤ (b.fields e).length ∧
      Buffer.fieldValue? (b.injectField e a key value) e' key =
        if Text.allBlank value then none else some (Text.trim value) := by
  obtain ⟨hi, rfl⟩ := extentOf_eq_ok_iff.1 he
  have hplace := b.isPlace_insertionIndex i a
  have hposition := b.length_takeWhile_index i a hd
  have hlen := hplace.le_length hi
  have hkind := kind_fieldLine hkey d value
  have hdepth := depth_fieldLine hkey d value
  obtain ⟨above, below, hsplit, habove, hbelow, hfields⟩ :=
    hplace.exists_fields_insertIdx hd hi hkind hdepth (key?_fieldLine hkey d value)
  have hchild : b.childDepth ⟨i, b.stopOf i⟩ = d := by
    rw [childDepth, hd]
  rw [hsplit, takeWhile_index_eq habove hbelow] at hposition
  rw [injectField, hchild]
  generalize b.insertionIndex ⟨i, b.stopOf i⟩ a = p at *
  have hinside : Line.isInside (b.line i).depth (fieldLine d key value) = true := by
    have hbase : (b.line i).depth < d := lt_of_entryDepth? (by rw [← fieldDepth?_eq, hd])
    simp [Line.isInside, hdepth, hbase]
  have hstop : Buffer.stopOf (b.insertIdx p (fieldLine d key value)) i = b.stopOf i + 1 :=
    stopOf_insertIdx hlen hplace.1 hplace.2.1 hinside
  refine ⟨p, ⟨i, b.stopOf i + 1⟩, hplace.1, Nat.lt_succ_of_le hplace.2.1, ?_, ?_, rfl, ?_, ?_, ?_⟩
  · rw [insertIdx_eq hlen, fieldLine]
    simp
  · rw [extentOf_eq_ok_iff, List.length_insertIdx_of_le_length hlen, hstop]
    exact ⟨Nat.lt_succ_of_lt hi, rfl⟩
  · rw [hsplit, ← hposition, ← hstop, hfields]
    have hinsert := insertIdx_append_length (above.map Field.key) (below.map Field.key) key
    rw [List.length_map] at hinsert
    rw [List.map_append, List.map_append, hinsert, List.map_cons, List.map_map]
    rfl
  · rw [hsplit, ← hposition]
    simp
  · rw [fieldValue?, field?, ← hstop, hfields]
    have hother : ∀ f ∈ above, (f.key == key) = false := by
      intro f hf
      rw [hasField, hsplit, List.any_append, Bool.or_eq_false_iff] at hno
      simpa using List.any_eq_false.1 hno.1 f hf
    rw [List.find?_append, List.find?_eq_none.2 (by simpa using hother)]
    simp [line_insertIdx_self hlen, value?_fieldLine hkey]

end

/-- A tag goes below the handlers of a task, which stand at the column of their key, and above its
condition. -/
theorem fields_injectField_handlers :
    ∃ (b after : Buffer) (p : Nat),
      b = ["- name: x".toList, "  notify:".toList, "  - restart".toList, "  when: y".toList] ∧
      after = b.injectField ⟨0, 4⟩ ⟨["notify".toList], ["when".toList]⟩ "tags".toList
        " t ".toList ∧
      0 < p ∧ after = b.take p ++ "  tags:  t ".toList :: b.drop p ∧
      after.extentOf 0 = .ok ⟨0, 5⟩ ∧
      (after.fields ⟨0, 5⟩).map Field.key = ["notify".toList, "tags".toList, "when".toList] ∧
      after.fieldValue? ⟨0, 5⟩ "tags".toList = some "t".toList := by
  have hno : Buffer.hasField ["- name: x".toList, "  notify:".toList, "  - restart".toList,
      "  when: y".toList] ⟨0, 4⟩ "tags".toList = false := by decide +kernel
  obtain ⟨p, e', hp, -, hinject, hextent, rfl, hkeys, -, hvalue⟩ := fields_injectField
    ⟨["notify".toList], ["when".toList]⟩ " t ".toList
    (show Buffer.extentOf _ 0 = .ok ⟨0, 4⟩ by decide +kernel)
    (show Buffer.fieldDepth? _ _ = some 2 by decide +kernel) (by decide +kernel) hno
  refine ⟨_, _, p, rfl, rfl, hp, hinject, hextent, hkeys.trans ?_, hvalue.trans ?_⟩
  · decide +kernel
  · decide +kernel

end Buffer

end TaskTidy
