import TaskTidy.Proofs.Insertions
import TaskTidy.RuleSets.Command

/-!
# The lines below an inserted line

The lines below an inserted line move down by one. What is above them is found again if a line that
is shallower than the inserted one stands in between: no search upwards from below it gets to the
inserted line and stops there.
-/

namespace TaskTidy.Buffer

/-- The index of a line after an insertion at `p`. -/
def shift (p j : Nat) : Nat :=
  if j < p then j else j + 1

theorem shift_of_lt {p j : Nat} (h : j < p) : shift p j = j :=
  if_pos h

theorem shift_of_le {p j : Nat} (h : p ≤ j) : shift p j = j + 1 :=
  if_neg (Nat.not_lt_of_le h)

theorem strictMono_shift (p : Nat) : StrictMono (shift p) := by
  intro i j hij
  unfold shift
  split <;> split <;> omega

/-- The lines below a line, cut at an index further down. -/
theorem drop_of_lt {b : Buffer} {p j : Nat} (hj : j < p) :
    b.drop (j + 1) = (b.drop (j + 1)).take (p - (j + 1)) ++ b.drop p := by
  have h := List.take_append_drop (p - (j + 1)) (b.drop (j + 1))
  rw [List.drop_drop, show j + 1 + (p - (j + 1)) = p by omega] at h
  exact h.symm

/-- The lines between two lines of a document. -/
theorem line_mem_of_lt {b : Buffer} {i j p : Nat} (hp : p ≤ b.length) (hij : i < j) (hjp : j < p) :
    b.line j ∈ (b.drop (i + 1)).take (p - (i + 1)) := by
  refine List.mem_of_getElem? (i := j - (i + 1)) ?_
  rw [List.getElem?_take_of_lt (by omega), List.getElem?_drop,
    show i + 1 + (j - (i + 1)) = j by omega, List.getElem?_eq_getElem (by omega),
    line_eq_getElem b j (by omega)]

section

variable {b : Buffer} {p : Nat} (hp : p ≤ b.length) (x : Line)

include hp

theorem insertIdx_eq : b.insertIdx p x = b.take p ++ x :: b.drop p := by
  have h : ∀ (above below : List Line),
      (above ++ below).insertIdx above.length x = above ++ x :: below := by
    intro above below
    induction above with
    | nil => simp
    | cons l above ih => rw [List.cons_append, List.length_cons, List.insertIdx_succ_cons, ih,
        List.cons_append]
  have hlen : (b.take p).length = p := by rw [List.length_take, Nat.min_eq_left hp]
  have := h (b.take p) (b.drop p)
  rwa [List.take_append_drop, hlen] at this

theorem take_insertIdx {n : Nat} (hn : n ≤ p) : (b.insertIdx p x).take n = b.take n := by
  have hlen : (b.take p).length = p := by rw [List.length_take, Nat.min_eq_left hp]
  rw [insertIdx_eq hp, List.take_append_of_le_length (by omega), List.take_take,
    Nat.min_eq_left hn]

/-- The lines below a line above the inserted one. -/
theorem drop_insertIdx_of_lt {j : Nat} (hj : j < p) :
    (b.insertIdx p x).drop (j + 1) = (b.drop (j + 1)).take (p - (j + 1)) ++ x :: b.drop p := by
  have hlen : (b.take p).length = p := by rw [List.length_take, Nat.min_eq_left hp]
  rw [insertIdx_eq hp, List.drop_append_of_le_length (by omega), List.drop_take]

theorem drop_insertIdx_of_le {j : Nat} (hj : p ≤ j) :
    (b.insertIdx p x).drop (j + 1) = b.drop j := by
  have hlen : (b.take p).length = p := by rw [List.length_take, Nat.min_eq_left hp]
  rw [insertIdx_eq hp, List.drop_append, hlen, List.drop_of_length_le (by omega), List.nil_append,
    show j + 1 - p = (j - p) + 1 by omega, List.drop_succ_cons, List.drop_drop,
    Nat.add_sub_cancel' hj]

theorem line_insertIdx_of_lt {j : Nat} (hj : j < p) :
    Buffer.line (b.insertIdx p x) j = b.line j := by
  rw [← line_take (b.insertIdx p x) hj, take_insertIdx hp x (Nat.le_refl p), line_take b hj]

theorem line_insertIdx_of_le {j : Nat} (hj : p ≤ j) :
    Buffer.line (b.insertIdx p x) (j + 1) = b.line j := by
  have h := congrArg (fun lines : List Line => lines[0]?) (drop_insertIdx_of_le hp x hj)
  simp only [List.getElem?_drop, Nat.add_zero] at h
  rw [line, line, List.getD_eq_getElem?_getD, List.getD_eq_getElem?_getD, h]

theorem line_insertIdx_shift (j : Nat) : Buffer.line (b.insertIdx p x) (shift p j) = b.line j := by
  rcases Nat.lt_or_ge j p with hj | hj
  · rw [shift_of_lt hj, line_insertIdx_of_lt hp x hj]
  · rw [shift_of_le hj, line_insertIdx_of_le hp x hj]

omit hp in
/-- Every line is found at its new index. -/
theorem getElem?_insertIdx_shift (j : Nat) : (b.insertIdx p x)[shift p j]? = b[j]? := by
  rcases Nat.lt_or_ge j p with hj | hj
  · rw [shift_of_lt hj, List.getElem?_insertIdx_of_lt hj]
  · rw [shift_of_le hj, List.getElem?_insertIdx_of_gt (Nat.lt_succ_of_le hj)]
    rfl

theorem line_insertIdx_self : Buffer.line (b.insertIdx p x) p = x := by
  have hlen : (b.take p).length = p := by rw [List.length_take, Nat.min_eq_left hp]
  rw [insertIdx_eq hp, line, List.getD_eq_getElem?_getD, List.getElem?_append_right (by omega),
    hlen, Nat.sub_self]
  rfl

/-- The lines above a line below the inserted one: those down to the place, and the rest. -/
theorem above_insertIdx {j : Nat} (hj : p ≤ j) :
    b.above j = ((b.take j).drop p).reverse ++ b.above p ∧
      Buffer.above (b.insertIdx p x) (j + 1) =
        ((b.take j).drop p).reverse ++ x :: b.above p := by
  have htake : (b.take j).take p = b.take p := by rw [List.take_take, Nat.min_eq_left hj]
  have hsplit : b.take j = b.take p ++ (b.take j).drop p := by
    rw [← htake, List.take_append_drop]
  constructor
  · rw [above, above]
    conv => lhs; rw [hsplit]
    rw [List.reverse_append]
  · have hlen : (b.take p).length = p := by rw [List.length_take, Nat.min_eq_left hp]
    rw [above, above, insertIdx_eq hp, List.take_append, hlen, List.take_of_length_le (by omega),
      show j + 1 - p = (j - p) + 1 by omega, List.take_succ_cons, List.drop_take]
    simp

end

section

variable {A C : List Line} {x : Line}

private theorem shift_length_append (A C : List Line) (x : Line) :
    shift A.length (C ++ A).length = (C ++ x :: A).length := by
  rw [shift_of_le (by rw [List.length_append]; omega), List.length_append, List.length_append,
    List.length_cons]
  omega

theorem nearest?_lt {p : Line → Bool} {j : Nat} (h : nearest? p A = some j) : j < A.length := by
  induction A with
  | nil => cases h
  | cons l A ih =>
      unfold nearest? at h
      split at h
      · cases h
        simp
      · exact Nat.lt_succ_of_lt (ih h)

private theorem map_shift_of_lt {o : Option Nat} (h : ∀ j, o = some j → j < A.length) :
    o.map (shift A.length) = o := by
  cases o with
  | none => rfl
  | some j => rw [Option.map_some, shift_of_lt (h j rfl)]

/-- A search upwards does not stop at the inserted line if it stops below it. -/
theorem nearest?_insert {p : Line → Bool} (h : p x = true → ∃ c ∈ C, p c = true) :
    nearest? p (C ++ x :: A) = (nearest? p (C ++ A)).map (shift A.length) := by
  induction C with
  | nil =>
      have hx : ¬p x = true := fun hx => by
        obtain ⟨c, hc, _⟩ := h hx
        cases hc
      rw [List.nil_append, List.nil_append, nearest?, if_neg hx,
        map_shift_of_lt fun j hj => nearest?_lt hj]
  | cons c C ih =>
      rw [List.cons_append, List.cons_append, nearest?, nearest?]
      by_cases hc : p c = true
      · rw [if_pos hc, if_pos hc, Option.map_some, shift_length_append]
      · rw [if_neg hc, if_neg hc]
        apply ih
        intro hx
        obtain ⟨c', hmem, hc'⟩ := h hx
        rcases List.mem_cons.1 hmem with rfl | hmem
        · exact absurd hc' hc
        · exact ⟨c', hmem, hc'⟩

/-- The key of a list is not searched above a line that ends the list. -/
theorem listKeyAmong?_insert_of_endsList {d : Nat}
    (h : x.depth ≤ d → ∃ c ∈ C, EndsList d c) :
    listKeyAmong? d (C ++ x :: A) = (listKeyAmong? d (C ++ A)).map (shift A.length) := by
  induction C with
  | nil =>
      have hx : d < x.depth := by
        by_contra hd
        obtain ⟨c, hc, _⟩ := h (Nat.le_of_not_lt hd)
        cases hc
      rw [List.nil_append, List.nil_append, listKeyAmong?, if_pos (by simp [hx]),
        map_shift_of_lt fun j hj => listKeyAmong?_lt hj]
  | cons c C ih =>
      rw [List.cons_append, List.cons_append]
      rcases listKeyAmong?_cons_cases d c with ⟨hc, hpast⟩ | hkey | hnone
      · rw [hpast, hpast]
        apply ih
        intro hx
        obtain ⟨c', hmem, hends⟩ := h hx
        rcases List.mem_cons.1 hmem with rfl | hmem
        · exact absurd hends hc
        · exact ⟨c', hmem, hends⟩
      · rw [hkey, hkey, Option.map_some, shift_length_append]
      · rw [hnone, hnone, Option.map_none]

/-- The key of a list is not searched above a line that is shallower than the list. -/
theorem listKeyAmong?_insert {d : Nat}
    (h : x.depth ≤ d → ∃ c ∈ C, c.kind.isSignificant = true ∧ c.depth < d) :
    listKeyAmong? d (C ++ x :: A) = (listKeyAmong? d (C ++ A)).map (shift A.length) := by
  apply listKeyAmong?_insert_of_endsList
  intro hx
  obtain ⟨c, hmem, hsig, hlt⟩ := h hx
  exact ⟨c, hmem, hsig, Nat.le_of_lt hlt, fun _ => hlt⟩

end

section

variable {b : Buffer} {p : Nat} (hp : p ≤ b.length) {x : Line}

/-- Between the place of the inserted line and line `j` stands a shallower line. -/
def Screened (b : Buffer) (p : Nat) (x : Line) (j : Nat) : Prop :=
  ∃ k, p ≤ k ∧ k < j ∧ (b.line k).kind.isSignificant = true ∧ (b.line k).depth < x.depth

private theorem line_mem_of_le {j k : Nat} (hpk : p ≤ k) (hkj : k < j)
    (hsig : (b.line k).kind.isSignificant = true) : b.line k ∈ ((b.take j).drop p).reverse := by
  have hk := lt_length_of_text (Line.allBlank_of_isSignificant hsig)
  rw [List.mem_reverse]
  refine List.mem_of_getElem? (i := k - p) ?_
  rw [List.getElem?_drop, Nat.add_sub_cancel' hpk, List.getElem?_take_of_lt hkj,
    List.getElem?_eq_getElem hk, line_eq_getElem b k hk]

include hp

/-- A line keeps its parent if a line that encloses it stands below the place. -/
theorem parent?_insertIdx_of_encloses {j : Nat} (hj : p ≤ j)
    (h : x.depth < (b.line j).depth →
      ∃ k, p ≤ k ∧ k < j ∧ encloses (b.line j).depth (b.line k) = true) :
    Buffer.parent? (b.insertIdx p x) (j + 1) = (b.parent? j).map (shift p) := by
  obtain ⟨habove, habove'⟩ := above_insertIdx hp x hj
  rw [parent?, parent?, lastBefore?, lastBefore?, line_insertIdx_of_le hp x hj, habove, habove',
    nearest?_insert, length_above hp]
  intro hx
  rw [encloses, Bool.and_eq_true, decide_eq_true_eq] at hx
  obtain ⟨k, hpk, hkj, hk⟩ := h hx.2
  have hsig := hk
  rw [encloses, Bool.and_eq_true] at hsig
  exact ⟨_, line_mem_of_le hpk hkj hsig.1, hk⟩

/-- An item keeps its list if it keeps its parent and a line that ends the list stands below the
place. -/
theorem listKey?_insertIdx_of_endsList {j : Nat} (hj : p ≤ j)
    (hparent : Buffer.parent? (b.insertIdx p x) (j + 1) = (b.parent? j).map (shift p))
    (h : x.depth ≤ (b.line j).depth →
      ∃ k, p ≤ k ∧ k < j ∧ EndsList (b.line j).depth (b.line k)) :
    Buffer.listKey? (b.insertIdx p x) (j + 1) = (b.listKey? j).map (shift p) := by
  obtain ⟨habove, habove'⟩ := above_insertIdx hp x hj
  have hamong : listKeyAmong? (Buffer.line (b.insertIdx p x) (j + 1)).depth
      (Buffer.above (b.insertIdx p x) (j + 1)) =
        (listKeyAmong? (b.line j).depth (b.above j)).map (shift p) := by
    rw [line_insertIdx_of_le hp x hj, habove, habove',
      listKeyAmong?_insert_of_endsList fun hx => ?_, length_above hp]
    obtain ⟨k, hpk, hkj, hk⟩ := h hx
    exact ⟨_, line_mem_of_le hpk hkj hk.1, hk⟩
  rw [listKey?, listKey?, hamong]
  cases listKeyAmong? (b.line j).depth (b.above j) with
  | none => exact hparent
  | some k => rfl

theorem parent?_insertIdx {j : Nat} (hj : p ≤ j) (h : b.Screened p x j) :
    Buffer.parent? (b.insertIdx p x) (j + 1) = (b.parent? j).map (shift p) := by
  obtain ⟨k, hpk, hkj, hsig, hdepth⟩ := h
  refine parent?_insertIdx_of_encloses hp hj fun hx => ⟨k, hpk, hkj, ?_⟩
  rw [encloses, Bool.and_eq_true, decide_eq_true_eq]
  exact ⟨hsig, Nat.lt_trans hdepth hx⟩

theorem listKey?_insertIdx {j : Nat} (hj : p ≤ j) (h : b.Screened p x j) :
    Buffer.listKey? (b.insertIdx p x) (j + 1) = (b.listKey? j).map (shift p) := by
  refine listKey?_insertIdx_of_endsList hp hj (parent?_insertIdx hp hj h) fun hx => ?_
  obtain ⟨k, hpk, hkj, hsig, hdepth⟩ := h
  exact ⟨k, hpk, hkj, hsig, by omega, fun _ => Nat.lt_of_lt_of_le hdepth hx⟩

/-- A line has the same owner as before if it has the same parent. -/
theorem owner?_insertIdx {j : Nat} (hj : p ≤ j)
    (hparent : Buffer.parent? (b.insertIdx p x) (j + 1) = (b.parent? j).map (shift p)) :
    Buffer.owner? (b.insertIdx p x) (j + 1) = (b.owner? j).map (shift p) := by
  simp only [owner?, line_insertIdx_of_le hp x hj, hparent]
  split
  · rw [Option.map_some, shift_of_le hj]
  · cases b.parent? j with
    | none => rfl
    | some k =>
        simp only [Option.map_some, Option.filter_some, line_insertIdx_shift hp x]
        split
        · rfl
        · rfl

/-- What a line belongs to stays if its owner stays and the owner its list. -/
theorem isTask_insertIdx_of_owner? {j : Nat}
    (howner : Buffer.owner? (b.insertIdx p x) (j + 1) = (b.owner? j).map (shift p))
    (hkey : ∀ item, b.owner? j = some item → p ≤ item →
      Buffer.listKey? (b.insertIdx p x) (item + 1) = (b.listKey? item).map (shift p))
    {stop stop' : Nat} :
    Buffer.isTask (b.insertIdx p x) ⟨j + 1, stop'⟩ = b.isTask ⟨j, stop⟩ := by
  simp only [isTask, isItemLevel, inTaskList, howner]
  cases ho : b.owner? j with
  | none => rfl
  | some item =>
      have hlist : Buffer.listKey? (b.insertIdx p x) (shift p item) =
          (b.listKey? item).map (shift p) := by
        rcases Nat.lt_or_ge item p with hitem | hitem
        · rw [shift_of_lt hitem, ← listKey?_take (b.insertIdx p x) hitem,
            take_insertIdx hp x (Nat.le_refl p), listKey?_take b hitem]
          cases hk : b.listKey? item with
          | none => rfl
          | some k => rw [Option.map_some, shift_of_lt (Nat.lt_trans (listKey?_lt hk) hitem)]
        · rw [shift_of_le hitem]
          exact hkey item ho hitem
      simp only [Option.map_some, Option.isSome_some, hlist]
      cases b.listKey? item with
      | none => rfl
      | some k => simp only [Option.map_some, line_insertIdx_shift hp x]

/-- What a line below the place belongs to stays, if every entry there is screened from the inserted
line. -/
theorem isTask_insertIdx
    (h : ∀ j, p ≤ j → (b.line j).kind.isEntry = true → b.Screened p x j) {j : Nat} (hj : p ≤ j)
    (hentry : (b.line j).kind.isEntry = true) {stop stop' : Nat} :
    Buffer.isTask (b.insertIdx p x) ⟨j + 1, stop'⟩ = b.isTask ⟨j, stop⟩ := by
  have hparent := parent?_insertIdx hp hj (h j hj hentry)
  refine isTask_insertIdx_of_owner? hp (owner?_insertIdx hp hj hparent) fun item ho hitem => ?_
  apply listKey?_insertIdx hp hitem
  apply h item hitem
  rw [(of_owner? ho).2]
  rfl

/-- What a line above the place belongs to does not depend on the inserted line. -/
theorem isTask_insertIdx_of_lt {j : Nat} (hj : j < p) {stop stop' : Nat} :
    Buffer.isTask (b.insertIdx p x) ⟨j, stop'⟩ = b.isTask ⟨j, stop⟩ := by
  have htake := take_insertIdx hp x hj
  have hlevel := isItemLevel_take (b.insertIdx p x) (Nat.lt_succ_self j)
  have hlist := inTaskList_take (b.insertIdx p x) (Nat.lt_succ_self j)
  rw [htake, isItemLevel_take b (Nat.lt_succ_self j)] at hlevel
  rw [htake, inTaskList_take b (Nat.lt_succ_self j)] at hlist
  simp only [isTask, hlevel, hlist]

end

end TaskTidy.Buffer
