import TaskTidy.Proofs.Shift

/-!
# Parents and blocks around an inserted line

An inserted line is the parent of every line that finds it before a shallower one, and all of these
lines had one parent before. A block that starts above it keeps its lines down to the place, and the
lines below as long as the inserted line belongs to it.
-/

namespace TaskTidy.Buffer

variable {b : Buffer} {i j k p : Nat} {x : Line}

theorem lastBefore?_eq_some_iff {q : Line → Bool} (hi : i ≤ b.length) :
    b.lastBefore? q i = some j ↔
      j < i ∧ q (b.line j) = true ∧ ∀ k, j < k → k < i → q (b.line k) = false := by
  induction i with
  | zero =>
      constructor
      · intro h
        cases h
      · rintro ⟨hj, _⟩
        exact absurd hj (Nat.not_lt_zero j)
  | succ i ih =>
      rw [lastBefore?_succ hi]
      by_cases hq : q (b.line i) = true
      · rw [if_pos hq]
        constructor
        · rintro ⟨⟩
          exact ⟨Nat.lt_succ_self _, hq, fun k hjk hk => absurd hk (by omega)⟩
        · rintro ⟨hj, _, hbetween⟩
          rcases Nat.lt_succ_iff_lt_or_eq.1 hj with hji | rfl
          · rw [hbetween i hji (Nat.lt_succ_self i)] at hq
            cases hq
          · rfl
      · rw [if_neg hq, ih (Nat.le_of_succ_le hi)]
        constructor
        · rintro ⟨hj, hqj, hbetween⟩
          refine ⟨Nat.lt_succ_of_lt hj, hqj, fun k hjk hk => ?_⟩
          rcases Nat.lt_succ_iff_lt_or_eq.1 hk with hki | rfl
          · exact hbetween k hjk hki
          · exact Bool.eq_false_iff.2 hq
        · rintro ⟨hj, hqj, hbetween⟩
          rcases Nat.lt_succ_iff_lt_or_eq.1 hj with hji | rfl
          · exact ⟨hji, hqj, fun k hjk hk => hbetween k hjk (Nat.lt_succ_of_lt hk)⟩
          · exact absurd hqj hq

/-- A search upwards stops at a line that it is looking for, or below it. -/
theorem exists_lastBefore? {q : Line → Bool} (hi : i ≤ b.length) (hki : k < i)
    (hq : q (b.line k) = true) : ∃ j, k ≤ j ∧ b.lastBefore? q i = some j := by
  induction i with
  | zero => exact absurd hki (Nat.not_lt_zero k)
  | succ i ih =>
      rw [lastBefore?_succ hi]
      split
      · exact ⟨i, Nat.lt_succ_iff.1 hki, rfl⟩
      · next hqi =>
          rcases Nat.lt_succ_iff_lt_or_eq.1 hki with hlt | rfl
          · exact ih (Nat.le_of_succ_le hi) hlt
          · exact absurd hq hqi

/-- A line is nobody's parent unless it is significant and shallower. -/
theorem of_parent? (hi : i < b.length) (h : b.parent? i = some j) :
    j < i ∧ (b.line j).kind.isSignificant = true ∧ (b.line j).depth < (b.line i).depth ∧
      ∀ k, j < k → k < i → (b.line k).kind.isSignificant = true →
        (b.line i).depth ≤ (b.line k).depth := by
  obtain ⟨hj, hq, hbetween⟩ := (lastBefore?_eq_some_iff (Nat.le_of_lt hi)).1 h
  simp only [encloses, Bool.and_eq_true, decide_eq_true_eq] at hq
  refine ⟨hj, hq.1, hq.2, fun k hjk hki hsig => ?_⟩
  have hk := hbetween k hjk hki
  rw [encloses, hsig, Bool.true_and, decide_eq_false_iff_not] at hk
  exact Nat.le_of_not_lt hk

/-- The ancestors of a line are the significant lines above it that are shallower than the line and
than every significant line in between. The induction follows the chain of parents upwards. -/
theorem mem_ancestors_iff (hj : j < b.length) :
    i ∈ b.ancestors j ↔
      i < j ∧ (b.line i).kind.isSignificant = true ∧ (b.line i).depth < (b.line j).depth ∧
        ∀ k, i < k → k < j → (b.line k).kind.isSignificant = true →
          (b.line i).depth < (b.line k).depth := by
  induction j using Nat.strongRecOn with
  | ind j ih =>
      rw [ancestors_eq]
      cases hparent : b.parent? j with
      | none =>
          refine iff_of_false List.not_mem_nil ?_
          rintro ⟨hij, hsig, hdepth, _⟩
          have hencloses : encloses (b.line j).depth (b.line i) = true := by
            simp [encloses, hsig, hdepth]
          obtain ⟨m, _, hm⟩ := exists_lastBefore? (Nat.le_of_lt hj) hij hencloses
          rw [parent?, hm] at hparent
          cases hparent
      | some m =>
          obtain ⟨hmj, hsigm, hdepthm, hbetween⟩ := of_parent? hj hparent
          simp only [List.mem_cons, ih m hmj (Nat.lt_trans hmj hj)]
          constructor
          · rintro (rfl | ⟨him, hsig, hdepth, habove⟩)
            · exact ⟨hmj, hsigm, hdepthm, fun k hik hkj hk =>
                Nat.lt_of_lt_of_le hdepthm (hbetween k hik hkj hk)⟩
            · refine ⟨Nat.lt_trans him hmj, hsig, Nat.lt_trans hdepth hdepthm,
                fun k hik hkj hk => ?_⟩
              rcases Nat.lt_trichotomy k m with hkm | rfl | hmk
              · exact habove k hik hkm hk
              · exact hdepth
              · exact Nat.lt_of_lt_of_le (Nat.lt_trans hdepth hdepthm) (hbetween k hmk hkj hk)
          · rintro ⟨hij, hsig, hdepth, hall⟩
            rcases Nat.lt_trichotomy i m with him | rfl | hmi
            · exact Or.inr ⟨him, hsig, hall m him hmj hsigm, fun k hik hkm =>
                hall k hik (Nat.lt_trans hkm hmj)⟩
            · exact Or.inl rfl
            · exact absurd hdepth (Nat.not_lt_of_le (hbetween i hmi hij hsig))

theorem shift_inj (h : shift p j = shift p k) : j = k := by
  unfold shift at h
  split at h <;> split at h <;> omega

theorem shift_le_shift : shift p j ≤ shift p k ↔ j ≤ k := by
  unfold shift
  split <;> split <;> omega

theorem shift_lt_iff : shift p j < p ↔ j < p := by
  unfold shift
  split <;> omega

theorem shift_ne (p j : Nat) : shift p j ≠ p := by
  unfold shift
  split <;> omega

/-- Every line but the inserted one was there before. -/
theorem exists_shift (h : j ≠ p) : ∃ i, j = shift p i := by
  rcases Nat.lt_or_ge j p with hj | hj
  · exact ⟨j, (shift_of_lt hj).symm⟩
  · exact ⟨j - 1, by rw [shift_of_le (by omega)]; omega⟩

theorem shift_lt_length (hp : p ≤ b.length) :
    shift p j < (b.insertIdx p x).length ↔ j < b.length := by
  rw [List.length_insertIdx_of_le_length hp]
  unfold shift
  split <;> omega

/-- A line that is replaced after an insertion is replaced at its new index. -/
theorem set_insertIdx_shift (hp : p ≤ b.length) (k : Nat) (l : Line) :
    (b.insertIdx p x).set (shift p k) l = (b.set k l).insertIdx p x := by
  refine List.ext_getElem? fun j => ?_
  by_cases hj : j = p
  · rw [hj, List.getElem?_set_ne (shift_ne p k), List.getElem?_insertIdx_self,
      List.getElem?_insertIdx_self, List.length_set]
  · obtain ⟨m, rfl⟩ := exists_shift hj
    rw [getElem?_insertIdx_shift]
    by_cases hkm : k = m
    · subst hkm
      rcases Nat.lt_or_ge k b.length with hk | hk
      · rw [List.getElem?_set_self hk, List.getElem?_set_self ((shift_lt_length hp).2 hk)]
      · rw [List.set_eq_of_length_le hk, List.set_eq_of_length_le, getElem?_insertIdx_shift]
        rw [List.length_insertIdx_of_le_length hp, shift_of_le (Nat.le_trans hp hk)]
        exact Nat.succ_le_succ hk
    · rw [List.getElem?_set_ne fun heq => hkm (shift_inj heq), List.getElem?_set_ne hkm,
        getElem?_insertIdx_shift]

/-! ### Parents -/

private theorem nearest?_insert_cases {A C : List Line} (q : Line → Bool) :
    nearest? q (C ++ x :: A) = (nearest? q (C ++ A)).map (shift A.length) ∨
      q x = true ∧ nearest? q (C ++ x :: A) = some A.length ∧
        nearest? q (C ++ A) = nearest? q A := by
  by_cases hx : q x = true
  · by_cases hC : ∃ c ∈ C, q c = true
    · exact Or.inl (nearest?_insert fun _ => hC)
    · right
      have hnone (c : Line) (hc : c ∈ C) : q c = false := by
        rw [← Bool.not_eq_true]
        intro hq
        exact hC ⟨c, hc, hq⟩
      clear hC
      refine ⟨hx, ?_⟩
      induction C with
      | nil => exact ⟨by rw [List.nil_append, nearest?, if_pos hx], rfl⟩
      | cons c C ih =>
          have hc : ¬q c = true := by
            rw [hnone c List.mem_cons_self]
            exact Bool.false_ne_true
          rw [List.cons_append, List.cons_append, nearest?, nearest?, if_neg hc, if_neg hc]
          exact ih fun c' hc' => hnone c' (List.mem_cons_of_mem c hc')
  · exact Or.inl (nearest?_insert fun h => absurd h hx)

section

variable (hp : p ≤ b.length)

include hp

/-- A line keeps its parent when a line is inserted, or the inserted line takes the place of a
parent further up. -/
theorem parent?_insertIdx_shift (x : Line) (j : Nat) :
    Buffer.parent? (b.insertIdx p x) (shift p j) = (b.parent? j).map (shift p) ∨
      p ≤ j ∧ x.depth < (b.line j).depth ∧
        Buffer.parent? (b.insertIdx p x) (shift p j) = some p ∧
        b.parent? j = b.lastBefore? (encloses (b.line j).depth) p := by
  rcases Nat.lt_or_ge j p with hj | hj
  · left
    rw [shift_of_lt hj, ← parent?_take (b.insertIdx p x) hj, take_insertIdx hp x (Nat.le_refl p),
      parent?_take b hj]
    cases hparent : b.parent? j with
    | none => rfl
    | some i => rw [Option.map_some, shift_of_lt (Nat.lt_trans (parent?_lt hparent) hj)]
  · obtain ⟨habove, habove'⟩ := above_insertIdx hp x hj
    have hlen := length_above hp
    rw [shift_of_le hj, parent?, parent?, lastBefore?, lastBefore?, lastBefore?,
      line_insertIdx_of_le hp x hj, habove, habove']
    rcases nearest?_insert_cases (x := x) (A := b.above p) (C := ((b.take j).drop p).reverse)
      (encloses (b.line j).depth) with h | ⟨hx, h, h'⟩
    · left
      rw [h, hlen]
    · right
      simp only [encloses, Bool.and_eq_true, decide_eq_true_eq] at hx
      exact ⟨hj, hx.2, by rw [h, hlen], h'⟩

/-- The parent of the inserted line. -/
theorem parent?_insertIdx_self (x : Line) :
    Buffer.parent? (b.insertIdx p x) p = b.lastBefore? (encloses x.depth) p := by
  rw [parent?, line_insertIdx_self hp, lastBefore?, lastBefore?]
  have h := above_take (b.insertIdx p x) (Nat.le_refl p)
  rw [take_insertIdx hp x (Nat.le_refl p), above_take b (Nat.le_refl p)] at h
  rw [h]

/-- Lines of one depth with one parent had one parent before. -/
theorem parent?_eq_of_insertIdx (hdepth : (b.line j).depth = (b.line k).depth)
    (h : Buffer.parent? (b.insertIdx p x) (shift p j) =
      Buffer.parent? (b.insertIdx p x) (shift p k)) : b.parent? j = b.parent? k := by
  rcases parent?_insertIdx_shift hp x j with hj | ⟨_, _, hj, hj'⟩ <;>
    rcases parent?_insertIdx_shift hp x k with hk | ⟨_, _, hk, hk'⟩
  · rw [hj, hk] at h
    exact Option.map_injective (fun _ _ => shift_inj) h
  · rw [hj, hk] at h
    obtain ⟨i, _, hi⟩ := Option.map_eq_some_iff.1 h
    exact absurd hi (shift_ne p i)
  · rw [hj, hk] at h
    obtain ⟨i, _, hi⟩ := Option.map_eq_some_iff.1 h.symm
    exact absurd hi (shift_ne p i)
  · rw [hj', hk', hdepth]

/-! ### Blocks -/

omit hp in
private theorem length_insertIdx' (hp : p ≤ b.length) :
    (b.insertIdx p x).length = b.length + 1 :=
  List.length_insertIdx_of_le_length hp x

/-- A block that starts above the place keeps its lines above the place. -/
theorem lt_stopOf_insertIdx_of_lt (hi : i < p) (hk : k < p) :
    k < Buffer.stopOf (b.insertIdx p x) i ↔ k < b.stopOf i := by
  rcases Nat.lt_or_ge i k with hik | hki
  · rw [lt_stopOf_iff hik, lt_stopOf_iff hik, length_insertIdx' hp, line_insertIdx_of_lt hp x hi]
    constructor
    · rintro ⟨_, hall⟩
      refine ⟨Nat.lt_of_lt_of_le hk hp, fun m him hmk => ?_⟩
      have hm := hall m him hmk
      rwa [line_insertIdx_of_lt hp x (Nat.lt_of_le_of_lt hmk hk)] at hm
    · rintro ⟨_, hall⟩
      refine ⟨by omega, fun m him hmk => ?_⟩
      rw [line_insertIdx_of_lt hp x (Nat.lt_of_le_of_lt hmk hk)]
      exact hall m him hmk
  · have h := lt_stopOf b i
    have h' := lt_stopOf (b.insertIdx p x) i
    constructor <;> intro <;> omega

/-- The inserted line belongs to a block if the lines above the place do and it is deep enough. -/
theorem lt_stopOf_insertIdx_self (hi : i < p) :
    p < Buffer.stopOf (b.insertIdx p x) i ↔
      p ≤ b.stopOf i ∧ x.isInside (b.line i).depth = true := by
  rw [lt_stopOf_iff hi, length_insertIdx' hp, line_insertIdx_of_lt hp x hi]
  constructor
  · rintro ⟨_, hall⟩
    have hx := hall p hi (Nat.le_refl p)
    rw [line_insertIdx_self hp] at hx
    refine ⟨?_, hx⟩
    rcases Nat.eq_or_lt_of_le (show i + 1 ≤ p from hi) with rfl | hlt
    · exact lt_stopOf b i
    · have hlast : p - 1 < b.stopOf i := by
        refine (lt_stopOf_iff (by omega)).2 ⟨by omega, fun m him hmp => ?_⟩
        have hm := hall m him (by omega)
        rwa [line_insertIdx_of_lt hp x (by omega)] at hm
      omega
  · rintro ⟨hstop, hx⟩
    refine ⟨by omega, fun m him hmp => ?_⟩
    rcases Nat.eq_or_lt_of_le hmp with rfl | hlt
    · rwa [line_insertIdx_self hp]
    · rw [line_insertIdx_of_lt hp x hlt]
      exact ((lt_stopOf_iff him).1 (Nat.lt_of_lt_of_le hlt hstop)).2 m him (Nat.le_refl m)

/-- A block that starts above the place keeps its lines below if the inserted line belongs to it. -/
theorem lt_stopOf_insertIdx_of_le (hi : i < p) (hk : p ≤ k) :
    k + 1 < Buffer.stopOf (b.insertIdx p x) i ↔
      k < b.stopOf i ∧ x.isInside (b.line i).depth = true := by
  rw [lt_stopOf_iff (by omega), lt_stopOf_iff (by omega), length_insertIdx' hp,
    line_insertIdx_of_lt hp x hi]
  constructor
  · rintro ⟨hlen, hall⟩
    have hx := hall p hi (by omega)
    rw [line_insertIdx_self hp] at hx
    refine ⟨⟨by omega, fun m him hmk => ?_⟩, hx⟩
    rcases Nat.lt_or_ge m p with hm | hm
    · have hline := hall m him (by omega)
      rwa [line_insertIdx_of_lt hp x hm] at hline
    · have hline := hall (m + 1) (by omega) (by omega)
      rwa [line_insertIdx_of_le hp x hm] at hline
  · rintro ⟨⟨hlen, hall⟩, hx⟩
    refine ⟨by omega, fun m him hmk => ?_⟩
    rcases Nat.lt_trichotomy m p with hm | rfl | hm
    · rw [line_insertIdx_of_lt hp x hm]
      exact hall m him (by omega)
    · rwa [line_insertIdx_self hp]
    · obtain ⟨n, rfl⟩ : ∃ n, m = n + 1 := ⟨m - 1, by omega⟩
      rw [line_insertIdx_of_le hp x (Nat.lt_succ_iff.1 hm)]
      exact hall n (by omega) (by omega)

/-- A block that starts below the place moves down as a whole. -/
theorem stopOf_insertIdx_of_le (hi : p ≤ i) :
    Buffer.stopOf (b.insertIdx p x) (i + 1) = b.stopOf i + 1 := by
  rw [stopOf, stopOf, runAfter, runAfter, line_insertIdx_of_le hp x hi,
    drop_insertIdx_of_le hp x (show p ≤ i + 1 by omega)]
  omega

/-- A block gets no lines but the inserted one. -/
theorem lt_stopOf_of_insertIdx (hij : i ≤ j)
    (h : shift p j < Buffer.stopOf (b.insertIdx p x) (shift p i)) : j < b.stopOf i := by
  rcases Nat.lt_or_ge i p with hi | hi
  · rw [shift_of_lt hi] at h
    rcases Nat.lt_or_ge j p with hj | hj
    · rwa [shift_of_lt hj, lt_stopOf_insertIdx_of_lt hp hi hj] at h
    · rw [shift_of_le hj, lt_stopOf_insertIdx_of_le hp hi hj] at h
      exact h.1
  · rw [shift_of_le hi, shift_of_le (Nat.le_trans hi hij), stopOf_insertIdx_of_le hp hi] at h
    exact Nat.lt_of_succ_lt_succ h

/-- A block keeps its lines if the inserted line belongs to it wherever it stands between them. -/
theorem lt_stopOf_insertIdx_shift (hij : i ≤ j) (hj : j < b.stopOf i)
    (hx : i < p → p ≤ j → x.isInside (b.line i).depth = true) :
    shift p j < Buffer.stopOf (b.insertIdx p x) (shift p i) := by
  rcases Nat.lt_or_ge i p with hi | hi
  · rw [shift_of_lt hi]
    rcases Nat.lt_or_ge j p with hjp | hpj
    · rwa [shift_of_lt hjp, lt_stopOf_insertIdx_of_lt hp hi hjp]
    · rw [shift_of_le hpj, lt_stopOf_insertIdx_of_le hp hi hpj]
      exact ⟨hj, hx hi hpj⟩
  · rw [shift_of_le hi, shift_of_le (Nat.le_trans hi hij), stopOf_insertIdx_of_le hp hi]
    exact Nat.succ_lt_succ hj

end

end TaskTidy.Buffer
