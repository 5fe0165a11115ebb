import TaskTidy.Proofs.Injections
import TaskTidy.Proofs.Parents

/-!
# Keys of siblings

Siblings are parameters of one depth under one parent. An injection looks for its key downwards, in
a block, and siblings find their parent upwards, past comments and bare dashes that end a block.
Where the blocks hold all fields that the search upwards gives them, an injected key is new to its
siblings.
-/

namespace TaskTidy

/-- Whether the line is a parameter with the given key. -/
def Line.carries (key : List Char) (l : Line) : Bool :=
  l.kind = .parameter && l.hasKey key

namespace Buffer

/-- Two parameters of one depth and one parent. -/
def AreSiblings (b : Buffer) (i j : Nat) : Prop :=
  (b.line i).kind = .parameter ∧ (b.line j).kind = .parameter ∧
    (b.line i).depth = (b.line j).depth ∧ b.parent? i = b.parent? j

instance (b : Buffer) (i j : Nat) : Decidable (b.AreSiblings i j) :=
  inferInstanceAs (Decidable (_ ∧ _ ∧ _ ∧ _))

/-- No two siblings carry the same key. -/
def UniqueKeys (b : Buffer) : Prop :=
  ∀ j < b.length, ∀ i < j, b.AreSiblings i j → (b.line i).key? ≠ (b.line j).key?

instance (b : Buffer) : Decidable b.UniqueKeys :=
  inferInstanceAs (Decidable (∀ j < b.length, ∀ i < j, _))

/-- A block that starts at one of the lines `starts` and holds the parent of one of the lines
`carries` holds that line, too. -/
def HoldsFields (b : Buffer) (starts carries : Line → Bool) : Prop :=
  ∀ k < b.length, carries (b.line k) = true → ∀ j ∈ b.parent? k, ∀ i ≤ j,
    starts (b.line i) = true → j < b.stopOf i → k < b.stopOf i

instance (b : Buffer) (starts carries : Line → Bool) : Decidable (b.HoldsFields starts carries) :=
  inferInstanceAs (Decidable (∀ k < b.length, _ → ∀ j ∈ b.parent? k, ∀ i ≤ j, _))

variable {b : Buffer} {i j k : Nat}

theorem lt_length_of_kind (h : (b.line i).kind ≠ .blank) : i < b.length :=
  lt_length_of_text (Line.allBlank_of_kind_ne h)

theorem AreSiblings.symm (h : b.AreSiblings i j) : b.AreSiblings j i :=
  ⟨h.2.1, h.1, h.2.2.1.symm, h.2.2.2.symm⟩

theorem AreSiblings.lt_length (h : b.AreSiblings i j) : j < b.length := by
  apply lt_length_of_kind
  rw [h.2.1]
  decide

/-- Keys are unique exactly if siblings with one key are one line. -/
theorem uniqueKeys_iff :
    b.UniqueKeys ↔ ∀ i j, b.AreSiblings i j → (b.line i).key? = (b.line j).key? → i = j := by
  constructor
  · intro h i j hsib hkey
    rcases Nat.lt_trichotomy i j with hij | rfl | hji
    · exact absurd hkey (h j hsib.lt_length i hij hsib)
    · rfl
    · exact absurd hkey.symm (h i hsib.symm.lt_length j hji hsib.symm)
  · intro h j _ i hij hsib hkey
    exact Nat.ne_of_lt hij (h i j hsib hkey)

/-- Keys stay unique if a line is written whose key no sibling of it has. -/
theorem uniqueKeys_of_new {n : Nat}
    (hnew : ∀ k ≠ n, b.AreSiblings k n → (b.line k).key? ≠ (b.line n).key?)
    (hold : ∀ j k, j ≠ n → k ≠ n → b.AreSiblings j k → (b.line j).key? = (b.line k).key? →
      j = k) : b.UniqueKeys := by
  rw [uniqueKeys_iff]
  intro j k hsib hkey
  by_cases hj : j = n
  · subst hj
    by_contra hne
    exact hnew k (Ne.symm hne) hsib.symm hkey.symm
  · by_cases hk : k = n
    · subst hk
      exact absurd hkey (hnew j hj hsib)
    · exact hold j k hj hk hsib hkey

/-- A significant line of a block is at least as deep as its start line. -/
theorem depth_le_of_lt_stopOf (hij : i ≤ j) (hj : j < b.stopOf i)
    (hentry : (b.line j).kind.isEntry = true) : (b.line i).depth ≤ (b.line j).depth := by
  rcases Nat.eq_or_lt_of_le hij with rfl | hlt
  · exact Nat.le_refl _
  · exact Nat.le_of_lt (depth_of_isInside hentry
      (((lt_stopOf_iff hlt).1 hj).2 j hlt (Nat.le_refl j)))

end Buffer

namespace Injects

variable {r : FieldInjection} {asks : Line → List Line → Bool} {starts carries : Line → Bool}
  {b : Buffer} {i j k p : Nat} {x : Line}

section

variable (h : Injects r asks starts) (hx : At r b i p x)

include h hx

/-- The injected line has a parent, and it does not stand above the block. -/
theorem At.exists_parent? : ∃ j, i ≤ j ∧ b.lastBefore? (Buffer.encloses x.depth) p = some j := by
  have hencloses : Buffer.encloses x.depth (b.line i) = true := by
    rw [Buffer.encloses, isSignificant_of_isEntry hx.isEntry, Bool.true_and, decide_eq_true_eq]
    exact hx.depth_lt h.isBareKey
  exact Buffer.exists_lastBefore? hx.le_length hx.isPlace.1 hencloses

/-- The parent of the injected line is the start line of the block, or it stands in a block without
an entry. -/
theorem At.of_parent? (hj : b.lastBefore? (Buffer.encloses x.depth) p = some j) :
    i ≤ j ∧ j < p ∧ (j = i ∨ entryDepth? (b.line i).depth (b.drop (i + 1)) = none) := by
  obtain ⟨j', hij, hj'⟩ := hx.exists_parent? h
  obtain rfl : j' = j := Option.some.inj (hj'.symm.trans hj)
  obtain ⟨hjp, hq, _⟩ := (Buffer.lastBefore?_eq_some_iff hx.le_length).1 hj
  refine ⟨hij, hjp, ?_⟩
  rcases Nat.eq_or_lt_of_le hij with rfl | hlt
  · exact Or.inl rfl
  · right
    cases hd : entryDepth? (b.line i).depth (b.drop (i + 1)) with
    | none => rfl
    | some d =>
        simp only [Buffer.encloses, Bool.and_eq_true, decide_eq_true_eq] at hq
        have := hx.depth_le_of_measured h.isBareKey hd hlt hjp hq.1
        omega

omit h hx in
/-- In a block without an entry stands no entry. -/
theorem isEntry_of_unmeasured (hd : entryDepth? (b.line i).depth (b.drop (i + 1)) = none)
    (hik : i < k) (hk : k < b.stopOf i) : (b.line k).kind.isEntry = false := by
  rw [entryDepth?, Option.map_eq_none_iff, firstIn?_eq_none_iff] at hd
  exact hd _ (Buffer.mem_runAfter hik hk)

/-- A block that asks for the field does not hold it under the parent of the injected line. -/
theorem At.key?_ne (hmissing : fieldBelow? (b.line i).depth [r.field] (b.drop (i + 1)) = none)
    (hj : b.lastBefore? (Buffer.encloses x.depth) p = some j) (hparent : b.parent? k = some j)
    (hkind : (b.line k).kind = .parameter) (hdepth : (b.line k).depth = x.depth)
    (hk : k < b.stopOf i) : (b.line k).key? ≠ some r.field := by
  intro hkey
  have hjk := Buffer.parent?_lt hparent
  have hklen : k < b.length := Buffer.lt_length_of_kind (by rw [hkind]; decide)
  obtain ⟨hij, _, hcases⟩ := hx.of_parent? h hj
  have hik : i < k := Nat.lt_of_le_of_lt hij hjk
  cases hd : entryDepth? (b.line i).depth (b.drop (i + 1)) with
  | none =>
      have hentry := isEntry_of_unmeasured hd hik hk
      rw [hkind] at hentry
      cases hentry
  | some d =>
      rcases hcases with rfl | hnone
      · have hxd : x.depth = d := by
          rw [hx.depth_eq h.isBareKey, Buffer.childDepth, Buffer.fieldDepth?_eq, hd]
        obtain ⟨_, _, _, hbetween⟩ := Buffer.of_parent? hklen hparent
        have hinside := ((Buffer.lt_stopOf_iff hik).1 hk).2
        have hrun : k < j + 1 + (b.runAfter j (Line.inRun (b.line j).depth d)).length := by
          refine (Buffer.lt_runAfter_iff hik).2 ⟨hklen, fun m hjm hmk => ?_⟩
          rw [Line.inRun, hinside m hjm hmk, Bool.true_and, Bool.or_eq_true, Bool.not_eq_true',
            decide_eq_true_eq]
          by_cases hsig : (b.line m).kind.isSignificant = true
          · right
            rcases Nat.eq_or_lt_of_le hmk with rfl | hlt
            · omega
            · have := hbetween m hjm hlt hsig
              omega
          · exact Or.inl (Bool.eq_false_iff.2 hsig)
        rw [fieldBelow?, hd] at hmissing
        have hfield := firstIn?_eq_none_iff.1 hmissing _ (Buffer.mem_runAfter hik hrun)
        simp [Line.isFieldIn, Line.hasKeyIn, hkind, hkey, hdepth, hxd] at hfield
      · rw [hd] at hnone
        cases hnone

/-- The injected line has no sibling of its key among the lines that were there before. -/
theorem At.key?_ne_of_areSiblings (hstart : starts (b.line i) = true)
    (hmissing : fieldBelow? (b.line i).depth [r.field] (b.drop (i + 1)) = none)
    (hholds : b.HoldsFields starts (Line.carries r.field))
    (hsib : Buffer.AreSiblings (b.insertIdx p x) (Buffer.shift p k) p) :
    (b.line k).key? ≠ some r.field := by
  have hp := hx.le_length
  obtain ⟨hkind, _, hdepth, hparent⟩ := hsib
  rw [Buffer.line_insertIdx_shift hp] at hkind
  rw [Buffer.line_insertIdx_shift hp, Buffer.line_insertIdx_self hp] at hdepth
  rw [Buffer.parent?_insertIdx_self hp] at hparent
  intro hkey
  obtain ⟨j, hij, hj⟩ := hx.exists_parent? h
  obtain ⟨_, hjp, _⟩ := hx.of_parent? h hj
  have hold : b.parent? k = some j := by
    rw [hj] at hparent
    rcases Buffer.parent?_insertIdx_shift hp x k with hshift | ⟨_, _, hshift, _⟩
    · rw [hshift] at hparent
      obtain ⟨j', hj', heq⟩ := Option.map_eq_some_iff.1 hparent
      rw [hj', Buffer.shift_inj (heq.trans (Buffer.shift_of_lt hjp).symm)]
    · rw [hshift] at hparent
      exact absurd (Option.some.inj hparent) (Nat.ne_of_gt hjp)
  have hcarries : Line.carries r.field (b.line k) = true := by
    simp [Line.carries, hkind, Line.hasKey, hkey]
  have hstop := hholds k (Buffer.lt_length_of_kind (by rw [hkind]; decide)) hcarries j hold i hij
    hstart (Nat.lt_of_lt_of_le hjp hx.isPlace.2.1)
  exact hx.key?_ne h hmissing hj hold hkind hdepth hstop hkey

/-- Keys stay unique when a block gets a field that it asks for. -/
theorem At.uniqueKeys (hstart : starts (b.line i) = true)
    (hmissing : fieldBelow? (b.line i).depth [r.field] (b.drop (i + 1)) = none)
    (hholds : b.HoldsFields starts (Line.carries r.field)) (hunique : b.UniqueKeys) :
    Buffer.UniqueKeys (b.insertIdx p x) := by
  have hp := hx.le_length
  rw [Buffer.uniqueKeys_iff] at hunique
  refine Buffer.uniqueKeys_of_new (n := p) (fun m hm hsib => ?_) fun m n hm hn hsib hkey => ?_
  · obtain ⟨k, rfl⟩ := Buffer.exists_shift hm
    rw [Buffer.line_insertIdx_shift hp, Buffer.line_insertIdx_self hp, hx.key?_eq h.isBareKey]
    exact hx.key?_ne_of_areSiblings h hstart hmissing hholds hsib
  · obtain ⟨j, rfl⟩ := Buffer.exists_shift hm
    obtain ⟨k, rfl⟩ := Buffer.exists_shift hn
    obtain ⟨hkind, hkind', hdepth, hparent⟩ := hsib
    rw [Buffer.line_insertIdx_shift hp] at hkind hkind'
    rw [Buffer.line_insertIdx_shift hp, Buffer.line_insertIdx_shift hp] at hdepth hkey
    have hold := Buffer.parent?_eq_of_insertIdx hp hdepth hparent
    rw [hunique j k ⟨hkind, hkind', hdepth, hold⟩ hkey]

omit h in
/-- No line that starts a block stands between the start line of a block without entries and the
place. -/
private theorem At.le_of_starts (hentry : ∀ l, starts l = true → l.kind.isEntry = true)
    {j' : Nat} (hj : i ≤ j) (hcases : j = i ∨
      entryDepth? (b.line i).depth (b.drop (i + 1)) = none) (hjp : j < p) (hle : j' ≤ j)
    (hstart : starts (b.line j') = true) : j' ≤ i := by
  rcases hcases with rfl | hnone
  · exact hle
  · by_contra hlt
    have hnot := isEntry_of_unmeasured hnone (Nat.lt_of_not_le hlt)
      (Nat.lt_of_le_of_lt hle (Nat.lt_of_lt_of_le hjp hx.isPlace.2.1))
    rw [hentry _ hstart] at hnot
    cases hnot

/-- The injected line belongs to every block that starts above it and goes on with an entry. -/
theorem At.isInside_of_lt_stopOf (hjp : j < p) (hj : (b.line j).kind.isEntry = true) (hpk : p ≤ k)
    (hk : (b.line k).kind.isEntry = true) (hstop : k < b.stopOf j) :
    x.isInside (b.line j).depth = true := by
  have hip := hx.isPlace.1
  rw [Line.isInside, Bool.or_eq_true, decide_eq_true_eq]
  right
  rcases Nat.lt_or_ge i j with hij | hji
  · have hblank := hx.cutsNoBlock j hij hjp (isSignificant_of_isEntry hj) k hpk hstop
    rw [hblank] at hk
    cases hk
  · exact Nat.lt_of_le_of_lt (Buffer.depth_le_of_lt_stopOf hji (by omega) hx.isEntry)
      (hx.depth_lt h.isBareKey)

/-- A block that holds the parent of the injected line holds that line. -/
theorem At.lt_stopOf_self (hentry : ∀ l, starts l = true → l.kind.isEntry = true)
    (hj : b.lastBefore? (Buffer.encloses x.depth) p = some j) (hkj : k ≤ j)
    (hstart : starts (b.line k) = true) (hstop : j < b.stopOf k) :
    p < Buffer.stopOf (b.insertIdx p x) k := by
  obtain ⟨hij, hjp, hcases⟩ := hx.of_parent? h hj
  have hki := hx.le_of_starts hentry hij hcases hjp hkj hstart
  have hi : i < b.stopOf k := Nat.lt_of_le_of_lt hij hstop
  have hdepth := Buffer.depth_le_of_lt_stopOf hki hi hx.isEntry
  rw [Buffer.lt_stopOf_insertIdx_self hx.le_length (Nat.lt_of_le_of_lt hkj hjp)]
  constructor
  · exact Nat.le_trans hx.isPlace.2.1 (Buffer.stopOf_le_stopOf hki hi hdepth)
  · rw [Line.isInside, Bool.or_eq_true, decide_eq_true_eq]
    exact Or.inr (Nat.lt_of_le_of_lt hdepth (hx.depth_lt h.isBareKey))

/-- A block that holds the parent of a line after the injection held the parent of the line before
it. -/
theorem At.exists_parent?_of_lt_stopOf {m n : Nat} (hn : (b.line n).kind.isEntry = true)
    (hm : Buffer.parent? (b.insertIdx p x) (Buffer.shift p k) = some m)
    (hnm : Buffer.shift p n ≤ m)
    (hstop : m < Buffer.stopOf (b.insertIdx p x) (Buffer.shift p n)) :
    ∃ j, b.parent? k = some j ∧ n ≤ j ∧ j < b.stopOf n := by
  have hp := hx.le_length
  rcases Buffer.parent?_insertIdx_shift hp x k with hshift | ⟨_, hdepth, hshift, hold⟩
  · rw [hshift] at hm
    obtain ⟨j, hj, rfl⟩ := Option.map_eq_some_iff.1 hm
    have hnj := Buffer.shift_le_shift.1 hnm
    exact ⟨j, hj, hnj, Buffer.lt_stopOf_of_insertIdx hp hnj hstop⟩
  · rw [hshift] at hm
    cases hm
    have hlt : n < p := by
      rcases Nat.eq_or_lt_of_le hnm with heq | hlt
      · exact absurd heq (Buffer.shift_ne p n)
      · exact Buffer.shift_lt_iff.1 hlt
    rw [Buffer.shift_of_lt hlt, Buffer.lt_stopOf_insertIdx_self hp hlt] at hstop
    have hdeep := depth_of_isInside (by rw [hx.kind_eq h.isBareKey]; rfl) hstop.2
    have hencloses : Buffer.encloses (b.line k).depth (b.line n) = true := by
      rw [Buffer.encloses, isSignificant_of_isEntry hn, Bool.true_and, decide_eq_true_eq]
      omega
    obtain ⟨j, hnj, hj⟩ := Buffer.exists_lastBefore? hp hlt hencloses
    have hjp := ((Buffer.lastBefore?_eq_some_iff hp).1 hj).1
    exact ⟨j, hold.trans hj, hnj, Nat.lt_of_lt_of_le hjp hstop.1⟩

/-- Blocks hold their fields after an injection. -/
theorem At.holdsFields (hentry : ∀ l, starts l = true → l.kind.isEntry = true)
    (hcarries : ∀ l, carries l = true → l.kind.isEntry = true)
    (hnot : starts x = false) (hholds : b.HoldsFields starts carries) :
    Buffer.HoldsFields (b.insertIdx p x) starts carries := by
  have hp := hx.le_length
  intro n _ hn m hm l hlm hstart hstop
  have hlp : l ≠ p := by
    rintro rfl
    rw [Buffer.line_insertIdx_self hp, hnot] at hstart
    cases hstart
  obtain ⟨i', rfl⟩ := Buffer.exists_shift hlp
  rw [Buffer.line_insertIdx_shift hp] at hstart
  by_cases hnp : n = p
  · subst hnp
    have hj : b.lastBefore? (Buffer.encloses x.depth) n = some m := by
      rw [← Buffer.parent?_insertIdx_self hp]
      exact hm
    have hmn := (hx.of_parent? h hj).2.1
    have hlt : i' < n := Buffer.shift_lt_iff.1 (Nat.lt_of_le_of_lt hlm hmn)
    rw [Buffer.shift_of_lt hlt] at hlm hstop ⊢
    rw [Buffer.lt_stopOf_insertIdx_of_lt hp hlt hmn] at hstop
    exact hx.lt_stopOf_self h hentry hj hlm hstart hstop
  · obtain ⟨k, rfl⟩ := Buffer.exists_shift hnp
    rw [Buffer.line_insertIdx_shift hp] at hn
    have hk := hcarries _ hn
    have hklen : k < b.length := Buffer.lt_length_of_kind fun hblank => by
      rw [hblank] at hk
      cases hk
    have hi' := hentry _ hstart
    obtain ⟨j, hj, hij, hjstop⟩ := hx.exists_parent?_of_lt_stopOf h hi' hm hlm hstop
    have hkstop := hholds k hklen hn j hj i' hij hstart hjstop
    refine Buffer.lt_stopOf_insertIdx_shift hp ?_ hkstop fun hlt hpk => ?_
    · exact Nat.le_trans hij (Nat.le_of_lt (Buffer.parent?_lt hj))
    · exact hx.isInside_of_lt_stopOf h hlt hi' hpk hk hkstop

end

end Injects

end TaskTidy
