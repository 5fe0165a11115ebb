import Mathlib.Data.List.Sort
import TaskTidy.Proofs.FieldOrder
import TaskTidy.Proofs.Injections

/-!
# The fields of other blocks

An injection moves the lines below its place down by one, and with them the fields of the other
blocks. A block above that reaches the place either has fields that are shallower than the new line,
or ends there and loses blank lines only. So the new line is a field of its own block alone, and
every other block keeps its fields in their order.
-/

namespace TaskTidy

/-- A field after an insertion at `p`. -/
def Field.shift (p : Nat) (f : Field) : Field :=
  ⟨Buffer.shift p f.index, f.key⟩

namespace Buffer

variable {b : Buffer} {i j d n p : Nat} {x : Line} {f : Field}

/-- A line is a field of a block exactly if it is a parameter at the measured depth and the lines
down to it belong to the run. -/
theorem mem_fields_iff (hd : b.fieldDepth? ⟨i, b.stopOf i⟩ = some d) :
    f ∈ b.fields ⟨i, b.stopOf i⟩ ↔
      i < f.index ∧ f.index < b.length ∧
        (∀ k, i < k → k ≤ f.index → (b.line k).inRun (b.line i).depth d = true) ∧
        (b.line f.index).kind = .parameter ∧ (b.line f.index).depth = d ∧
        (b.line f.index).key? = some f.key := by
  constructor
  · intro hf
    obtain ⟨d', hd', hrun, hdepth⟩ := mem_fieldRun_of_mem_fields hf
    obtain rfl := Option.some.inj (hd.symm.trans hd')
    obtain ⟨_, _, _, hkind, _, hkey⟩ := of_mem_fields hf
    obtain ⟨hif, hlt⟩ := of_mem_fieldRun hrun
    exact ⟨hif, (of_lt_runAfter hif hlt).1, fun k => inRun_of_le hrun, hkind, hdepth, hkey⟩
  · rintro ⟨hif, hlen, hrun, hkind, hdepth, hkey⟩
    have hmem : f.index ∈ b.fieldRun ⟨i, b.stopOf i⟩ d := by
      have hlt := (lt_runAfter_iff hif).2 ⟨hlen, hrun⟩
      rw [fieldRun_eq, ← runAfter, List.mem_range'_1]
      omega
    simp only [fields, hd]
    refine List.mem_filterMap.2 ⟨f.index, hmem, ?_⟩
    rw [fieldAt?, if_pos ⟨hkind, hdepth⟩, hkey, Option.map_some]

/-- Fields in the order of their lines are given by their members. -/
theorem eq_of_mem_iff_of_pairwise {fields fields' : List Field}
    (h : fields.Pairwise fun f g => f.index < g.index)
    (h' : fields'.Pairwise fun f g => f.index < g.index) (hmem : ∀ f, f ∈ fields ↔ f ∈ fields') :
    fields = fields' := by
  have : Std.Irrefl fun f g : Field => f.index < g.index := ⟨fun f => Nat.lt_irrefl f.index⟩
  have : Std.Antisymm fun f g : Field => f.index < g.index :=
    ⟨fun f g hfg hgf => absurd hgf (Nat.lt_asymm hfg)⟩
  exact h.eq_of_mem_iff h' hmem

/-- What holds of a stretch of lines after an insertion: what held of them before, and the inserted
line if it stands in the stretch. -/
theorem forall_line_insertIdx_iff (hp : p ≤ b.length) (q : Line → Bool) :
    (∀ k, shift p i < k → k ≤ shift p n → q (Buffer.line (b.insertIdx p x) k) = true) ↔
      (∀ k, i < k → k ≤ n → q (b.line k) = true) ∧ (i < p → p ≤ n → q x = true) := by
  have hmono := strictMono_shift p
  constructor
  · intro hall
    refine ⟨fun k hik hkn => ?_, fun hip hpn => ?_⟩
    · rw [← line_insertIdx_shift hp x]
      exact hall _ (hmono hik) (hmono.monotone hkn)
    · rw [← line_insertIdx_self hp x]
      refine hall p ?_ ?_
      · rwa [shift_lt_iff]
      · rw [shift_of_le hpn]
        exact Nat.le_succ_of_le hpn
  · rintro ⟨hall, hx⟩ k hik hkn
    by_cases hkp : k = p
    · subst hkp
      rw [line_insertIdx_self hp]
      refine hx (shift_lt_iff.1 hik) (Nat.le_of_not_lt fun hn => ?_)
      rw [shift_of_lt hn] at hkn
      omega
    · obtain ⟨m, rfl⟩ := exists_shift hkp
      rw [line_insertIdx_shift hp]
      exact hall m (hmono.lt_iff_lt.1 hik) (hmono.le_iff_le.1 hkn)

end Buffer

namespace Injects.At

open Buffer

variable {r : FieldInjection} {b : Buffer} {d i j p : Nat} {x : Line} {f : Field}
  (hx : At r b i p x) (hbare : Buffer.isBareKey r.field = true)
  (hentry : (b.line j).kind.isEntry = true) (hne : i ≠ j)

include hx hbare hentry hne

/-- Every other block measures its fields as before, wherever it starts. -/
theorem fieldDepth?_shift :
    Buffer.fieldDepth? (b.insertIdx p x) ⟨shift p j, Buffer.stopOf (b.insertIdx p x) (shift p j)⟩ =
      b.fieldDepth? ⟨j, b.stopOf j⟩ := by
  rw [fieldDepth?_eq, fieldDepth?_eq, line_insertIdx_shift hx.le_length]
  rcases Nat.lt_or_ge j p with hjp | hpj
  · rw [shift_of_lt hjp, drop_insertIdx_of_lt hx.le_length x hjp,
      (hx.keepsFields hbare hentry hne hjp).entryDepth_eq, ← drop_of_lt hjp]
  · rw [shift_of_le hpj, drop_insertIdx_of_le hx.le_length x (Nat.le_succ_of_le hpj)]

/-- The new line is no field of another block. -/
theorem index_ne_of_mem_fields (hf : f ∈ Buffer.fields (b.insertIdx p x)
    ⟨shift p j, Buffer.stopOf (b.insertIdx p x) (shift p j)⟩) : f.index ≠ p := by
  rintro rfl
  have hp := hx.le_length
  obtain ⟨d, _, hmem, hdepth⟩ := mem_fieldRun_of_mem_fields hf
  have hjp := shift_lt_iff.1 (of_mem_fieldRun hmem).1
  have hrun {k : Nat} (hjk : j < k) (hk : k ≤ f.index) :
      (Buffer.line (b.insertIdx f.index x) k).inRun (b.line j).depth d = true := by
    rw [← line_insertIdx_shift hp x j]
    exact inRun_of_le hmem (by rwa [shift_of_lt hjp]) hk
  have hself := hrun hjp (Nat.le_refl _)
  rw [line_insertIdx_self hp] at hdepth hself
  rcases Nat.lt_or_gt_of_ne hne with hij | hji
  · have houtside := hx.isInside_of_le hbare (hx.depth_le_of_lt hbare hij hjp hentry)
    rw [isInside_of_inRun hself] at houtside
    cases houtside
  · have hi := hrun hji (Nat.le_of_lt hx.isPlace.1)
    rw [line_insertIdx_of_lt hp x hx.isPlace.1] at hi
    have := (inRun_of_depth_lt hx.isEntry hi (hx.depth_lt hbare)).2
    omega

/-- The new line belongs to the fields of another block if one of them stands below it. -/
theorem inRun_of_mem_fields (hd : b.fieldDepth? ⟨j, b.stopOf j⟩ = some d)
    (hf : f ∈ b.fields ⟨j, b.stopOf j⟩) (hjp : j < p) (hpf : p ≤ f.index) :
    x.inRun (b.line j).depth d = true := by
  obtain ⟨_, _, hrun, hkind, _⟩ := (mem_fields_iff hd).1 hf
  rcases Nat.lt_or_gt_of_ne hne with hij | hji
  · obtain ⟨_, _, hmem, _⟩ := mem_fieldRun_of_mem_fields hf
    have hblank := hx.cutsNoBlock j hij hjp (isSignificant_of_isEntry hentry) f.index hpf
      (lt_stopOf_of_mem_fieldRun hmem)
    rw [hkind] at hblank
    cases hblank
  · have hi := hrun i hji (Nat.le_of_lt (Nat.lt_of_lt_of_le hx.isPlace.1 hpf))
    exact (inRun_of_depth_lt hx.isEntry hi (hx.depth_lt hbare)).1

/-- The fields of another block after the injection are those that it had, each where its line has
gone. -/
theorem fields_insertIdx :
    Buffer.fields (b.insertIdx p x) ⟨shift p j, Buffer.stopOf (b.insertIdx p x) (shift p j)⟩ =
      (b.fields ⟨j, b.stopOf j⟩).map (Field.shift p) := by
  have hp := hx.le_length
  have hmono := strictMono_shift p
  have hdepth := hx.fieldDepth?_shift hbare hentry hne
  have hbase := line_insertIdx_shift hp x j
  cases hd : b.fieldDepth? ⟨j, b.stopOf j⟩ with
  | none =>
      rw [hd] at hdepth
      simp only [fields, hd, hdepth, List.map_nil]
  | some d =>
      rw [hd] at hdepth
      refine eq_of_mem_iff_of_pairwise (pairwise_fields _ _)
        ((b.pairwise_fields j).map _ fun f g hfg => hmono hfg) fun f => ?_
      rw [List.mem_map]
      constructor
      · intro hf
        obtain ⟨k, hk⟩ := exists_shift (hx.index_ne_of_mem_fields hbare hentry hne hf)
        rw [mem_fields_iff hdepth, hbase] at hf
        obtain ⟨hjf, hlen, hrun, hkind, hfd, hkey⟩ := hf
        rw [hk] at hjf hlen hrun hkind hfd hkey
        rw [line_insertIdx_shift hp] at hkind hfd hkey
        have hrun' := ((forall_line_insertIdx_iff hp (Line.inRun (b.line j).depth d)).1 hrun).1
        refine ⟨⟨k, f.key⟩, (mem_fields_iff hd).2 ⟨hmono.lt_iff_lt.1 hjf,
          (shift_lt_length hp).1 hlen, hrun', hkind, hfd, hkey⟩, ?_⟩
        rw [Field.shift, ← hk]
      · rintro ⟨g, hg, rfl⟩
        obtain ⟨hjg, hlen, hrun, hline⟩ := (mem_fields_iff hd).1 hg
        have hrun' := (forall_line_insertIdx_iff hp (Line.inRun (b.line j).depth d)).2
          ⟨hrun, hx.inRun_of_mem_fields hbare hentry hne hd hg⟩
        rw [mem_fields_iff hdepth, hbase]
        refine ⟨hmono hjg, (shift_lt_length hp).2 hlen, hrun', ?_⟩
        rwa [Field.shift, line_insertIdx_shift hp]

end Injects.At

namespace Buffer

variable {b : Buffer} {i j : Nat} {e other : Extent} {key : List Char}

/-- An injection touches the fields of no other block. Wherever the other block starts, above the
injected block, inside it or below it, it has the same fields as before, each where its line has
gone, so their keys are the same and in the same order. -/
theorem fields_injectField_of_ne (a : Anchors) (value : List Char) (he : b.extentOf i = .ok e)
    (hi : (b.line i).kind.isEntry = true) (hkey : isBareKey key = true)
    (hother : b.extentOf j = .ok other) (hj : (b.line j).kind.isEntry = true) (hne : i ≠ j) :
    ∃ other', Buffer.extentOf (b.injectField e a key value)
        (shift (b.insertionIndex e a) j) = .ok other' ∧
      Buffer.fields (b.injectField e a key value) other' =
        (b.fields other).map (Field.shift (b.insertionIndex e a)) ∧
      (Buffer.fields (b.injectField e a key value) other').map Field.key =
        (b.fields other).map Field.key := by
  obtain ⟨hilen, rfl⟩ := extentOf_eq_ok_iff.1 he
  obtain ⟨hjlen, rfl⟩ := extentOf_eq_ok_iff.1 hother
  let r : FieldInjection := ⟨"", .keys [], key, a, fun _ _ => some value⟩
  have hx := Injects.at_insertionIndex (r := r) hilen hi rfl
  have hfields := hx.fields_insertIdx hkey hj hne
  refine ⟨_, extentOf_eq_ok_iff.2 ⟨(shift_lt_length hx.le_length).2 hjlen, rfl⟩, hfields, ?_⟩
  rw [injectField, hfields, List.map_map]
  rfl

/-- A tag on a task changes neither the fields of the play above it nor those of the module call
inside it. -/
theorem fields_injectField_of_ne_play :
    let b : Buffer := ["- hosts: all", "  tasks:", "    - name: x", "      copy:", "        src: a",
      "", "      when: ready", "  become: true"].map String.toList
    let a : Anchors := ⟨["copy".toList], ["when".toList]⟩
    let after : Buffer := b.injectField ⟨2, 7⟩ a "tags".toList "t".toList
    (∃ play, after.extentOf 0 = .ok play ∧
      (after.fields play).map Field.key = ["tasks".toList, "become".toList]) ∧
    ∃ call, after.extentOf 3 = .ok call ∧ (after.fields call).map Field.key = ["src".toList] := by
  intro b a after
  have he : b.extentOf 2 = .ok ⟨2, 7⟩ := by decide +kernel
  have hi : (b.line 2).kind.isEntry = true := by decide +kernel
  have hkey : isBareKey "tags".toList = true := by decide +kernel
  obtain ⟨play, hplay, _, hkeys⟩ := fields_injectField_of_ne a "t".toList he hi hkey
    (show b.extentOf 0 = .ok ⟨0, 8⟩ by decide +kernel) (by decide +kernel) (by decide)
  obtain ⟨call, hcall, _, hkeys'⟩ := fields_injectField_of_ne a "t".toList he hi hkey
    (show b.extentOf 3 = .ok ⟨3, 6⟩ by decide +kernel) (by decide +kernel) (by decide)
  have hplace : b.insertionIndex ⟨2, 7⟩ a = 5 := by decide +kernel
  rw [hplace] at hplay hcall
  exact ⟨⟨play, hplay, hkeys.trans (by decide +kernel)⟩,
    call, hcall, hkeys'.trans (by decide +kernel)⟩

end Buffer

end TaskTidy
