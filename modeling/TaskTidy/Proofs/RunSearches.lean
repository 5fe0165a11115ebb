import TaskTidy.Proofs.InjectingSets
import TaskTidy.Proofs.Parents
import TaskTidy.Proofs.PipeEdits
import TaskTidy.Proofs.ScalarGuards

/-!
# Searches below an inserted line

Fields, commands and pipes are found by searches that start at a line and go down to the first line
that leaves a run. A search finds its line again after an insertion if it passes over the inserted
line, or if nothing was to be found below the place.
-/

namespace TaskTidy

namespace Buffer

variable {b : Buffer} {k m p : Nat} {x : Line} {q P : Line → Bool}

/-- The first line below line `k` that satisfies `P`, among the lines up to the first that fails
`q`. -/
def firstAfter? (b : Buffer) (q P : Line → Bool) (k : Nat) : Option Nat :=
  (List.range' (k + 1) (b.runAfter k q).length).find? fun j => P (b.line j)

theorem firstAfter?_eq_some_iff : b.firstAfter? q P k = some m ↔
    k < m ∧ m < b.length ∧ P (b.line m) = true ∧ (∀ j, k < j → j ≤ m → q (b.line j) = true) ∧
      ∀ j, k < j → j < m → P (b.line j) = false := by
  rw [firstAfter?, List.find?_range'_eq_some, List.mem_range'_1]
  constructor
  · rintro ⟨hP, ⟨hkm, hm⟩, hbefore⟩
    obtain ⟨hlen, hall⟩ := (lt_runAfter_iff hkm).1 hm
    exact ⟨hkm, hlen, hP, hall, fun j hkj hj => by simpa using hbefore j hkj hj⟩
  · rintro ⟨hkm, hlen, hP, hall, hbefore⟩
    exact ⟨hP, ⟨hkm, (lt_runAfter_iff hkm).2 ⟨hlen, hall⟩⟩, fun j hkj hj => by
      simpa using hbefore j hkj hj⟩

theorem isSome_firstAfter?_iff : (b.firstAfter? q P k).isSome = true ↔
    ∃ m, k < m ∧ m < k + 1 + (b.runAfter k q).length ∧ P (b.line m) = true := by
  rw [firstAfter?, List.find?_isSome]
  refine exists_congr fun m => ?_
  rw [List.mem_range'_1, and_assoc]
  exact Iff.rfl

/-- A run goes on past a line that is inserted below another, if it does not stop at a line like the
new one that it goes past. -/
theorem passes_or_ends {j : Nat} (hkj : k < j) (hjp : j < p)
    (hq : q (b.line j) = true → q x = true) :
    q x = true ∨ ∀ m, p ≤ m → ¬m < k + 1 + (b.runAfter k q).length := by
  by_cases hj : j < k + 1 + (b.runAfter k q).length
  · exact Or.inl (hq (of_lt_runAfter hkj hj).2)
  · exact Or.inr fun m hpm hm => hj (Nat.lt_trans (Nat.lt_of_lt_of_le hjp hpm) hm)

/-- A search over indexes is a search over lines. -/
theorem firstAfter?_eq : b.firstAfter? q P k =
    (firstIn? q P (b.drop (k + 1))).map fun r => b.length - (r.2.length + 1) :=
  find?_range' rfl

section

variable (hp : p ≤ b.length)

include hp

/-- A search that stops above the place, or starts below it, finds its line again. -/
theorem firstAfter?_insertIdx_of_eq_some (h : b.firstAfter? q P k = some m)
    (hm : k < p → m < p) :
    Buffer.firstAfter? (b.insertIdx p x) q P (shift p k) = some (shift p m) := by
  obtain ⟨hkm, hlen, hP, hall, hbefore⟩ := firstAfter?_eq_some_iff.1 h
  have hmono := strictMono_shift p
  have hline {j' : Nat} (hkj : shift p k < j') (hjm : j' ≤ shift p m) :
      ∃ j, k < j ∧ j ≤ m ∧ j' = shift p j ∧ Buffer.line (b.insertIdx p x) j' = b.line j := by
    have hne : j' ≠ p := by
      rintro rfl
      rcases Nat.lt_or_ge k j' with hk | hk
      · rw [shift_of_lt (hm hk)] at hjm
        exact absurd (hm hk) (Nat.not_lt_of_le hjm)
      · rw [shift_of_le hk] at hkj
        omega
    obtain ⟨j, rfl⟩ := exists_shift hne
    exact ⟨j, hmono.lt_iff_lt.1 hkj, hmono.le_iff_le.1 hjm, rfl, line_insertIdx_shift hp x j⟩
  refine firstAfter?_eq_some_iff.2 ⟨hmono hkm, (shift_lt_length hp).2 hlen,
    by rwa [line_insertIdx_shift hp x], fun j' hkj hjm => ?_, fun j' hkj hjm => ?_⟩
  · obtain ⟨j, hj, hjle, _, heq⟩ := hline hkj hjm
    rw [heq]
    exact hall j hj hjle
  · obtain ⟨j, hj, _, rfl, heq⟩ := hline hkj (Nat.le_of_lt hjm)
    rw [heq]
    exact hbefore j hj (hmono.lt_iff_lt.1 hjm)

/-- A search that may pass over the inserted line finds its line again. -/
theorem firstAfter?_insertIdx_of_passes (h : b.firstAfter? q P k = some m) (hx : P x = false)
    (hq : q x = true) :
    Buffer.firstAfter? (b.insertIdx p x) q P (shift p k) = some (shift p m) := by
  obtain ⟨hkm, hlen, hP, hall, hbefore⟩ := firstAfter?_eq_some_iff.1 h
  have hmono := strictMono_shift p
  have hline := line_insertIdx_shift hp x
  refine firstAfter?_eq_some_iff.2 ⟨hmono hkm, (shift_lt_length hp).2 hlen, by rwa [hline],
    fun j' hkj hjm => ?_, fun j' hkj hjm => ?_⟩
  · by_cases hj : j' = p
    · rwa [hj, line_insertIdx_self hp]
    · obtain ⟨j, rfl⟩ := exists_shift hj
      rw [hline]
      exact hall j (hmono.lt_iff_lt.1 hkj) (hmono.le_iff_le.1 hjm)
  · by_cases hj : j' = p
    · rwa [hj, line_insertIdx_self hp]
    · obtain ⟨j, rfl⟩ := exists_shift hj
      rw [hline]
      exact hbefore j (hmono.lt_iff_lt.1 hkj) (hmono.lt_iff_lt.1 hjm)

/-- What a search finds around a line that it does not look for, it finds without that line. -/
theorem exists_of_firstAfter?_insertIdx {m' : Nat} (hx : P x = false)
    (h : Buffer.firstAfter? (b.insertIdx p x) q P (shift p k) = some m') :
    ∃ m, b.firstAfter? q P k = some m ∧ shift p m = m' := by
  obtain ⟨hkm, hlen, hP, hall, hbefore⟩ := firstAfter?_eq_some_iff.1 h
  have hne : m' ≠ p := by
    rintro rfl
    rw [line_insertIdx_self hp, hx] at hP
    cases hP
  obtain ⟨m, rfl⟩ := exists_shift hne
  have hmono := strictMono_shift p
  have hline := line_insertIdx_shift hp x
  refine ⟨m, firstAfter?_eq_some_iff.2 ⟨hmono.lt_iff_lt.1 hkm, (shift_lt_length hp).1 hlen,
    by rwa [hline] at hP, fun j hkj hjm => ?_, fun j hkj hjm => ?_⟩, rfl⟩
  · rw [← hline]
    exact hall _ (hmono hkj) (hmono.monotone hjm)
  · rw [← hline]
    exact hbefore _ (hmono hkj) (hmono hjm)

/-- A search that passes over the inserted line, or that leaves its run there with nothing to be
found below, finds its line again. -/
theorem firstAfter?_insertIdx (hx : P x = false)
    (h : k < p → q x = true ∨
      ∀ m, p ≤ m → m < k + 1 + (b.runAfter k q).length → P (b.line m) = false) :
    Buffer.firstAfter? (b.insertIdx p x) q P (shift p k) = (b.firstAfter? q P k).map (shift p) := by
  refine Option.ext fun m' => ?_
  rw [Option.map_eq_some_iff]
  refine ⟨exists_of_firstAfter?_insertIdx hp hx, ?_⟩
  rintro ⟨m, hm, rfl⟩
  by_cases hq : q x = true
  · exact firstAfter?_insertIdx_of_passes hp hm hx hq
  · refine firstAfter?_insertIdx_of_eq_some hp hm fun hkp => ?_
    by_contra hpm
    obtain ⟨hkm, hlen, hP, hall, _⟩ := firstAfter?_eq_some_iff.1 hm
    rw [(h hkp).resolve_left hq m (Nat.le_of_not_lt hpm)
      ((lt_runAfter_iff hkm).2 ⟨hlen, hall⟩)] at hP
    cases hP

end

end Buffer

/-! ### Fields -/

/-- The field in a document with one more line at `p`. -/
def Field.shifted (p : Nat) (f : Field) : Field :=
  { f with index := Buffer.shift p f.index }

namespace Buffer

variable {b : Buffer} {i p d : Nat} {x : Line} {keys : List (List Char)}

/-- Whether a line of a block satisfies a predicate, by a search below its start line. -/
theorem any_blockLines_eq (hi : i < b.length) (P : Line → Bool) :
    (b.blockLines ⟨i, b.stopOf i⟩).any P =
      (P (b.line i) || (b.firstAfter? (Line.isInside (b.line i).depth) P i).isSome) := by
  have hrun := List.prefix_iff_eq_take.1
    (List.takeWhile_prefix (l := b.drop (i + 1)) (Line.isInside (b.line i).depth))
  have hfound : (b.firstAfter? (Line.isInside (b.line i).depth) P i).isSome =
      ((b.drop (i + 1)).takeWhile (Line.isInside (b.line i).depth)).any P := by
    rw [firstAfter?_eq, Option.isSome_map, Bool.eq_iff_iff, List.any_eq_true,
      ← Option.ne_none_iff_isSome, Ne, firstIn?_eq_none_iff]
    simp
  rw [hfound, blockLines, drop_eq_line_cons hi, stopOf, runAfter,
    show i + 1 + ((b.drop (i + 1)).takeWhile (Line.isInside (b.line i).depth)).length - i =
      ((b.drop (i + 1)).takeWhile (Line.isInside (b.line i).depth)).length + 1 by omega,
    List.take_succ_cons, ← hrun, List.any_cons]

/-- What is asked about the lines of a block is not changed by a line that joins the block, or below
which nothing was to be found. -/
theorem any_blockLines_insertIdx (hp : p ≤ b.length) (hi : i < b.length) {P : Line → Bool}
    (hx : P x = false) (h : i < p → x.isInside (b.line i).depth = true ∨
      ∀ m, p ≤ m → m < b.stopOf i → P (b.line m) = false) :
    (Buffer.blockLines (b.insertIdx p x)
        ⟨shift p i, Buffer.stopOf (b.insertIdx p x) (shift p i)⟩).any P =
      (b.blockLines ⟨i, b.stopOf i⟩).any P := by
  rw [any_blockLines_eq hi, any_blockLines_eq ((shift_lt_length hp).2 hi),
    line_insertIdx_shift hp x, firstAfter?_insertIdx hp hx h, Option.isSome_map]

/-- The line that a block carries a key on, by a search below its start line. -/
theorem findKey?_eq : b.findKey? ⟨i, b.stopOf i⟩ keys =
    if (b.line i).hasKeyIn keys then (b.line i).key?.map fun key => ⟨i, key⟩
    else (b.fieldDepth? ⟨i, b.stopOf i⟩).bind fun d =>
      (b.firstAfter? (Line.inRun (b.line i).depth d) (Line.isFieldIn d keys) i).bind fun k =>
        (b.line k).key?.map fun key => ⟨k, key⟩ := by
  rw [findKey?]
  split
  · rfl
  · rw [find?_fields, fieldBelow?, fieldDepth?_eq]
    cases entryDepth? (b.line i).depth (b.drop (i + 1)) with
    | none => rfl
    | some d =>
        simp only [Option.bind_some, firstAfter?_eq]
        cases hr : firstIn? (Line.inRun (b.line i).depth d) (Line.isFieldIn d keys)
            (b.drop (i + 1)) with
        | none => rfl
        | some r =>
            have hline := (line_of_suffix ((of_firstIn? hr).2.2.trans (List.drop_suffix _ b))).1
            simp only [Option.bind_some, Option.map_some, hline]

theorem isSome_findKey?_eq : (b.findKey? ⟨i, b.stopOf i⟩ keys).isSome =
    ((b.line i).hasKeyIn keys ||
      (fieldBelow? (b.line i).depth keys (b.drop (i + 1))).isSome) := by
  rw [← any_fields_eq, findKey?]
  by_cases hown : (b.line i).hasKeyIn keys = true
  · obtain ⟨key, hkey⟩ := Line.exists_key?_of_hasKeyIn hown
    simp [hown, hkey]
  · rw [if_neg hown, List.isSome_find?, Bool.eq_false_iff.2 hown, Bool.false_or]

/-- A block finds its keys again if its fields are as deep as before, and the inserted line joins
them or has only blank lines of the block below it. -/
theorem findKey?_insertIdx (hp : p ≤ b.length) (hx : x.hasKeyIn keys = false)
    (hd : Buffer.fieldDepth? (b.insertIdx p x)
      ⟨shift p i, Buffer.stopOf (b.insertIdx p x) (shift p i)⟩ = b.fieldDepth? ⟨i, b.stopOf i⟩)
    (h : i < p → ∀ d ∈ b.fieldDepth? ⟨i, b.stopOf i⟩, x.inRun (b.line i).depth d = true ∨
      ∀ m, p ≤ m → m < i + 1 + (b.runAfter i (Line.inRun (b.line i).depth d)).length →
        (b.line m).kind = .blank) :
    Buffer.findKey? (b.insertIdx p x)
        ⟨shift p i, Buffer.stopOf (b.insertIdx p x) (shift p i)⟩ keys =
      (b.findKey? ⟨i, b.stopOf i⟩ keys).map (.shifted p) := by
  rw [findKey?_eq, findKey?_eq, hd, line_insertIdx_shift hp x]
  split
  · rw [Option.map_map]
    rfl
  · cases hdepth : b.fieldDepth? ⟨i, b.stopOf i⟩ with
    | none => rfl
    | some d =>
        have hfield : Line.isFieldIn d keys x = false := by
          rw [Line.isFieldIn, hx, Bool.and_false]
        simp only [Option.bind_some]
        rw [firstAfter?_insertIdx hp hfield fun hip =>
          (h hip d hdepth).imp_right fun hblank m hpm hm => ?_]
        · cases b.firstAfter? (Line.inRun (b.line i).depth d) (Line.isFieldIn d keys) i with
          | none => rfl
          | some k =>
              simp only [Option.map_some, Option.bind_some, line_insertIdx_shift hp x,
                Option.map_map]
              rfl
        · rw [Line.isFieldIn, hblank m hpm hm]
          rfl

/-- A block without an entry carries its keys on its start line only, also with one more line. -/
theorem findKey?_insertIdx_of_unmeasured (hp : p ≤ b.length) (hip : i < p)
    (hx : x.hasKeyIn keys = false) (hd : b.fieldDepth? ⟨i, b.stopOf i⟩ = none) :
    Buffer.findKey? (b.insertIdx p x) ⟨i, Buffer.stopOf (b.insertIdx p x) i⟩ keys =
      (b.findKey? ⟨i, b.stopOf i⟩ keys).map (.shifted p) := by
  rw [findKey?, findKey?, line_insertIdx_of_lt hp x hip]
  split
  · rw [Option.map_map, Function.comp_def]
    simp only [Field.shifted, shift_of_lt hip]
  · have hfields : b.fields ⟨i, b.stopOf i⟩ = [] := by rw [fields, hd]
    rw [hfields, List.find?_nil, Option.map_none, List.find?_eq_none]
    intro f hf hkey
    obtain ⟨_, _, hmem, hkind, _, hfkey⟩ := of_mem_fields hf
    obtain ⟨hif, hstop⟩ := Extent.mem_interior.1 hmem
    have hne : f.index ≠ p := by
      intro heq
      rw [heq, line_insertIdx_self hp] at hfkey
      simp only [Line.hasKeyIn, hfkey, hkey] at hx
      cases hx
    obtain ⟨k, hk⟩ := exists_shift hne
    rw [hk] at hif hstop hkind
    rw [line_insertIdx_shift hp x] at hkind
    have hik : i < k := by
      rwa [← shift_of_lt hip, (strictMono_shift p).lt_iff_lt] at hif
    have hk : k < b.stopOf i :=
      lt_stopOf_of_insertIdx hp (Nat.le_of_lt hik) (by rwa [shift_of_lt hip])
    have hsome : (b.fieldDepth? ⟨i, b.stopOf i⟩).isSome = true := by
      rw [fieldDepth?, Option.isSome_map, List.find?_isSome]
      exact ⟨k, Extent.mem_interior.2 ⟨hik, hk⟩, by rw [hkind]; rfl⟩
    rw [hd] at hsome
    cases hsome

end Buffer

/-! ### Commands -/

/-- The command in a document with one more line at `p`. -/
def CommandLine.shifted (p : Nat) (command : CommandLine) : CommandLine :=
  { command with index := Buffer.shift p command.index }

namespace RuleSets

open Buffer

variable {b : Buffer} {k p : Nat} {l x : Line}

/-- The command below line `k`, if a pipe is found in it. -/
def pipedCommand? (b : Buffer) (k : Nat) : Option CommandLine :=
  if (b.commandTexts k).any hasPipe then b.commandLine? k else none

theorem pipeCommand?_eq (b : Buffer) (e : Extent) :
    pipeCommand? b e = if b.isTask e && !b.blockContains e "pipefail".toList then
      (b.findKey? e shellModules).bind fun found => pipedCommand? b found.index else none :=
  rfl

/-- A line of a script with a pipe holds a command. -/
theorem holdsCommand_of_hasPipe (h : hasPipe (Text.trim l) = true) : holdsCommand l = true := by
  simp only [hasPipe, Bool.and_eq_true, bne_iff_ne] at h
  obtain ⟨⟨hkind, _⟩, hpipe⟩ := h
  simp only [holdsCommand, Bool.and_eq_true, Bool.not_eq_true', List.isEmpty_eq_false_iff,
    bne_iff_ne]
  constructor
  · intro hnil
    rw [hnil] at hpipe
    cases hpipe
  · intro hhash
    obtain ⟨rest, hrest⟩ := List.head?_eq_some_iff.1 hhash
    rw [hrest] at hkind
    exact hkind rfl

/-- A line that counts as blank holds nothing visible but a dash. -/
theorem not_mem_of_kind_blank {c : Char} (h : l.kind = .blank) (hc : Text.isBlank c = false)
    (hdash : c ≠ '-') : c ∉ l := by
  intro hmem
  replace hmem := Line.mem_unindented hmem (Line.isIndent_of_isBlank hc)
  have hblank {s : List Char} (hs : Text.allBlank s = true) (hcs : c ∈ s) : False := by
    rw [List.all_eq_true.1 hs c hcs] at hc
    cases hc
  rcases Line.describes_of_kind h with hall | ⟨after, hu, hall⟩
  · exact hblank hall hmem
  · rw [hu] at hmem
    exact (List.mem_cons.1 hmem).elim hdash (hblank hall)

theorem hasPipe_trim_of_kind_blank (h : l.kind = .blank) : hasPipe (Text.trim l) = false :=
  hasPipe_eq_false fun hmem =>
    not_mem_of_kind_blank h (by decide) (by decide) (Line.mem_of_mem_trim hmem)

theorem contains_of_kind_blank (h : l.kind = .blank) :
    Text.contains "pipefail".toList l = false := by
  rw [← Bool.not_eq_true, Text.contains_iff]
  exact fun hoption => not_mem_of_kind_blank h (c := 'p') (by decide) (by decide)
    (hoption.subset (by decide))

theorem isCmd_of_kind_blank (h : l.kind = .blank) : isCmd l = false := by
  rw [isCmd, h]
  rfl

/-- An entry holds text. -/
theorem holdsCommand_of_isEntry (h : l.kind.isEntry = true) : holdsCommand l = true := by
  obtain ⟨c, rest, hu, hblank, hhash⟩ := Line.exists_cons_of_isEntry h
  rw [holdsCommand, Line.trim_of_unindented hu hblank]
  simpa using hhash

/-- From line `p` on, the value of the key on a line `k` above holds blank lines only. -/
def ValueEndsAbove (b : Buffer) (k p : Nat) : Prop :=
  k < p → ∀ m ∈ b.valueLines k, p ≤ m → (b.line m).kind = .blank

instance (b : Buffer) (k p : Nat) : Decidable (ValueEndsAbove b k p) :=
  inferInstanceAs (Decidable (_ → ∀ m ∈ b.valueLines k, _ → _))

/-- The line `x` that is inserted at `p` spares the value of the key on line `k`: it is deeper than
an entry between them, or the value ends above it. -/
def Spares (b : Buffer) (k p : Nat) (x : Line) : Prop :=
  k < p → (∃ j, k < j ∧ j < p ∧ (b.line j).kind.isEntry = true ∧ (b.line j).depth < x.depth) ∨
    ValueEndsAbove b k p

/-- The lines of a script hold a pipe if a search over them finds one. -/
private theorem any_hasPipe_valueLines (b : Buffer) (k : Nat) :
    ((b.valueLines k).map fun j => Text.trim (b.line j)).any hasPipe =
      (b.firstAfter? (Line.isInside (b.line k).column)
        (fun l => hasPipe (Text.trim l)) k).isSome := by
  rw [List.any_map, firstAfter?, List.isSome_find?]
  rfl

/-- The command of a script is the first line of it that holds one. -/
private theorem find?_valueLines (b : Buffer) (k : Nat) :
    ((b.valueLines k).find? fun j => !(Text.trim (b.line j)).isEmpty &&
        (Text.trim (b.line j)).head? != some '#') =
      b.firstAfter? (Line.isInside (b.line k).column) holdsCommand k := rfl

namespace Spares

variable (h : Spares b k p x)

include h

/-- What no blank line satisfies is found in the value as before. -/
theorem firstAfter?_insertIdx (hp : p ≤ b.length) {P : Line → Bool} (hx : P x = false)
    (hblank : ∀ {l : Line}, l.kind = .blank → P l = false) :
    Buffer.firstAfter? (b.insertIdx p x) (Line.isInside (b.line k).column) P (shift p k) =
      (b.firstAfter? (Line.isInside (b.line k).column) P k).map (shift p) := by
  refine Buffer.firstAfter?_insertIdx hp hx fun hkp => ?_
  rcases h hkp with ⟨j, hkj, hjp, hentry, hdepth⟩ | hends
  · refine (passes_or_ends hkj hjp fun hinside => ?_).imp_right fun hend m hpm hm =>
      absurd hm (hend m hpm)
    have hdeep := depth_of_isInside hentry hinside
    rw [Line.isInside, Bool.or_eq_true, decide_eq_true_eq]
    exact Or.inr (Nat.lt_trans hdeep hdepth)
  · refine Or.inr fun m hpm hm => hblank ?_
    exact hends hkp m (by rw [valueLines, List.mem_range'_1]; omega) hpm

theorem commandKey?_insertIdx (hp : p ≤ b.length) (hx : isCmd x = false) :
    Buffer.commandKey? (b.insertIdx p x) (shift p k) = (b.commandKey? k).map (shift p) := by
  have hfind := h.firstAfter?_insertIdx hp hx isCmd_of_kind_blank
  rw [commandKey?, commandKey?, line_insertIdx_shift hp x]
  split
  · rfl
  · rw [valueLines, line_insertIdx_shift hp x]
    exact hfind

/-- The first command of a script with a pipe is found as before. -/
theorem exists_firstCommand (hp : p ≤ b.length)
    (hpipe : (b.firstAfter? (Line.isInside (b.line k).column)
      (fun l => hasPipe (Text.trim l)) k).isSome = true) :
    ∃ m, b.firstAfter? (Line.isInside (b.line k).column) holdsCommand k = some m ∧
      Buffer.firstAfter? (b.insertIdx p x) (Line.isInside (b.line k).column) holdsCommand
        (shift p k) = some (shift p m) := by
  obtain ⟨n, hkn, hn, hpipe⟩ := isSome_firstAfter?_iff.1 hpipe
  have hholds := holdsCommand_of_hasPipe hpipe
  obtain ⟨m, hm⟩ := Option.isSome_iff_exists.1 (isSome_firstAfter?_iff.2 ⟨n, hkn, hn, hholds⟩)
  refine ⟨m, hm, firstAfter?_insertIdx_of_eq_some hp hm fun hkp => ?_⟩
  obtain ⟨hkm, _, _, _, hbefore⟩ := firstAfter?_eq_some_iff.1 hm
  by_contra hpm
  rw [Nat.not_lt] at hpm
  rcases h hkp with ⟨j, hkj, hjp, hentry, _⟩ | hends
  · have hnone := hbefore j hkj (Nat.lt_of_lt_of_le hjp hpm)
    rw [holdsCommand_of_isEntry hentry] at hnone
    cases hnone
  · have hnp : n < p := by
      by_contra hpn
      rw [hasPipe_trim_of_kind_blank (hends hkp n
        (by rw [valueLines, List.mem_range'_1]; omega) (Nat.le_of_not_lt hpn))] at hpipe
      cases hpipe
    rw [hbefore n hkn (Nat.lt_of_lt_of_le hnp hpm)] at hholds
    cases hholds

/-- A pipe below line `k` is found as before, and the command with it. -/
theorem pipedCommand?_insertIdx (hp : p ≤ b.length) (hcmd : isCmd x = false)
    (hpipe : hasPipe (Text.trim x) = false) (hkeys : ∀ key ∈ b.commandKey? k, Spares b key p x) :
    pipedCommand? (b.insertIdx p x) (shift p k) = (pipedCommand? b k).map (.shifted p) := by
  rw [pipedCommand?, pipedCommand?, commandTexts, commandTexts, commandLine?, commandLine?,
    h.commandKey?_insertIdx hp hcmd]
  cases hkey : b.commandKey? k with
  | none => rfl
  | some key =>
      simp only [Option.map_some, line_insertIdx_shift hp x]
      cases (b.line key).value? with
      | none => rfl
      | some value =>
          dsimp only
          split
          · have hspares := hkeys key hkey
            rw [any_hasPipe_valueLines, any_hasPipe_valueLines, find?_valueLines,
              find?_valueLines, line_insertIdx_shift hp x,
              hspares.firstAfter?_insertIdx hp (P := fun l => hasPipe (Text.trim l)) hpipe
                hasPipe_trim_of_kind_blank, Option.isSome_map]
            split
            · next hsome =>
                obtain ⟨m, hm, hm'⟩ := hspares.exists_firstCommand (x := x) hp hsome
                simp only [hm, hm', Option.map_some, line_insertIdx_shift hp x,
                  CommandLine.shifted]
            · rfl
          · split <;> rfl

end Spares

end RuleSets

end TaskTidy
