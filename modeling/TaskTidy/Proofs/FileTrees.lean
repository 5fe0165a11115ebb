import Mathlib.Data.List.Basic
import Mathlib.Data.List.Find
import Mathlib.Data.List.Induction
import TaskTidy.FileTree

/-!
# Trees after a change

Which places are files decides which are directories besides those that are listed, and both decide
where a path leads. So a file that is written in its place moves no path. A file that is moved aside
moves only paths that name the place where it arrives.
-/

namespace TaskTidy

namespace Text

theorem exists_pieces_concat (sep : Char) (s : List Char) :
    ∃ above last, pieces sep s = above ++ [last] :=
  (List.eq_nil_or_concat' (pieces sep s)).resolve_left (pieces_ne_nil sep s)

end Text

namespace FileTree

variable {t u v : FileTree} {place other source dir : Place} {path : String}

theorem isFile_iff_exists : t.isFile place = true ↔ ∃ file ∈ t.files, file.1 = place := by
  rw [isFile, bytesAt?, Option.isSome_map, List.find?_isSome]
  simp

/-- A place is a directory exactly if it is the working directory, a listed one or above such a one,
or a file lies below it. -/
theorem isDirectory_iff : t.isDirectory place = true ↔
    (∃ directory ∈ t.start :: t.directories, place <+: directory) ∨
      ∃ file, t.isFile file = true ∧ place <+: file ∧ file ≠ place := by
  simp only [isDirectory, Bool.or_eq_true, List.any_eq_true, Bool.and_eq_true,
    List.isPrefixOf_iff_prefix, bne_iff_ne, isFile_iff_exists]
  refine or_congr_right ⟨?_, ?_⟩
  · rintro ⟨file, hfile, hbelow⟩
    exact ⟨file.1, ⟨file, hfile, rfl⟩, hbelow⟩
  · rintro ⟨_, ⟨file, hfile, rfl⟩, hbelow⟩
    exact ⟨file, hfile, hbelow⟩

/-- What lies above a directory is one. -/
theorem isDirectory_of_prefix (h : t.isDirectory place = true) (habove : other <+: place) :
    t.isDirectory other = true := by
  rw [isDirectory_iff] at h ⊢
  rcases h with ⟨directory, hdirectory, hbelow⟩ | ⟨file, hfile, hbelow, hne⟩
  · exact Or.inl ⟨directory, hdirectory, habove.trans hbelow⟩
  · refine Or.inr ⟨file, hfile, habove.trans hbelow, ?_⟩
    rintro rfl
    exact hne (hbelow.eq_of_length (Nat.le_antisymm hbelow.length_le habove.length_le)).symm

/-! ### Writing and removing -/

theorem bytesAt?_remove_of_ne (t : FileTree) (h : other ≠ place) :
    (t.remove place).bytesAt? other = t.bytesAt? other := by
  rw [bytesAt?, bytesAt?, remove, List.find?_filter]
  congr 1
  refine List.find?_congr fun file _ => ?_
  by_cases hfile : file.1 = other
  · simp [hfile, h]
  · simp [hfile]

theorem isFile_congr (h : u.bytesAt? place = t.bytesAt? place) :
    u.isFile place = t.isFile place := by
  rw [isFile, isFile, h]

theorem rename_eq_ok_iff : t.rename source path = .ok u ↔
    ∃ bytes place, t.bytesAt? source = some bytes ∧ t.target path = .ok place ∧
      u = if place = source then t else (t.remove source).write place bytes := by
  rw [rename]
  split
  · next hnone => simp [hnone]
  · next bytes hbytes =>
      split
      · next cause htarget => simp [htarget]
      · next place htarget =>
          simp only [hbytes, htarget, Option.some.injEq, Except.ok.injEq, exists_and_left,
            exists_eq_left']
          split
          · rw [Except.ok.injEq, eq_comm]
          · rw [Except.ok.injEq, eq_comm]

/-! ### Trees with the same ground -/

/-- Both trees list the same directories and have the same working directory. -/
structure SameGround (t u : FileTree) : Prop where
  directories_eq : u.directories = t.directories
  start_eq : u.start = t.start

theorem SameGround.refl (t : FileTree) : t.SameGround t :=
  ⟨rfl, rfl⟩

theorem SameGround.trans (h : t.SameGround u) (h' : u.SameGround v) : t.SameGround v :=
  ⟨h'.directories_eq.trans h.directories_eq, h'.start_eq.trans h.start_eq⟩

theorem sameGround_write (t : FileTree) (place : Place) (bytes : List UInt8) :
    t.SameGround (t.write place bytes) :=
  ⟨rfl, rfl⟩

theorem sameGround_remove (t : FileTree) (place : Place) : t.SameGround (t.remove place) :=
  ⟨rfl, rfl⟩

/-- Paths start from the same places. -/
theorem SameGround.origin_eq (h : t.SameGround u) (path : String) :
    u.origin path = t.origin path := by
  rw [origin, origin, h.start_eq]

/-! ### Trees with the same files -/

/-- The same places are files in both trees, and the same directories are listed. -/
structure SameFiles (t u : FileTree) : Prop extends SameGround t u where
  isFile_eq : ∀ place, u.isFile place = t.isFile place

theorem SameFiles.refl (t : FileTree) : t.SameFiles t :=
  ⟨SameGround.refl t, fun _ => rfl⟩

theorem SameFiles.trans (h : t.SameFiles u) (h' : u.SameFiles v) : t.SameFiles v :=
  ⟨h.toSameGround.trans h'.toSameGround,
    fun place => (h'.isFile_eq place).trans (h.isFile_eq place)⟩

theorem SameFiles.isDirectory_eq (h : t.SameFiles u) (place : Place) :
    u.isDirectory place = t.isDirectory place := by
  rw [Bool.eq_iff_iff, isDirectory_iff, isDirectory_iff, h.start_eq, h.directories_eq]
  simp only [h.isFile_eq]

theorem SameFiles.walk_eq (h : t.SameFiles u) (place : Place) (pieces : List (List Char)) :
    u.walk place pieces = t.walk place pieces := by
  induction pieces generalizing place with
  | nil => rfl
  | cons piece rest ih =>
      have hstep : u.step place piece = t.step place piece := by
        simp only [step, h.isDirectory_eq, h.isFile_eq]
      rw [walk, walk, hstep]
      split
      · rfl
      · exact ih _

/-- Paths lead to the same places. -/
theorem SameFiles.locate_eq (h : t.SameFiles u) (path : String) :
    u.locate path = t.locate path := by
  rw [locate, locate, h.origin_eq, h.walk_eq]

/-! ### Opening files -/

theorem open?_eq_ok_iff {bytes : List UInt8} :
    t.open? path = .ok (place, bytes) ↔
      t.locate path = .ok place ∧ t.bytesAt? place = some bytes := by
  unfold open?
  split
  · next cause h => simp [h]
  · next found h =>
      rw [h]
      split
      · next hnone =>
          constructor
          · intro h
            cases h
          · rintro ⟨hfound, hbytes⟩
            cases hfound
            rw [hnone] at hbytes
            cases hbytes
      · next found' hsome =>
          simp only [Except.ok.injEq, Prod.mk.injEq]
          refine and_congr_right ?_
          rintro rfl
          rw [hsome, Option.some.injEq]

/-- A path is opened as before if it is where it was opened before. -/
theorem SameFiles.open?_eq (h : t.SameFiles u)
    (hopen : ∀ {place bytes}, t.open? path = .ok (place, bytes) →
      u.open? path = .ok (place, bytes)) : u.open? path = t.open? path := by
  cases hlocate : t.locate path with
  | error cause => rw [open?, open?, h.locate_eq, hlocate]
  | ok place =>
      cases hbytes : t.bytesAt? place with
      | some bytes =>
          have hold := open?_eq_ok_iff.2 ⟨hlocate, hbytes⟩
          rw [hopen hold, hold]
      | none =>
          have hnot := h.isFile_eq place
          rw [isFile, isFile, hbytes, Option.isSome_none, Option.isSome_eq_false_iff,
            Option.isNone_iff_eq_none] at hnot
          simp only [open?, h.locate_eq, hlocate, hbytes, hnot]

theorem isFile_of_bytesAt? {bytes : List UInt8} (h : t.bytesAt? place = some bytes) :
    t.isFile place = true := by
  rw [isFile, h]
  rfl

theorem toOption_eq_some_iff {x : Except Failure Place} :
    x.toOption = some place ↔ x = .ok place := by
  cases x <;> simp [Except.toOption]

/-- Two paths do not lead to one file. -/
def Apart (t : FileTree) (first second : String) : Prop :=
  ∀ place, t.locate first = .ok place → t.locate second = .ok place → t.isFile place = false

instance (t : FileTree) (first second : String) : Decidable (t.Apart first second) :=
  decidable_of_iff (∀ place ∈ (t.locate first).toOption,
    (t.locate second).toOption = some place → t.isFile place = false) <| by
      simp only [Apart, Option.mem_def, toOption_eq_some_iff]

/-- A path that is apart from another one leads elsewhere than to its file. -/
theorem Apart.ne {first second : String} (h : t.Apart first second) {bytes : List UInt8}
    (hfirst : t.open? first = .ok (place, bytes)) (hsecond : t.locate second = .ok other) :
    other ≠ place := by
  rintro rfl
  obtain ⟨hlocate, hbytes⟩ := open?_eq_ok_iff.1 hfirst
  have hfile := isFile_of_bytesAt? hbytes
  rw [h other hlocate hsecond] at hfile
  cases hfile

theorem Apart.symm {first second : String} (h : t.Apart first second) : t.Apart second first :=
  fun place hsecond hfirst => h place hfirst hsecond

/-! ### Trees with more files -/

/-- The other tree has the same directories and the files of this one, at least. -/
structure Extends (t u : FileTree) : Prop extends SameGround t u where
  isFile : ∀ {place}, t.isFile place = true → u.isFile place = true
  isDirectory_eq : ∀ place, u.isDirectory place = t.isDirectory place

theorem Extends.refl (t : FileTree) : t.Extends t :=
  ⟨SameGround.refl t, id, fun _ => rfl⟩

theorem Extends.trans (h : t.Extends u) (h' : u.Extends v) : t.Extends v :=
  ⟨h.toSameGround.trans h'.toSameGround, fun hfile => h'.isFile (h.isFile hfile),
    fun place => (h'.isDirectory_eq place).trans (h.isDirectory_eq place)⟩

theorem SameFiles.extends (h : t.SameFiles u) : t.Extends u :=
  ⟨h.toSameGround, fun hfile => (h.isFile_eq _).trans hfile, h.isDirectory_eq⟩

/-- A file more in a directory makes no new directory. -/
theorem extends_of_isFile (hground : t.SameGround u) (hdir : t.isDirectory dir = true)
    (name : String) (h : ∀ other, u.isFile other = (other == dir ++ [name] || t.isFile other)) :
    t.Extends u where
  toSameGround := hground
  isFile hfile := by rw [h, hfile, Bool.or_true]
  isDirectory_eq place := by
    rw [Bool.eq_iff_iff]
    constructor
    · intro hplace
      rcases isDirectory_iff.1 hplace with hlisted | ⟨file, hfile, hbelow, hne⟩
      · rw [hground.start_eq, hground.directories_eq] at hlisted
        exact isDirectory_iff.2 (Or.inl hlisted)
      · rw [h, Bool.or_eq_true, beq_iff_eq] at hfile
        rcases hfile with rfl | hfile
        · refine isDirectory_of_prefix hdir ?_
          rcases List.prefix_concat_iff.1 hbelow with heq | habove
          · exact absurd heq.symm hne
          · exact habove
        · exact isDirectory_iff.2 (Or.inr ⟨file, hfile, hbelow, hne⟩)
    · intro hplace
      rw [isDirectory_iff] at hplace ⊢
      rw [hground.start_eq, hground.directories_eq]
      refine hplace.imp_right ?_
      rintro ⟨file, hfile, hbelow⟩
      exact ⟨file, by rw [h, hfile, Bool.or_true], hbelow⟩

/-- The place that a path names: the last of its pieces in the directory that the others lead to. -/
def names (t : FileTree) (path : String) (place : Place) : Bool :=
  let pieces := Text.pieces '/' path.toList
  match t.walk (t.origin path) pieces.dropLast with
  | .error _ => false
  | .ok dir => t.isDirectory dir && place == dir ++ [String.ofList (pieces.getLast?.getD [])]

theorem names_iff : t.names path place = true ↔
    ∃ dir, t.walk (t.origin path) (Text.pieces '/' path.toList).dropLast = .ok dir ∧
      t.isDirectory dir = true ∧
        place = dir ++ [String.ofList ((Text.pieces '/' path.toList).getLast?.getD [])] := by
  rw [names]
  split
  · next cause hwalk => simp [hwalk]
  · next dir hwalk => simp [hwalk]

/-- A piece is a file name: no empty one, and no dots that stay or go up. -/
def IsName (piece : List Char) : Prop :=
  piece ≠ [] ∧ piece ≠ ['.'] ∧ piece ≠ ['.', '.'] ∧ Text.Utf8.size piece ≤ nameLimit

section

variable {piece : List Char} {pieces : List (List Char)}

/-- A step stays in a directory, goes up from it, or goes down to what is there. -/
theorem step_eq_ok_iff : t.step place piece = .ok other ↔ t.isDirectory place = true ∧
    ((piece = [] ∨ piece = ['.']) ∧ other = place ∨
      piece = ['.', '.'] ∧ other = place.dropLast ∨
      IsName piece ∧ other = place ++ [String.ofList piece] ∧
        (t.isFile other = true ∨ t.isDirectory other = true)) := by
  constructor
  · intro h
    rw [step] at h
    simp only [Bool.not_eq_true', Bool.or_eq_true, List.isEmpty_iff, beq_iff_eq] at h
    split_ifs at h with hdir hstay hup hlimit hthere
    · cases h
      exact ⟨eq_true_of_ne_false hdir, Or.inl ⟨hstay, rfl⟩⟩
    · cases h
      exact ⟨eq_true_of_ne_false hdir, Or.inr (Or.inl ⟨hup, rfl⟩)⟩
    · cases h
      rw [not_or] at hstay
      exact ⟨eq_true_of_ne_false hdir, Or.inr (Or.inr
        ⟨⟨hstay.1, hstay.2, hup, Nat.le_of_not_lt hlimit⟩, rfl, hthere⟩)⟩
  · rintro ⟨hdir, ⟨rfl | rfl, rfl⟩ | ⟨rfl, rfl⟩ | ⟨⟨hne, hdot, hup, hlimit⟩, rfl, hthere⟩⟩
    · simp [step, hdir]
    · simp [step, hdir]
    · simp [step, hdir]
    · simp [step, hdir, hne, hdot, hup, Nat.not_lt_of_le hlimit, hthere]

theorem isDirectory_of_step (h : t.step place piece = .ok other) : t.isDirectory place = true :=
  (step_eq_ok_iff.1 h).1

theorem walk_concat_eq_ok_iff : t.walk place (pieces ++ [piece]) = .ok other ↔
    ∃ dir, t.walk place pieces = .ok dir ∧ t.step dir piece = .ok other := by
  induction pieces generalizing place with
  | nil =>
      simp only [List.nil_append, walk, Except.ok.injEq, exists_eq_left']
      split
      · next cause hstep => simp [hstep]
      · next next hstep => simp [hstep]
  | cons first rest ih =>
      rw [List.cons_append, walk, walk]
      split
      · simp
      · exact ih

theorem locate_eq_ok_iff : t.locate path = .ok place ↔
    path.utf8ByteSize ≤ pathLimit ∧ path ≠ "" ∧
      t.walk (t.origin path) (Text.pieces '/' path.toList) = .ok place := by
  rw [locate]
  simp only [String.isEmpty_iff]
  constructor
  · intro h
    split_ifs at h with hlong hempty
    exact ⟨Nat.le_of_not_lt hlong, hempty, h⟩
  · rintro ⟨hlong, hne, hwalk⟩
    rw [if_neg (Nat.not_lt_of_le hlong), if_neg hne, hwalk]

/-- A path that leads to no directory ends in a file name. -/
theorem exists_name_of_locate (h : t.locate path = .ok place)
    (hplace : t.isDirectory place = false) :
    ∃ above name dir, Text.pieces '/' path.toList = above ++ [name] ∧
      t.walk (t.origin path) above = .ok dir ∧ t.isDirectory dir = true ∧ IsName name ∧
        place = dir ++ [String.ofList name] := by
  obtain ⟨above, last, hpieces⟩ := Text.exists_pieces_concat '/' path.toList
  obtain ⟨-, -, hwalk⟩ := locate_eq_ok_iff.1 h
  rw [hpieces, walk_concat_eq_ok_iff] at hwalk
  obtain ⟨dir, habove, hstep⟩ := hwalk
  obtain ⟨hdir, ⟨_, hstay⟩ | ⟨_, hup⟩ | ⟨hname, hdown, _⟩⟩ := step_eq_ok_iff.1 hstep
  · rw [← hstay, hplace] at hdir
    cases hdir
  · have habsurd := isDirectory_of_prefix hdir (List.dropLast_prefix dir)
    rw [← hup, hplace] at habsurd
    cases habsurd
  · exact ⟨above, last, dir, hpieces, habove, hdir, hname, hdown⟩

theorem names_of_locate (h : t.locate path = .ok place) (hplace : t.isDirectory place = false) :
    t.names path place = true := by
  obtain ⟨above, name, dir, hpieces, habove, hdir, -, hname⟩ := exists_name_of_locate h hplace
  refine names_iff.2 ⟨dir, ?_, hdir, ?_⟩
  · rw [hpieces, List.dropLast_concat, habove]
  · rw [hpieces, List.getLast?_concat, hname]
    rfl

/-- Trailing pieces that stay in a directory lead nowhere else. -/
theorem walk_trimPieces (hwalk : t.walk place pieces = .ok dir) :
    t.walk place (Path.trimPieces pieces) = .ok dir := by
  cases pieces with
  | nil => exact hwalk
  | cons first rest =>
      rw [Path.trimPieces]
      induction rest using List.reverseRecOn with
      | nil => exact hwalk
      | append_singleton rest last ih =>
          rw [List.reverse_append, List.reverse_singleton, List.singleton_append,
            List.dropWhile_cons]
          split
          · next hlast =>
              refine ih ?_
              rw [← List.cons_append, walk_concat_eq_ok_iff] at hwalk
              obtain ⟨dir', hrest, hstep⟩ := hwalk
              rw [Bool.or_eq_true, List.isEmpty_iff, beq_iff_eq] at hlast
              obtain ⟨-, ⟨_, rfl⟩ | ⟨hup, _⟩ | ⟨hname, _⟩⟩ := step_eq_ok_iff.1 hstep
              · exact hrest
              · simp [hup] at hlast
              · exact absurd hlast (not_or.2 ⟨hname.1, hname.2.1⟩)
          · rw [List.reverse_cons, List.reverse_reverse]
            exact hwalk

/-- A file can be put under a path if its last piece is a file name in a directory. -/
theorem target_eq_ok_iff : t.target path = .ok place ↔
    '\x00' ∉ path.toList ∧ path.utf8ByteSize ≤ pathLimit ∧ t.names path place = true ∧
      IsName ((Text.pieces '/' path.toList).getLast?.getD []) ∧ t.isDirectory place = false := by
  rw [names_iff]
  constructor
  · intro h
    rw [target] at h
    cases hwalk : t.walk (t.origin path) (Text.pieces '/' path.toList).dropLast with
    | error cause =>
        simp only [hwalk] at h
        split_ifs at h
    | ok dir =>
        simp only [hwalk, Bool.or_eq_true, Bool.not_eq_true', List.isEmpty_iff, beq_iff_eq] at h
        split_ifs at h with hnul hlong hdir hdots hlimit hfree
        cases h
        rw [not_or, Bool.not_eq_false] at hdir
        rw [not_or] at hdots
        exact ⟨by simpa using hnul, Nat.le_of_not_lt hlong, ⟨dir, rfl, hdir.1, rfl⟩,
          ⟨hdir.2, hdots.1, hdots.2, Nat.le_of_not_lt hlimit⟩, eq_false_of_ne_true hfree⟩
  · rintro ⟨hnul, hlong, ⟨dir, hwalk, hdir, rfl⟩, ⟨hne, hdot, hup, hlimit⟩, hfree⟩
    simp [target, hnul, Nat.not_lt_of_le hlong, hwalk, hdir, hne, hdot, hup,
      Nat.not_lt_of_le hlimit, hfree]

/-- The place that a new file gets is where its path leads to then. -/
theorem locate_of_target (h : t.target path = .ok place) (hplace : t.isFile place = true) :
    t.locate path = .ok place := by
  obtain ⟨-, hlong, hnames, hname, -⟩ := target_eq_ok_iff.1 h
  obtain ⟨dir, hwalk, hdir, rfl⟩ := names_iff.1 hnames
  obtain ⟨above, last, hpieces⟩ := Text.exists_pieces_concat '/' path.toList
  rw [hpieces, List.getLast?_concat, Option.getD_some] at hname hplace ⊢
  rw [hpieces, List.dropLast_concat] at hwalk
  refine locate_eq_ok_iff.2 ⟨hlong, ?_, ?_⟩
  · rintro rfl
    cases (List.append_eq_singleton_iff.1 hpieces.symm) with
    | inl h => exact hname.1 (List.singleton_injective h.2)
    | inr h => cases h.2
  · rw [hpieces]
    exact walk_concat_eq_ok_iff.2 ⟨dir, hwalk,
      step_eq_ok_iff.2 ⟨hdir, Or.inr (Or.inr ⟨hname, rfl, Or.inl hplace⟩)⟩⟩

namespace Extends

variable (h : t.Extends u)

include h

theorem step_of_ok (hstep : t.step place piece = .ok other) :
    u.step place piece = .ok other := by
  rw [step_eq_ok_iff] at hstep ⊢
  refine ⟨by rw [h.isDirectory_eq, hstep.1], hstep.2.imp_right (Or.imp_right ?_)⟩
  rintro ⟨hname, hother, hthere⟩
  exact ⟨hname, hother, hthere.imp h.isFile fun hdir => by rw [h.isDirectory_eq, hdir]⟩

theorem walk_of_ok (hwalk : t.walk place pieces = .ok other) : u.walk place pieces = .ok other := by
  induction pieces generalizing place with
  | nil => exact hwalk
  | cons piece rest ih =>
      rw [walk] at hwalk ⊢
      split at hwalk
      · cases hwalk
      · next next hstep =>
          rw [h.step_of_ok hstep]
          exact ih hwalk

/-- A step that is new goes down to a new file. -/
theorem of_step (hstep : u.step place piece = .ok other) : t.step place piece = .ok other ∨
    t.isDirectory place = true ∧ IsName piece ∧ other = place ++ [String.ofList piece] ∧
      t.isFile other = false ∧ t.isDirectory other = false := by
  rw [step_eq_ok_iff] at hstep ⊢
  rw [h.isDirectory_eq] at hstep
  obtain ⟨hdir, hcases⟩ := hstep
  rcases hcases with hstay | hup | ⟨hname, hother, hthere⟩
  · exact Or.inl ⟨hdir, Or.inl hstay⟩
  · exact Or.inl ⟨hdir, Or.inr (Or.inl hup)⟩
  · by_cases hold : t.isFile other = true ∨ t.isDirectory other = true
    · exact Or.inl ⟨hdir, Or.inr (Or.inr ⟨hname, hother, hold⟩)⟩
    · rw [not_or, Bool.not_eq_true, Bool.not_eq_true] at hold
      exact Or.inr ⟨hdir, hname, hother, hold⟩

/-- A walk that is new ends at a new file. The induction is on the end of the walk: what is new can
only be its last step, for from a file there is no further one. -/
theorem of_walk (hwalk : u.walk place pieces = .ok other) : t.walk place pieces = .ok other ∨
    t.isFile other = false ∧ t.isDirectory other = false ∧ ∃ dir,
      t.walk place pieces.dropLast = .ok dir ∧ t.isDirectory dir = true ∧
        other = dir ++ [String.ofList (pieces.getLast?.getD [])] := by
  induction pieces using List.reverseRecOn generalizing other with
  | nil => exact Or.inl hwalk
  | append_singleton above last ih =>
      obtain ⟨dir, habove, hstep⟩ := walk_concat_eq_ok_iff.1 hwalk
      have hdir := isDirectory_of_step hstep
      rw [h.isDirectory_eq] at hdir
      rcases ih habove with hold | ⟨-, hno, -⟩
      · rcases h.of_step hstep with hlast | ⟨_, _, rfl, hnew⟩
        · exact Or.inl (walk_concat_eq_ok_iff.2 ⟨dir, hold, hlast⟩)
        · refine Or.inr ⟨hnew.1, hnew.2, dir, ?_, hdir, ?_⟩
          · rw [List.dropLast_concat, hold]
          · rw [List.getLast?_concat]
            rfl
      · rw [hno] at hdir
        cases hdir

theorem locate_of_ok (hlocate : t.locate path = .ok place) : u.locate path = .ok place := by
  rw [locate_eq_ok_iff] at hlocate ⊢
  rw [h.origin_eq]
  exact hlocate.imp_right (And.imp_right h.walk_of_ok)

/-- A path that leads somewhere new names a new file. -/
theorem of_locate (hlocate : u.locate path = .ok place) : t.locate path = .ok place ∨
    t.isFile place = false ∧ t.isDirectory place = false ∧ t.names path place = true := by
  rw [locate_eq_ok_iff] at hlocate ⊢
  rw [h.origin_eq] at hlocate
  obtain ⟨hlong, hne, hwalk⟩ := hlocate
  refine (h.of_walk hwalk).imp (fun hold => ⟨hlong, hne, hold⟩) ?_
  rintro ⟨hfile, hdir, hnames⟩
  exact ⟨hfile, hdir, names_iff.2 hnames⟩

/-- Paths name the same places. -/
theorem names_eq (path : String) (place : Place) : u.names path place = t.names path place := by
  rw [Bool.eq_iff_iff, names_iff, names_iff]
  refine exists_congr fun dir => ?_
  rw [h.origin_eq, h.isDirectory_eq]
  constructor
  · rintro ⟨hwalk, hdir, hplace⟩
    refine ⟨(h.of_walk hwalk).resolve_right ?_, hdir, hplace⟩
    rintro ⟨-, hno, -⟩
    rw [hno] at hdir
    cases hdir
  · rintro ⟨hwalk, hdir, hplace⟩
    exact ⟨h.walk_of_ok hwalk, hdir, hplace⟩

theorem target_eq_ok_iff :
    u.target path = .ok place ↔ t.target path = .ok place := by
  rw [FileTree.target_eq_ok_iff, FileTree.target_eq_ok_iff, h.names_eq, h.isDirectory_eq]

end Extends

end

end FileTree

end TaskTidy
