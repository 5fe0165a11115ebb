import TaskTidy.Batch
import TaskTidy.Proofs.FileTrees

/-!
# Batches leave other files alone

A file of a batch is read and fixed at its own place. With a backup it is also moved aside, to a
place of its own. Files of which none lies where another one is or is moved to are fixed as each
would be alone.
-/

namespace TaskTidy

namespace FileResult

/-- Whether a file was changed. -/
def isChanged : FileResult → Bool
  | .changed _ _ => true
  | _ => false

/-- Whether a file could not be fixed. -/
def isFailed : FileResult → Bool
  | .failed _ => true
  | _ => false

end FileResult

/-- The place to which a mode moves the file at a path aside. -/
def Mode.backup? (mode : Mode) (t : FileTree) (path : String) : Option Place :=
  match mode with
  | .backup suffix => (t.target (Path.withSuffix path suffix)).toOption
  | _ => none

namespace Mode

variable {mode : Mode} {t : FileTree} {path : String} {place : Place}

theorem exists_target_of_backup? (h : mode.backup? t path = some place) :
    ∃ suffix, mode = .backup suffix ∧ t.target (Path.withSuffix path suffix) = .ok place := by
  cases mode with
  | check => cases h
  | diff => cases h
  | replace => cases h
  | backup suffix => exact ⟨suffix, rfl, FileTree.toOption_eq_some_iff.1 h⟩

theorem backup?_eq_none_of_writes (h : mode.writes = false) : mode.backup? t path = none := by
  cases mode with
  | check => rfl
  | diff => rfl
  | replace => rfl
  | backup suffix => cases h

/-- A backup is a file in a directory. -/
theorem exists_dir_of_backup? (h : mode.backup? t path = some place) :
    ∃ dir, t.isDirectory dir = true ∧ ∃ name, place = dir ++ [name] := by
  obtain ⟨suffix, -, htarget⟩ := exists_target_of_backup? h
  obtain ⟨-, -, hnames, -⟩ := FileTree.target_eq_ok_iff.1 htarget
  obtain ⟨dir, -, hdir, hplace⟩ := FileTree.names_iff.1 hnames
  exact ⟨dir, hdir, _, hplace⟩

theorem isDirectory_of_backup? (h : mode.backup? t path = some place) :
    t.isDirectory place = false := by
  obtain ⟨suffix, -, htarget⟩ := exists_target_of_backup? h
  exact (FileTree.target_eq_ok_iff.1 htarget).2.2.2.2

theorem backup?_eq_of_extends {u : FileTree} (h : t.Extends u) (mode : Mode) (path : String) :
    mode.backup? u path = mode.backup? t path := by
  cases mode with
  | check => rfl
  | diff => rfl
  | replace => rfl
  | backup suffix =>
      refine Option.ext fun place => ?_
      rw [backup?, backup?, FileTree.toOption_eq_some_iff, FileTree.toOption_eq_some_iff,
        h.target_eq_ok_iff]

end Mode

namespace Batch

/-- An attempt to fix a file: its place, its bytes, their text, and what rule sets make of it. -/
structure Attempt where
  place : Place
  bytes : List UInt8
  text : List Char
  outcome : Outcome

/-- The bytes of the fixed text. -/
def Attempt.fixed (a : Attempt) : List UInt8 :=
  Text.Utf8.encode a.outcome.document.render

/-- The attempt is the one to fix the file at a path by the rule sets that are meant for it. -/
structure IsAttempt (sets : List RuleSet) (t : FileTree) (path : String) (a : Attempt) : Prop where
  open?_eq : t.open? path = .ok (a.place, a.bytes)
  decode_eq : Text.Utf8.decode a.bytes = .ok a.text
  applySets_eq :
    (Document.parse a.text).applySets (Registry.accepting path sets) = .ok a.outcome

/-- Whether the file at a path needs fixing. -/
def needsFix (sets : List RuleSet) (t : FileTree) (path : String) : Bool :=
  (fixFile sets .check t path).1.isChanged

/-- The place to which the file at a path is moved aside, if it needs fixing. -/
def backup? (sets : List RuleSet) (mode : Mode) (t : FileTree) (path : String) : Option Place :=
  if needsFix sets t path then mode.backup? t path else none

variable {sets : List RuleSet} {mode : Mode} {t u next : FileTree} {path other : String}
  {place own : Place} {bytes : List UInt8} {text : List Char} {a : Attempt}

/-! ### Writing one file -/

/-- A file is written back unless there is no place for its backup. -/
theorem exists_writeBack (hbytes : t.bytesAt? own = some bytes)
    (hbackup : ∀ suffix, mode = .backup suffix → (mode.backup? t path).isSome = true)
    (text : List Char) : ∃ next, writeBack mode t path own text = .ok next := by
  cases mode with
  | check => exact ⟨t, rfl⟩
  | diff => exact ⟨t, rfl⟩
  | replace => exact ⟨_, rfl⟩
  | backup suffix =>
      obtain ⟨target, htarget⟩ := Option.isSome_iff_exists.1 (hbackup suffix rfl)
      have hmoved := FileTree.rename_eq_ok_iff.2
        ⟨bytes, target, hbytes, FileTree.toOption_eq_some_iff.1 htarget, rfl⟩
      rw [writeBack, hmoved]
      exact ⟨_, rfl⟩

section

variable (h : writeBack mode t path own text = .ok next)

include h

/-- Either nothing is written, or the text is written after the file was left or moved aside. -/
theorem writeBack_cases :
    mode.writes = false ∧ next = t ∨
    mode.writes = true ∧ ∃ moved, next = moved.write own (Text.Utf8.encode text) ∧
      ((∀ suffix, mode ≠ .backup suffix) ∧ moved = t ∨
        ∃ bytes target, t.bytesAt? own = some bytes ∧ mode.backup? t path = some target ∧
          moved = if target = own then t else (t.remove own).write target bytes) := by
  cases mode with
  | check => exact Or.inl ⟨rfl, (Except.ok.inj h).symm⟩
  | diff => exact Or.inl ⟨rfl, (Except.ok.inj h).symm⟩
  | replace =>
      refine Or.inr ⟨rfl, t, (Except.ok.inj h).symm, Or.inl ⟨fun suffix heq => ?_, rfl⟩⟩
      cases heq
  | backup suffix =>
      rw [writeBack] at h
      split at h
      · cases h
      · next moved hmoved =>
          cases h
          obtain ⟨bytes, target, hbytes, htarget, hmoved⟩ := FileTree.rename_eq_ok_iff.1 hmoved
          exact Or.inr ⟨rfl, moved, rfl, Or.inr ⟨bytes, target, hbytes,
            FileTree.toOption_eq_some_iff.2 htarget, hmoved⟩⟩

theorem sameGround_writeBack : t.SameGround next := by
  rcases writeBack_cases h with ⟨-, rfl⟩ | ⟨-, moved, rfl, ⟨-, rfl⟩ | ⟨_, target, -, -, rfl⟩⟩
  · exact FileTree.SameGround.refl _
  · exact FileTree.sameGround_write _ _ _
  · refine FileTree.SameGround.trans ?_ (FileTree.sameGround_write _ _ _)
    split
    · exact FileTree.SameGround.refl t
    · exact (FileTree.sameGround_remove t own).trans (FileTree.sameGround_write _ _ _)

/-- Only the file and its backup change. -/
theorem bytesAt?_writeBack_of_ne (hown : place ≠ own) (hbackup : mode.backup? t path ≠ some place) :
    next.bytesAt? place = t.bytesAt? place := by
  rcases writeBack_cases h with ⟨-, rfl⟩ | ⟨-, moved, rfl, hmoved⟩
  · rfl
  · rw [moved.bytesAt?_write_of_ne _ hown]
    rcases hmoved with ⟨-, rfl⟩ | ⟨bytes, target, -, htarget, rfl⟩
    · rfl
    · split
      · rfl
      · have hne : place ≠ target := by
          rintro rfl
          exact hbackup htarget
        rw [FileTree.bytesAt?_write_of_ne _ _ hne, FileTree.bytesAt?_remove_of_ne t hown]

theorem bytesAt?_writeBack_own (hwrites : mode.writes = true) :
    next.bytesAt? own = some (Text.Utf8.encode text) := by
  rcases writeBack_cases h with ⟨hno, -⟩ | ⟨-, moved, rfl, -⟩
  · rw [hwrites] at hno
    cases hno
  · exact moved.bytesAt?_write_self own _

/-- A backup that is not the file itself holds its bytes. -/
theorem bytesAt?_writeBack_backup (hbytes : t.bytesAt? own = some bytes)
    (hbackup : mode.backup? t path = some place) (hown : place ≠ own) :
    next.bytesAt? place = some bytes := by
  obtain ⟨suffix, rfl, -⟩ := Mode.exists_target_of_backup? hbackup
  rcases writeBack_cases h with ⟨hno, -⟩ | ⟨-, moved, rfl, hmoved⟩
  · cases hno
  · rw [moved.bytesAt?_write_of_ne _ hown]
    rcases hmoved with ⟨hno, -⟩ | ⟨old, target, hold, htarget, rfl⟩
    · exact absurd rfl (hno suffix)
    · obtain rfl := Option.some.inj (hbackup.symm.trans htarget)
      rw [if_neg hown, FileTree.bytesAt?_write_self, ← hbytes, hold]

/-- A mode with backups makes one. -/
theorem exists_backup_of_writeBack {suffix : String} (hmode : mode = .backup suffix) :
    ∃ place, mode.backup? t path = some place := by
  rcases writeBack_cases h with ⟨hno, -⟩ | ⟨-, _, -, ⟨hno, -⟩ | ⟨_, target, -, htarget, -⟩⟩
  · rw [hmode] at hno
    cases hno
  · exact absurd hmode (hno suffix)
  · exact ⟨target, htarget⟩

/-- The backup is the only file that is new. -/
theorem isFile_writeBack (hown : t.isFile own = true) (place : Place) :
    next.isFile place = (mode.backup? t path == some place || t.isFile place) := by
  rcases writeBack_cases h with ⟨hno, rfl⟩ | ⟨hwrites, -⟩
  · simp [Mode.backup?_eq_none_of_writes hno]
  · by_cases heq : place = own
    · rw [heq, hown, Bool.or_true, FileTree.isFile, bytesAt?_writeBack_own h hwrites]
      rfl
    · by_cases hbackup : mode.backup? t path = some place
      · obtain ⟨bytes, hbytes⟩ := Option.isSome_iff_exists.1 hown
        rw [FileTree.isFile, bytesAt?_writeBack_backup h hbytes hbackup heq, hbackup]
        simp
      · rw [FileTree.isFile_congr (bytesAt?_writeBack_of_ne h heq hbackup)]
        simp [hbackup]

/-- No directory is made. -/
theorem extends_writeBack (hown : t.isFile own = true) : t.Extends next := by
  have hfile := isFile_writeBack h hown
  cases hbackup : mode.backup? t path with
  | none =>
      refine FileTree.SameFiles.extends ⟨sameGround_writeBack h, fun place => ?_⟩
      rw [hfile, hbackup]
      simp
  | some target =>
      obtain ⟨dir, hdir, name, rfl⟩ := Mode.exists_dir_of_backup? hbackup
      refine FileTree.extends_of_isFile (sameGround_writeBack h) hdir name fun place => ?_
      rw [hfile, hbackup, Option.some_beq_some, BEq.comm]

end

/-! ### Fixing one file -/

theorem IsAttempt.isFile (h : IsAttempt sets t path a) : t.isFile a.place = true :=
  FileTree.isFile_of_bytesAt? (FileTree.open?_eq_ok_iff.1 h.open?_eq).2

section

variable (h : IsAttempt sets t path a)

include h

theorem IsAttempt.fixFile_of_unchanged (hchanged : a.outcome.changed = false) (mode : Mode) :
    fixFile sets mode t path = (.unchanged, t) := by
  simp only [fixFile, h.open?_eq, h.decode_eq, h.applySets_eq, hchanged, Bool.false_eq_true,
    if_false]

theorem IsAttempt.fixFile_of_ok (hchanged : a.outcome.changed = true)
    (hwrite : writeBack mode t path a.place a.outcome.document.render = .ok next) :
    fixFile sets mode t path = (.changed a.outcome.applied
      (diffFor mode path a.text a.outcome.document.render), next) := by
  simp only [fixFile, h.open?_eq, h.decode_eq, h.applySets_eq, hchanged, if_true, hwrite]

theorem IsAttempt.fixFile_of_error (hchanged : a.outcome.changed = true)
    {cause : FileTree.Failure}
    (hwrite : writeBack mode t path a.place a.outcome.document.render = .error cause) :
    fixFile sets mode t path = (.failed (.write cause), t) := by
  simp only [fixFile, h.open?_eq, h.decode_eq, h.applySets_eq, hchanged, if_true, hwrite]

end

theorem fixFile_of_forall_not (h : ∀ a, ¬ IsAttempt sets t path a) (mode : Mode) :
    ∃ cause, fixFile sets mode t path = (.failed cause, t) := by
  rw [fixFile]
  split
  · exact ⟨_, rfl⟩
  · next place bytes hopen =>
      split
      · exact ⟨_, rfl⟩
      · next text hdecode =>
          split
          · exact ⟨_, rfl⟩
          · next outcome happly =>
              exact absurd ⟨hopen, hdecode, happly⟩ (h ⟨place, bytes, text, outcome⟩)

/-- A file is changed as the attempt says, or nothing happens to it. -/
theorem fixFile_cases (sets : List RuleSet) (mode : Mode) (t : FileTree) (path : String) :
    (∃ a next, IsAttempt sets t path a ∧ a.outcome.changed = true ∧
      writeBack mode t path a.place a.outcome.document.render = .ok next ∧
      fixFile sets mode t path = (.changed a.outcome.applied
        (diffFor mode path a.text a.outcome.document.render), next)) ∨
    (fixFile sets mode t path).1.isChanged = false ∧ (fixFile sets mode t path).2 = t := by
  by_cases hattempt : ∃ a, IsAttempt sets t path a
  · obtain ⟨a, ha⟩ := hattempt
    cases hchanged : a.outcome.changed with
    | false =>
        rw [ha.fixFile_of_unchanged hchanged]
        exact Or.inr ⟨rfl, rfl⟩
    | true =>
        cases hwrite : writeBack mode t path a.place a.outcome.document.render with
        | error cause =>
            rw [ha.fixFile_of_error hchanged hwrite]
            exact Or.inr ⟨rfl, rfl⟩
        | ok next => exact Or.inl ⟨a, next, ha, hchanged, hwrite, ha.fixFile_of_ok hchanged hwrite⟩
  · obtain ⟨cause, hfail⟩ := fixFile_of_forall_not (not_exists.1 hattempt) mode
    rw [hfail]
    exact Or.inr ⟨rfl, rfl⟩

/-- A file that needs fixing is changed unless there is no place for its backup. -/
theorem IsAttempt.isChanged_fixFile (h : IsAttempt sets t path a)
    (hchanged : a.outcome.changed = true)
    (hbackup : ∀ suffix, mode = .backup suffix → (mode.backup? t path).isSome = true) :
    (fixFile sets mode t path).1.isChanged = true := by
  obtain ⟨next, hnext⟩ := exists_writeBack (FileTree.open?_eq_ok_iff.1 h.open?_eq).2 hbackup
    a.outcome.document.render
  rw [h.fixFile_of_ok hchanged hnext]
  rfl

/-- In a mode without backups exactly the files that need fixing are changed. -/
theorem isChanged_fixFile_iff (hmode : ∀ suffix, mode ≠ .backup suffix) :
    (fixFile sets mode t path).1.isChanged = true ↔
      ∃ a, IsAttempt sets t path a ∧ a.outcome.changed = true := by
  constructor
  · intro h
    rcases fixFile_cases sets mode t path with ⟨a, _, ha, hchanged, -⟩ | ⟨hno, -⟩
    · exact ⟨a, ha, hchanged⟩
    · rw [h] at hno
      cases hno
  · rintro ⟨a, ha, hchanged⟩
    exact ha.isChanged_fixFile hchanged fun suffix h => absurd h (hmode suffix)

theorem needsFix_iff :
    needsFix sets t path = true ↔ ∃ a, IsAttempt sets t path a ∧ a.outcome.changed = true :=
  isChanged_fixFile_iff fun _ h => by cases h

theorem needsFix_eq_of_iff
    (h : ∀ a, IsAttempt sets u path a ↔ IsAttempt sets t path a) :
    needsFix sets u path = needsFix sets t path := by
  rw [Bool.eq_iff_iff, needsFix_iff, needsFix_iff]
  simp only [h]

theorem backup?_eq_some_iff : backup? sets mode t path = some place ↔
    needsFix sets t path = true ∧ mode.backup? t path = some place := by
  rw [backup?]
  split
  · next h => simp [h]
  · next h => simp [h]

/-- Fixing a file changes at most the file and its backup. -/
theorem bytesAt?_fixFile_of_ne (hown : ∀ bytes, t.open? path ≠ .ok (place, bytes))
    (hbackup : backup? sets mode t path ≠ some place) :
    (fixFile sets mode t path).2.bytesAt? place = t.bytesAt? place := by
  rcases fixFile_cases sets mode t path with ⟨a, next, ha, hchanged, hwrite, heq⟩ | ⟨-, heq⟩
  · rw [heq]
    refine bytesAt?_writeBack_of_ne hwrite ?_ fun h => ?_
    · rintro rfl
      exact hown a.bytes ha.open?_eq
    · exact hbackup (backup?_eq_some_iff.2 ⟨needsFix_iff.2 ⟨a, ha, hchanged⟩, h⟩)
  · rw [heq]

theorem isFile_of_fixFile (h : (fixFile sets mode t path).2.isFile place = true) :
    t.isFile place = true ∨ backup? sets mode t path = some place := by
  rcases fixFile_cases sets mode t path with ⟨a, next, ha, hchanged, hwrite, heq⟩ | ⟨-, heq⟩
  · rw [heq, isFile_writeBack hwrite ha.isFile, Bool.or_eq_true, beq_iff_eq] at h
    refine h.symm.imp_right fun hbackup => ?_
    exact backup?_eq_some_iff.2 ⟨needsFix_iff.2 ⟨a, ha, hchanged⟩, hbackup⟩
  · rw [heq] at h
    exact Or.inl h

theorem extends_fixFile (sets : List RuleSet) (mode : Mode) (t : FileTree) (path : String) :
    t.Extends (fixFile sets mode t path).2 := by
  rcases fixFile_cases sets mode t path with ⟨a, next, ha, -, hwrite, heq⟩ | ⟨-, heq⟩
  · rw [heq]
    exact extends_writeBack hwrite ha.isFile
  · rw [heq]
    exact FileTree.Extends.refl t

/-! ### Separate files -/

/-- No two of the paths lead to one file, no two files are moved aside to one place, and no path
names a place to which a file is moved aside. -/
structure Separate (sets : List RuleSet) (mode : Mode) (t : FileTree) (paths : List String) :
    Prop where
  apart : paths.Pairwise t.Apart
  backups : paths.Pairwise fun first second =>
    ∀ place, backup? sets mode t first = some place → backup? sets mode t second ≠ some place
  names : ∀ path ∈ paths, ∀ other ∈ paths, ∀ place,
    backup? sets mode t path = some place → t.names other place = false

instance (sets : List RuleSet) (mode : Mode) (t : FileTree) (paths : List String) :
    Decidable (Separate sets mode t paths) :=
  decidable_of_iff (paths.Pairwise t.Apart ∧
    paths.Pairwise (fun first second => ∀ place ∈ backup? sets mode t first,
      backup? sets mode t second ≠ some place) ∧
    ∀ path ∈ paths, ∀ other ∈ paths, ∀ place ∈ backup? sets mode t path,
      t.names other place = false)
    ⟨fun h => ⟨h.1, h.2.1, h.2.2⟩, fun h => ⟨h.apart, h.backups, h.names⟩⟩

/-- What a path leads to that names no backup is none. -/
theorem backup?_ne_of_locate
    (hnames : ∀ place, backup? sets mode t path = some place → t.names other place = false)
    (hlocate : t.locate other = .ok place) : backup? sets mode t path ≠ some place := by
  intro hbackup
  have hnamed := FileTree.names_of_locate hlocate
    (Mode.isDirectory_of_backup? (backup?_eq_some_iff.1 hbackup).2)
  rw [hnames place hbackup] at hnamed
  cases hnamed

/-- Fixing the file at the first path does not touch the file at the second one. -/
structure Spares (sets : List RuleSet) (mode : Mode) (t : FileTree) (path other : String) :
    Prop where
  apart : t.Apart path other
  names : ∀ place, backup? sets mode t path = some place → t.names other place = false

theorem Separate.spares {paths : List String} (h : Separate sets mode t (path :: paths))
    (hother : other ∈ paths) : Spares sets mode t path other :=
  ⟨(List.pairwise_cons.1 h.apart).1 other hother,
    h.names path List.mem_cons_self other (List.mem_cons_of_mem path hother)⟩

namespace Spares

variable (h : Spares sets mode t path other)

include h

theorem bytesAt?_fixFile (hopen : t.open? other = .ok (place, bytes)) :
    (fixFile sets mode t path).2.bytesAt? place = some bytes := by
  obtain ⟨hlocate, hbytes⟩ := FileTree.open?_eq_ok_iff.1 hopen
  rw [bytesAt?_fixFile_of_ne ?_ (backup?_ne_of_locate h.names hlocate), hbytes]
  intro bytes' hopen'
  exact h.apart.ne hopen' hlocate rfl

/-- The spared file is opened as before. -/
theorem open?_eq_ok_iff : (fixFile sets mode t path).2.open? other = .ok (place, bytes) ↔
    t.open? other = .ok (place, bytes) := by
  have hextends := extends_fixFile sets mode t path
  constructor
  · intro hopen
    obtain ⟨hlocate, hbytes⟩ := FileTree.open?_eq_ok_iff.1 hopen
    have hfile := isFile_of_fixFile (FileTree.isFile_of_bytesAt? hbytes)
    have hold : t.locate other = .ok place := by
      refine (hextends.of_locate hlocate).resolve_right ?_
      rintro ⟨hno, -, hnames⟩
      rw [hno] at hfile
      rcases hfile with hfile | hbackup
      · cases hfile
      · rw [h.names place hbackup] at hnames
        cases hnames
    obtain ⟨bytes', hbytes'⟩ := Option.isSome_iff_exists.1
      (hfile.resolve_right (backup?_ne_of_locate h.names hold))
    have hopen' := FileTree.open?_eq_ok_iff.2 ⟨hold, hbytes'⟩
    rw [h.bytesAt?_fixFile hopen'] at hbytes
    cases hbytes
    exact hopen'
  · intro hopen
    exact FileTree.open?_eq_ok_iff.2
      ⟨hextends.locate_of_ok (FileTree.open?_eq_ok_iff.1 hopen).1, h.bytesAt?_fixFile hopen⟩

theorem isAttempt_iff :
    IsAttempt sets (fixFile sets mode t path).2 other a ↔ IsAttempt sets t other a :=
  ⟨fun ha => ⟨h.open?_eq_ok_iff.1 ha.open?_eq, ha.decode_eq, ha.applySets_eq⟩,
    fun ha => ⟨h.open?_eq_ok_iff.2 ha.open?_eq, ha.decode_eq, ha.applySets_eq⟩⟩

theorem backup?_eq :
    backup? sets mode (fixFile sets mode t path).2 other = backup? sets mode t other := by
  rw [backup?, backup?, needsFix_eq_of_iff fun _ => h.isAttempt_iff,
    Mode.backup?_eq_of_extends (extends_fixFile sets mode t path)]

theorem apart_fixFile {third : String} (h' : Spares sets mode t path third)
    (hapart : t.Apart other third) : (fixFile sets mode t path).2.Apart other third := by
  intro place hother hthird
  by_contra hfile
  rw [Bool.not_eq_false] at hfile
  obtain ⟨bytes, hbytes⟩ := Option.isSome_iff_exists.1 hfile
  have hopen := h.open?_eq_ok_iff.1 (FileTree.open?_eq_ok_iff.2 ⟨hother, hbytes⟩)
  have hopen' := h'.open?_eq_ok_iff.1 (FileTree.open?_eq_ok_iff.2 ⟨hthird, hbytes⟩)
  exact hapart.ne hopen (FileTree.open?_eq_ok_iff.1 hopen').1 rfl

end Spares

/-- The files that are still to be fixed stay separate. -/
theorem Separate.tail {paths : List String} (h : Separate sets mode t (path :: paths)) :
    Separate sets mode (fixFile sets mode t path).2 paths where
  apart := (List.pairwise_cons.1 h.apart).2.imp_of_mem fun hfirst hsecond hapart =>
    (h.spares hfirst).apart_fixFile (h.spares hsecond) hapart
  backups := by
    refine (List.pairwise_cons.1 h.backups).2.imp_of_mem fun hfirst hsecond hne => ?_
    rwa [(h.spares hfirst).backup?_eq, (h.spares hsecond).backup?_eq]
  names path' hpath other hother place hbackup := by
    rw [(h.spares hpath).backup?_eq] at hbackup
    rw [(extends_fixFile sets mode t path).names_eq]
    exact h.names path' (List.mem_cons_of_mem path hpath) other (List.mem_cons_of_mem path hother)
      place hbackup

/-! ### Fixing all files -/

theorem fst_fixFiles_cons (paths : List String) : (fixFiles sets mode t (path :: paths)).1 =
    ⟨path, (fixFile sets mode t path).1⟩ ::
      (fixFiles sets mode (fixFile sets mode t path).2 paths).1 :=
  rfl

theorem snd_fixFiles_cons (paths : List String) : (fixFiles sets mode t (path :: paths)).2 =
    (fixFiles sets mode (fixFile sets mode t path).2 paths).2 :=
  rfl

theorem extends_fixFiles (sets : List RuleSet) (mode : Mode) (t : FileTree) (paths : List String) :
    t.Extends (fixFiles sets mode t paths).2 := by
  induction paths generalizing t with
  | nil => exact FileTree.Extends.refl t
  | cons path rest ih => exact (extends_fixFile sets mode t path).trans (ih _)

theorem map_path_fixFiles (sets : List RuleSet) (mode : Mode) (t : FileTree)
    (paths : List String) : (fixFiles sets mode t paths).1.map FileReport.path = paths := by
  induction paths generalizing t with
  | nil => rfl
  | cons path rest ih => exact congrArg (path :: ·) (ih _)

/-- No path of the batch leads to the place, and no file of it is moved aside to it. -/
structure Untouched (sets : List RuleSet) (mode : Mode) (t : FileTree) (paths : List String)
    (place : Place) : Prop where
  own : ∀ path ∈ paths, ∀ bytes, t.open? path ≠ .ok (place, bytes)
  backup : ∀ path ∈ paths, backup? sets mode t path ≠ some place

theorem Untouched.tail {paths : List String} (hplace : Untouched sets mode t paths place)
    (h : Separate sets mode t (path :: paths)) :
    Untouched sets mode (fixFile sets mode t path).2 paths place where
  own other hother bytes hopen :=
    hplace.own other hother bytes ((h.spares hother).open?_eq_ok_iff.1 hopen)
  backup other hother := by
    rw [(h.spares hother).backup?_eq]
    exact hplace.backup other hother

/-- A batch of separate files changes at most the files and their backups. -/
theorem bytesAt?_fixFiles {paths : List String} (h : Separate sets mode t paths)
    (hplace : Untouched sets mode t paths place) :
    (fixFiles sets mode t paths).2.bytesAt? place = t.bytesAt? place := by
  induction paths generalizing t with
  | nil => rfl
  | cons path rest ih =>
      have hrest : Untouched sets mode t rest place :=
        ⟨fun other hother => hplace.own other (List.mem_cons_of_mem path hother),
          fun other hother => hplace.backup other (List.mem_cons_of_mem path hother)⟩
      rw [snd_fixFiles_cons, ih h.tail (hrest.tail h)]
      exact bytesAt?_fixFile_of_ne (hplace.own path List.mem_cons_self)
        (hplace.backup path List.mem_cons_self)

/-- What the report on a file says holds of the file after the batch. -/
structure Settled (sets : List RuleSet) (mode : Mode) (t last : FileTree) (r : FileReport) :
    Prop where
  isChanged : ∀ a, IsAttempt sets t r.path a → a.outcome.changed = true →
    (∀ suffix, mode = .backup suffix → (mode.backup? t r.path).isSome = true) →
      r.result.isChanged = true
  fixed : r.result.isChanged = true → ∃ a, IsAttempt sets t r.path a ∧
    a.outcome.changed = true ∧
    r.result = .changed a.outcome.applied
      (diffFor mode r.path a.text a.outcome.document.render) ∧
    last.open? r.path = .ok (a.place, a.fixed) ∧
    ∀ suffix, mode = .backup suffix → ∃ place,
      backup? sets mode t r.path = some place ∧ last.bytesAt? place = some a.bytes
  kept : r.result.isChanged = false → ∀ {place bytes}, t.open? r.path = .ok (place, bytes) →
    last.open? r.path = .ok (place, bytes)

namespace Settled

variable {last : FileTree} {r : FileReport}

theorem of_fixFile (hwrites : mode.writes = true)
    (hnames : ∀ place, backup? sets mode t path = some place → t.names path place = false) :
    Settled sets mode t (fixFile sets mode t path).2 ⟨path, (fixFile sets mode t path).1⟩ where
  isChanged _ ha hchanged hbackup := ha.isChanged_fixFile hchanged hbackup
  fixed hresult := by
    rcases fixFile_cases sets mode t path with ⟨a, next, ha, hchanged, hwrite, heq⟩ | ⟨hno, -⟩
    · rw [heq]
      obtain ⟨hlocate, hbytes⟩ := FileTree.open?_eq_ok_iff.1 ha.open?_eq
      have hlocate' := (extends_writeBack hwrite ha.isFile).locate_of_ok hlocate
      refine ⟨a, ha, hchanged, rfl, ?_, fun suffix hmode => ?_⟩
      · exact FileTree.open?_eq_ok_iff.2 ⟨hlocate', bytesAt?_writeBack_own hwrite hwrites⟩
      · obtain ⟨place, hplace⟩ := exists_backup_of_writeBack hwrite hmode
        have hbackup := backup?_eq_some_iff.2 ⟨needsFix_iff.2 ⟨a, ha, hchanged⟩, hplace⟩
        refine ⟨place, hbackup, bytesAt?_writeBack_backup hwrite hbytes hplace ?_⟩
        rintro rfl
        exact backup?_ne_of_locate hnames hlocate hbackup
    · rw [hno] at hresult
      cases hresult
  kept hresult _ _ hopen := by
    rcases fixFile_cases sets mode t path with ⟨a, next, -, -, -, heq⟩ | ⟨-, heq⟩
    · rw [heq] at hresult
      cases hresult
    · rw [heq]
      exact hopen

/-- The report stays true while the file and its backup are left alone. -/
theorem of_extends (h : Settled sets mode t u r) (hextends : u.Extends last)
    (hown : ∀ {place bytes}, t.open? r.path = .ok (place, bytes) →
      last.bytesAt? place = u.bytesAt? place)
    (hbackup : ∀ {place}, backup? sets mode t r.path = some place →
      last.bytesAt? place = u.bytesAt? place) : Settled sets mode t last r where
  isChanged := h.isChanged
  fixed hchanged := by
    obtain ⟨a, ha, houtcome, hresult, hopen, hbacked⟩ := h.fixed hchanged
    obtain ⟨hlocate, hbytes⟩ := FileTree.open?_eq_ok_iff.1 hopen
    refine ⟨a, ha, houtcome, hresult, ?_, fun suffix hmode => ?_⟩
    · exact FileTree.open?_eq_ok_iff.2
        ⟨hextends.locate_of_ok hlocate, by rw [hown ha.open?_eq, hbytes]⟩
    · obtain ⟨place, hplace, hkept⟩ := hbacked suffix hmode
      exact ⟨place, hplace, by rw [hbackup hplace, hkept]⟩
  kept hno _ _ hopen := by
    obtain ⟨hlocate, hbytes⟩ := FileTree.open?_eq_ok_iff.1 (h.kept hno hopen)
    exact FileTree.open?_eq_ok_iff.2 ⟨hextends.locate_of_ok hlocate, by rw [hown hopen, hbytes]⟩

/-- What holds after a file is fixed held before of a file that is spared. -/
theorem of_spares (hspares : Spares sets mode t path r.path)
    (h : Settled sets mode (fixFile sets mode t path).2 last r) : Settled sets mode t last r where
  isChanged a ha hchanged hbackup := by
    refine h.isChanged a (hspares.isAttempt_iff.2 ha) hchanged fun suffix hmode => ?_
    rw [Mode.backup?_eq_of_extends (extends_fixFile sets mode t path)]
    exact hbackup suffix hmode
  fixed hchanged := by
    obtain ⟨a, ha, houtcome, hresult, hopen, hbacked⟩ := h.fixed hchanged
    refine ⟨a, hspares.isAttempt_iff.1 ha, houtcome, hresult, hopen, fun suffix hmode => ?_⟩
    rw [← hspares.backup?_eq]
    exact hbacked suffix hmode
  kept hno _ _ hopen := h.kept hno (hspares.open?_eq_ok_iff.2 hopen)

end Settled

/-- The reports on a batch of separate files are true after the batch, whatever came before. The
induction is on the batch: the first file is left alone by the others, and they by the first. -/
theorem settled_fixFiles (hwrites : mode.writes = true) {paths : List String}
    (h : Separate sets mode t paths) {r : FileReport} (hr : r ∈ (fixFiles sets mode t paths).1) :
    Settled sets mode t (fixFiles sets mode t paths).2 r := by
  induction paths generalizing t with
  | nil => cases hr
  | cons path rest ih =>
      rcases List.mem_cons.1 hr with rfl | hrest
      · have hself := h.names path List.mem_cons_self path List.mem_cons_self
        refine (Settled.of_fixFile hwrites hself).of_extends (extends_fixFiles _ _ _ _)
          (fun {place _} hopen => ?_) fun {place} hbackup => ?_
        · have hlocate := (FileTree.open?_eq_ok_iff.1 hopen).1
          have hplace : Untouched sets mode t rest place := by
            refine ⟨fun other hother _ hopen' => ?_, fun other hother => ?_⟩
            · exact (h.spares hother).apart.ne hopen (FileTree.open?_eq_ok_iff.1 hopen').1 rfl
            · exact backup?_ne_of_locate (h.names other (List.mem_cons_of_mem path hother) path
                List.mem_cons_self) hlocate
          exact bytesAt?_fixFiles h.tail (hplace.tail h)
        · have hplace : Untouched sets mode t rest place := by
            refine ⟨fun other hother _ hopen => ?_, fun other hother => ?_⟩
            · exact backup?_ne_of_locate (h.spares hother).names
                (FileTree.open?_eq_ok_iff.1 hopen).1 hbackup
            · exact (List.pairwise_cons.1 h.backups).1 other hother place hbackup
          exact bytesAt?_fixFiles h.tail (hplace.tail h)
      · have hpath : r.path ∈ rest := by
          rw [← map_path_fixFiles sets mode (fixFile sets mode t path).2 rest]
          exact List.mem_map_of_mem hrest
        exact (ih h.tail hrest).of_spares (h.spares hpath)

end Batch

end TaskTidy
