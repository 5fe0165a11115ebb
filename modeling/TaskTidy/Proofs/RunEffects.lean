import TaskTidy.CommandLine.Run
import TaskTidy.Proofs.Summaries

/-!
# What a run does to a file tree

A run that shows changes leaves the tree as it is. A run that replaces files writes the fixed texts
of the files that need fixing and nothing else, and the reports, the counts and the exit code agree
with that.
-/

namespace TaskTidy

namespace Summary

theorem errored_ofReports_pos (reports : List FileReport) :
    0 < (ofReports reports).errored ↔ ∃ r ∈ reports, r.result.isFailed = true := by
  rw [ofReports_eq, List.countP_pos_iff]

theorem changed_ofReports_pos (reports : List FileReport) :
    0 < (ofReports reports).changed ↔ ∃ r ∈ reports, r.result.isChanged = true := by
  rw [ofReports_eq, List.countP_pos_iff]

end Summary

namespace Batch

variable {sets : List RuleSet} {mode : Mode} {t u : FileTree} {path : String} {place : Place}
  {paths : List String}

/-! ### Batches that show changes -/

theorem snd_fixFile_of_writes (hmode : mode.writes = false) : (fixFile sets mode t path).2 = t := by
  rcases fixFile_cases sets mode t path with ⟨a, next, -, -, hwrite, heq⟩ | ⟨-, heq⟩
  · rw [heq]
    rcases writeBack_cases hwrite with ⟨-, hnext⟩ | ⟨hwrites, -⟩
    · exact hnext
    · rw [hmode] at hwrites
      cases hwrites
  · exact heq

theorem snd_fixFiles_of_writes (hmode : mode.writes = false) (paths : List String) :
    (fixFiles sets mode t paths).2 = t := by
  induction paths with
  | nil => rfl
  | cons path rest ih => rw [snd_fixFiles_cons, snd_fixFile_of_writes hmode, ih]

/-! ### Batches without backups -/

section

variable (hmode : ∀ suffix, mode ≠ .backup suffix)

include hmode

theorem backup?_eq_none : backup? sets mode t path = none := by
  refine Option.eq_none_iff_forall_ne_some.2 fun place h => ?_
  obtain ⟨suffix, hsuffix, -⟩ := Mode.exists_target_of_backup? (backup?_eq_some_iff.1 h).2
  exact hmode suffix hsuffix

/-- Without backups files are separate if they are different. -/
theorem separate_of_pairwise_apart (h : paths.Pairwise t.Apart) : Separate sets mode t paths where
  apart := h
  backups := h.imp fun _ place hbackup => by
    rw [backup?_eq_none hmode] at hbackup
    cases hbackup
  names _ _ _ _ _ hbackup := by
    rw [backup?_eq_none hmode] at hbackup
    cases hbackup

theorem sameFiles_fixFile : t.SameFiles (fixFile sets mode t path).2 := by
  refine ⟨(extends_fixFile sets mode t path).toSameGround, fun place => ?_⟩
  rw [Bool.eq_iff_iff]
  refine ⟨fun h => (isFile_of_fixFile h).resolve_right ?_,
    (extends_fixFile sets mode t path).isFile⟩
  rw [backup?_eq_none hmode]
  exact Option.some_ne_none place ∘ Eq.symm

theorem sameFiles_fixFiles (paths : List String) :
    t.SameFiles (fixFiles sets mode t paths).2 := by
  induction paths generalizing t with
  | nil => exact FileTree.SameFiles.refl t
  | cons path rest ih => exact (sameFiles_fixFile hmode).trans ih

/-- The result depends on the tree only through the file itself. -/
theorem fst_fixFile_congr (h : u.open? path = t.open? path) :
    (fixFile sets mode u path).1 = (fixFile sets mode t path).1 := by
  rw [fixFile, fixFile, h]
  split
  · rfl
  · split
    · rfl
    · split
      · rfl
      · split
        · cases mode with
          | check => rfl
          | diff => rfl
          | replace => rfl
          | backup suffix => exact absurd rfl (hmode suffix)
        · rfl

/-- Every file of a batch is reported as if it were alone. -/
theorem fst_fixFiles (h : paths.Pairwise t.Apart) : (fixFiles sets mode t paths).1 =
    paths.map fun path => ⟨path, (fixFile sets mode t path).1⟩ := by
  induction paths generalizing t with
  | nil => rfl
  | cons path rest ih =>
      have hsep : Separate sets mode t (path :: rest) := separate_of_pairwise_apart hmode h
      rw [fst_fixFiles_cons, List.map_cons, ih hsep.tail.apart]
      congr 1
      refine List.map_congr_left fun other hother => ?_
      congr 1
      exact fst_fixFile_congr hmode
        ((sameFiles_fixFile hmode).open?_eq (hsep.spares hother).open?_eq_ok_iff.2)

end

/-- Every report says what became of the file at its path: it is changed if the rule sets that are
meant for it come to a different text, and failed if they do not come to any. -/
def Reports (sets : List RuleSet) (t : FileTree) (reports : List FileReport) : Prop :=
  ∀ r ∈ reports,
    (r.result.isChanged = true ↔ ∃ a, IsAttempt sets t r.path a ∧ a.outcome.changed = true) ∧
      (r.result.isFailed = true ↔ ∀ a, ¬ IsAttempt sets t r.path a)

/-- The files are those that were there. Only those that are reported changed may hold something
else: the text that the rule sets that are meant for them made of what they held before. -/
structure Rewrites (sets : List RuleSet) (t last : FileTree) (reports : List FileReport) :
    Prop where
  sameFiles : t.SameFiles last
  changed : ∀ place, last.bytesAt? place ≠ t.bytesAt? place →
    ∃ r ∈ reports, r.result.isChanged = true ∧ ∃ bytes, t.open? r.path = .ok (place, bytes)
  fixed : ∀ r ∈ reports, r.result.isChanged = true → ∃ a, IsAttempt sets t r.path a ∧
    r.result = .changed a.outcome.applied none ∧ last.open? r.path = .ok (a.place, a.fixed)
  kept : ∀ r ∈ reports, r.result.isChanged = false → last.open? r.path = t.open? r.path

theorem isFailed_fixFile_iff (hmode : ∀ suffix, mode ≠ .backup suffix) :
    (fixFile sets mode t path).1.isFailed = true ↔ ∀ a, ¬ IsAttempt sets t path a := by
  constructor
  · intro h a ha
    cases hchanged : a.outcome.changed with
    | false =>
        rw [ha.fixFile_of_unchanged hchanged] at h
        cases h
    | true =>
        obtain ⟨next, hnext⟩ := exists_writeBack (FileTree.open?_eq_ok_iff.1 ha.open?_eq).2
          (fun suffix heq => absurd heq (hmode suffix)) a.outcome.document.render
        rw [ha.fixFile_of_ok hchanged hnext] at h
        cases h
  · intro h
    obtain ⟨cause, hfail⟩ := fixFile_of_forall_not h mode
    rw [hfail]
    rfl

theorem reports_fixFiles (hmode : ∀ suffix, mode ≠ .backup suffix) (h : paths.Pairwise t.Apart) :
    Reports sets t (fixFiles sets mode t paths).1 := by
  intro r hr
  rw [fst_fixFiles hmode h] at hr
  obtain ⟨path, _, rfl⟩ := List.mem_map.1 hr
  exact ⟨isChanged_fixFile_iff hmode, isFailed_fixFile_iff hmode⟩

/-- Replacing files rewrites those that need fixing. -/
theorem rewrites_fixFiles (hreplace : mode = .replace) (h : paths.Pairwise t.Apart) :
    Rewrites sets t (fixFiles sets mode t paths).2 (fixFiles sets mode t paths).1 := by
  subst hreplace
  have hmode : ∀ suffix, Mode.replace ≠ .backup suffix := fun _ => Mode.noConfusion
  have hsep : Separate sets .replace t paths := separate_of_pairwise_apart hmode h
  have hsettled : ∀ {r}, r ∈ (fixFiles sets .replace t paths).1 →
      Settled sets .replace t (fixFiles sets .replace t paths).2 r := settled_fixFiles rfl hsep
  have hfiles : t.SameFiles (fixFiles sets .replace t paths).2 := sameFiles_fixFiles hmode paths
  have hkept : ∀ r ∈ (fixFiles sets .replace t paths).1, r.result.isChanged = false →
      (fixFiles sets .replace t paths).2.open? r.path = t.open? r.path :=
    fun r hr hno => hfiles.open?_eq ((hsettled hr).kept hno)
  refine ⟨hfiles, fun place hplace => ?_, fun r hr hchanged => ?_, hkept⟩
  · by_contra hnone
    refine hplace (bytesAt?_fixFiles hsep ⟨fun path hpath bytes hopen => ?_, fun path _ => ?_⟩)
    · rw [← map_path_fixFiles sets .replace t paths] at hpath
      obtain ⟨r, hr, rfl⟩ := List.mem_map.1 hpath
      cases hchanged : r.result.isChanged with
      | true => exact hnone ⟨r, hr, hchanged, bytes, hopen⟩
      | false =>
          have hopen' := hkept r hr hchanged
          rw [hopen] at hopen'
          refine hplace ?_
          rw [(FileTree.open?_eq_ok_iff.1 hopen').2, (FileTree.open?_eq_ok_iff.1 hopen).2]
    · rw [backup?_eq_none hmode]
      exact Option.some_ne_none place ∘ Eq.symm
  · obtain ⟨a, ha, -, hresult, hopen, -⟩ := (hsettled hr).fixed hchanged
    exact ⟨a, ha, hresult, hopen⟩

end Batch

namespace CommandLine

/-- The files of a run whose arguments are in order. -/
theorem inputs_eq_of_pairwise {h : Host} {o : Options} {s : Settings} {t : FileTree}
    (hpaths : o.paths ≠ [])
    (hsorted : (o.paths.flatMap (Discovery.expand h.walker s.discovery t)).Pairwise
      fun first second => Path.le first second = true) :
    inputs h o s t =
      Discovery.dedup (o.paths.flatMap (Discovery.expand h.walker s.discovery t)) := by
  have hsome : o.paths.isEmpty = false := by simpa using hpaths
  rw [inputs, hsome, Discovery.discover, if_neg Bool.false_ne_true,
    List.mergeSort_of_pairwise hsorted]

section

variable {h : Host} {t : FileTree} {arguments : List String} {o : Options} {s : Settings}
  {sets : List RuleSet}

theorem run_eq (hread : read arguments = .ok o) (hlist : o.has .listRules = false)
    (hsettings : settings h o t = .ok s)
    (hsets : (Registry.builtin s.rules.options).resolve s.rules.enabled = .ok sets) :
    run h t arguments = fixAll h o s sets t := by
  simp only [run, hread, runOptions, hsettings, hlist, hsets]
  rfl

/-- Without its workers a run does nothing. -/
theorem fixAll_of_jobsFailure {cause : String} (hjobs : h.jobsFailure? s.jobs = some cause) :
    fixAll h o s sets t = ⟨2, "", some (.workers cause), t⟩ := by
  rw [fixAll, hjobs]

/-- With its workers a run fixes its files and reports on them. -/
theorem fixAll_of_jobs (hjobs : h.jobsFailure? s.jobs = none) :
    let mode := modeOf o s.write
    let reports := (Batch.fixFiles sets mode t (inputs h o s t)).1
    fixAll h o s sets t =
      ⟨exitCode mode (Summary.ofReports reports),
        if o.has .json then Report.Json.text reports (Summary.ofReports reports)
        else Report.text mode.writes reports (Summary.ofReports reports),
        none, (Batch.fixFiles sets mode t (inputs h o s t)).2⟩ := by
  rw [fixAll, hjobs]

theorem exitCode_ofReports (mode : Mode) (reports : List FileReport) :
    exitCode mode (Summary.ofReports reports) =
      if (∃ r ∈ reports, r.result.isFailed = true) ∨
        (mode.writes = false ∧ ∃ r ∈ reports, r.result.isChanged = true) then 1 else 0 := by
  simp only [exitCode, Summary.errored_ofReports_pos, Summary.changed_ofReports_pos,
    Bool.not_eq_true']

end

end CommandLine

end TaskTidy
