import TaskTidy.Proofs.RoundTrip
import TaskTidy.Proofs.RunEffects

/-!
# Backups

A run with backups keeps the bytes of every file that it changes, whatever the order of the files,
as long as no file is moved to where a path of the run leads. A path that names the backup of
another file finds that backup, fixes it and moves it on.
-/

namespace TaskTidy

namespace Text

theorem joinWith_append_sep (sep : List Char) {parts : List (List Char)} (h : parts ≠ []) :
    joinWith sep parts ++ sep = endEach sep parts := by
  obtain ⟨above, last, rfl⟩ := (List.eq_nil_or_concat' parts).resolve_left h
  simp [joinWith_append_singleton, endEach]

end Text

namespace Path

variable {path : String} {above : List (List Char)} {name : List Char}

/-- The suffix goes to the last piece, and the directory is written without its trailing pieces. -/
theorem toList_withSuffix (h : trimPieces (Text.pieces '/' path.toList) = above ++ [name])
    (suffix : String) : (withSuffix path suffix).toList =
      Text.endEach ['/'] (trimPieces above) ++ (name ++ suffix.toList) := by
  rw [withSuffix, h, List.reverse_append, List.reverse_singleton, List.singleton_append]
  cases above with
  | nil => simp [trimPieces, Text.endEach]
  | cons first rest =>
      obtain ⟨last, more, hdirectory⟩ :=
        List.exists_cons_of_ne_nil (mt List.reverse_eq_nil_iff.1 (List.cons_ne_nil first rest))
      have hne : trimPieces (first :: rest) ≠ [] := List.cons_ne_nil _ _
      rw [hdirectory]
      dsimp only
      rw [← hdirectory, List.reverse_reverse, ← Text.joinWith_append_sep ['/'] hne]
      simp

theorem trimPieces_concat (hne : name ≠ []) (hdot : name ≠ ['.']) :
    trimPieces (above ++ [name]) = above ++ [name] := by
  cases above with
  | nil => rfl
  | cons first rest => simp [trimPieces, hne, hdot]

theorem mem_of_mem_trimPieces {piece : List Char} (h : piece ∈ trimPieces above) :
    piece ∈ above := by
  cases above with
  | nil => exact h
  | cons first rest =>
      rcases List.mem_cons.1 h with rfl | hrest
      · exact List.mem_cons_self
      · have hsuffix := List.dropWhile_suffix (l := rest.reverse)
          fun piece => piece.isEmpty || piece == ['.']
        exact List.mem_cons_of_mem first
          (List.mem_reverse.1 (hsuffix.subset (List.mem_reverse.1 hrest)))

/-- A path keeps its start when its file name gets a suffix. -/
theorem head?_withSuffix (hpieces : Text.pieces '/' path.toList = above ++ [name])
    (hname : FileTree.IsName name) (suffix : String) :
    (withSuffix path suffix).toList.head? = path.toList.head? := by
  have hpath : path.toList = Text.endEach ['/'] above ++ name := by
    rw [← Text.joinWith_append_singleton, ← hpieces, Text.joinWith_pieces]
  rw [toList_withSuffix (by rw [hpieces, trimPieces_concat hname.1 hname.2.1]), hpath]
  cases above with
  | nil =>
      obtain ⟨c, cs, rfl⟩ := List.exists_cons_of_ne_nil hname.1
      rfl
  | cons first rest => cases first <;> rfl

end Path

namespace FileTree

variable {t : FileTree} {path suffix : String} {place backup : Place}

/-- The backup of a file is looked for where the file is. -/
theorem origin_withSuffix (hlocate : t.locate path = .ok place)
    (hplace : t.isDirectory place = false) :
    t.origin (Path.withSuffix path suffix) = t.origin path := by
  obtain ⟨above, name, _, hpieces, _, _, hname, _⟩ := exists_name_of_locate hlocate hplace
  rw [origin, origin, Path.head?_withSuffix hpieces hname]

/-- The backup of a file lies beside it, under its name with the suffix. -/
theorem exists_name_of_backup (hplain : '/' ∉ suffix.toList) (hlocate : t.locate path = .ok place)
    (hplace : t.isDirectory place = false)
    (hbackup : t.target (Path.withSuffix path suffix) = .ok backup) :
    ∃ dir name, place = dir ++ [name] ∧ backup = dir ++ [name ++ suffix] := by
  obtain ⟨above, name, dir, hpieces, habove, -, hname, rfl⟩ := exists_name_of_locate hlocate hplace
  obtain ⟨-, -, hnames, -⟩ := target_eq_ok_iff.1 hbackup
  obtain ⟨dir', hwalk, -, rfl⟩ := names_iff.1 hnames
  have hfree : ∀ piece ∈ above ++ [name], '/' ∉ piece := by
    rw [← hpieces]
    exact fun piece => Text.not_mem_of_mem_pieces
  have hcut : Text.pieces '/' (Path.withSuffix path suffix).toList =
      Path.trimPieces above ++ [name ++ suffix.toList] := by
    rw [Path.toList_withSuffix (by rw [hpieces, Path.trimPieces_concat hname.1 hname.2.1])]
    refine Text.pieces_endEach_append (fun piece hpiece => hfree piece ?_) ?_
    · exact List.mem_append_left [name] (Path.mem_of_mem_trimPieces hpiece)
    · rw [List.mem_append, not_or]
      exact ⟨hfree name (by simp), hplain⟩
  rw [hcut, List.dropLast_concat, origin_withSuffix hlocate hplace, walk_trimPieces habove] at hwalk
  obtain rfl := Except.ok.inj hwalk
  refine ⟨dir, String.ofList name, rfl, ?_⟩
  rw [hcut, List.getLast?_concat, Option.getD_some]
  simp

end FileTree

namespace Batch

/-- Every file that needs fixing and has a place for its backup is reported changed. Every file that
is reported changed holds its fixed text and, under its name with the suffix, what it held before.
The other files hold what they held before. -/
structure KeepsOriginals (sets : List RuleSet) (suffix : String) (t last : FileTree)
    (reports : List FileReport) : Prop where
  isChanged : ∀ r ∈ reports, ∀ a place, IsAttempt sets t r.path a → a.outcome.changed = true →
    t.target (Path.withSuffix r.path suffix) = .ok place → r.result.isChanged = true
  changed : ∀ r ∈ reports, r.result.isChanged = true → ∃ a, IsAttempt sets t r.path a ∧
    r.result = .changed a.outcome.applied none ∧ last.open? r.path = .ok (a.place, a.fixed) ∧
    ∃ place, last.open? (Path.withSuffix r.path suffix) = .ok (place, a.bytes)
  kept : ∀ r ∈ reports, r.result.isChanged = false → ∀ {place bytes},
    t.open? r.path = .ok (place, bytes) → last.open? r.path = .ok (place, bytes)

variable {sets : List RuleSet} {suffix : String} {t : FileTree} {paths order : List String}

/-- The backup of a file is opened under its name. -/
theorem open?_withSuffix {u : FileTree} {path : String} {backup : Place} {bytes : List UInt8}
    (hextends : t.Extends u) (hbackup : (Mode.backup suffix).backup? t path = some backup)
    (hbytes : u.bytesAt? backup = some bytes) :
    u.open? (Path.withSuffix path suffix) = .ok (backup, bytes) := by
  have htarget := hextends.target_eq_ok_iff.2 (FileTree.toOption_eq_some_iff.1 hbackup)
  have hfile := FileTree.isFile_of_bytesAt? hbytes
  exact FileTree.open?_eq_ok_iff.2 ⟨FileTree.locate_of_target htarget hfile, hbytes⟩

theorem keepsOriginals_fixFiles (h : Separate sets (.backup suffix) t paths) :
    KeepsOriginals sets suffix t (fixFiles sets (.backup suffix) t paths).2
      (fixFiles sets (.backup suffix) t paths).1 where
  isChanged r hr a place ha hchanged htarget := by
    refine (settled_fixFiles rfl h hr).isChanged a ha hchanged fun suffix' hmode => ?_
    obtain rfl := Mode.backup.inj hmode
    exact Option.isSome_iff_exists.2 ⟨place, FileTree.toOption_eq_some_iff.2 htarget⟩
  changed r hr hchanged := by
    obtain ⟨a, ha, -, hresult, hopen, hbacked⟩ := (settled_fixFiles rfl h hr).fixed hchanged
    obtain ⟨backup, hbackup, hbytes⟩ := hbacked suffix rfl
    exact ⟨a, ha, hresult, hopen, backup, open?_withSuffix (extends_fixFiles _ _ _ _)
      (backup?_eq_some_iff.1 hbackup).2 hbytes⟩
  kept r hr hno _ _ hopen := (settled_fixFiles rfl h hr).kept hno hopen

/-- Under a suffix without a slash different files get different backups, so only the paths of the
batch can get in the way. -/
theorem separate_of_plain_suffix (hplain : '/' ∉ suffix.toList)
    (htree : ∀ place, t.isFile place = true → t.isDirectory place = false)
    (hapart : paths.Pairwise t.Apart)
    (hnames : ∀ path ∈ paths, ∀ other ∈ paths, ∀ place,
      backup? sets (.backup suffix) t path = some place → t.names other place = false) :
    Separate sets (.backup suffix) t paths where
  apart := hapart
  names := hnames
  backups := hapart.imp fun hapart backup hfirst hsecond => by
    obtain ⟨hneeds, htarget⟩ := backup?_eq_some_iff.1 hfirst
    obtain ⟨hneeds', htarget'⟩ := backup?_eq_some_iff.1 hsecond
    obtain ⟨a, ha, -⟩ := needsFix_iff.1 hneeds
    obtain ⟨a', ha', -⟩ := needsFix_iff.1 hneeds'
    have hlocate := (FileTree.open?_eq_ok_iff.1 ha.open?_eq).1
    have hlocate' := (FileTree.open?_eq_ok_iff.1 ha'.open?_eq).1
    obtain ⟨dir, name, hown, rfl⟩ := FileTree.exists_name_of_backup hplain hlocate
      (htree _ ha.isFile) (FileTree.toOption_eq_some_iff.1 htarget)
    obtain ⟨dir', name', hown', heq⟩ := FileTree.exists_name_of_backup hplain hlocate'
      (htree _ ha'.isFile) (FileTree.toOption_eq_some_iff.1 htarget')
    obtain ⟨rfl, hsame⟩ := List.append_inj' heq rfl
    obtain rfl := (String.append_left_inj suffix).1 (List.singleton_injective hsame)
    exact hapart.ne ha.open?_eq hlocate' (hown'.trans hown.symm)

/-- Being separate does not depend on the order. -/
theorem Separate.perm {mode : Mode} (h : Separate sets mode t paths) (horder : order.Perm paths) :
    Separate sets mode t order where
  apart := (horder.pairwise_iff fun hfirst => FileTree.Apart.symm hfirst).2 h.apart
  backups := (horder.pairwise_iff fun hne place hsecond hfirst => hne place hfirst hsecond).2
    h.backups
  names path hpath other hother :=
    h.names path (horder.mem_iff.1 hpath) other (horder.mem_iff.1 hother)

end Batch

namespace CommandLine

/-- A run with backups keeps every original if its workers start and its files are separate. -/
theorem run_keepsOriginals {h : Host} {t : FileTree} {arguments : List String} {o : Options}
    {s : Settings} {sets : List RuleSet} {suffix : String} (hread : read arguments = .ok o)
    (hlist : o.has .listRules = false) (hsettings : settings h o t = .ok s)
    (hsets : (Registry.builtin s.rules.options).resolve s.rules.enabled = .ok sets)
    (hjobs : h.jobsFailure? s.jobs = none) (hmode : modeOf o s.write = .backup suffix)
    (hseparate : Batch.Separate sets (.backup suffix) t (inputs h o s t)) :
    (run h t arguments).tree = (Batch.fixFiles sets (.backup suffix) t (inputs h o s t)).2 ∧
    ∀ order, order.Perm (inputs h o s t) →
      (Batch.fixFiles sets (.backup suffix) t order).1.map FileReport.path = order ∧
      Batch.KeepsOriginals sets suffix t (Batch.fixFiles sets (.backup suffix) t order).2
        (Batch.fixFiles sets (.backup suffix) t order).1 := by
  refine ⟨?_, fun order horder => ⟨?_, ?_⟩⟩
  · rw [run_eq hread hlist hsettings hsets, fixAll_of_jobs hjobs, ← hmode]
  · exact Batch.map_path_fixFiles sets _ t order
  · exact Batch.keepsOriginals_fixFiles (hseparate.perm horder)

/-- The run of one rule set over two files, of which one needs fixing and is written from the root.
-/
theorem run_keepsOriginals_two_files :
    let t : FileTree :=
      { files := [(["work", "a.yml"], Text.Utf8.encode "- become: yes\n".toList),
          (["work", "b.yml"], Text.Utf8.encode "- become: true\n".toList)]
        start := ["work"] }
    let arguments := ["--backup", "--rules", "truthy", "/work/a.yml", "b.yml"]
    ∃ o s sets, read arguments = .ok o ∧ o.has .listRules = false ∧
      settings .standard o t = .ok s ∧
      (Registry.builtin s.rules.options).resolve s.rules.enabled = .ok sets ∧
      Host.standard.jobsFailure? s.jobs = none ∧ modeOf o s.write = .backup ".bak" ∧
      Batch.Separate sets (.backup ".bak") t (inputs .standard o s t) ∧
      ∀ order, order.Perm (inputs .standard o s t) →
        Batch.KeepsOriginals sets ".bak" t (Batch.fixFiles sets (.backup ".bak") t order).2
          (Batch.fixFiles sets (.backup ".bak") t order).1 := by
  intro t arguments
  let o : Options := ⟨["/work/a.yml", "b.yml"], [.backup], some ["truthy"], none, none, none⟩
  let s : Settings := ⟨⟨["yml", "yaml"], [".git", "temp", ".cache", "__pycache__"], false⟩,
    ⟨true, ".bak"⟩, ⟨["truthy"], 160, "'0644'", "'0755'"⟩, 0⟩
  have hread : read arguments = .ok o := by decide +kernel
  have hsettings : settings .standard o t = .ok s := by decide +kernel
  have hsets : (Registry.builtin s.rules.options).resolve s.rules.enabled =
      .ok [RuleSets.truthy] := rfl
  have hinputs : inputs .standard o s t = ["/work/a.yml", "b.yml"] := by
    rw [inputs_eq_of_pairwise (List.cons_ne_nil _ _) (by decide +kernel)]
    decide +kernel
  have hseparate : Batch.Separate [RuleSets.truthy] (.backup ".bak") t
      (inputs .standard o s t) := by
    rw [hinputs]
    decide +kernel
  obtain ⟨-, hkeeps⟩ := run_keepsOriginals hread rfl hsettings hsets rfl rfl hseparate
  exact ⟨o, s, [RuleSets.truthy], hread, rfl, hsettings, hsets, rfl, rfl, hseparate,
    fun order horder => (hkeeps order horder).2⟩

/-- A path that names the backup of the file before it takes that backup for a file of its own. The
backup is fixed, and what the first file held is moved on to a third place. -/
theorem not_run_keepsOriginals :
    let t : FileTree := { files := [(["a.yml"],
      Text.Utf8.encode "- name: x\n  become: yes\n".toList)] }
    let arguments := ["--backup", "--jobs", "1", "--rules", "truthy", "a.yml", "a.yml.bak"]
    ∃ o s, read arguments = .ok o ∧ o.has .listRules = false ∧
      settings .standard o t = .ok s ∧
      (Registry.builtin s.rules.options).resolve s.rules.enabled = .ok [RuleSets.truthy] ∧
      Host.standard.jobsFailure? s.jobs = none ∧ modeOf o s.write = .backup ".bak" ∧
      ¬ Batch.KeepsOriginals [RuleSets.truthy] ".bak" t (run .standard t arguments).tree
        (Batch.fixFiles [RuleSets.truthy] (.backup ".bak") t (inputs .standard o s t)).1 := by
  intro t arguments
  let o : Options := ⟨["a.yml", "a.yml.bak"], [.backup], some ["truthy"], none, none, some 1⟩
  let s : Settings := ⟨⟨["yml", "yaml"], [".git", "temp", ".cache", "__pycache__"], false⟩,
    ⟨true, ".bak"⟩, ⟨["truthy"], 160, "'0644'", "'0755'"⟩, 1⟩
  have hread : read arguments = .ok o := by decide +kernel
  have hsettings : settings .standard o t = .ok s := by decide +kernel
  have hsets : (Registry.builtin s.rules.options).resolve s.rules.enabled =
      .ok [RuleSets.truthy] := rfl
  have hinputs : inputs .standard o s t = ["a.yml", "a.yml.bak"] := by
    rw [inputs_eq_of_pairwise (List.cons_ne_nil _ _) (by decide +kernel)]
    decide +kernel
  have hrun : (run .standard t arguments).tree =
      (Batch.fixFiles [RuleSets.truthy] (.backup ".bak") t (inputs .standard o s t)).2 := by
    rw [run_eq hread rfl hsettings hsets, fixAll_of_jobs rfl]
    rfl
  refine ⟨o, s, hread, rfl, hsettings, hsets, rfl, rfl, fun hkeeps => ?_⟩
  rw [hrun, hinputs] at hkeeps
  have hreport : (⟨"a.yml", .changed [⟨"truthy", "truthy-value", 2⟩] none⟩ : FileReport) ∈
      (Batch.fixFiles [RuleSets.truthy] (.backup ".bak") t ["a.yml", "a.yml.bak"]).1 := by
    decide +kernel
  obtain ⟨a, ha, -, -, place, hbackup⟩ := hkeeps.changed _ hreport rfl
  have hbefore : t.open? "a.yml" =
      .ok (["a.yml"], Text.Utf8.encode "- name: x\n  become: yes\n".toList) := by
    decide +kernel
  have hafter : (Batch.fixFiles [RuleSets.truthy] (.backup ".bak") t
      ["a.yml", "a.yml.bak"]).2.open? (Path.withSuffix "a.yml" ".bak") =
        .ok (["a.yml.bak"], Text.Utf8.encode "- name: x\n  become: true\n".toList) := by
    decide +kernel
  have hold := (Prod.mk.inj (Except.ok.inj (hbefore.symm.trans ha.open?_eq))).2
  have hnew := (Prod.mk.inj (Except.ok.inj (hafter.symm.trans hbackup))).2
  exact absurd (hold.trans hnew.symm) (by decide +kernel)

end CommandLine

end TaskTidy
