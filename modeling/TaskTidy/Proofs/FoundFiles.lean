import TaskTidy.Proofs.Listings
import TaskTidy.Proofs.Walkers

/-!
# The files that are found

An argument that is no directory stands for itself, and a directory for the files below it. A walker
that follows its filter starts at the directory, goes down into each directory whose name is not
excluded, and meets the files there. So it finds a file exactly if no directory strictly between the
two has an excluded name. The listing of a run holds what its arguments stand for, each path once.
-/

namespace TaskTidy

namespace Text

theorem pieces_append_sep (sep : Char) (s rest : List Char) :
    pieces sep (s ++ sep :: rest) = pieces sep s ++ pieces sep rest := by
  induction s with
  | nil => simp [pieces]
  | cons c s ih =>
      rw [List.cons_append, pieces, pieces, ih]
      split
      · rfl
      · cases hs : pieces sep s with
        | nil => exact absurd hs (pieces_ne_nil sep s)
        | cons first more => rfl

/-- Pieces without the separator are found again in the text that joins them. -/
theorem pieces_intercalate {sep : Char} {parts : List (List Char)} (hne : parts ≠ [])
    (hparts : ∀ part ∈ parts, sep ∉ part) : pieces sep ([sep].intercalate parts) = parts := by
  induction parts with
  | nil => exact absurd rfl hne
  | cons part rest ih =>
      obtain ⟨hpart, hrest⟩ := List.forall_mem_cons.1 hparts
      cases rest with
      | nil =>
          rw [List.intercalate_singleton]
          exact pieces_of_not_mem hpart
      | cons next more =>
          rw [List.intercalate_cons_cons, List.append_assoc]
          calc pieces sep (part ++ sep :: [sep].intercalate (next :: more))
              = part :: pieces sep ([sep].intercalate (next :: more)) := pieces_append_cons hpart _
            _ = part :: next :: more := by rw [ih (List.cons_ne_nil next more) hrest]

end Text

namespace Discovery

open TaskTidy.Path

variable {w : Walker} {s : DiscoverySettings} {t : FileTree} {root above below : Place}
  {name argument path : String} {arguments : List String}

/-! ### The filter of a run -/

@[simp]
theorem Entry.ofPlace_concat (isDirectory : Bool) :
    Entry.ofPlace path (above ++ [name]) isDirectory =
      ⟨joinPath path (above ++ [name]), name, above.length + 1, isDirectory⟩ := by
  rw [ofPlace, List.getLast?_concat, List.length_append]
  rfl

@[simp]
theorem Entry.isDirectory_ofPlace (isDirectory : Bool) :
    (Entry.ofPlace path below isDirectory).isDirectory = isDirectory := by
  rw [ofPlace]
  split <;> rfl

theorem admits_root (path : String) : admits s (Entry.ofPlace path [] true) = true :=
  rfl

theorem admits_file : admits s (Entry.ofPlace path (above ++ [name]) false) = true := by
  simp [admits]

theorem admits_directory_iff :
    admits s (Entry.ofPlace path (above ++ [name]) true) = true ↔ name ∉ s.excludedDirectories := by
  simp [admits]

/-- No directory on the way of a walk is excluded. -/
theorem Enters.not_excluded (h : Enters (admits s) t path root below) :
    ∀ directory ∈ below, directory ∉ s.excludedDirectories := by
  induction h with
  | root => exact List.forall_mem_nil _
  | down h hthere hadmits ih =>
      intro directory hmem
      rcases List.mem_append.1 hmem with habove | hlast
      · exact ih directory habove
      · rw [List.mem_singleton.1 hlast]
        exact admits_directory_iff.1 hadmits

theorem enters_of_not_excluded (hthere : t.isDirectory (root ++ below) = true)
    (hnames : ∀ directory ∈ below, directory ∉ s.excludedDirectories) :
    Enters (admits s) t path root below := by
  induction below using List.reverseRecOn with
  | nil => exact .root
  | append_singleton above name ih =>
      apply Enters.down
      · apply ih
        · apply FileTree.isDirectory_of_prefix hthere
          rw [← List.append_assoc]
          exact List.prefix_append _ _
        · intro directory hmem
          exact hnames directory (List.mem_append_left _ hmem)
      · exact hthere
      · exact admits_directory_iff.2 (hnames name List.mem_concat_self)

/-- A walk enters the directory of a file exactly if no directory on the way is excluded. -/
theorem enters_iff_of_isFile (hfile : t.isFile (root ++ (above ++ [name])) = true) :
    Enters (admits s) t path root above ↔
      ∀ directory ∈ above, directory ∉ s.excludedDirectories := by
  constructor
  · exact Enters.not_excluded
  · exact enters_of_not_excluded (isDirectory_of_isFile hfile)

/-! ### What arguments stand for -/

/-- A path of a file that a walk of a directory argument finds. -/
def FindsBelow (s : DiscoverySettings) (t : FileTree) (argument path : String) : Prop :=
  ∃ root above name, t.locate argument = .ok root ∧ t.isDirectory root = true ∧
    t.isFile (root ++ (above ++ [name])) = true ∧ hasExtension s.extensions name = true ∧
      (∀ directory ∈ above, directory ∉ s.excludedDirectories) ∧
        path = joinPath argument (above ++ [name])

/-- The argument is the path of a directory. -/
def LeadsToDirectory (t : FileTree) (argument : String) : Prop :=
  ∃ root, t.locate argument = .ok root ∧ t.isDirectory root = true

/-- A path that an argument stands for. -/
def StandsFor (s : DiscoverySettings) (t : FileTree) (argument path : String) : Prop :=
  ¬LeadsToDirectory t argument ∧ path = argument ∨ FindsBelow s t argument path

section

variable (hw : w.FollowsFilter) (h : s.respectGitignore = false)

include hw h

/-- A walk lists the files of the wanted extensions that no excluded directory separates from its
root. -/
theorem mem_walk_iff (hlocate : t.locate argument = .ok root)
    (hroot : t.isDirectory root = true) :
    path ∈ walk w s t argument ↔ ∃ above name,
      t.isFile (root ++ (above ++ [name])) = true ∧ hasExtension s.extensions name = true ∧
        (∀ directory ∈ above, directory ∉ s.excludedDirectories) ∧
          path = joinPath argument (above ++ [name]) := by
  simp only [walk, h, List.mem_map, List.mem_filter, Bool.and_eq_true, Bool.not_eq_true',
    hw.mem_iff hlocate hroot (admits_root argument)]
  constructor
  · rintro ⟨_, ⟨hvisits, hfile, hextension⟩, rfl⟩
    cases hvisits with
    | directory =>
        rw [Entry.isDirectory_ofPlace] at hfile
        cases hfile
    | file henters hthere hadmits =>
        rw [Entry.ofPlace_concat] at hextension ⊢
        exact ⟨_, _, hthere, hextension, henters.not_excluded, rfl⟩
  · rintro ⟨above, name, hthere, hextension, hnames, rfl⟩
    refine ⟨_, ⟨.file ((enters_iff_of_isFile hthere).2 hnames) hthere admits_file, ?_⟩, ?_⟩
    · rw [Entry.ofPlace_concat]
      exact ⟨rfl, hextension⟩
    · rw [Entry.ofPlace_concat]

theorem mem_expand_iff : path ∈ expand w s t argument ↔ StandsFor s t argument path := by
  rw [expand]
  cases hlocate : t.locate argument with
  | error cause => simp [StandsFor, FindsBelow, LeadsToDirectory, hlocate]
  | ok root =>
      by_cases hdir : t.isDirectory root = true
      · simp [StandsFor, FindsBelow, LeadsToDirectory, hlocate, hdir,
          mem_walk_iff hw h hlocate hdir]
      · simp [StandsFor, FindsBelow, LeadsToDirectory, hlocate, hdir]

end

/-! ### Listings -/

theorem mem_of_mem_dedup {paths : List String} (h : path ∈ dedup paths) : path ∈ paths := by
  cases paths with
  | nil => exact h
  | cons first rest => exact (dedupFrom_sublist first rest).subset h

/-- Of every path an equal one is kept. -/
theorem exists_mem_dedupFrom {first : String} {rest : List String} (h : path ∈ first :: rest) :
    ∃ kept ∈ dedupFrom first rest, components kept = components path := by
  induction rest generalizing first path with
  | nil =>
      rw [List.mem_singleton.1 h]
      exact ⟨first, List.mem_singleton_self first, rfl⟩
  | cons next rest ih =>
      rw [dedupFrom]
      split
      · next heq =>
          rcases List.mem_cons.1 h with rfl | hrest
          · exact ih List.mem_cons_self
          · rcases List.mem_cons.1 hrest with rfl | hmore
            · obtain ⟨kept, hkept, hfirst⟩ := ih List.mem_cons_self
              exact ⟨kept, hkept, hfirst.trans heq⟩
            · exact ih (List.mem_cons_of_mem first hmore)
      · rcases List.mem_cons.1 h with rfl | hrest
        · exact ⟨path, List.mem_cons_self, rfl⟩
        · obtain ⟨kept, hkept, hpath⟩ := ih hrest
          exact ⟨kept, List.mem_cons_of_mem first hkept, hpath⟩

theorem exists_mem_dedup {paths : List String} (h : path ∈ paths) :
    ∃ kept ∈ dedup paths, components kept = components path := by
  cases paths with
  | nil => cases h
  | cons first rest => exact exists_mem_dedupFrom h

section

variable (hw : w.FollowsFilter) (h : s.respectGitignore = false)

include hw h

theorem exists_argument_of_mem_discover (hpath : path ∈ discover w s t arguments) :
    ∃ argument ∈ arguments, StandsFor s t argument path := by
  have hmem := List.mem_mergeSort.1 (mem_of_mem_dedup hpath)
  obtain ⟨argument, hargument, hexpand⟩ := List.mem_flatMap.1 hmem
  exact ⟨argument, hargument, (mem_expand_iff hw h).1 hexpand⟩

theorem exists_mem_discover (hargument : argument ∈ arguments)
    (hpath : StandsFor s t argument path) :
    ∃ listed ∈ discover w s t arguments, components listed = components path := by
  apply exists_mem_dedup
  apply List.mem_mergeSort.2
  exact List.mem_flatMap.2 ⟨argument, hargument, (mem_expand_iff hw h).2 hpath⟩

end

/-! ### Paths below an argument -/

/-- The components of a text of names. -/
theorem filterMap_component?_names
    (hnames : ∀ name ∈ below, FileTree.IsName name.toList ∧ '/' ∉ name.toList) :
    (Text.pieces '/' (['/'].intercalate (below.map String.toList))).filterMap (component? false) =
      below.map Component.name := by
  cases below with
  | nil => rfl
  | cons first rest =>
      have hparts : ∀ part ∈ (first :: rest).map String.toList, '/' ∉ part := by
        intro part hpart
        obtain ⟨name, hname, rfl⟩ := List.mem_map.1 hpart
        exact (hnames name hname).2
      have hne : (first :: rest).map String.toList ≠ [] := List.cons_ne_nil _ _
      rw [Text.pieces_intercalate hne hparts, List.filterMap_map, ← List.filterMap_eq_map]
      apply List.filterMap_congr
      intro name hname
      rw [Function.comp_apply, component?_of_isName (hnames name hname).1, String.ofList_toList]
      rfl

/-- Whether or not the argument ends with a slash, there is one slash behind it. -/
theorem exists_front (argument : String) (below : Place) : ∃ front : List Char,
    (argument.toList = front ∨ argument.toList = front ++ ['/']) ∧
      (joinPath argument below).toList =
        front ++ '/' :: ['/'].intercalate (below.map String.toList) := by
  rw [joinPath]
  by_cases hslash : argument.toList.getLast? = some '/'
  · obtain ⟨front, hfront⟩ := List.getLast?_eq_some_iff.1 hslash
    refine ⟨front, Or.inr hfront, ?_⟩
    simp [hfront, String.toList_intercalate]
  · refine ⟨argument.toList, Or.inl rfl, ?_⟩
    simp [hslash, String.toList_intercalate]

/-- An entry below an argument has the components of the argument and then its own names. -/
theorem components_joinPath {argument : String} (hne : argument ≠ "")
    (hnames : ∀ name ∈ below, FileTree.IsName name.toList ∧ '/' ∉ name.toList) :
    components (joinPath argument below) = components argument ++ below.map Component.name := by
  obtain ⟨front, hargument, hjoined⟩ := exists_front argument below
  obtain ⟨first, rest, hfront⟩ := List.exists_cons_of_ne_nil (Text.pieces_ne_nil '/' front)
  have hcomponents : components argument =
      (component? true first).toList ++ rest.filterMap (component? false) := by
    rcases hargument with h | h
    · apply components_of_pieces hne
      rw [h, hfront]
    · have hpieces : Text.pieces '/' argument.toList = first :: (rest ++ [[]]) := by
        rw [h, Text.pieces_append_sep, hfront]
        rfl
      rw [components_of_pieces hne hpieces, List.filterMap_append]
      simp [component?]
  have hjoinedNe : joinPath argument below ≠ "" := by
    intro h
    rw [h] at hjoined
    simp at hjoined
  have hpieces : Text.pieces '/' (joinPath argument below).toList =
      first :: (rest ++ Text.pieces '/' (['/'].intercalate (below.map String.toList))) := by
    rw [hjoined, Text.pieces_append_sep, hfront, List.cons_append]
  rw [components_of_pieces hjoinedNe hpieces, List.filterMap_append,
    filterMap_component?_names hnames, ← List.append_assoc, hcomponents]

/-- With a walker that follows its filter a listing is strictly sorted, holds only what its
arguments stand for, and holds all of that. Each file below an argument has a path of its own there.
-/
theorem discover_exact (hw : w.FollowsFilter) (s : DiscoverySettings) (t : FileTree)
    (arguments : List String) (h : s.respectGitignore = false) :
    (discover w s t arguments).Pairwise Precedes ∧
      (∀ path ∈ discover w s t arguments, ∃ argument ∈ arguments, StandsFor s t argument path) ∧
      (∀ argument ∈ arguments, ∀ path, StandsFor s t argument path →
        ∃ listed ∈ discover w s t arguments, components listed = components path) ∧
      ∀ argument below, argument ≠ "" →
        (∀ name ∈ below, FileTree.IsName name.toList ∧ '/' ∉ name.toList) →
          components (joinPath argument below) =
            components argument ++ below.map Component.name := by
  refine ⟨pairwise_discover w s t arguments, ?_, ?_, ?_⟩
  · intro path hpath
    exact exists_argument_of_mem_discover hw h hpath
  · intro argument hargument path hpath
    exact exists_mem_discover hw h hargument hpath
  · intro argument below hne hnames
    exact components_joinPath hne hnames

/-- The root of a walk may have an excluded name, may hold nothing, and may be written from the root
of the tree. -/
theorem discover_exact_excluded_root :
    let s : DiscoverySettings := ⟨["yml"], [".git"], false⟩
    let t : FileTree :=
      { files := [(["work", ".git", "hooks", "x.yml"], []), (["work", "web", ".git", "y.yml"], []),
          (["work", "web", "main.yml"], []), (["work", "web", "notes.md"], [])]
        directories := [["work", "empty"]]
        start := ["work"] }
    let arguments := ["web/main.yml", "web/", "/work/.git", "empty", "lost.txt"]
    Walker.FollowsFilter visit ∧ s.respectGitignore = false ∧
      (discover visit s t arguments).Pairwise Precedes ∧
      ∃ listed ∈ discover visit s t arguments,
        components listed = components "/work/.git/hooks/x.yml" := by
  intro s t arguments
  obtain ⟨hsorted, -, hcomplete, -⟩ := discover_exact followsFilter_visit s t arguments rfl
  refine ⟨followsFilter_visit, rfl, hsorted,
    hcomplete "/work/.git" (by decide) "/work/.git/hooks/x.yml" (Or.inr ?_)⟩
  exact ⟨["work", ".git"], ["hooks"], "x.yml", by decide +kernel, by decide +kernel,
    by decide +kernel, by decide +kernel, by decide +kernel, by decide +kernel⟩

end Discovery

end TaskTidy
