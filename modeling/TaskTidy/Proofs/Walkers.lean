import Mathlib.Data.List.Basic
import Mathlib.Data.List.Induction
import TaskTidy.Discovery.Walker
import TaskTidy.Proofs.FileTrees

/-!
# The walker of a tree

The walker that goes through the places of a tree enters a directory if it meets every directory on
the way. That is what going down step by step comes to, so this walker follows its filter.
-/

namespace TaskTidy

namespace FileTree

variable {t : FileTree} {place : Place}

theorem wayTo_concat (place : Place) (name : String) :
    wayTo (place ++ [name]) = wayTo place ++ [place ++ [name]] := by
  induction place with
  | nil => rfl
  | cons first rest ih => simp [wayTo, ih]

theorem mem_wayTo_iff {above : Place} : above ∈ wayTo place ↔ above ≠ [] ∧ above <+: place := by
  induction place using List.reverseRecOn with
  | nil => simp [wayTo]
  | append_singleton rest name ih =>
      rw [wayTo_concat, List.mem_append, List.mem_singleton, ih, List.prefix_concat_iff,
        and_or_left, or_comm]
      refine or_congr_left (iff_and_self.2 ?_)
      rintro rfl
      simp

/-- What is on the way to the directory of a place is strictly above the place. -/
theorem prefix_dropLast_iff {above : Place} :
    place ≠ [] ∧ above <+: place.dropLast ↔ above <+: place ∧ place ≠ above := by
  rcases List.eq_nil_or_concat' place with rfl | ⟨rest, name, rfl⟩
  · simp [eq_comm]
  · rw [List.dropLast_concat, List.prefix_concat_iff]
    constructor
    · rintro ⟨-, h⟩
      refine ⟨Or.inr h, ?_⟩
      rintro rfl
      have hlength := h.length_le
      rw [List.length_append, List.length_singleton] at hlength
      exact Nat.not_succ_le_self _ hlength
    · rintro ⟨h, hne⟩
      exact ⟨by simp, h.resolve_left hne.symm⟩

/-- The directories are those places that are directories. -/
theorem mem_allDirectories_iff : place ∈ t.allDirectories ↔ t.isDirectory place = true := by
  simp only [allDirectories, List.mem_cons, List.mem_eraseDups, List.mem_flatMap, mem_wayTo_iff,
    List.mem_append, List.mem_map, isDirectory_iff, isFile_iff_exists]
  by_cases hroot : place = []
  · exact iff_of_true (Or.inl hroot)
      (Or.inl ⟨t.start, Or.inl rfl, hroot ▸ List.nil_prefix⟩)
  · rw [or_iff_right hroot]
    constructor
    · rintro ⟨directory, hlisted | ⟨file, hfile, rfl⟩, -, hbelow⟩
      · exact Or.inl ⟨directory, hlisted, hbelow⟩
      · refine Or.inr ⟨file.1, ⟨file, hfile, rfl⟩, prefix_dropLast_iff.1 ⟨?_, hbelow⟩⟩
        intro hfileRoot
        rw [hfileRoot] at hbelow
        exact hroot (List.prefix_nil.1 hbelow)
    · rintro (⟨directory, hlisted, hbelow⟩ | ⟨_, ⟨file, hfile, rfl⟩, hbelow⟩)
      · exact ⟨directory, Or.inl hlisted, hroot, hbelow⟩
      · exact ⟨file.1.dropLast, Or.inr ⟨file, hfile, rfl⟩, hroot,
          (prefix_dropLast_iff.2 hbelow).2⟩

end FileTree

namespace Discovery

variable {admits : Entry → Bool} {t : FileTree} {path : String} {root above below : Place}
  {name : String} {e : Entry}

/-- To enter a directory a walk enters the one above it and meets this one there. -/
theorem enters_concat : enters false admits t path root (above ++ [name]) =
    (enters false admits t path root above &&
      admits (Entry.ofPlace path (above ++ [name]) true)) := by
  simp only [enters, FileTree.wayTo_concat, List.all_append, List.all_cons, List.all_nil, meets,
    Bool.and_true, Bool.false_and, Bool.not_false]

/-- Going down step by step leads into the directories with only such directories on the way. -/
theorem enters_iff (hthere : t.isDirectory (root ++ below) = true) :
    enters false admits t path root below = true ↔ Enters admits t path root below := by
  induction below using List.reverseRecOn with
  | nil => exact ⟨fun _ => .root, fun _ => rfl⟩
  | append_singleton above name ih =>
      have habove : t.isDirectory (root ++ above) = true := by
        refine FileTree.isDirectory_of_prefix hthere ?_
        rw [← List.append_assoc]
        exact List.prefix_append _ _
      rw [enters_concat, Bool.and_eq_true, ih habove]
      constructor
      · rintro ⟨henters, hadmits⟩
        exact .down henters hthere hadmits
      · intro h
        generalize hplace : above ++ [name] = place at h
        cases h with
        | root => simp at hplace
        | down henters _ hadmits =>
            obtain ⟨rfl, hname⟩ := List.append_inj' hplace rfl
            obtain rfl := List.singleton_injective hname
            exact ⟨henters, hadmits⟩

theorem Enters.isDirectory (h : Enters admits t path root below)
    (hroot : t.isDirectory root = true) : t.isDirectory (root ++ below) = true := by
  cases h with
  | root => rwa [List.append_nil]
  | down _ hthere _ => exact hthere

theorem mem_visitDirectories_iff (hroot : t.isDirectory root = true) :
    e ∈ visitDirectories false admits t path root ↔
      ∃ below, Enters admits t path root below ∧ Entry.ofPlace path below true = e := by
  simp only [visitDirectories, List.mem_map, List.mem_filter, FileTree.mem_allDirectories_iff,
    Bool.and_eq_true, List.isPrefixOf_iff_prefix]
  constructor
  · rintro ⟨_, ⟨hthere, ⟨below, rfl⟩, henters⟩, heq⟩
    rw [List.drop_left] at henters heq
    exact ⟨below, (enters_iff hthere).1 henters, heq⟩
  · rintro ⟨below, henters, heq⟩
    have hthere := henters.isDirectory hroot
    refine ⟨root ++ below, ⟨hthere, List.prefix_append _ _, ?_⟩, ?_⟩
    · rwa [List.drop_left, enters_iff hthere]
    · rwa [List.drop_left]

/-- A file lies in a directory. -/
theorem isDirectory_of_isFile (hfile : t.isFile (root ++ (above ++ [name])) = true) :
    t.isDirectory (root ++ above) = true := by
  refine FileTree.isDirectory_iff.2 (Or.inr ⟨_, hfile, ?_, ?_⟩)
  · rw [← List.append_assoc]
    exact List.prefix_append _ _
  · simp

theorem mem_visitFiles_iff :
    e ∈ visitFiles false admits t path root ↔
      ∃ above name, Enters admits t path root above ∧
        t.isFile (root ++ (above ++ [name])) = true ∧
        admits (Entry.ofPlace path (above ++ [name]) false) = true ∧
          Entry.ofPlace path (above ++ [name]) false = e := by
  simp only [visitFiles, meets, List.mem_map, List.mem_filter, Bool.and_eq_true, Bool.false_and,
    Bool.not_false, and_true, List.isPrefixOf_iff_prefix, bne_iff_ne]
  constructor
  · rintro ⟨file, ⟨hfile, ⟨⟨⟨below, hplace⟩, hne⟩, henters⟩, hadmits⟩, heq⟩
    rcases List.eq_nil_or_concat' below with rfl | ⟨above, name, rfl⟩
    · exact absurd (hplace.symm.trans (List.append_nil root)) hne
    · have hthere := FileTree.isFile_iff_exists.2 ⟨file, hfile, hplace.symm⟩
      rw [← hplace, List.drop_left] at henters hadmits heq
      rw [List.dropLast_concat, enters_iff (isDirectory_of_isFile hthere)] at henters
      exact ⟨above, name, henters, hthere, hadmits, heq⟩
  · rintro ⟨above, name, henters, hthere, hadmits, heq⟩
    obtain ⟨file, hfile, hplace⟩ := FileTree.isFile_iff_exists.1 hthere
    refine ⟨file, ⟨hfile, ⟨⟨⟨_, hplace.symm⟩, ?_⟩, ?_⟩, ?_⟩, ?_⟩
    · rw [hplace]
      simp
    · rwa [hplace, List.drop_left, List.dropLast_concat, enters_iff (isDirectory_of_isFile hthere)]
    · rwa [hplace, List.drop_left]
    · rwa [hplace, List.drop_left]

/-- The walker that goes through the places of a tree follows its filter. -/
theorem followsFilter_visit : Walker.FollowsFilter visit where
  mem_iff {admits t path root} hlocate hroot _ e := by
    simp only [visit, hlocate, List.mem_append, mem_visitDirectories_iff hroot,
      mem_visitFiles_iff]
    constructor
    · rintro (⟨below, henters, rfl⟩ | ⟨above, name, henters, hthere, hadmits, rfl⟩)
      · exact .directory henters
      · exact .file henters hthere hadmits
    · intro h
      cases h with
      | directory henters => exact Or.inl ⟨_, henters, rfl⟩
      | file henters hthere hadmits => exact Or.inr ⟨_, _, henters, hthere, hadmits, rfl⟩

end Discovery

end TaskTidy
