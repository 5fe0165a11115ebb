import TaskTidy.Discovery.Basic
import TaskTidy.Proofs.FileTrees
import TaskTidy.Proofs.RoundTrip

/-!
# Listings without repetitions

The files of a run are sorted by the components of their paths, and neighbours with the same
components are listed once. So no two paths of a listing have the same components. Without double
dots, the components of a path are the names on the way to the place it leads to, from the root or
from the working directory, where a dot may come first. Two paths of a listing lead to one file only
if one of them goes up, the first is the second one with a dot in front, or the first starts at the
root and the second at the working directory.
-/

namespace TaskTidy

namespace Path

/-! ### The components of a path -/

theorem components_of_pieces {path : String} {first : List Char} {rest : List (List Char)}
    (hne : path ≠ "") (hpieces : Text.pieces '/' path.toList = first :: rest) :
    components path = (component? true first).toList ++ rest.filterMap (component? false) := by
  rw [components, if_neg (by simpa using hne), hpieces]

/-- A file name is a component of its own. -/
theorem component?_of_isName {piece : List Char} (h : FileTree.IsName piece) (first : Bool) :
    component? first piece = some (.name (String.ofList piece)) := by
  simp [component?, h.1, h.2.1, h.2.2.1]

/-! ### The order of paths -/

namespace Component

/-- The text of a name; every other component has none. -/
def text (c : Component) : String :=
  c.name?.getD ""

/-- Components are compared by their ranks first, and then by their texts. -/
theorem order_eq : order = compareLex (compareOn rank) (compareOn text) := by
  funext a b
  cases a <;> cases b <;> rfl

instance : Std.TransCmp order := by
  rw [order_eq]
  infer_instance

instance : Std.LawfulEqCmp order where
  eq_of_compare {a b} h := by
    cases a <;> cases b <;> first | rfl | cases h | skip
    exact congrArg _ (Std.LawfulEqCmp.eq_of_compare (show compare _ _ = Ordering.eq from h))

end Component

/-- Paths are compared in the lexicographic order of their components. -/
theorem compareComponents_eq : compareComponents = List.compareLex Component.order := by
  funext as bs
  induction as generalizing bs with
  | nil => cases bs <;> rfl
  | cons a as ih =>
      cases bs with
      | nil => rfl
      | cons b bs =>
          rw [compareComponents, List.compareLex, ih]
          cases a.order b <;> rfl

instance : Std.TransCmp compareComponents := by
  rw [compareComponents_eq]
  infer_instance

instance : Std.LawfulEqCmp compareComponents := by
  rw [compareComponents_eq]
  infer_instance

theorem le_trans {first second third : String} (h : le first second = true)
    (h' : le second third = true) : le first third = true :=
  Std.TransCmp.isLE_trans h h'

theorem le_total (first second : String) : (le first second || le second first) = true := by
  have hswap : compareComponents (components second) (components first) =
      (compareComponents (components first) (components second)).swap := Std.OrientedCmp.eq_swap
  rw [le, le, hswap]
  cases compareComponents (components first) (components second) <;> rfl

/-- The first path comes before the second. -/
def Precedes (first second : String) : Prop :=
  compareComponents (components first) (components second) = .lt

theorem Precedes.components_ne {first second : String} (h : Precedes first second) :
    components first ≠ components second := by
  intro heq
  have hself : compareComponents (components second) (components second) = .eq :=
    Std.ReflCmp.compare_self
  rw [Precedes, heq, hself] at h
  cases h

/-- A path does not come before another one that starts with a component of a lower rank. -/
theorem not_precedes_of_rank_lt {first second : String} {a b : Component} {as bs : List Component}
    (hfirst : components first = a :: as) (hsecond : components second = b :: bs)
    (h : b.rank < a.rank) : ¬Precedes first second := by
  have hrank : compare a.rank b.rank = .gt := Nat.compare_eq_gt.2 h
  have horder : a.order b = .gt := by
    rw [Component.order_eq, compareLex, compareOn, hrank]
    rfl
  rw [Precedes, hfirst, hsecond, compareComponents, horder]
  exact nofun

/-- A path that is not after another one and has other components comes before it. -/
theorem precedes_of_le {first second : String} (h : le first second = true)
    (hne : components first ≠ components second) : Precedes first second := by
  rw [le, Ordering.isLE_iff_eq_lt_or_eq_eq] at h
  exact h.resolve_right fun heq => hne (Std.LawfulEqCmp.eq_of_compare heq)

end Path

namespace Discovery

variable {path : String} {rest : List String}

open TaskTidy.Path

/-! ### Neighbours -/

theorem dedupFrom_sublist (path : String) (rest : List String) :
    (dedupFrom path rest).Sublist (path :: rest) := by
  induction rest generalizing path with
  | nil => exact List.Sublist.refl _
  | cons next rest ih =>
      rw [dedupFrom]
      split
      · exact (ih path).trans ((List.sublist_cons_self next rest).cons_cons path)
      · exact (ih next).cons_cons path

/-- What is left of sorted paths is sorted strictly. -/
theorem pairwise_dedupFrom (h : (path :: rest).Pairwise fun a b => le a b = true) :
    (dedupFrom path rest).Pairwise Precedes := by
  induction rest generalizing path with
  | nil => exact List.pairwise_singleton _ _
  | cons next rest ih =>
      rw [dedupFrom]
      split
      · exact ih (h.sublist ((List.sublist_cons_self next rest).cons_cons path))
      · next hne =>
          obtain ⟨hpath, hrest⟩ := List.pairwise_cons.1 h
          refine List.pairwise_cons.2 ⟨fun other hother => ?_, ih hrest⟩
          have hnext := precedes_of_le (hpath next List.mem_cons_self) hne
          rcases List.mem_cons.1 ((dedupFrom_sublist next rest).subset hother) with rfl | hmem
          · exact hnext
          · exact Std.TransCmp.lt_of_lt_of_isLE hnext ((List.pairwise_cons.1 hrest).1 other hmem)

/-- The paths of a listing come one before the other. -/
theorem pairwise_discover (w : Walker) (s : DiscoverySettings) (t : FileTree)
    (arguments : List String) : (discover w s t arguments).Pairwise Precedes := by
  have htrans (first second third : String) (h : le first second = true)
      (h' : le second third = true) : le first third = true := le_trans h h'
  have hsorted := List.pairwise_mergeSort htrans le_total (arguments.flatMap (expand w s t))
  rw [discover]
  cases hpaths : (arguments.flatMap (expand w s t)).mergeSort le with
  | nil => exact List.Pairwise.nil
  | cons path rest =>
      rw [hpaths] at hsorted
      exact pairwise_dedupFrom hsorted

end Discovery

namespace FileTree

open TaskTidy.Path

variable {t : FileTree} {place other : Place} {path : String} {pieces : List (List Char)}

/-! ### The components of places -/

/-- A walk that does not go up leads down by the names on its way. -/
theorem exists_below_of_walk (hwalk : t.walk place pieces = .ok other) (hup : ['.', '.'] ∉ pieces) :
    ∃ below, other = place ++ below ∧
      below.map Component.name = pieces.filterMap (component? false) := by
  induction pieces generalizing place with
  | nil =>
      cases hwalk
      exact ⟨[], (List.append_nil other).symm, rfl⟩
  | cons piece rest ih =>
      rw [walk] at hwalk
      split at hwalk
      · cases hwalk
      · next dir hstep =>
          rw [List.mem_cons, not_or] at hup
          obtain ⟨below, rfl, hbelow⟩ := ih hwalk hup.2
          obtain ⟨-, ⟨rfl | rfl, rfl⟩ | ⟨rfl, _⟩ | ⟨hname, rfl, _⟩⟩ := step_eq_ok_iff.1 hstep
          · exact ⟨below, rfl, hbelow⟩
          · exact ⟨below, rfl, hbelow⟩
          · exact absurd rfl hup.1
          · refine ⟨String.ofList piece :: below, by simp, ?_⟩
            rw [List.map_cons, hbelow, List.filterMap_cons_some (component?_of_isName hname false)]

/-- The first piece of a path is empty if the path starts at the root, and only then. -/
theorem exists_pieces_of_locate (h : t.locate path = .ok place) :
    ∃ first rest, Text.pieces '/' path.toList = first :: rest ∧
      components path = (component? true first).toList ++ rest.filterMap (component? false) ∧
        t.walk (if first = [] then [] else t.start) (first :: rest) = .ok place := by
  obtain ⟨-, hne, hwalk⟩ := locate_eq_ok_iff.1 h
  obtain ⟨c, cs, hpath⟩ := List.exists_cons_of_ne_nil (mt String.toList_eq_nil_iff.1 hne)
  by_cases hroot : c = '/'
  · have hpieces : Text.pieces '/' path.toList = [] :: Text.pieces '/' cs := by
      rw [hpath, Text.pieces, if_pos hroot]
    refine ⟨[], _, hpieces, components_of_pieces hne hpieces, ?_⟩
    rwa [hpieces, origin, hpath, hroot, List.head?_cons] at hwalk
  · obtain ⟨first, more, -, hcons⟩ := Text.exists_pieces_cons hroot cs
    have hpieces : Text.pieces '/' path.toList = (c :: first) :: more := by rw [hpath, hcons]
    refine ⟨c :: first, more, hpieces, components_of_pieces hne hpieces, ?_⟩
    rwa [hpieces, origin, hpath, List.head?_cons, if_neg (by simpa using hroot)] at hwalk

/-- A path that leads to a place without going up has for its components the names on the way, after
the root or from the working directory. In the second case a dot may come first, and without the dot
there are names. -/
theorem components_of_locate (h : t.locate path = .ok place)
    (hup : Component.parent ∉ components path) :
    components path = .root :: place.map Component.name ∨
      ∃ below, place = t.start ++ below ∧
        (components path = .current :: below.map Component.name ∨
          below ≠ [] ∧ components path = below.map Component.name) := by
  obtain ⟨first, rest, hpieces, hcomponents, hwalk⟩ := exists_pieces_of_locate h
  have hup' : ['.', '.'] ∉ first :: rest := by
    refine fun hmem => hup ?_
    rw [hcomponents]
    rcases List.mem_cons.1 hmem with rfl | hmem
    · exact List.mem_append_left _ (by decide)
    · exact List.mem_append_right _ (List.mem_filterMap.2 ⟨_, hmem, rfl⟩)
  obtain ⟨below, hplace, hnames⟩ := exists_below_of_walk hwalk hup'
  by_cases hroot : first = []
  · left
    rw [hroot] at hnames
    rw [hcomponents, hplace, hroot, if_pos rfl, List.nil_append, hnames]
    rfl
  · right
    rw [if_neg hroot] at hplace
    refine ⟨below, hplace, ?_⟩
    by_cases hdot : first = ['.']
    · left
      rw [hcomponents, hnames, hdot]
      rfl
    · right
      have hname (start : Bool) : component? start first = some (.name (String.ofList first)) := by
        have hparent : first ≠ ['.', '.'] := fun heq => hup' (heq ▸ List.mem_cons_self)
        simp [component?, hroot, hdot, hparent]
      rw [List.filterMap_cons_some (hname false)] at hnames
      constructor
      · rintro rfl
        cases hnames
      · rw [hcomponents, hname, hnames]
        rfl

end FileTree

namespace Discovery

open TaskTidy.Path

/-- Two paths of a listing lead to different files, unless one of them goes up, the first is the
second one with a dot in front, or the first is the second one written from the root. -/
theorem discover_pairwise_apart (w : Walker) (s : DiscoverySettings) (t : FileTree)
    (arguments : List String) :
    (discover w s t arguments).Pairwise fun first second => t.Apart first second ∨
      Component.parent ∈ components first ∨ Component.parent ∈ components second ∨
        components first = .current :: components second ∨
          ∃ below, components first = .root :: (t.start ++ below).map Component.name ∧
            (components second = below.map Component.name ∨
              components second = .current :: below.map Component.name) := by
  refine (pairwise_discover w s t arguments).imp fun {first second} hprecedes => ?_
  by_contra hnot
  simp only [not_or] at hnot
  obtain ⟨hmeet, hfirst, hsecond, hdot, hroot⟩ := hnot
  refine hmeet fun place hplace hplace' => absurd hprecedes ?_
  rcases FileTree.components_of_locate hplace hfirst with h | ⟨below, rfl, h⟩
  · rcases FileTree.components_of_locate hplace' hsecond with h' | ⟨below, rfl, h'⟩
    · exact fun hlt => hlt.components_ne (h.trans h'.symm)
    · exact absurd ⟨below, h, h'.symm.imp_left And.right⟩ hroot
  · rcases FileTree.components_of_locate hplace' hsecond with h' | ⟨below', hsame, h'⟩
    · rcases h with h | ⟨hne, h⟩
      · exact not_precedes_of_rank_lt h h' (by decide)
      · obtain ⟨name, rest, rfl⟩ := List.exists_cons_of_ne_nil hne
        exact not_precedes_of_rank_lt h h' (by simp [Component.rank])
    · obtain rfl := List.append_cancel_left hsame
      rcases h with h | ⟨hne, h⟩
      · rcases h' with h' | ⟨_, h'⟩
        · exact fun hlt => hlt.components_ne (h.trans h'.symm)
        · exact absurd (h.trans (by rw [h'])) hdot
      · rcases h' with h' | ⟨_, h'⟩
        · obtain ⟨name, rest, rfl⟩ := List.exists_cons_of_ne_nil hne
          exact not_precedes_of_rank_lt h h' (by simp [Component.rank])
        · exact fun hlt => hlt.components_ne (h.trans h'.symm)

/-- A file is listed twice if one of its two paths starts with a dot. -/
theorem not_discover_pairwise_apart :
    ¬(discover visit ⟨["yml"], [], false⟩ { files := [(["b.yml"], [])] }
      ["./b.yml", "b.yml"]).Pairwise (FileTree.Apart { files := [(["b.yml"], [])] }) := by
  rw [discover, List.mergeSort_of_pairwise (by decide +kernel)]
  decide +kernel

end Discovery

end TaskTidy
