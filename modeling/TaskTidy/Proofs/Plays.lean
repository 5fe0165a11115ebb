import TaskTidy.Proofs.FailureKeys
import TaskTidy.Proofs.Nesting
import TaskTidy.Proofs.Renames
import TaskTidy.Proofs.UnitValues

/-!
# The keys of plays

A play says on which hosts it runs, and its keys may have the names of modules. The names are
qualified only where the block of the item does not show the key for the hosts. The block of an item
ends at a comment or a bare dash at or left of its dash, while the fields behind that line still
belong to the item. So a play keeps its lines if and only if its block shows the hosts or none of
its lines is a name to qualify.
-/

namespace TaskTidy

namespace Text

/-- Exactly the texts of blank characters are trimmed to nothing. -/
theorem allBlank_iff_trim {s : List Char} : allBlank s = true ↔ trim s = [] := by
  constructor
  · exact trim_eq_nil
  · intro htrim
    obtain ⟨front, back, hs, hfront, hback⟩ := exists_eq_append_trim_append s
    rw [htrim, List.append_nil] at hs
    rw [hs, allBlank, List.all_append, Bool.and_eq_true, List.all_eq_true, List.all_eq_true]
    exact ⟨hfront, hback⟩

end Text

namespace Line

variable {l l' : Line} {entry entry' : Entry} {keys : List (List Char)}

/-- The value of an entry is its trimmed rest. -/
theorem value?_of_entryOf? (h : entryOf? l.body = some entry) :
    l.value? = if Text.trim entry.rest = [] then none else some (Text.trim entry.rest) := by
  rw [value?, h]
  exact if_congr Text.allBlank_iff_trim rfl rfl

section

variable (h : entryOf? l.body = some entry) (h' : entryOf? l'.body = some entry')
  (hrest : Text.trim entry'.rest = Text.trim entry.rest)

include h h' hrest

theorem value?_eq_of_entries : l'.value? = l.value? := by
  rw [value?_of_entryOf? h, value?_of_entryOf? h', hrest]

theorem opensScalar_eq_of_entries : l'.opensScalar = l.opensScalar := by
  rw [opensScalar, opensScalar, value?_eq_of_entries h h' hrest]

/-- Two entries of one frame and one value resemble each other for the keys that neither has. -/
theorem resembles_of_entries (hframe : SameFrame l l') (hkey : entry.key ∉ keys)
    (hkey' : entry'.key ∉ keys) : Resembles keys l l' := by
  have hentry := isEntry_of_entryOf? h
  have hentry' := isEntry_of_entryOf? h'
  refine ⟨.of_isEntry hframe hentry hentry' fun key hmem => ?_,
    by rw [value?_eq_of_entries h h' hrest]⟩
  have hne : entry.key ≠ key := by
    rintro rfl
    exact hkey hmem
  have hne' : entry'.key ≠ key := by
    rintro rfl
    exact hkey' hmem
  simp [hasKey, key?, hentry, hentry', h, h', hne, hne']

end

end Line

namespace RuleSets

open Line

variable {l l' : Line}

/-- The keys that decide where a name is qualified: the key for the hosts and the keys of lists of
tasks. -/
def placeKeys : List (List Char) :=
  "hosts".toList :: taskListKeys

/-- A line that is qualified is an entry with the name of a module for its key. -/
theorem exists_entry_of_qualifyModule? (h : qualifyModule? l = some l') :
    ∃ entry, entryOf? l.body = some entry ∧ entry.key ∈ builtinModules := by
  have hbody := List.takeWhile_append_dropWhile (p := (· != ':')) (l := l.body)
  have hmem := (of_qualifyModule? h).2
  have hsplit : splitKey? (l.body.takeWhile (· != ':') ++ [':']) =
      some (l.body.takeWhile (· != ':'), [':']) := by
    have hall : ∀ m ∈ builtinModules, splitKey? (m ++ [':']) = some (m, [':']) := by decide
    exact hall _ hmem
  have hcolon := List.head?_dropWhile_not (· != ':') l.body
  unfold qualifyModule? at h
  rw [if_pos (List.contains_iff_mem.2 hmem)] at h
  split at h
  · next x hx =>
      rw [hx] at hbody hcolon
      obtain rfl : x = ':' := by simpa using hcolon
      refine ⟨⟨_, []⟩, ?_, hmem⟩
      conv_lhs => rw [← hbody, entryOf?, hsplit]
      rfl
  · next x c rest hx =>
      rw [hx] at hbody hcolon
      obtain rfl : x = ':' := by simpa using hcolon
      split at h
      · next hc =>
          refine ⟨⟨_, rest⟩, ?_, hmem⟩
          conv_lhs => rw [← hbody]
          exact entryOf?_append hsplit hc rest
      · cases h
  · cases h

/-- A module is qualified where it stands, with the value that it has. -/
theorem resembles_of_qualifyModule? (h : qualifyModule? l = some l') :
    Resembles placeKeys l l' ∧ l'.opensScalar = l.opensScalar := by
  obtain ⟨entry, hentry, hmem⟩ := exists_entry_of_qualifyModule? h
  obtain ⟨x, rest, hbody, _⟩ := exists_body_of_qualifyModule? h
  obtain ⟨hx, hx'⟩ := isKey_of_qualifyModule? h hbody
  have hentry' : entryOf? l'.body = some ⟨builtinCollection ++ entry.key, entry.rest⟩ := by
    rw [body_of_qualifyModule? h, hbody]
    rw [hbody] at hentry
    exact entryOf?_builtinCollection hx hx' hentry
  have hkey : ∀ m ∈ builtinModules, m ∉ placeKeys ∧ builtinCollection ++ m ∉ placeKeys := by
    decide +kernel
  exact ⟨resembles_of_entries hentry hentry' rfl (climbs_of_qualifyModule? h).sameFrame
    (hkey _ hmem).1 (hkey _ hmem).2, opensScalar_eq_of_entries hentry hentry' rfl⟩

/-- A parameter is shortened where it stands, with the value that it has. -/
theorem resembles_of_unqualifyParameter? (h : unqualifyParameter? l = some l') :
    Resembles placeKeys l l' ∧ l'.opensScalar = l.opensScalar := by
  obtain ⟨key, hkey, rest, value, hentry, hentry', hrest⟩ :=
    exists_entries_of_unqualifyParameter? h
  have hkeys : ∀ m ∈ ambiguousParameters, m ∉ placeKeys ∧ builtinCollection ++ m ∉ placeKeys := by
    decide +kernel
  exact ⟨resembles_of_entries hentry hentry' hrest (climbs_of_unqualifyParameter? h).sameFrame
    (hkeys _ hkey).2 (hkeys _ hkey).1, opensScalar_eq_of_entries hentry hentry' hrest⟩

end RuleSets

namespace Buffer

variable {b b' : Buffer} {i j o : Nat} {l : Line} {keys : List (List Char)} {key : List Char}

/-- An item keeps a key when a line is replaced by one that resembles it. -/
theorem itemHas_set_of_resembles (hj : j < b.length) (hl : (b.line j).Resembles keys l)
    (hkey : key ∈ keys) (o : Nat) : Buffer.itemHas (b.set j l) o key = b.itemHas o key := by
  have hline := resembles_line_set hj hl
  rw [Bool.eq_iff_iff, itemHas_iff, itemHas_iff]
  simp only [stopOf_set_of_sameExtent hj hl.sameExtent, (hline _).kind_eq,
    (hline _).sameFrame.depth_eq, (hline _).sameFrame.column_eq, (hline _).hasKey_eq key hkey]

/-- An owner is the line itself, or its parent at the content column of which it stands. -/
theorem owner?_cases (h : b.owner? j = some o) :
    o = j ∨ b.parent? j = some o ∧ (b.line j).depth = (b.line o).column := by
  rw [owner?] at h
  split at h
  · exact Or.inl (Option.some.inj h).symm
  · obtain ⟨hparent, ho⟩ := Option.filter_eq_some_iff.1 h
    simp only [Bool.and_eq_true, decide_eq_true_eq] at ho
    exact Or.inr ⟨hparent, ho.2.symm⟩

/-- A key on a line of an item is seen from the item, unless a comment or a bare dash at or left of
the dash ends the block of the item above it. -/
theorem itemHas_or_of_owner? (ho : b.owner? j = some o) (hkey : (b.line j).hasKey key = true) :
    b.itemHas o key = true ∨ ∃ k, o < k ∧ k < j ∧
      ((b.line k).kind = .comment ∨ (b.line k).isBareDash = true) ∧
        (b.line k).depth ≤ (b.line o).depth := by
  have hkeys : (b.line j).hasKeyIn [key] = true :=
    Line.hasKeyIn_iff.2 ⟨key, List.mem_singleton_self key, by simpa [Line.hasKey] using hkey⟩
  have hentry := Line.isEntry_of_hasKeyIn hkeys
  have htext := allBlank_of_isEntry hentry
  rcases owner?_cases ho with rfl | ⟨hparent, hdepth⟩
  · exact Or.inl (itemHas_iff.2 (Or.inl hkey))
  have hoj := parent?_lt hparent
  have hitem := (of_owner? ho).2
  by_cases hstop : j < b.stopOf o
  · by_cases hkind : (b.line j).kind = .item
    · rw [owner?, if_pos hkind] at ho
      exact absurd (Option.some.inj ho) (Nat.ne_of_gt hoj)
    · have hparameter : (b.line j).kind = .parameter := by
        revert hentry hkind
        cases (b.line j).kind <;> simp [Line.Kind.isEntry]
      exact Or.inl (itemHas_iff.2 (Or.inr ⟨j, hoj, hstop, hparameter, hdepth, hkey⟩))
  · right
    have hmem : o ∈ b.ancestors j := by
      rw [ancestors_eq, hparent]
      exact List.mem_cons_self
    rw [lt_stopOf_iff_mem_ancestors hoj (by rw [hitem]; rfl) htext] at hstop
    by_contra hnone
    refine hstop ⟨hmem, fun k hkj hok hk => Nat.lt_of_not_le fun hle => hnone ?_⟩
    exact ⟨k, hok, hkj, hk, hle⟩

/-- Two documents of one length in which every line stands in the same place: it has the same
owner, its owner has the same hosts, and it is in lists of tasks and in scripts of both. -/
structure SamePlaces (b b' : Buffer) : Prop where
  length_eq : b'.length = b.length
  owner?_eq : ∀ i < b.length, b'.owner? i = b.owner? i
  inTaskList_eq : ∀ i < b.length, b'.inTaskList i = b.inTaskList i
  inScalar_eq : ∀ i < b.length, b'.inScalar i = b.inScalar i
  itemHas_eq : ∀ o, b'.itemHas o "hosts".toList = b.itemHas o "hosts".toList

theorem SamePlaces.refl (b : Buffer) : SamePlaces b b :=
  ⟨rfl, fun _ _ => rfl, fun _ _ => rfl, fun _ _ => rfl, fun _ => rfl⟩

theorem SamePlaces.set (h : SamePlaces b b') (hj : j < b'.length)
    (hl : (b'.line j).Resembles RuleSets.placeKeys l)
    (hopens : l.opensScalar = (b'.line j).opensScalar) :
    SamePlaces b (b'.set j l) where
  length_eq := by rw [List.length_set, h.length_eq]
  owner?_eq i hi := by
    rw [owner?_set hj hl.sameFrame (by rwa [h.length_eq]), h.owner?_eq i hi]
  inTaskList_eq i hi := by
    rw [inTaskList_set hj hl (List.subset_cons_self _ _) (by rwa [h.length_eq]),
      h.inTaskList_eq i hi]
  inScalar_eq i hi := by
    rw [inScalar_set hj hl.sameFrame hopens (by rwa [h.length_eq]), h.inScalar_eq i hi]
  itemHas_eq o := by
    rw [itemHas_set_of_resembles hj hl List.mem_cons_self, h.itemHas_eq o]

/-- A line that is the same line in both stands at its index in both. -/
theorem SamePlaces.getElem?_eq (h : SamePlaces b b')
    (hline : i < b.length → b'.line i = b.line i) : b'[i]? = b[i]? := by
  by_cases hi : i < b.length
  · have hi' : i < b'.length := by rwa [h.length_eq]
    have heq := hline hi
    rw [line_eq_getElem b' i hi', line_eq_getElem b i hi] at heq
    rw [List.getElem?_eq_getElem hi', List.getElem?_eq_getElem hi, heq]
  · rw [List.getElem?_eq_none (Nat.le_of_not_lt hi), List.getElem?_eq_none]
    rw [h.length_eq]
    exact Nat.le_of_not_lt hi

/-- The short name of a module stands in line `i`, which belongs to a task or a play and is no text
of a script. -/
def HoldsShortName (b : Buffer) (i : Nat) : Prop :=
  (RuleSets.qualifyModule? (b.line i)).isSome = true ∧ b.inTaskList i = true ∧
    b.inScalar i = false

instance (b : Buffer) (i : Nat) : Decidable (b.HoldsShortName i) :=
  inferInstanceAs (Decidable (_ ∧ _ ∧ _))

theorem HoldsShortName.lt_length (h : b.HoldsShortName i) : i < b.length := by
  by_contra hlen
  obtain ⟨hname, _⟩ := h
  rw [line_of_length_le (Nat.le_of_not_lt hlen)] at hname
  cases hname

theorem SamePlaces.holdsShortName_iff (h : SamePlaces b b') (hi : i < b.length)
    (hline : b'.line i = b.line i) : b'.HoldsShortName i ↔ b.HoldsShortName i := by
  rw [HoldsShortName, HoldsShortName, hline, h.inTaskList_eq i hi, h.inScalar_eq i hi]

end Buffer

namespace RuleSets

open Buffer Line Pass

variable {b b' : Buffer} {i o : Nat} {l : Line} {v : Visit}

/-- Both rules leave a line in its place. -/
theorem samePlaces_visit (h : SamePlaces b b') (hi : i < b'.length) (hv : visit fqcn b' i = .ok v) :
    SamePlaces b v.buffer := by
  rcases renames_fqcn.exists_visit hi hv with ⟨hbuffer, _⟩ | ⟨r, hr, l, hl, _, hbuffer⟩
  · rwa [hbuffer]
  · rw [hbuffer]
    simp only [List.mem_cons, List.not_mem_nil, or_false] at hr
    rcases hr with rfl | rfl
    · obtain ⟨hresembles, hopens⟩ := resembles_of_qualifyModule? hl
      exact h.set hi hresembles hopens
    · obtain ⟨hresembles, hopens⟩ := resembles_of_unqualifyParameter? hl
      exact h.set hi hresembles hopens

/-- A field of an item or its first line is no parameter of a module. -/
theorem isNested_of_unqualifyParameter? (hl : unqualifyParameter? (b.line i) = some l)
    (ho : b.owner? i = some o) : b.isNested i = false := by
  obtain ⟨⟨rest, hrest⟩, _⟩ := of_unqualifyParameter? hl
  have hstart : startsBody (b.line i).unindented = true := by
    rw [hrest]
    rfl
  refine isNested_of_isItemLevel (kind_ne_item_of_column_eq (column_of_startsBody hstart)) ?_
  rw [isItemLevel, ho]
  rfl

/-- A line of an item is visited without effect if the item shows the key for the hosts or the line
holds no short name. -/
theorem line_of_visit_fqcn (hi : i < b'.length) (hv : visit fqcn b' i = .ok v) {k : Nat}
    (ho : b'.owner? k = some o)
    (hleft : b'.itemHas o "hosts".toList = true ∨ ¬b'.HoldsShortName k) :
    v.buffer.line k = b'.line k := by
  rcases renames_fqcn.exists_visit hi hv with ⟨hbuffer, _⟩ | ⟨r, hr, l, hl, hguards, hbuffer⟩
  · rw [hbuffer]
  · rw [hbuffer]
    refine line_set_of_ne ?_ l
    rintro rfl
    simp only [List.mem_cons, List.not_mem_nil, or_false] at hr
    rcases hr with rfl | rfl
    · rcases hleft with hhas | hname
      · have hlacks := hguards (.ownerLacks "hosts".toList) (by simp)
        simp only [Guard.allows, ownerHas, ho, hhas, Bool.not_true, Bool.false_eq_true] at hlacks
      · have hlist := hguards .taskList (by simp)
        have houtside := hguards .outsideScalar (by simp)
        rw [Guard.allows, Bool.not_eq_true'] at houtside
        exact hname ⟨Option.isSome_of_eq_some hl, hlist, houtside⟩
    · have hnested := hguards .nested (by simp)
      rw [Guard.allows, isNested_of_unqualifyParameter? hl ho] at hnested
      cases hnested

/-- A settled document holds a short name only on the lines of items that show the key for the
hosts. -/
theorem itemHas_of_isSettled (hs : IsSettled fqcn b) (hname : b.HoldsShortName i)
    (ho : b.owner? i = some o) : b.itemHas o "hosts".toList = true := by
  have hi := hname.lt_length
  obtain ⟨hsome, hlist, houtside⟩ := hname
  obtain ⟨l, hl⟩ := Option.isSome_iff_exists.1 hsome
  rw [← Bool.not_eq_false]
  intro hlacks
  have hguards : ∀ g ∈ [Guard.itemLevel, .taskList, .ownerLacks "hosts".toList, .outsideScalar],
      g.allows b i = true := by
    simp only [List.forall_mem_cons, Guard.allows, isItemLevel, ownerHas, ho, hlist, hlacks,
      houtside]
    simp
  have hanswer : (LineRule.replacing "qualify-module"
      [.itemLevel, .taskList, .ownerLacks "hosts".toList, .outsideScalar]
        qualifyModule?).rewrite b i = some (.replace l) :=
    LineRule.guarded_rewrite_eq_some_iff.2 ⟨by rw [hl, Option.map_some], hguards⟩
  have hself := renames_fqcn.isSilent_of_isSettled hs hi _ List.mem_cons_self _ hanswer
  rw [Rewrite.replace.inj hself] at hl
  cases (qualifyModule?_of_eq_some hl).symm.trans hl

end RuleSets

namespace Document

open Buffer Pass RuleSets

variable {d : Document} {outcome : Outcome} {i j o : Nat}

section

variable (hpass : d.applyPass fqcn = .ok outcome)

include hpass

theorem samePlaces_of_applyPass : SamePlaces d.lines outcome.document.lines :=
  applyPassWithin_induction (fun hk h hv => samePlaces_visit h hk hv) (.refl _) hpass

/-- While the places stay, what leaves a line of an item alone at first does so at every visit. -/
theorem line_of_applyPass_fqcn (hi : i < d.lines.length) (ho : d.lines.owner? i = some o)
    (hleft : d.lines.itemHas o "hosts".toList = true ∨ ¬d.lines.HoldsShortName i) :
    outcome.document.lines.line i = d.lines.line i := by
  have hvisit {b : Buffer} {k : Nat} {v : Visit} (hk : k < b.length)
      (h : SamePlaces d.lines b ∧ b.line i = d.lines.line i) (hv : visit fqcn b k = .ok v) :
      SamePlaces d.lines v.buffer ∧ v.buffer.line i = d.lines.line i := by
    obtain ⟨hplaces, hline⟩ := h
    refine ⟨samePlaces_visit hplaces hk hv, ?_⟩
    rw [← hplaces.itemHas_eq, ← hplaces.holdsShortName_iff hi hline] at hleft
    rw [line_of_visit_fqcn hk hv ((hplaces.owner?_eq i hi).trans ho) hleft, hline]
  exact (applyPassWithin_induction hvisit ⟨.refl _, rfl⟩ hpass).2

/-- The lines of an item with a line for the hosts are kept if and only if the item shows the key or
none of its lines holds the short name of a module. Only a comment or a bare dash at or left of the
dash of the item can hide the key. -/
theorem plays_left_alone_iff (ho : d.lines.owner? j = some o)
    (hhosts : (d.lines.line j).hasKey "hosts".toList = true) :
    ((∀ i, d.lines.owner? i = some o → outcome.document.lines[i]? = d.lines[i]?) ↔
        d.lines.itemHas o "hosts".toList = true ∨
          ∀ i, d.lines.owner? i = some o → ¬d.lines.HoldsShortName i) ∧
      (d.lines.itemHas o "hosts".toList = true ∨ ∃ k, o < k ∧ k < j ∧
        ((d.lines.line k).kind = .comment ∨ (d.lines.line k).isBareDash = true) ∧
          (d.lines.line k).depth ≤ (d.lines.line o).depth) := by
  have hplaces := samePlaces_of_applyPass hpass
  refine ⟨⟨fun hkept => ?_, fun hleft i hoi => ?_⟩, itemHas_or_of_owner? ho hhosts⟩
  · rw [or_iff_not_imp_right]
    intro hnames
    push Not at hnames
    obtain ⟨i, hoi, hname⟩ := hnames
    have hi := hname.lt_length
    have hline : outcome.document.lines.line i = d.lines.line i := by
      rw [line, line, List.getD_eq_getElem?_getD, List.getD_eq_getElem?_getD, hkept i hoi]
    rw [← hplaces.itemHas_eq o]
    exact itemHas_of_isSettled (isSettled_of_applyPass hpass)
      ((hplaces.holdsShortName_iff hi hline).2 hname) ((hplaces.owner?_eq i hi).trans hoi)
  · exact hplaces.getElem?_eq fun hi =>
      line_of_applyPass_fqcn hpass hi hoi (hleft.imp_right fun hnames => hnames i hoi)

end

/-- A play keeps its user, while the module of its task is qualified. -/
theorem plays_left_alone_user :
    let d := ofLines ["- name: web".toList, "  user: root".toList, "  # where".toList,
      "  hosts: all".toList, "  tasks:".toList, "    - copy: a b".toList]
    ∃ outcome, d.applyPass fqcn = .ok outcome ∧ outcome.changed = true ∧
      ∀ i, d.lines.owner? i = some 0 → outcome.document.lines[i]? = d.lines[i]? := by
  intro d
  have hpass : d.applyPass fqcn = .ok ⟨ofLines ["- name: web".toList, "  user: root".toList,
      "  # where".toList, "  hosts: all".toList, "  tasks:".toList,
      "    - ansible.builtin.copy: a b".toList], true, [⟨"fqcn", ⟨"qualify-module", 6⟩⟩]⟩ := by
    decide +kernel
  exact ⟨_, hpass, rfl, (plays_left_alone_iff (j := 3) hpass (by decide +kernel)
    (by decide +kernel)).1.2 (Or.inl (by decide +kernel))⟩

/-- A comment at the dash of a play hides its hosts, and its user becomes a module. -/
theorem not_plays_left_alone :
    ∃ (d : Document) (outcome : Outcome) (o j : Nat), d.applyPass fqcn = .ok outcome ∧
      d.lines.owner? j = some o ∧ (d.lines.line j).hasKey "hosts".toList = true ∧
        ¬ ∀ i, d.lines.owner? i = some o → outcome.document.lines[i]? = d.lines[i]? := by
  refine ⟨ofLines ["- name: x".toList, "# the play".toList, "  hosts: all".toList,
    "  user: root".toList], ⟨ofLines ["- name: x".toList, "# the play".toList,
    "  hosts: all".toList, "  ansible.builtin.user: root".toList], true,
    [⟨"fqcn", ⟨"qualify-module", 4⟩⟩]⟩, 0, 2, by decide +kernel, by decide +kernel,
    by decide +kernel, fun hkept => ?_⟩
  exact absurd (hkept 3 (by decide +kernel)) (by decide +kernel)

end Document

end TaskTidy
