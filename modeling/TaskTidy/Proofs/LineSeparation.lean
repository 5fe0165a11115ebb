import TaskTidy.Proofs.Boundary
import TaskTidy.Proofs.Climbs
import TaskTidy.Proofs.LineEnds
import TaskTidy.Proofs.LineSets
import TaskTidy.Proofs.Separation

/-!
# Sets of line rules visit parts of a document alone

A line rule that gives the same answers in two parts of a document as in each part alone rewrites
them alike. The guards do so across a boundary of tasks, and a rewritten line keeps its frame, so
the boundary stays one.
-/

namespace TaskTidy

namespace LineRule

/-- The rule answers in two parts of a document as in each part alone. -/
structure IsLocal (r : LineRule) (apart : Buffer → Buffer → Prop) : Prop where
  upper : ∀ {b c i}, apart b c → i < b.length → r.rewrite (b ++ c) i = r.rewrite b i
  lower : ∀ {b c i}, apart b c → i < c.length →
    r.rewrite (b ++ c) (b.length + i) = r.rewrite c i

/-- A rule that asks for its line alone answers alike in all parts. -/
theorem isLocal_of_unguarded (name : String) (f : Line → Option Rewrite)
    (apart : Buffer → Buffer → Prop) :
    (guarded name [] fun b i => f (b.line i)).IsLocal apart where
  upper {b c i} _ hi := by simp only [guarded, Buffer.line_append_left hi, List.all_nil]
  lower {b c i} _ _ := by simp only [guarded, Buffer.line_append_right, List.all_nil]

end LineRule

namespace Pass

variable {s : RuleSet} {rules : List LineRule} {b c : Buffer} {i : Nat}

theorem firstAnswer?_congr {j : Nat} (h : ∀ r ∈ rules, r.rewrite b i = r.rewrite c j) :
    firstAnswer? rules b i = firstAnswer? rules c j := by
  induction rules with
  | nil => rfl
  | cons r rules ih =>
      obtain ⟨hr, hrest⟩ := List.forall_mem_cons.1 h
      rw [firstAnswer?, firstAnswer?, List.findSome?_cons, List.findSome?_cons, hr]
      split
      · rfl
      · exact ih hrest

/-- An answer to a line of the upper part changes the upper part. -/
theorem offerLine_append_left (hi : i < b.length)
    (h : firstAnswer? rules (b ++ c) i = firstAnswer? rules b i) :
    offerLine rules (b ++ c) i = ⟨(offerLine rules b i).buffer ++ c, (offerLine rules b i).edits,
      (offerLine rules b i).advance?⟩ := by
  unfold offerLine
  rw [h, Buffer.line_append_left hi]
  rcases firstAnswer? rules b i with _ | ⟨name, l | _ | parts⟩
  · rfl
  · by_cases hl : l = b.line i
    · simp [hl]
    · simp [hl, List.set_append_left i l hi]
  · simp [List.eraseIdx_append_of_lt_length hi]
  · by_cases hp : parts.length ≤ 1
    · simp [hp]
    · simp [hp, List.take_append_of_le_length (Nat.le_of_lt hi), List.drop_append_of_le_length hi]

/-- An answer to a line of the lower part changes the lower part. -/
theorem offerLine_append_right
    (h : firstAnswer? rules (b ++ c) (b.length + i) = firstAnswer? rules c i) :
    offerLine rules (b ++ c) (b.length + i) = ⟨b ++ (offerLine rules c i).buffer,
      (offerLine rules c i).edits.map (Edit.lower b.length), (offerLine rules c i).advance?⟩ := by
  unfold offerLine
  rw [h, Buffer.line_append_right]
  rcases firstAnswer? rules c i with _ | ⟨name, l | _ | parts⟩
  · rfl
  · by_cases hl : l = c.line i
    · simp [hl]
    · simp [hl, Edit.lower, Nat.add_assoc]
  · simp [Edit.lower, Nat.add_assoc, List.eraseIdx_append_of_length_le]
  · by_cases hp : parts.length ≤ 1
    · simp [hp]
    · simp [hp, Edit.lower, Nat.add_assoc, List.take_length_add_append]

/-- The walk does not leave the lines that an answer leaves. -/
theorem next_le_length_of_offerLine (hi : i < b.length) :
    i + (offerLine rules b i).advance?.getD 0 ≤ (offerLine rules b i).buffer.length := by
  rcases offerLine_cases rules b i with
    hstep | ⟨r, _, ⟨l, _, _, hstep⟩ | ⟨_, hstep⟩ | ⟨parts, _, _, hstep⟩⟩ <;> rw [hstep]
  · exact hi
  · rw [List.length_set]
    exact hi
  · simp only [Option.getD_none, List.length_eraseIdx_of_lt hi]
    omega
  · simp only [Option.getD_some, List.length_append, List.length_take, List.length_drop]
    omega

/-- Without block rules a visit is what the line rules leave. -/
theorem visit_eq_offerLine (hb : s.blockRules = []) (b : Buffer) (i : Nat) :
    visit s b i = .ok ⟨(offerLine s.lineRules b i).buffer, (offerLine s.lineRules b i).edits,
      i + (offerLine s.lineRules b i).advance?.getD 0⟩ := by
  cases hadvance : (offerLine s.lineRules b i).advance? with
  | none => simp [visit, hadvance]
  | some advance => simp [visit, hadvance, hb, offerBlocks]

/-- Rules that are local visit the parts alone, if the rewrites leave the parts apart. -/
theorem separates_of_isLocal {apart : Buffer → Buffer → Prop} (hb : s.blockRules = [])
    (hlocal : ∀ r ∈ s.lineRules, r.IsLocal apart)
    (hupper : ∀ {b c i v}, apart b c → i < b.length → visit s b i = .ok v → apart v.buffer c)
    (hlower : ∀ {b c i v}, apart b c → i < c.length → visit s c i = .ok v → apart b v.buffer) :
    Separates s apart where
  upper {b c i v} hapart hi hv := by
    have hkeep := hupper hapart hi hv
    have hfirst : firstAnswer? s.lineRules (b ++ c) i = firstAnswer? s.lineRules b i :=
      firstAnswer?_congr fun r hr => (hlocal r hr).upper hapart hi
    rw [visit_eq_offerLine hb] at hv ⊢
    cases hv
    rw [offerLine_append_left hi hfirst]
    exact ⟨rfl, next_le_length_of_offerLine hi, hkeep⟩
  lower {b c i v} hapart hi hv := by
    have hkeep := hlower hapart hi hv
    have hfirst : firstAnswer? s.lineRules (b ++ c) (b.length + i) =
        firstAnswer? s.lineRules c i :=
      firstAnswer?_congr fun r hr => (hlocal r hr).lower hapart hi
    rw [visit_eq_offerLine hb] at hv ⊢
    cases hv
    rw [offerLine_append_right hfirst, Nat.add_assoc]
    exact ⟨rfl, hkeep⟩

/-- Rules that ask for their line alone visit the parts of any document alone. -/
theorem separates_of_unguarded (hb : s.blockRules = [])
    (h : ∀ r ∈ s.lineRules, ∃ name, ∃ f : Line → Option Rewrite,
      r = LineRule.guarded name [] fun b i => f (b.line i)) :
    Separates s fun _ _ => True := by
  refine separates_of_isLocal hb (fun r hr => ?_) (fun _ _ _ => trivial) fun _ _ _ => trivial
  obtain ⟨name, f, rfl⟩ := h r hr
  exact LineRule.isLocal_of_unguarded name f _

end Pass

/-! ### The parts of a split item -/

namespace Line

variable {l : Line}

/-- An item at the left margin starts with a dash and a blank. -/
theorem exists_dash_of_item (hkind : l.kind = .item) (hdepth : l.depth = 0) :
    ∃ x rest, l = '-' :: x :: rest ∧ Text.isIndent x = true := by
  have hlt := depth_lt_column_of_item hkind
  have hu : l.unindented = l := by
    rw [← drop_depth, hdepth, List.drop_zero]
  unfold column at hlt
  rw [hu] at hlt
  split at hlt
  · next after =>
      split at hlt
      · next hstarts =>
          cases after with
          | nil => cases hstarts
          | cons x rest => exact ⟨x, rest, rfl, hstarts⟩
      · exact absurd hlt (Nat.lt_irrefl _)
  · exact absurd hlt (Nat.lt_irrefl _)

theorem item_of_dash {x c : Char} {rest : Line} (hx : Text.isIndent x = true) (hc : c ∈ rest)
    (hsolid : Text.isBlank c = false) :
    Line.kind ('-' :: x :: rest) = .item ∧ Line.depth ('-' :: x :: rest) = 0 := by
  have hblank : Text.allBlank (x :: rest) = false :=
    allBlank_eq_false (List.mem_cons_of_mem x hc) hsolid
  have hkind := (kind_of_dash (l := '-' :: x :: rest) rfl hblank).1
  rw [startsIndented, hx, if_pos rfl] at hkind
  exact ⟨hkind, rfl⟩

end Line

namespace Reflow

variable {limit : Nat} {l : Line} {parts : List Line}

/-- The first part of an item at the left margin is one as well. -/
theorem item_of_split? (h : split? limit l = some parts) (hkind : l.kind = .item)
    (hdepth : l.depth = 0) :
    ∃ first more, parts = first :: more ∧ first.kind = .item ∧ first.depth = 0 := by
  obtain ⟨x, rest, rfl, hx⟩ := Line.exists_dash_of_item hkind hdepth
  obtain ⟨first, cuts, rfl, hl, hlast, _⟩ := exists_cuts_of_split? h
  have hcomma : x ≠ ',' := by
    rintro rfl
    cases hx
  refine ⟨first, _, rfl, ?_⟩
  cases first with
  | nil => cases hlast
  | cons c first =>
      obtain ⟨rfl, htail⟩ := List.cons.inj hl
      cases first with
      | nil => cases hlast
      | cons c first =>
          obtain ⟨rfl, _⟩ := List.cons.inj htail
          have hmem : ',' ∈ first := by
            simpa [hcomma.symm] using List.mem_of_getLast? hlast
          exact Line.item_of_dash hx hmem (by decide)

end Reflow

/-! ### Documents that stand one above the other -/

namespace Buffer

variable {b c : Buffer} {i : Nat} {l : Line}

/-- One document may stand above another: the lower one starts with an item at the left margin, and
the upper one has no parameter there if lists of tasks are asked for. -/
structure MayPrecede (asksForLists : Prop) (b c : Buffer) : Prop where
  startsItem : c.StartsItem
  noFlushParameter : asksForLists → b.NoFlushParameter

theorem StartsItem.set (hc : c.StartsItem) (hi : i < c.length) (hl : (c.line i).SameFrame l) :
    StartsItem (c.set i l) := by
  have hframe := sameFrame_line_set hi hl 0
  exact ⟨hframe.isItem_iff.2 hc.kind_eq, hframe.depth_eq.trans hc.depth_eq⟩

theorem NoFlushParameter.set (hb : b.NoFlushParameter) (hl : l.kind = .parameter → 0 < l.depth)
    (i : Nat) : NoFlushParameter (b.set i l) := by
  intro l' hl'
  rcases List.mem_or_eq_of_mem_set hl' with hmem | rfl
  · exact hb l' hmem
  · exact hl

/-- The parts of the first line begin with an item at the left margin again. -/
theorem StartsItem.split {limit : Nat} {parts : List Line} (hc : c.StartsItem)
    (hparts : Reflow.split? limit (c.line i) = some parts) :
    StartsItem (c.take i ++ parts ++ c.drop (i + 1)) := by
  cases i with
  | zero =>
      obtain ⟨first, more, rfl, hkind, hdepth⟩ :=
        Reflow.item_of_split? hparts hc.kind_eq hc.depth_eq
      exact ⟨hkind, hdepth⟩
  | succ i =>
      cases c with
      | nil => cases hc.kind_eq
      | cons l rest => exact ⟨hc.kind_eq, hc.depth_eq⟩

theorem parent?_eq_none_of_depth (h : (b.line i).depth = 0) : b.parent? i = none := by
  rw [parent?, lastBefore?, h, nearest?_encloses_zero]

theorem depth_pos_of_isNested (h : b.isNested i = true) : 0 < (b.line i).depth := by
  rw [Nat.pos_iff_ne_zero]
  intro hzero
  rw [isNested, parent?_eq_none_of_depth hzero] at h
  cases h

theorem depth_pos_of_isItemLevel (h : b.isItemLevel i = true) (hkind : (b.line i).kind ≠ .item) :
    0 < (b.line i).depth := by
  rw [Nat.pos_iff_ne_zero]
  intro hzero
  rw [isItemLevel, owner?, if_neg hkind, parent?_eq_none_of_depth hzero] at h
  cases h

end Buffer

namespace Pass

variable {s : RuleSet} {rules : List (String × List Guard × (Line → Option Line))}
  {asksForLists : Prop}

open Buffer

/-- A guarded rule is local across a boundary of tasks. A rule that asks for the line above must not
answer for items. -/
theorem isLocal_of_guards {name : String} {guards : List Guard} {f : Line → Option Rewrite}
    (hlists : .taskList ∈ guards → asksForLists)
    (hcomment : .notAfterComment ∈ guards → ∀ l : Line, l.kind = .item → f l = none) :
    (LineRule.guarded name guards fun b i => f (b.line i)).IsLocal (MayPrecede asksForLists) where
  upper {b c i} h hi := by
    have hall : guards.all (Guard.allows (b ++ c) i) = guards.all (Guard.allows b i) := by
      rw [funext fun g => Guard.allows_append_left h.startsItem hi g]
    simp only [LineRule.guarded, line_append_left hi, hall]
  lower {b c i} h hi := by
    simp only [LineRule.guarded, line_append_right]
    split
    · rfl
    · next a ha =>
        have hall : guards.all (Guard.allows (b ++ c) (b.length + i)) =
            guards.all (Guard.allows c i) := by
          rw [Bool.eq_iff_iff, List.all_eq_true, List.all_eq_true]
          refine forall₂_congr fun g hg => ?_
          rw [Guard.allows_append_right h.startsItem]
          · intro hlist
            exact h.noFlushParameter (hlists (hlist ▸ hg))
          · intro hafter hzero
            rw [hzero, hcomment (hafter ▸ hg) _ h.startsItem.kind_eq] at ha
            cases ha
        rw [hall]

/-- Rules that write a line in the place of a line visit lists of tasks alone if they keep its
frame. A set that asks for lists of tasks only writes into items and below them. -/
theorem Replaces.separates (hs : Replaces s rules)
    (hframe : ∀ r ∈ rules, ∀ l l' : Line, r.2.2 l = some l' → l.SameFrame l')
    (hcomment : ∀ r ∈ rules, .notAfterComment ∈ r.2.1 → ∀ l : Line, l.kind = .item → r.2.2 l = none)
    (hlists : ∀ r ∈ rules, .taskList ∈ r.2.1 → asksForLists)
    (hdeep : asksForLists → ∀ r ∈ rules, .itemLevel ∈ r.2.1 ∨ .nested ∈ r.2.1) :
    Separates s (MayPrecede asksForLists) := by
  refine separates_of_isLocal hs.blockRules_eq (fun rule hrule => ?_) (fun {b c i v} h hi hv => ?_)
    fun {b c i v} h hi hv => ?_
  · obtain ⟨r, hr, rfl⟩ := hs.exists_of_mem hrule
    refine isLocal_of_guards (f := fun l => (r.2.2 l).map Rewrite.replace) (hlists r hr)
      fun hmem l hl => ?_
    rw [hcomment r hr hmem l hl, Option.map_none]
  · refine ⟨h.startsItem, fun hasks => ?_⟩
    rcases hs.exists_visit hi hv with ⟨hbuffer, _⟩ | ⟨r, hr, l, hl, hguards, hbuffer⟩
    · rw [hbuffer]
      exact h.noFlushParameter hasks
    · rw [hbuffer]
      refine (h.noFlushParameter hasks).set (fun hkind => ?_) i
      have hsame := hframe r hr _ _ hl
      rw [hsame.depth_eq]
      rcases hdeep hasks r hr with hmem | hmem
      · refine depth_pos_of_isItemLevel (hguards _ hmem) fun hitem => ?_
        rw [hsame.isItem_iff.2 hitem] at hkind
        cases hkind
      · exact depth_pos_of_isNested (hguards _ hmem)
  · refine ⟨?_, h.noFlushParameter⟩
    rcases hs.exists_visit hi hv with ⟨hbuffer, _⟩ | ⟨r, hr, l, hl, _, hbuffer⟩
    · rw [hbuffer]
      exact h.startsItem
    · rw [hbuffer]
      exact h.startsItem.set hi (hframe r hr _ _ hl)

end Pass

/-! ### The sets of line rules -/

namespace RuleSets

open Pass

theorem separates_formatting : Separates formatting fun _ _ => True := by
  apply separates_of_unguarded rfl
  intro r hr
  obtain rfl := List.mem_singleton.1 hr
  exact ⟨_, fun l => (stripTrailing? l).map Rewrite.replace, rfl⟩

theorem separates_molecule : Separates molecule fun _ _ => True := by
  apply separates_of_unguarded rfl
  intro r hr
  obtain rfl := List.mem_singleton.1 hr
  exact ⟨_, fun l => if namesCommand l then some .delete else none, rfl⟩

theorem separates_truthy : Separates truthy (Buffer.MayPrecede False) := by
  refine replaces_truthy.separates ?_ ?_ (by simp) False.elim
  · simpa using fun l l' h => (climbs_of_normalizeTruthy? false h).sameFrame
  · simp

theorem separates_commaSpacing : Separates commaSpacing (Buffer.MayPrecede False) := by
  refine replaces_commaSpacing.separates ?_ ?_ (by simp) False.elim
  · simpa using fun l l' h => (climbs_of_spaceLine? false h).sameFrame
  · simp

theorem separates_nameCasing : Separates nameCasing (Buffer.MayPrecede True) := by
  refine replaces_nameCasing.separates ?_ ?_ (by simp) (by simp)
  · simpa using fun l l' h => (climbs_of_capitalizeName? h).sameFrame
  · simp

theorem separates_fqcn : Separates fqcn (Buffer.MayPrecede True) := by
  refine replaces_fqcn.separates ?_ ?_ (by simp) (by simp)
  · simpa using ⟨fun l l' h => (climbs_of_qualifyModule? h).sameFrame,
      fun l l' h => (climbs_of_unqualifyParameter? h).sameFrame⟩
  · simp

theorem separates_serviceNames : Separates serviceNames (Buffer.MayPrecede False) := by
  refine replaces_serviceNames.separates ?_ ?_ ?_ False.elim <;> rw [List.forall_mem_map]
  · intro r hr l l' h
    exact (climbs_of_renameUnit? hr h).sameFrame
  · simp
  · simp

theorem separates_ignoreErrors : Separates ignoreErrors (Buffer.MayPrecede False) := by
  refine replaces_ignoreErrors.separates ?_ ?_ (by simp) False.elim
  · simpa using fun l l' h => (climbs_of_replaceIgnoreErrors? false h).sameFrame
  · rw [List.forall_mem_singleton]
    intro _ l hitem
    cases hl : replaceIgnoreErrors? l with
    | none => exact hl
    | some l' =>
        obtain ⟨⟨rest, hrest⟩, _⟩ := of_replaceIgnoreErrors? hl
        have hcolumn := Line.column_of_startsBody (l := l) (by rw [hrest]; rfl)
        exact absurd hitem (Line.kind_ne_item_of_column_eq hcolumn)

/-- The first part of a line at the boundary is an item again, and the other parts stand below. -/
theorem separates_lineLength (limit : Nat) :
    Separates (lineLength limit) (Buffer.MayPrecede False) := by
  refine separates_of_isLocal rfl (fun rule hrule => ?_) (fun {b c i v} h hi hv => ?_)
    fun {b c i v} h hi hv => ?_
  · obtain rfl := List.mem_singleton.1 hrule
    exact isLocal_of_guards (f := fun l => (Reflow.split? limit l).map Rewrite.split)
      (by simp) (by simp)
  · exact ⟨h.startsItem, False.elim⟩
  · refine ⟨?_, False.elim⟩
    rcases visit_lineLength_cases hi hv with hbuffer | ⟨parts, hparts, _, hbuffer⟩
    · rw [hbuffer]
      exact h.startsItem
    · rw [hbuffer]
      exact h.startsItem.split hparts

end RuleSets

end TaskTidy
