import TaskTidy.CommandLine.Run
import TaskTidy.Proofs.MergedTables

/-!
# Layered settings

Where a backend merges the files of a loader table by table in their order, with the overrides on
top, a setting has the value of the last source that gives it one. For a run these are the flag, the
given file, the file of the working directory and the defaults, in this order. A list is the value
of a setting as a whole, so it comes from a single source.
-/

namespace TaskTidy

namespace Settings

open Toml

/-! ### Leaves -/

/-- The single settings. -/
inductive Leaf
  | extensions
  | excludedDirectories
  | respectGitignore
  | backup
  | backupSuffix
  | enabled
  | maxWidth
  | fileMode
  | directoryMode
  | jobs
  deriving DecidableEq

namespace Leaf

/-- The steps to a setting. -/
def trail : Leaf → Trail
  | .extensions => [("discovery", 0), ("extensions", 0)]
  | .excludedDirectories => [("discovery", 0), ("exclude_dirs", 1)]
  | .respectGitignore => [("discovery", 0), ("respect_gitignore", 2)]
  | .backup => [("write", 1), ("backup", 0)]
  | .backupSuffix => [("write", 1), ("backup_suffix", 1)]
  | .enabled => [("rules", 2), ("enabled", 0)]
  | .maxWidth => [("rules", 2), ("line_length", 1), ("max_width", 0)]
  | .fileMode => [("rules", 2), ("permissions", 2), ("file_mode", 0)]
  | .directoryMode => [("rules", 2), ("permissions", 2), ("directory_mode", 1)]
  | .jobs => [("batch", 3), ("jobs", 0)]

/-- A setting is read from a value, as its type asks. -/
def Reads (v : Value) (s : Settings) : Leaf → Prop
  | .extensions => asStrings? v = some s.discovery.extensions
  | .excludedDirectories => asStrings? v = some s.discovery.excludedDirectories
  | .respectGitignore => asBool? v = some s.discovery.respectGitignore
  | .backup => asBool? v = some s.write.backup
  | .backupSuffix => asString? v = some s.write.backupSuffix
  | .enabled => asStrings? v = some s.rules.enabled
  | .maxWidth => asCount? v = some s.rules.maxWidth
  | .fileMode => asString? v = some s.rules.fileMode
  | .directoryMode => asString? v = some s.rules.directoryMode
  | .jobs => asCount? v = some s.jobs

variable {leaf : Leaf} {v : Value} {s : Settings}

theorem isLeaf_of_reads (h : leaf.Reads v s) : v.isLeaf = true := by
  cases leaf <;> cases v <;> first | rfl | cases h

end Leaf

/-! ### Reading -/

section

variable {α β : Type} {group d : Value} {place : Nat} {key : String}

private theorem exists_ok_of_bind {x : Except Failure α} {f : α → Except Failure β} {b : β}
    (h : x >>= f = .ok b) : ∃ a, x = .ok a ∧ f a = .ok b := by
  cases x with
  | error cause => cases h
  | ok a => exact ⟨a, rfl, h⟩

/-- Another wording of a failure changes no result. -/
theorem mapError_eq_ok_iff {ε δ : Type} {x : Except ε α} {f : ε → δ} {a : α} :
    x.mapError f = .ok a ↔ x = .ok a := by
  cases x <;> simp [Except.mapError]

theorem exists_at?_of_read {as? : Value → Option α} {a : α}
    (h : read group place key as? = .ok a) :
    ∃ v, Value.at? [(key, place)] (some group) = some v ∧ as? v = some a := by
  rw [read] at h
  cases hv : valueAt? key place group with
  | none =>
      rw [hv] at h
      cases h
  | some v =>
      refine ⟨v, hv, ?_⟩
      rw [hv] at h
      dsimp only at h
      cases ha : as? v with
      | none =>
          rw [ha] at h
          cases h
      | some b =>
          rw [ha] at h
          cases h
          rfl

/-- A section is read as it stands. -/
theorem at?_of_readSection (h : read group place key asSection? = .ok d) (rest : Trail) :
    Value.at? ((key, place) :: rest) (some group) = Value.at? rest (some d) := by
  obtain ⟨v, hv, hd⟩ := exists_at?_of_read h
  have heq : v = d := by
    cases v <;> cases hd <;> rfl
  rw [← heq, ← hv]
  rfl

theorem at?_of_readDiscovery {s : DiscoverySettings} (h : readDiscovery d = .ok s) :
    (∃ v, Value.at? [("extensions", 0)] (some d) = some v ∧ asStrings? v = some s.extensions) ∧
      (∃ v, Value.at? [("exclude_dirs", 1)] (some d) = some v ∧
        asStrings? v = some s.excludedDirectories) ∧
      ∃ v, Value.at? [("respect_gitignore", 2)] (some d) = some v ∧
        asBool? v = some s.respectGitignore := by
  obtain ⟨extensions, h1, h⟩ := exists_ok_of_bind h
  obtain ⟨directories, h2, h⟩ := exists_ok_of_bind h
  obtain ⟨respect, h3, h⟩ := exists_ok_of_bind h
  cases h
  exact ⟨exists_at?_of_read h1, exists_at?_of_read h2, exists_at?_of_read h3⟩

theorem at?_of_readWrite {s : WriteSettings} (h : readWrite d = .ok s) :
    (∃ v, Value.at? [("backup", 0)] (some d) = some v ∧ asBool? v = some s.backup) ∧
      ∃ v, Value.at? [("backup_suffix", 1)] (some d) = some v ∧
        asString? v = some s.backupSuffix := by
  obtain ⟨backup, h1, h⟩ := exists_ok_of_bind h
  obtain ⟨suffix, h2, h⟩ := exists_ok_of_bind h
  cases h
  exact ⟨exists_at?_of_read h1, exists_at?_of_read h2⟩

theorem at?_of_readRules {s : RuleSettings} (h : readRules d = .ok s) :
    (∃ v, Value.at? [("enabled", 0)] (some d) = some v ∧ asStrings? v = some s.enabled) ∧
      (∃ v, Value.at? [("line_length", 1), ("max_width", 0)] (some d) = some v ∧
        asCount? v = some s.maxWidth) ∧
      (∃ v, Value.at? [("permissions", 2), ("file_mode", 0)] (some d) = some v ∧
        asString? v = some s.fileMode) ∧
      ∃ v, Value.at? [("permissions", 2), ("directory_mode", 1)] (some d) = some v ∧
        asString? v = some s.directoryMode := by
  obtain ⟨lineLength, hline, h⟩ := exists_ok_of_bind h
  obtain ⟨permissions, hpermissions, h⟩ := exists_ok_of_bind h
  obtain ⟨enabled, h1, h⟩ := exists_ok_of_bind h
  obtain ⟨maxWidth, h2, h⟩ := exists_ok_of_bind h
  obtain ⟨fileMode, h3, h⟩ := exists_ok_of_bind h
  obtain ⟨directoryMode, h4, h⟩ := exists_ok_of_bind h
  cases h
  rw [at?_of_readSection hline, at?_of_readSection hpermissions,
    at?_of_readSection hpermissions]
  exact ⟨exists_at?_of_read h1, exists_at?_of_read h2, exists_at?_of_read h3,
    exists_at?_of_read h4⟩

/-- Settings that were read hold at each leaf the value of the table there. -/
theorem Leaf.exists_reads_of_ofTable {t : Entries} {s : Settings} (h : ofTable t = .ok s)
    (leaf : Leaf) :
    ∃ v, Value.at? leaf.trail (some (.table t)) = some v ∧ leaf.Reads v s := by
  obtain ⟨discovery, hdiscovery, h⟩ := exists_ok_of_bind h
  obtain ⟨discoverySettings, hd, h⟩ := exists_ok_of_bind h
  obtain ⟨write, hwrite, h⟩ := exists_ok_of_bind h
  obtain ⟨writeSettings, hw, h⟩ := exists_ok_of_bind h
  obtain ⟨rules, hrules, h⟩ := exists_ok_of_bind h
  obtain ⟨ruleSettings, hr, h⟩ := exists_ok_of_bind h
  obtain ⟨batch, hbatch, h⟩ := exists_ok_of_bind h
  obtain ⟨jobs, hj, h⟩ := exists_ok_of_bind h
  cases h
  obtain ⟨hextensions, hdirectories, hrespect⟩ := at?_of_readDiscovery hd
  obtain ⟨hbackup, hsuffix⟩ := at?_of_readWrite hw
  obtain ⟨henabled, hwidth, hfile, hdirectory⟩ := at?_of_readRules hr
  cases leaf with
  | extensions => rwa [trail, at?_of_readSection hdiscovery]
  | excludedDirectories => rwa [trail, at?_of_readSection hdiscovery]
  | respectGitignore => rwa [trail, at?_of_readSection hdiscovery]
  | backup => rwa [trail, at?_of_readSection hwrite]
  | backupSuffix => rwa [trail, at?_of_readSection hwrite]
  | enabled => rwa [trail, at?_of_readSection hrules]
  | maxWidth => rwa [trail, at?_of_readSection hrules]
  | fileMode => rwa [trail, at?_of_readSection hrules]
  | directoryMode => rwa [trail, at?_of_readSection hrules]
  | jobs =>
      rw [trail, at?_of_readSection hbatch]
      exact exists_at?_of_read hj

end

/-! ### Loading -/

section

variable {b : Backend} {l : Loader}

theorem exists_of_tables_cons {layer : Layer} {rest : List Layer} {files : List Entries}
    (h : tables b (layer :: rest) = .ok files) :
    ∃ entries more, layer.entries b = .ok entries ∧ tables b rest = .ok more ∧
      files = entries :: more := by
  rw [tables] at h
  cases hentries : layer.entries b with
  | error cause =>
      rw [hentries] at h
      cases h
  | ok entries =>
      cases hmore : tables b rest with
      | error cause =>
          rw [hentries, hmore] at h
          cases h
      | ok more =>
          rw [hentries, hmore] at h
          cases h
          exact ⟨entries, more, rfl, rfl, rfl⟩

/-- Settings that were loaded are read from the merged files. -/
theorem Loader.exists_of_load {s : Settings} (h : l.load b = .ok s) :
    ∃ files merged, tables b l.layers = .ok files ∧
      b.merge (defaults :: files) l.overrides = .ok merged ∧ ofTable merged = .ok s := by
  rw [load, table] at h
  cases htables : tables b l.layers with
  | error cause =>
      rw [htables] at h
      cases h
  | ok files =>
      rw [htables] at h
      dsimp only at h
      cases hmerge : b.merge (defaults :: files) l.overrides with
      | error cause =>
          rw [hmerge] at h
          cases h
      | ok merged =>
          rw [hmerge] at h
          exact ⟨files, merged, rfl, hmerge, h⟩

theorem Loader.foldl_withLayer (l : Loader) (files : List Layer) :
    files.foldl withLayer l = ⟨l.layers ++ files, l.overrides⟩ := by
  induction files generalizing l with
  | nil => rw [List.append_nil, List.foldl_nil]
  | cons file rest ih =>
      rw [List.foldl_cons, ih, withLayer, List.append_assoc]
      rfl

end

/-! ### Sources of a leaf -/

namespace Leaf

variable {leaf other : Leaf} {v : Value}

/-- The value that an override gives a leaf. -/
def inOverride? (leaf : Leaf) (override : String × Value) : Option Value :=
  Value.leaf? (.table (overrideTable override)) leaf.trail

/-- The value that a configuration file gives a leaf. -/
def inLayer? (b : Backend) (leaf : Leaf) (layer : Layer) : Option Value :=
  (layer.entries b).toOption.bind fun entries => Value.leaf? (.table entries) leaf.trail

/-- The value of a leaf in the defaults. -/
def default? (leaf : Leaf) : Option Value :=
  Value.leaf? (.table defaults) leaf.trail

theorem inLayer?_of_entries {b : Backend} {layer : Layer} {entries : Entries}
    (h : layer.entries b = .ok entries) :
    leaf.inLayer? b layer = Value.leaf? (.table entries) leaf.trail := by
  rw [inLayer?, h]
  rfl

/-- Of several files the last one that gives a leaf a value counts. -/
theorem lastLeaf?_of_tables {b : Backend} {layers : List Layer} {files : List Entries}
    (h : tables b layers = .ok files) :
    lastLeaf? files leaf.trail = layers.reverse.findSome? (leaf.inLayer? b) := by
  induction layers generalizing files with
  | nil =>
      cases h
      rfl
  | cons layer rest ih =>
      obtain ⟨entries, more, hentries, hmore, rfl⟩ := exists_of_tables_cons h
      rw [lastLeaf?_cons, ih hmore, List.reverse_cons, List.findSome?_append,
        List.findSome?_singleton, inLayer?_of_entries hentries]

/-- A leaf has the value of the last override that gives it one, or else that of the last file, or
else its default. -/
theorem exists_reads_of_load {b : Backend} {l : Loader} {s : Settings} (hmerges : l.MergesInOrder b)
    (h : l.load b = .ok s) :
    ∃ order, IsOrderOf order l.overrides ∧ ∃ v, leaf.Reads v s ∧
      (lastLeaf? (order.map overrideTable) leaf.trail).or
        ((l.layers.reverse.findSome? (leaf.inLayer? b)).or leaf.default?) = some v := by
  obtain ⟨files, merged, htables, hmerge, hread⟩ := Loader.exists_of_load h
  obtain ⟨order, horder, hleaves⟩ := hmerges files merged htables hmerge
  obtain ⟨v, hv, hreads⟩ := leaf.exists_reads_of_ofTable hread
  have hleaf := isLeaf_of_reads hreads
  refine ⟨order, horder, v, hreads, ?_⟩
  rw [← lastLeaf?_of_tables htables, default?, ← lastLeaf?_cons, ← lastLeaf?_append]
  exact lastLeaf?_of_overlay hleaf ((hleaves leaf.trail v hleaf).1 hv)

/-! ### Overrides of one leaf -/

/-- The keys on the way to a setting. -/
def keys (leaf : Leaf) : List String :=
  leaf.trail.map Prod.fst

/-- The route to a setting. -/
def route (leaf : Leaf) : String :=
  ".".intercalate leaf.keys

theorem keysOf_route (leaf : Leaf) : keysOf leaf.route = leaf.keys := by
  cases leaf <;> decide +kernel

theorem foldKey_keys (leaf : Leaf) : leaf.keys.map foldKey = leaf.keys := by
  cases leaf <;> decide +kernel

theorem isDotted_route (leaf : Leaf) : IsDotted leaf.route := by
  cases leaf <;> decide +kernel

/-- No leaf lies below another one. -/
theorem keys_prefix_iff : other.keys <+: leaf.keys ↔ other = leaf := by
  cases other <;> cases leaf <;> decide

theorem route_injective : Function.Injective route := by
  intro other leaf h
  have hkeys : other.keys = leaf.keys := by
    rw [← keysOf_route, h, keysOf_route]
  exact keys_prefix_iff.1 (hkeys ▸ List.prefix_rfl)

theorem table_overrideTable_route (leaf : Leaf) (v : Value) :
    .table (overrideTable (leaf.route, v)) = v.nest leaf.keys := by
  rw [overrideTable, keysOf_route]
  cases leaf <;> rfl

/-- An override at the route to a leaf gives a value to that leaf alone. -/
theorem inOverride?_route (hv : v.isLeaf = true) :
    leaf.inOverride? (other.route, v) = if other = leaf then some v else none := by
  rw [inOverride?, table_overrideTable_route, Value.leaf?_nest, foldKey_keys]
  by_cases heq : other = leaf
  · subst heq
    have hdrop : other.trail.drop other.keys.length = [] := by
      rw [keys, List.length_map, List.drop_length]
    rw [if_pos rfl, hdrop]
    exact (if_pos List.prefix_rfl).trans (Value.leaf?_nil hv)
  · rw [if_neg heq]
    exact if_neg (mt keys_prefix_iff.1 heq)

/-- The overrides that leaves get, each at its own route. -/
def overrides (values : Leaf → Option Value) (leaves : List Leaf) : List (String × Value) :=
  leaves.filterMap fun leaf => (values leaf).map fun v => (leaf.route, v)

theorem mem_overrides_iff {values : Leaf → Option Value} {leaves : List Leaf}
    {override : String × Value} :
    override ∈ overrides values leaves ↔
      ∃ leaf ∈ leaves, ∃ v, values leaf = some v ∧ (leaf.route, v) = override := by
  simp only [overrides, List.mem_filterMap, Option.map_eq_some_iff]

theorem isDotted_of_mem_overrides {values : Leaf → Option Value} {leaves : List Leaf} :
    ∀ override ∈ overrides values leaves, IsDotted override.1 := by
  intro override hmem
  obtain ⟨leaf, -, v, -, rfl⟩ := mem_overrides_iff.1 hmem
  exact leaf.isDotted_route

section

variable {values : Leaf → Option Value} {leaves : List Leaf} {order : List (String × Value)}

theorem eq_of_mem_overrides {w : Value} (hvalue : values leaf = some v)
    (hw : (leaf.route, w) ∈ overrides values leaves) : w = v := by
  obtain ⟨other, -, w', hw', heq⟩ := mem_overrides_iff.1 hw
  obtain ⟨hroute, rfl⟩ := Prod.mk.inj heq
  rw [route_injective hroute, hvalue] at hw'
  exact (Option.some.inj hw').symm

section

variable (hvalues : ∀ leaf v, values leaf = some v → leaf ∈ leaves ∧ v.isLeaf = true)
  (horder : IsOrderOf order (overrides values leaves))

include hvalues horder

/-- What an override gives a leaf is its own value. -/
theorem eq_some_of_leaf?_overrideTable {t : Entries} (ht : t ∈ order.map overrideTable)
    (hv : Value.leaf? (.table t) leaf.trail = some v) : values leaf = some v := by
  obtain ⟨⟨text, value⟩, hmem, rfl⟩ := List.mem_map.1 ht
  obtain ⟨other, -, w, hw, heq⟩ := mem_overrides_iff.1 (horder.mem hmem)
  obtain ⟨rfl, rfl⟩ := Prod.mk.inj heq
  have hother := (inOverride?_route (hvalues other w hw).2).symm.trans hv
  by_cases heq : other = leaf
  · subst heq
    rw [if_pos rfl] at hother
    rw [hw, hother]
  · rw [if_neg heq] at hother
    cases hother

/-- Each leaf is given its own override, if it gets one. -/
theorem lastLeaf?_overrides (leaf : Leaf) :
    lastLeaf? (order.map overrideTable) leaf.trail = values leaf := by
  cases hvalue : values leaf with
  | none =>
      apply lastLeaf?_eq_none
      intro t ht
      rw [Option.eq_none_iff_forall_ne_some]
      intro v hv
      have hsome := eq_some_of_leaf?_overrideTable hvalues horder ht hv
      exact absurd (hvalue.symm.trans hsome) nofun
  | some v =>
      obtain ⟨hmem, hv⟩ := hvalues leaf v hvalue
      have hset : (leaf.route, v) ∈ overrides values leaves :=
        mem_overrides_iff.2 ⟨leaf, hmem, v, hvalue, rfl⟩
      have hlast := horder.mem_of_unique hset fun w hw => eq_of_mem_overrides hvalue hw
      apply lastLeaf?_eq_some (List.mem_map_of_mem hlast)
        ((inOverride?_route hv).trans (if_pos rfl))
      intro t ht w hw
      have hsome := eq_some_of_leaf?_overrideTable hvalues horder ht hw
      exact Option.some.inj (hsome.symm.trans hvalue)

end

end

/-- An override holds for a leaf that it gives a value to, if no override of another text does,
whether files were layered before it or after it. -/
theorem reads_of_withOverride {b : Backend} {l : Loader} {files : List Layer} {text : String}
    {value : Value} {s : Settings} (hv : leaf.inOverride? (text, value) = some v)
    (hothers : ∀ other ∈ l.overrides, other.1 ≠ text → leaf.inOverride? other = none)
    (hmerges : (files.foldl Loader.withLayer (l.withOverride text value)).MergesInOrder b)
    (h : (files.foldl Loader.withLayer (l.withOverride text value)).load b = .ok s) :
    leaf.Reads v s := by
  obtain ⟨order, horder, w, hreads, hw⟩ := exists_reads_of_load hmerges h
  rw [Loader.foldl_withLayer, Loader.withOverride] at horder
  have hlast : lastLeaf? (order.map overrideTable) leaf.trail = some v := by
    apply lastLeaf?_eq_some (List.mem_map_of_mem horder.mem_last) hv
    rw [List.forall_mem_map]
    rintro ⟨name, old⟩ hmem u hu
    by_cases htext : name = text
    · subst htext
      rw [horder.eq_of_last hmem] at hu
      exact Option.some.inj (hu.symm.trans hv)
    · rcases List.mem_append.1 (horder.mem hmem) with hearlier | hset
      · exact absurd ((hothers _ hearlier htext).symm.trans hu) nofun
      · exact absurd (congrArg Prod.fst (List.mem_singleton.1 hset)) htext
  rw [hlast, Option.some_or, Option.some.injEq] at hw
  rwa [hw]

end Leaf

end Settings

namespace CommandLine

open Settings Toml

/-- The value that the flags give a leaf. -/
def flag? (o : Options) : Leaf → Option Value
  | .enabled => o.rules.map fun names => listOf (cleanNames names)
  | .maxWidth => o.maxWidth.map fun n => .integer n
  | .jobs => o.jobs.map fun n => .integer n
  | .backup =>
      if o.has .backup then some (.boolean true)
      else if o.has .noBackup then some (.boolean false)
      else none
  | _ => none

/-- The leaves that have flags, in the order in which a run sets them. -/
def flagged : List Leaf :=
  [.enabled, .maxWidth, .jobs, .backup]

variable {h : Host} {o : Options} {t : FileTree} {s : Settings}

theorem mem_flagged_of_flag? (o : Options) (leaf : Leaf) (v : Value) (h : flag? o leaf = some v) :
    leaf ∈ flagged ∧ v.isLeaf = true := by
  cases leaf with
  | enabled | maxWidth | jobs =>
      obtain ⟨_, _, rfl⟩ := Option.map_eq_some_iff.1 h
      exact ⟨by decide, rfl⟩
  | backup =>
      refine ⟨by decide, ?_⟩
      rw [flag?] at h
      split at h
      · cases h
        rfl
      · split at h <;> cases h
        rfl
  | _ => cases h

theorem rulesOverride_eq (o : Options) : rulesOverride o = Leaf.overrides (flag? o) [.enabled] := by
  rw [rulesOverride, Leaf.overrides, List.filterMap_cons, flag?]
  cases o.rules <;> rfl

theorem eq_overrides_of_widthOverride {width : List (String × Value)}
    (h : widthOverride o = .ok width) : width = Leaf.overrides (flag? o) [.maxWidth] := by
  rw [widthOverride] at h
  rw [Leaf.overrides, List.filterMap_cons, flag?]
  cases hn : o.maxWidth with
  | none =>
      rw [hn] at h
      cases h
      rfl
  | some n =>
      rw [hn] at h
      dsimp only at h
      split at h <;> cases h
      rfl

theorem eq_overrides_of_jobsOverride {jobs : List (String × Value)}
    (h : jobsOverride o = .ok jobs) : jobs = Leaf.overrides (flag? o) [.jobs] := by
  rw [jobsOverride] at h
  rw [Leaf.overrides, List.filterMap_cons, flag?]
  cases hn : o.jobs with
  | none =>
      rw [hn] at h
      cases h
      rfl
  | some n =>
      rw [hn] at h
      dsimp only at h
      split at h <;> cases h
      rfl

theorem backupOverride_eq (o : Options) :
    backupOverride o = Leaf.overrides (flag? o) [.backup] := by
  rw [backupOverride, Leaf.overrides, List.filterMap_cons, flag?]
  cases o.has .backup with
  | true => rfl
  | false => cases o.has .noBackup <;> rfl

/-- The flags are overrides of their leaves. -/
theorem eq_overrides_of_overrides {values : List (String × Value)} (h : overrides o = .ok values) :
    values = Leaf.overrides (flag? o) flagged := by
  rw [overrides] at h
  cases hwidth : widthOverride o with
  | error cause =>
      rw [hwidth] at h
      cases h
  | ok width =>
      rw [hwidth] at h
      dsimp only at h
      cases hjobs : jobsOverride o with
      | error cause =>
          rw [hjobs] at h
          cases h
      | ok jobs =>
          rw [hjobs] at h
          cases h
          rw [rulesOverride_eq, eq_overrides_of_widthOverride hwidth,
            eq_overrides_of_jobsOverride hjobs, backupOverride_eq]
          simp only [Leaf.overrides, ← List.filterMap_append]
          rfl

/-- The settings of a run are loaded from its files and flags. -/
theorem exists_load_of_settings (hs : settings h o t = .ok s) :
    ∃ values, overrides o = .ok values ∧
      Loader.load h.backend ⟨layers h o t, values⟩ = .ok s := by
  rw [settings] at hs
  cases hvalues : overrides o with
  | error cause =>
      rw [hvalues] at hs
      cases hs
  | ok values =>
      rw [hvalues] at hs
      exact ⟨values, rfl, mapError_eq_ok_iff.1 hs⟩

/-- The file of the working directory. -/
def workingFile (h : Host) (t : FileTree) : Layer :=
  ⟨h.findText? t settingsFile, false⟩

/-- The file that is given as an option. -/
def givenFile? (h : Host) (o : Options) (t : FileTree) : Option Layer :=
  o.config.map fun path => ⟨h.findText? t path, true⟩

/-- The value of a leaf in the topmost source that gives it one. -/
def topmost? (h : Host) (o : Options) (t : FileTree) (leaf : Leaf) : Option Value :=
  (flag? o leaf).or <| ((givenFile? h o t).bind (leaf.inLayer? h.backend)).or <|
    (leaf.inLayer? h.backend (workingFile h t)).or leaf.default?

theorem findSome?_layers (h : Host) (o : Options) (t : FileTree) (leaf : Leaf) :
    (layers h o t).reverse.findSome? (leaf.inLayer? h.backend) =
      ((givenFile? h o t).bind (leaf.inLayer? h.backend)).or
        (leaf.inLayer? h.backend (workingFile h t)) := by
  rw [layers, givenFile?, workingFile, List.reverse_cons, List.findSome?_append,
    List.findSome?_singleton]
  cases o.config with
  | none => rfl
  | some path => rw [List.reverse_singleton, List.findSome?_singleton]; rfl

/-- The standard backend merges the files of a run if their keys at the top are plain. -/
theorem mergesInOrder_layers {values : List (String × Value)}
    (hfiles : ((tables .standard (layers h o t)).toOption.getD []).all hasPlainKeys = true)
    (hvalues : overrides o = .ok values) :
    Loader.MergesInOrder ⟨layers h o t, values⟩ .standard := by
  have hdotted : ∀ override ∈ values, IsDotted override.1 := by
    rw [eq_overrides_of_overrides hvalues]
    exact Leaf.isDotted_of_mem_overrides
  exact Loader.mergesInOrder_standard hfiles hdotted

end CommandLine

end TaskTidy
