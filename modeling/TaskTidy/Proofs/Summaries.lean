import Mathlib.Algebra.BigOperators.Group.List.Basic
import Mathlib.Algebra.GroupWithZero.Nat
import Mathlib.Data.List.Induction
import TaskTidy.Proofs.Batches

/-!
# Summaries

Workers record the reports on their files in one summary that they share. A summary holds nothing
but counts of its reports, and the failures are listed in the order of their kinds, not in the order
in which they occurred. So the summary at the end is the same for every way in which the reports are
given to workers and for every order in which the workers record them.
-/

namespace TaskTidy

namespace FileResult

/-- Whether a file needed no change. -/
def isUnchanged : FileResult → Bool
  | .unchanged => true
  | _ => false

/-- The number of edits of a changed file. -/
def edits : FileResult → Nat
  | .changed applied _ => applied.length
  | _ => 0

/-- The kind of the failure of a file that could not be fixed. -/
def failureKind? : FileResult → Option FailureKind
  | .failed cause => some cause.kind
  | _ => none

end FileResult

namespace FailureKind

/-- All kinds of failures, in the order of their names. -/
def all : List FailureKind :=
  [.encoding, .read, .structural, .write]

theorem mem_all (kind : FailureKind) : kind ∈ all := by
  cases kind <;> decide

theorem pairwise_rank_all : all.Pairwise fun a b => a.rank < b.rank := by
  decide

theorem pairwise_name_all : all.Pairwise fun a b => a.name < b.name := by
  decide

end FailureKind

namespace Summary

variable {reports order : List FileReport} {kind : FailureKind} {kinds : List FailureKind}
  {f : FailureKind → Nat}

/-! ### Counting failures -/

/-- The kinds that occurred, each with its number. -/
def occurring (kinds : List FailureKind) (f : FailureKind → Nat) : List (FailureKind × Nat) :=
  (kinds.filter fun kind => 0 < f kind).map fun kind => (kind, f kind)

/-- One more of a kind. -/
def more (kind : FailureKind) (f : FailureKind → Nat) (other : FailureKind) : Nat :=
  f other + if other = kind then 1 else 0

theorem mem_occurring {entry : FailureKind × Nat} : entry ∈ occurring kinds f ↔
    entry.1 ∈ kinds ∧ 0 < entry.2 ∧ entry.2 = f entry.1 := by
  obtain ⟨kind, n⟩ := entry
  simp only [occurring, List.mem_map, List.mem_filter, decide_eq_true_eq, Prod.mk.injEq]
  constructor
  · rintro ⟨_, ⟨hmem, hpos⟩, rfl, rfl⟩
    exact ⟨hmem, hpos, rfl⟩
  · rintro ⟨hmem, hpos, rfl⟩
    exact ⟨kind, ⟨hmem, hpos⟩, rfl, rfl⟩

theorem occurring_cons (kind : FailureKind) (kinds : List FailureKind) (f : FailureKind → Nat) :
    occurring (kind :: kinds) f =
      if 0 < f kind then (kind, f kind) :: occurring kinds f else occurring kinds f := by
  rw [occurring, List.filter_cons]
  split
  · next h => rw [if_pos (of_decide_eq_true h), List.map_cons, occurring]
  · next h => rw [if_neg (by simpa using h), occurring]

/-- A kind comes before all kinds of a higher rank. -/
theorem count_of_rank_lt {errors : List (FailureKind × Nat)}
    (h : ∀ entry ∈ errors, kind.rank < entry.1.rank) : count kind errors = (kind, 1) :: errors := by
  cases errors with
  | nil => rfl
  | cons entry rest =>
      have hlt := h entry List.mem_cons_self
      have hne : kind ≠ entry.1 := fun heq => Nat.lt_irrefl _ (heq ▸ hlt)
      rw [count, if_neg hne, if_pos hlt]

theorem more_self (kind : FailureKind) (f : FailureKind → Nat) : more kind f kind = f kind + 1 :=
  congrArg (f kind + ·) (if_pos rfl)

theorem more_of_ne {other : FailureKind} (h : other ≠ kind) : more kind f other = f other :=
  congrArg (f other + ·) (if_neg h)

theorem occurring_more_of_not_mem (h : kind ∉ kinds) :
    occurring kinds (more kind f) = occurring kinds f := by
  have heq : ∀ other ∈ kinds, more kind f other = f other := fun other hother =>
    more_of_ne fun hkind => h (hkind ▸ hother)
  have hfilter : kinds.filter (fun other => 0 < more kind f other) =
      kinds.filter fun other => 0 < f other :=
    List.filter_congr fun other hother => by rw [heq other hother]
  rw [occurring, hfilter]
  exact List.map_congr_left fun other hother => by rw [heq other (List.mem_of_mem_filter hother)]

/-- Counting a failure keeps the kinds in order, each with its number. -/
theorem count_occurring (hsorted : kinds.Pairwise fun a b => a.rank < b.rank)
    (hmem : kind ∈ kinds) : count kind (occurring kinds f) = occurring kinds (more kind f) := by
  induction kinds with
  | nil => cases hmem
  | cons first rest ih =>
      obtain ⟨hfirst, hrest⟩ := List.pairwise_cons.1 hsorted
      rw [occurring_cons, occurring_cons]
      by_cases heq : kind = first
      · subst heq
        have hnew : kind ∉ rest := fun h => Nat.lt_irrefl _ (hfirst kind h)
        rw [occurring_more_of_not_mem hnew, more_self, if_pos (Nat.succ_pos _)]
        split
        · rw [count, if_pos rfl]
        · next hzero =>
            rw [count_of_rank_lt fun entry hentry => hfirst _ (mem_occurring.1 hentry).1,
              Nat.eq_zero_of_not_pos hzero]
      · have hmem : kind ∈ rest := (List.mem_cons.1 hmem).resolve_left heq
        rw [more_of_ne (Ne.symm heq), ← ih hrest hmem]
        split
        · rw [count, if_neg heq, if_neg (Nat.lt_asymm (hfirst kind hmem))]
        · rfl

/-! ### The summary of a list of reports -/

/-- How many of the reports are about a failure of a kind. -/
def failures (reports : List FileReport) (kind : FailureKind) : Nat :=
  reports.countP fun r => r.result.failureKind? == some kind

theorem failures_concat_of_failed {r : FileReport} {cause : FileFailure}
    (h : r.result = .failed cause) :
    failures (reports ++ [r]) = more cause.kind (failures reports) := by
  funext kind
  have hkind :
      (FileResult.failureKind? (.failed cause) == some kind) = decide (kind = cause.kind) := by
    rw [FileResult.failureKind?, Option.some_beq_some, beq_eq_decide]
    exact decide_eq_decide.2 eq_comm
  rw [failures, List.countP_append, List.countP_singleton, h, hkind, more, failures]
  simp only [decide_eq_true_eq]

theorem failures_concat_of_ne {r : FileReport} (h : r.result.failureKind? = none) :
    failures (reports ++ [r]) = failures reports := by
  funext kind
  rw [failures, List.countP_append, List.countP_singleton, h]
  rfl

/-- A summary holds the counts of the reports. -/
theorem ofReports_eq (reports : List FileReport) : ofReports reports =
    { files := reports.length
      changed := reports.countP (·.result.isChanged)
      unchanged := reports.countP (·.result.isUnchanged)
      errored := reports.countP (·.result.isFailed)
      edits := (reports.map (·.result.edits)).sum
      errors := occurring FailureKind.all (failures reports) } := by
  induction reports using List.reverseRecOn with
  | nil => rfl
  | append_singleton reports r ih =>
      rw [ofReports, List.foldl_concat, ← ofReports, ih, record]
      cases h : r.result with
      | unchanged =>
          rw [failures_concat_of_ne (by rw [h]; rfl)]
          simp [h, FileResult.isChanged, FileResult.isUnchanged, FileResult.isFailed,
            FileResult.edits]
      | changed applied diff =>
          rw [failures_concat_of_ne (by rw [h]; rfl)]
          simp [h, FileResult.isChanged, FileResult.isUnchanged, FileResult.isFailed,
            FileResult.edits]
      | failed cause =>
          rw [failures_concat_of_failed h,
            ← count_occurring FailureKind.pairwise_rank_all (FailureKind.mem_all cause.kind)]
          simp [h, FileResult.isChanged, FileResult.isUnchanged, FileResult.isFailed,
            FileResult.edits]

/-- The order of the reports does not matter. -/
theorem ofReports_eq_of_perm (h : order.Perm reports) : ofReports order = ofReports reports := by
  have hfailures : failures order = failures reports := funext fun kind => h.countP_eq _
  rw [ofReports_eq, ofReports_eq, h.length_eq, h.countP_eq, h.countP_eq, h.countP_eq,
    (h.map _).sum_eq, hfailures]

/-! ### Workers -/

/-- Workers that have reports left to record share a summary. At each step some worker records its
next report, and at the end none has one left. -/
inductive Recorded : List (List FileReport) → Summary → Summary → Prop
  | done {workers : List (List FileReport)} {s : Summary} (h : ∀ queue ∈ workers, queue = []) :
      Recorded workers s s
  | step {before after : List (List FileReport)} {r : FileReport} {queue : List FileReport}
      {s last : Summary} (h : Recorded (before ++ queue :: after) (s.record r) last) :
      Recorded (before ++ (r :: queue) :: after) s last

/-- Workers record their reports in some order. -/
theorem Recorded.exists_order {workers : List (List FileReport)} {s last : Summary}
    (h : Recorded workers s last) :
    ∃ order : List FileReport, order.Perm workers.flatten ∧ last = order.foldl record s := by
  induction h with
  | done h => exact ⟨[], by rw [List.flatten_eq_nil_iff.2 h], rfl⟩
  | @step before after r queue s last _ ih =>
      obtain ⟨order, hperm, rfl⟩ := ih
      refine ⟨r :: order, ?_, rfl⟩
      have hnext : (before ++ (r :: queue) :: after).flatten.Perm
          (r :: (before ++ queue :: after).flatten) := by
        simp
      exact (hperm.cons r).trans hnext.symm

/-- Workers can go on until none has a report left. -/
theorem exists_recorded (workers : List (List FileReport)) (s : Summary) :
    ∃ last, Recorded workers s last := by
  induction hn : workers.flatten.length generalizing workers s with
  | zero =>
      refine ⟨s, .done ?_⟩
      rwa [← List.flatten_eq_nil_iff, ← List.length_eq_zero_iff]
  | succ n ih =>
      have hsome : ¬∀ queue ∈ workers, queue = [] := by
        rw [← List.flatten_eq_nil_iff, ← List.length_eq_zero_iff, hn]
        exact Nat.succ_ne_zero n
      push Not at hsome
      obtain ⟨queue, hqueue, hne⟩ := hsome
      obtain ⟨before, after, rfl⟩ := List.append_of_mem hqueue
      obtain ⟨r, rest, rfl⟩ := List.exists_cons_of_ne_nil hne
      obtain ⟨last, hlast⟩ := ih (before ++ rest :: after) (s.record r) (by simp at hn ⊢; omega)
      exact ⟨last, .step hlast⟩

/-! ### The summary of a run -/

theorem sum_occurring (kinds : List FailureKind) (f : FailureKind → Nat) :
    ((occurring kinds f).map Prod.snd).sum = (kinds.map f).sum := by
  induction kinds with
  | nil => rfl
  | cons kind rest ih =>
      rw [occurring_cons, List.map_cons, List.sum_cons, ← ih]
      split
      · rfl
      · next hzero => rw [Nat.eq_zero_of_not_pos hzero, Nat.zero_add]

theorem pairwise_name_occurring (h : kinds.Pairwise fun a b => a.name < b.name)
    (f : FailureKind → Nat) : (occurring kinds f).Pairwise fun a b => a.1.name < b.1.name := by
  rw [occurring, List.pairwise_map]
  exact h.filter _

theorem sum_map_more (kinds : List FailureKind) (kind : FailureKind) (f : FailureKind → Nat) :
    (kinds.map (more kind f)).sum = (kinds.map f).sum + kinds.count kind := by
  induction kinds with
  | nil => rfl
  | cons other rest ih =>
      rw [List.map_cons, List.sum_cons, ih, List.map_cons, List.sum_cons, List.count_cons, more,
        beq_eq_decide]
      simp only [decide_eq_true_eq]
      omega

/-- Every failure is of one of the kinds. -/
theorem sum_failures (reports : List FileReport) :
    (FailureKind.all.map (failures reports)).sum = reports.countP (·.result.isFailed) := by
  induction reports using List.reverseRecOn with
  | nil => rfl
  | append_singleton reports r ih =>
      rw [List.countP_append, List.countP_singleton, ← ih]
      cases h : r.result with
      | unchanged => rw [failures_concat_of_ne (by rw [h]; rfl)]; rfl
      | changed applied diff => rw [failures_concat_of_ne (by rw [h]; rfl)]; rfl
      | failed cause =>
          have honce : FailureKind.all.count cause.kind = 1 := by
            cases cause.kind <;> rfl
          rw [failures_concat_of_failed h, sum_map_more, honce]
          rfl

/-- Every file is changed, unchanged or failed. -/
theorem length_eq_add (reports : List FileReport) : reports.length =
    reports.countP (·.result.isChanged) + reports.countP (·.result.isUnchanged) +
      reports.countP (·.result.isFailed) := by
  induction reports with
  | nil => rfl
  | cons r rest ih =>
      rw [List.length_cons, ih]
      cases h : r.result <;>
        simp [h, FileResult.isChanged, FileResult.isUnchanged, FileResult.isFailed] <;> omega

/-- The summary counts the reports: all of them, by outcome, with the edits of the changed files.
The kinds of failures that occurred are listed by ascending names, each with its number. -/
structure Counts (s : Summary) (reports : List FileReport) : Prop where
  files_eq : s.files = reports.length
  files_eq_add : s.files = s.changed + s.unchanged + s.errored
  changed_eq : s.changed = reports.countP (·.result.isChanged)
  unchanged_eq : s.unchanged = reports.countP (·.result.isUnchanged)
  errored_eq : s.errored = reports.countP (·.result.isFailed)
  edits_eq : s.edits = (reports.map (·.result.edits)).sum
  exists_mem_errors_iff : ∀ kind, (∃ n, (kind, n) ∈ s.errors) ↔
    ∃ r ∈ reports, ∃ cause, r.result = .failed cause ∧ cause.kind = kind
  of_mem_errors : ∀ kind n, (kind, n) ∈ s.errors → 0 < n ∧ n = failures reports kind
  sum_errors : (s.errors.map Prod.snd).sum = s.errored
  pairwise_errors : s.errors.Pairwise fun a b => a.1.name < b.1.name

theorem failures_pos_iff : 0 < failures reports kind ↔
    ∃ r ∈ reports, ∃ cause, r.result = .failed cause ∧ cause.kind = kind := by
  rw [failures, List.countP_pos_iff]
  refine exists_congr fun r => and_congr_right fun _ => ?_
  cases r.result <;> simp [FileResult.failureKind?]

theorem counts_ofReports (reports : List FileReport) : Counts (ofReports reports) reports := by
  rw [ofReports_eq]
  exact
    { files_eq := rfl
      files_eq_add := length_eq_add reports
      changed_eq := rfl
      unchanged_eq := rfl
      errored_eq := rfl
      edits_eq := rfl
      exists_mem_errors_iff := fun kind => by
        rw [← failures_pos_iff]
        simp [mem_occurring, FailureKind.mem_all]
      of_mem_errors := fun kind n h => (mem_occurring.1 h).2
      sum_errors := (sum_occurring _ _).trans (sum_failures reports)
      pairwise_errors := pairwise_name_occurring FailureKind.pairwise_name_all _ }

/-- However reports are given to workers and in whatever order the workers record them, they come
to an end, and the summary is that of the list of reports. It counts them. -/
theorem recorded_eq_ofReports {workers : List (List FileReport)}
    (hshare : workers.flatten.Perm reports) :
    (∃ last, Recorded workers empty last) ∧
      ∀ last, Recorded workers empty last → last = ofReports reports ∧ Counts last reports := by
  refine ⟨exists_recorded workers empty, fun last hlast => ?_⟩
  obtain ⟨order, horder, rfl⟩ := hlast.exists_order
  have heq : order.foldl record empty = ofReports reports :=
    ofReports_eq_of_perm (horder.trans hshare)
  exact ⟨heq, heq ▸ counts_ofReports reports⟩

/-- Two workers that share three files, of which two could not be fixed. -/
theorem recorded_eq_ofReports_two_workers :
    let changed : FileReport := ⟨"a.yml", .changed [⟨"truthy", ⟨"truthy-value", 2⟩⟩] none⟩
    let missing : FileReport := ⟨"b.yml", .failed (.read .notFound)⟩
    let binary : FileReport := ⟨"c.yml", .failed (.encoding 0)⟩
    [[binary, changed], [missing]].flatten.Perm [changed, missing, binary] ∧
      Recorded [[binary, changed], [missing]] empty ⟨3, 1, 0, 2, 1, [(.encoding, 1), (.read, 1)]⟩ ∧
      Counts ⟨3, 1, 0, 2, 1, [(.encoding, 1), (.read, 1)]⟩ [changed, missing, binary] := by
  intro changed missing binary
  have hshare : [[binary, changed], [missing]].flatten.Perm [changed, missing, binary] := by
    decide +kernel
  have hrun : Recorded [[binary, changed], [missing]] empty
      ⟨3, 1, 0, 2, 1, [(.encoding, 1), (.read, 1)]⟩ :=
    @Recorded.step [[binary, changed]] [] missing [] _ _ <|
      @Recorded.step [] [[]] binary [changed] _ _ <| @Recorded.step [] [[]] changed [] _ _ <|
        .done (by decide +kernel)
  exact ⟨hshare, hrun, ((recorded_eq_ofReports hshare).2 _ hrun).2⟩

end Summary

end TaskTidy
