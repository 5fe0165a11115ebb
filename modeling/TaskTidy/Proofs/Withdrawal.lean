import TaskTidy.Proofs.InjectingSets

/-!
# Taking injections back

An injection logs the number that its line has at the time, and a later one may stand above it. So
the log is taken back from its end: the entry that was made last numbers its line in the document
that the pass leaves, the entry before it in the document without that line.
-/

namespace TaskTidy

/-- Take the lines that a log numbers out of a document, beginning with the last entry. The result
is the rest of the document with the lines taken out, in the order of the log; there is none if an
entry numbers no line. -/
def withdraw? : List Edit → Buffer → Option (Buffer × List Line)
  | [], b => some (b, [])
  | e :: log, b =>
      match withdraw? log b with
      | none => none
      | some (rest, taken) =>
          if 0 < e.line ∧ e.line ≤ rest.length then
            some (rest.eraseIdx (e.line - 1), rest.line (e.line - 1) :: taken)
          else none

/-- An injection whose line stands above the line of the one before it. -/
example : withdraw? [⟨"explicit-mode", 3⟩, ⟨"explicit-mode", 2⟩]
    ["- file:".toList, "  mode: '0644'".toList, " foo".toList, "  mode: '0755'".toList] =
      some (["- file:".toList, " foo".toList],
        ["  mode: '0755'".toList, "  mode: '0644'".toList]) := by
  decide

/-- The log leads from a document back to the document at the start, and every line that it takes
out is one of the given texts behind some spaces. -/
def WithdrawsTo (start : Buffer) (texts : List (List Char)) (b : Buffer) (log : List Edit) : Prop :=
  ∃ taken, withdraw? log b = some (start, taken) ∧
    ∀ l ∈ taken, ∃ text ∈ texts, ∃ n, l = List.replicate n ' ' ++ text

section

variable {start b : Buffer} {texts : List (List Char)} {log : List Edit} {k : Nat}

/-- The entry of an inserted line takes that line out, and the log before it has the document that
the line was inserted in. -/
theorem withdraw?_insertIdx (hk : k ≤ b.length) (name : String) (l : Line) (log : List Edit) :
    withdraw? (log ++ [⟨name, k + 1⟩]) (b.insertIdx k l) =
      (withdraw? log b).map fun (rest, taken) => (rest, taken ++ [l]) := by
  induction log with
  | nil =>
      have hlen : (b.insertIdx k l).length = b.length + 1 := List.length_insertIdx_of_le_length hk l
      have hline : Buffer.line (b.insertIdx k l) k = l := Buffer.line_insertIdx_self hk l
      simp only [List.nil_append, withdraw?, hlen, Nat.add_sub_cancel, hline,
        List.eraseIdx_insertIdx_self]
      rw [if_pos (by omega)]
      rfl
  | cons e log ih =>
      rw [List.cons_append, withdraw?, withdraw?, ih]
      cases withdraw? log b with
      | none => rfl
      | some r =>
          dsimp only [Option.map_some]
          split <;> rfl

theorem WithdrawsTo.refl (start : Buffer) (texts : List (List Char)) :
    WithdrawsTo start texts start [] :=
  ⟨[], rfl, by simp⟩

theorem WithdrawsTo.insert (h : WithdrawsTo start texts b log) (hk : k ≤ b.length) (name : String)
    {text : List Char} (htext : text ∈ texts) (n : Nat) :
    WithdrawsTo start texts (b.insertIdx k (List.replicate n ' ' ++ text))
      (log ++ [⟨name, k + 1⟩]) := by
  obtain ⟨taken, hwithdraw, htaken⟩ := h
  refine ⟨taken ++ [List.replicate n ' ' ++ text], ?_, fun l hl => ?_⟩
  · rw [withdraw?_insertIdx hk, hwithdraw, Option.map_some]
  · rcases List.mem_append.1 hl with hl | hl
    · exact htaken l hl
    · exact ⟨text, htext, n, List.mem_singleton.1 hl⟩

end

namespace Injects

open Pass

variable {r : FieldInjection} {asks : Line → List Line → Bool} {starts : Line → Bool}
  {s : RuleSet} {texts : List (List Char)} {limit : Buffer → Nat} {n : Nat} {b last : Buffer}
  {edits : List Edit}

/-- What the sweeps of an injection add is withdrawn again. The log so far always leads back to the
document at the start. -/
theorem withdrawsTo (h : Injects r asks starts) (hl : s.lineRules = [])
    (hb : s.blockRules = [r.toBlockRule])
    (htexts : ∀ b e value, r.value? b e = some value → r.field ++ ':' :: ' ' :: value ∈ texts)
    (hsettle : settle limit s n b = .ok (last, edits)) : WithdrawsTo b texts last edits := by
  refine settle_log_induction (WithdrawsTo b texts) (fun {c i log v} hi hinv hv => ?_) []
    (.refl b texts) hsettle
  rcases h.visit_cases hl hb hi hv with ⟨_, rfl⟩ | ⟨p, x, hx, _, _, rfl⟩
  · rwa [List.append_nil]
  · obtain ⟨value, hvalue, rfl⟩ := hx.isLine
    have hinsert := hinv.insert hx.le_length r.name (htexts _ _ value hvalue)
      (c.childDepth ⟨i, c.stopOf i⟩)
    rwa [← List.append_assoc] at hinsert

end Injects

namespace RuleSets

variable {b : Buffer} {e : Extent}

/-- A mode that is asked for is one of the two of the options. -/
theorem mem_of_modeFor? {options : RuleOptions} {mode : List Char}
    (h : modeFor? options b e = some mode) :
    mode ∈ [options.fileMode, options.directoryMode] := by
  simp only [modeFor?] at h
  split at h
  · split at h
    · cases h
      simp
    · cases h
      simp
  · cases h

theorem eq_false_of_readOnlyCommand {value : List Char}
    (h : readOnlyCommand.value? b e = some value) : value = "false".toList := by
  simp only [readOnlyCommand] at h
  split at h
  · exact (Option.some.inj h).symm
  · cases h

end RuleSets

namespace Document

open RuleSets

variable {d : Document} {s : RuleSet} {texts : List (List Char)}

/-- The pass has only added lines, each of them one of the given texts behind some spaces: its log
leads back to the lines before it, and the line ending and the last newline are as they were. -/
structure OnlyAdds (d : Document) (outcome : Outcome) (texts : List (List Char)) : Prop where
  withdrawsTo :
    WithdrawsTo d.lines texts outcome.document.lines outcome.log
  ending_eq : outcome.document.ending = d.ending
  finalNewline_eq : outcome.document.finalNewline = d.finalNewline

/-- A pass only adds lines if its sweeps do and it asks for no newline at the end. -/
theorem exists_onlyAdds (htwo : Pass.SettlesInTwo s) (hend : s.endsWithNewline = false)
    (h : ∀ {last : Buffer} {edits : List Edit},
      Pass.settle Pass.sweepLimit s Pass.maxSweeps d.lines = .ok (last, edits) →
        WithdrawsTo d.lines texts last edits) :
    ∃ outcome, d.applyPass s = .ok outcome ∧ d.OnlyAdds outcome texts := by
  obtain ⟨outcome, hpass⟩ := exists_applyPass htwo d
  obtain ⟨lines, edits, hsettle, hdocument, happlied⟩ := of_applyPassWithin hpass
  refine ⟨outcome, hpass, ?_, ?_, ?_⟩
  · rw [Outcome.log_eq happlied, hdocument]
    exact h hsettle
  · rw [hdocument]
    rfl
  · rw [hdocument]
    simp [withLines, newlineAfter, hend]

/-- The injecting sets only add lines: modes of the two kinds, or marks that nothing changes. -/
theorem exists_onlyAdds_injections (options : RuleOptions) (d : Document) :
    (∃ outcome, d.applyPass (filePermissions options) = .ok outcome ∧
      d.OnlyAdds outcome
        ["mode: ".toList ++ options.fileMode, "mode: ".toList ++ options.directoryMode]) ∧
    ∃ outcome, d.applyPass changedWhen = .ok outcome ∧
      d.OnlyAdds outcome ["changed_when: false".toList] := by
  constructor
  · refine exists_onlyAdds (settlesInTwo_filePermissions options) rfl
      ((injects_explicitMode options).withdrawsTo rfl rfl fun b e value hvalue => ?_)
    have hmode := mem_of_modeFor? hvalue
    simp only [List.mem_cons, List.not_mem_nil, or_false] at hmode ⊢
    exact hmode.imp (congrArg ("mode: ".toList ++ ·)) (congrArg ("mode: ".toList ++ ·))
  · refine exists_onlyAdds settlesInTwo_changedWhen rfl
      (injects_readOnlyCommand.withdrawsTo rfl rfl fun b e value hvalue => ?_)
    rw [eq_false_of_readOnlyCommand hvalue]
    exact List.mem_singleton.2 rfl

end Document

end TaskTidy
