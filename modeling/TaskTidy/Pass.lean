import TaskTidy.Document
import TaskTidy.Rule.Basic

/-!
# Passes

A sweep walks a document from top to bottom. At each line the first line rule that answers rewrites
it, and then every block rule that selects the line may edit its block; lines inserted below are
visited in the same sweep. A pass repeats sweeps until one makes no edit.
-/

namespace TaskTidy

/-- An edit of a sweep: the rule, and the line number at the time of the edit, from one. -/
structure Edit where
  rule : String
  line : Nat
  deriving DecidableEq, Repr

/-- Why a pass gives no document. -/
inductive PassError
  | structural (cause : StructuralError)
  | nonConvergent (ruleSet : String) (sweeps : Nat)
  /-- A sweep keeps moving the end of the document away. -/
  | endless (ruleSet : String)
  deriving DecidableEq, Repr

/-- The wording of a failed pass. -/
def PassError.message : PassError → String
  | .structural cause => s!"structural error: {cause.message}"
  | .nonConvergent ruleSet sweeps =>
      s!"rule set '{ruleSet}' did not settle after {sweeps} sweeps"
  | .endless ruleSet => s!"rule set '{ruleSet}' does not reach the end of the document"

namespace Pass

/-- The first answer of the line rules, with the name of the rule. -/
def firstAnswer? (rules : List LineRule) (b : Buffer) (i : Nat) : Option (String × Rewrite) :=
  rules.findSome? fun rule => (rule.rewrite b i).map fun answer => (rule.name, answer)

/-- What the line rules leave at a line: the document, the edit they made, and by how many lines the
walk moves on. A deleted line has no successor to move to. -/
structure LineStep where
  buffer : Buffer
  edits : List Edit
  advance? : Option Nat

/-- Offer a line to the line rules. A rewrite that changes nothing is no edit. -/
def offerLine (rules : List LineRule) (b : Buffer) (i : Nat) : LineStep :=
  match firstAnswer? rules b i with
  | none => ⟨b, [], some 1⟩
  | some (name, .replace l) =>
      if l = b.line i then ⟨b, [], some 1⟩ else ⟨b.set i l, [⟨name, i + 1⟩], some 1⟩
  | some (name, .delete) => ⟨b.eraseIdx i, [⟨name, i + 1⟩], none⟩
  | some (name, .split parts) =>
      if parts.length ≤ 1 then ⟨b, [], some 1⟩
      else ⟨b.take i ++ parts ++ b.drop (i + 1), [⟨name, i + 1⟩], some parts.length⟩

/-- Apply the edit of a block rule, if its index exists. -/
def applyEdit (name : String) (b : Buffer) : BlockEdit → Except PassError (Buffer × List Edit)
  | .insert i l =>
      if i ≤ b.length then .ok (b.insertIdx i l, [⟨name, i + 1⟩])
      else .error (.structural (.outOfRange i b.length))
  | .replace i l =>
      if i < b.length then
        if l = b.line i then .ok (b, []) else .ok (b.set i l, [⟨name, i + 1⟩])
      else .error (.structural (.outOfRange i b.length))

/-- Offer the block that starts at a line to a block rule. -/
def offerBlock (rule : BlockRule) (b : Buffer) (i : Nat) : Except PassError (Buffer × List Edit) :=
  if rule.selects b i then
    match b.extentOf i with
    | .error cause => .error (.structural cause)
    | .ok e =>
        match rule.edit b e with
        | none => .ok (b, [])
        | some edit => applyEdit rule.name b edit
  else .ok (b, [])

/-- Offer the block that starts at a line to the block rules in order, each on the document that the
rule before it left. -/
def offerBlocks : List BlockRule → Buffer → Nat → Except PassError (Buffer × List Edit)
  | [], b, _ => .ok (b, [])
  | rule :: rules, b, i =>
      match offerBlock rule b i with
      | .error cause => .error cause
      | .ok (next, edits) =>
          match offerBlocks rules next i with
          | .error cause => .error cause
          | .ok (last, more) => .ok (last, edits ++ more)

/-- What the visit of a line leaves: the document, the edits, and the index that is visited next. -/
structure Visit where
  buffer : Buffer
  edits : List Edit
  next : Nat

/-- Visit a line: offer it to the line rules and then, unless it was deleted, offer the block that
starts there to the block rules. -/
def visit (s : RuleSet) (b : Buffer) (i : Nat) : Except PassError Visit :=
  let step := offerLine s.lineRules b i
  match step.advance? with
  | none => .ok ⟨step.buffer, step.edits, i⟩
  | some advance =>
      match offerBlocks s.blockRules step.buffer i with
      | .error cause => .error cause
      | .ok (last, edits) => .ok ⟨last, step.edits ++ edits, i + advance⟩

/-- Walk from line `i` to the end of the document in at most `fuel` visits. -/
def sweepFrom (s : RuleSet) : Nat → Buffer → Nat → Except PassError (Buffer × List Edit)
  | 0, b, i => if i < b.length then .error (.endless s.name) else .ok (b, [])
  | fuel + 1, b, i =>
      if i < b.length then
        match visit s b i with
        | .error cause => .error cause
        | .ok v =>
            match sweepFrom s fuel v.buffer v.next with
            | .error cause => .error cause
            | .ok (last, rest) => .ok (last, v.edits ++ rest)
      else .ok (b, [])

/-- The number of visits after which a sweep is taken to have no end. -/
def sweepLimit (b : Buffer) : Nat :=
  4096 * (b.length + 1)

/-- One walk over the whole document, within the given number of visits. -/
def sweep (limit : Buffer → Nat) (s : RuleSet) (b : Buffer) :
    Except PassError (Buffer × List Edit) :=
  sweepFrom s (limit b) b 0

/-- The number of sweeps that may edit before a pass is given up. -/
def maxSweeps : Nat := 4

/-- Repeat sweeps until one makes no edit, `n` of them at most. -/
def settle (limit : Buffer → Nat) (s : RuleSet) :
    Nat → Buffer → Except PassError (Buffer × List Edit)
  | 0, _ => .error (.nonConvergent s.name maxSweeps)
  | n + 1, b =>
      match sweep limit s b with
      | .error cause => .error cause
      | .ok (next, edits) =>
          if edits.isEmpty then .ok (next, [])
          else match settle limit s n next with
            | .error cause => .error cause
            | .ok (last, more) => .ok (last, edits ++ more)

end Pass

/-- An edit with the name of its rule set. -/
structure Applied where
  ruleSet : String
  edit : Edit
  deriving DecidableEq, Repr

/-- A document after a pass, with the edits that led to it. -/
structure Outcome where
  document : Document
  changed : Bool
  applied : List Applied
  deriving DecidableEq

namespace Document

/-- Whether a document ends with a newline after a pass that left these lines. -/
def newlineAfter (d : Document) (s : RuleSet) (lines : Buffer) : Bool :=
  d.finalNewline || (s.endsWithNewline && !lines.isEmpty)

/-- Apply a rule set to a document, with a limit on the visits of each sweep. -/
def applyPassWithin (limit : Buffer → Nat) (d : Document) (s : RuleSet) :
    Except PassError Outcome :=
  match Pass.settle limit s Pass.maxSweeps d.lines with
  | .error cause => .error cause
  | .ok (lines, edits) =>
      let next := d.withLines lines (d.newlineAfter s lines)
      .ok ⟨next, next != d, edits.map fun edit => ⟨s.name, edit⟩⟩

/-- Apply a rule set to a document. -/
def applyPass (d : Document) (s : RuleSet) : Except PassError Outcome :=
  d.applyPassWithin Pass.sweepLimit s

/-- Apply rule sets in order, each to the document of the one before. -/
def applyEach (d : Document) : List RuleSet → Except PassError (Document × List Applied)
  | [] => .ok (d, [])
  | s :: rest =>
      match d.applyPass s with
      | .error cause => .error cause
      | .ok outcome =>
          match applyEach outcome.document rest with
          | .error cause => .error cause
          | .ok (last, more) => .ok (last, outcome.applied ++ more)

/-- Apply several rule sets; the document has changed if it differs in the end. -/
def applySets (d : Document) (sets : List RuleSet) : Except PassError Outcome :=
  match d.applyEach sets with
  | .error cause => .error cause
  | .ok (last, applied) => .ok ⟨last, last != d, applied⟩

end Document

end TaskTidy
