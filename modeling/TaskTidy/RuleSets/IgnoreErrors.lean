import TaskTidy.Rule.Guard

/-!
# Ignored errors

A task that ignores its errors without a comment says instead that it never fails.
-/

namespace TaskTidy.RuleSets

/-- The words that turn `ignore_errors` on. -/
def ignoringWords : List (List Char) :=
  Text.keys ["true", "True", "TRUE", "yes", "Yes"]

/-- The line with `ignore_errors` replaced. -/
def replaceIgnoreErrors? (l : Line) : Option Line :=
  match Text.strip? "ignore_errors:".toList (Text.dropEndWhile Text.isIndent l.unindented) with
  | none => none
  | some rest =>
      if ignoringWords.contains (rest.dropWhile Text.isIndent) then
        some (l.take l.depth ++ "failed_when: false".toList)
      else none

/-- Replace unexplained `ignore_errors`. -/
def ignoreErrors : RuleSet where
  name := "ignore-errors"
  description := "Replace unexplained ignore_errors with failed_when"
  rules :=
    [.line (LineRule.replacing "failed-when"
      [.itemLevel, .notAfterComment, .ownerLacks "failed_when".toList] replaceIgnoreErrors?)]
  scope := .taskContent
  endsWithNewline := false

end TaskTidy.RuleSets
