import TaskTidy.Text.Search
import TaskTidy.Text.Utf8

/-!
# File name patterns

A pattern is matched against the bytes of a whole path. `?` and `*` stop at slashes, `**` between
slashes does not, brackets list bytes, and braces list alternatives. Characters beyond ASCII are
several bytes, so that `?` stands for a part of one.
-/

namespace TaskTidy.Discovery

/-- A part of a pattern. -/
inductive GlobPart
  /-- A character as it is. -/
  | literal (bytes : List UInt8)
  /-- `?`: one byte but a slash. -/
  | anyByte
  /-- `*`: any bytes but slashes. -/
  | anyName
  /-- `**` at the start, with its slash: any directories. -/
  | starsFirst
  /-- `**` at the end, with the slash before it: anything below. -/
  | starsLast
  /-- `**` between two slashes, with both: any directories. -/
  | starsInner
  /-- Brackets: one byte in, or out of, one of the ranges. -/
  | oneOf (negated : Bool) (ranges : List (UInt8 × UInt8))
  /-- Braces: one of the alternatives. -/
  | either (branches : List (List GlobPart))

namespace GlobPart

/-- The byte of a slash. -/
def slash : UInt8 := 0x2F

/-- A part for a character. -/
def ofChar (c : Char) : GlobPart :=
  .literal (Text.Utf8.encodeChar c)

/-- Whether a part has no text to match. -/
def isVoid : GlobPart → Bool
  | .either [] => true
  | _ => false

/-- Braces around alternatives. Alternatives without any text do not count. -/
def ofBranches (branches : List (List GlobPart)) : GlobPart :=
  .either (branches.filter fun branch => !branch.all isVoid)

/-- The ranges of bytes for a range of characters: the characters meet at the last byte of the first
and the first byte of the last. -/
def byteRanges (range : Char × Char) : List (UInt8 × UInt8) :=
  let single := fun b : UInt8 => (b, b)
  let low := Text.Utf8.encodeChar range.1
  let high := Text.Utf8.encodeChar range.2
  if range.1 = range.2 then low.map single
  else low.dropLast.map single ++ [(low.getLast?.getD 0, high.head?.getD 0)] ++
    high.tail.map single

end GlobPart

/-- The end of a reading of brackets. -/
inductive BracketReading
  | closed (ranges : List (Char × Char)) (rest : List Char)
  | unclosed
  /-- A range ends before it starts. -/
  | invalid

/-- Read the ranges of brackets, the last first. A bracket or a dash that comes first stands for
itself, and so does a dash at the end. -/
def readRanges (first inRange : Bool) (ranges : List (Char × Char)) : List Char → BracketReading
  | [] => .unclosed
  | c :: rest =>
      if c = ']' ∧ !first then
        .closed (if inRange then ('-', '-') :: ranges else ranges) rest
      else if c = '-' ∧ !first ∧ !inRange then readRanges false true ranges rest
      else if inRange then
        match ranges with
        | (low, _) :: more =>
            if c < low then .invalid else readRanges false false ((low, c) :: more) rest
        | [] => .invalid
      else readRanges false false ((c, c) :: ranges) rest

/-- Read brackets after the opening one. -/
def readBrackets (s : List Char) : Bool × BracketReading :=
  match s with
  | '!' :: rest => (true, readRanges true false [] rest)
  | '^' :: rest => (true, readRanges true false [] rest)
  | _ => (false, readRanges true false [] s)

/-- An alternative that is being read, and those before it in the same braces; both with the last
first. -/
structure GlobDraft where
  parts : List GlobPart
  branches : List (List GlobPart)

namespace GlobDraft

/-- A draft without parts. -/
def empty : GlobDraft :=
  ⟨[], []⟩

/-- Add a part. -/
def add (d : GlobDraft) (part : GlobPart) : GlobDraft :=
  { d with parts := part :: d.parts }

/-- End the alternative and start the next. -/
def nextBranch (d : GlobDraft) : GlobDraft :=
  ⟨[], d.parts.reverse :: d.branches⟩

/-- The alternatives in order. -/
def allBranches (d : GlobDraft) : List (List GlobPart) :=
  (d.parts.reverse :: d.branches).reverse

/-- Two stars that stand for names. -/
def addNames (d : GlobDraft) : GlobDraft :=
  (d.add .anyName).add .anyName

/-- Replace the slash before two stars. Two stars right after two stars add nothing. -/
def addDirectories (d : GlobDraft) (atEnd : Bool) : GlobDraft :=
  match d.parts with
  | .starsFirst :: _ => d
  | .starsLast :: _ => d
  | _ :: parts => { d with parts := (if atEnd then .starsLast else .starsInner) :: parts }
  | [] => d

end GlobDraft

/-- Read two stars: the draft with them, and the rest of the pattern. They stand for directories
where they make up a whole name, and for names elsewhere. -/
def readStars (previous : Option Char) (inBraces : Bool) (d : GlobDraft) (s : List Char) :
    GlobDraft × List Char :=
  if d.parts.isEmpty then
    match s with
    | [] => (d.add .starsFirst, [])
    | '/' :: rest => (d.add .starsFirst, rest)
    | _ => (d.addNames, s)
  else if previous ≠ some '/' then (d.addNames, s)
  else
    match s with
    | [] => (d.addDirectories true, [])
    | '/' :: rest => (d.addDirectories false, rest)
    | c :: _ =>
        if inBraces ∧ (c = ',' ∨ c = '}') then (d.addDirectories true, s) else (d.addNames, s)

/-- Read the rest of a pattern. `previous` is the character before it, `outer` holds the drafts
around open braces, and `brackets` tells whether a bracket opens a list. A bracket that is never
closed stands for itself. -/
def readParts : Nat → Option Char → Bool → GlobDraft → List GlobDraft → List Char →
    Option (List GlobPart)
  | _, _, _, d, outer, [] => if outer.isEmpty then some d.parts.reverse else none
  | 0, _, _, _, _, _ :: _ => none
  | fuel + 1, previous, brackets, d, outer, c :: rest =>
      let literal := fun brackets => readParts fuel (some c) brackets (d.add (.ofChar c)) outer rest
      match c with
      | '?' => readParts fuel (some c) brackets (d.add .anyByte) outer rest
      | '*' =>
          match rest with
          | '*' :: more =>
              let (next, last) := readStars previous (!outer.isEmpty) d more
              let read := if last.length < more.length then '/' else '*'
              readParts fuel (some read) brackets next outer last
          | _ => readParts fuel (some c) brackets (d.add .anyName) outer rest
      | '[' =>
          if brackets then
            match readBrackets rest with
            | (_, .invalid) => none
            | (_, .unclosed) => literal false
            | (negated, .closed ranges more) =>
                let part := .oneOf negated (ranges.reverse.flatMap GlobPart.byteRanges)
                readParts fuel (some ']') brackets (d.add part) outer more
          else literal false
      | '{' => readParts fuel (some c) brackets .empty (d :: outer) rest
      | '}' =>
          match outer with
          | [] => none
          | up :: others =>
              let part := GlobPart.ofBranches d.allBranches
              readParts fuel (some c) brackets (up.add part) others rest
      | ',' =>
          if outer.isEmpty then literal brackets
          else readParts fuel (some c) brackets d.nextBranch outer rest
      | '\\' =>
          match rest with
          | [] => none
          | escaped :: more =>
              readParts fuel (some escaped) brackets (d.add (.ofChar escaped)) outer more
      | _ => literal brackets

/-- Read a pattern. Braces must match, and a backslash needs a character after it. -/
def readGlob? (s : List Char) : Option (List GlobPart) :=
  readParts s.length none true .empty [] s

namespace GlobPart

/-- What may be left of a text after any bytes but slashes. -/
def afterName : List UInt8 → List (List UInt8)
  | [] => [[]]
  | b :: rest => (b :: rest) :: if b = slash then [] else afterName rest

/-- What is left of a text after each of its slashes. -/
def afterSlashes : List UInt8 → List (List UInt8)
  | [] => []
  | b :: rest => if b = slash then rest :: afterSlashes rest else afterSlashes rest

/-- What may be left of a text after anything. -/
def afterAnything : List UInt8 → List (List UInt8)
  | [] => [[]]
  | b :: rest => (b :: rest) :: afterAnything rest

/-- The rest of a text that starts with a slash. -/
def afterSlash? (s : List UInt8) : Option (List UInt8) :=
  match s with
  | b :: rest => if b = slash then some rest else none
  | [] => none

/-- The rest of a text that starts with the given bytes. -/
def afterBytes? : List UInt8 → List UInt8 → Option (List UInt8)
  | [], s => some s
  | _ :: _, [] => none
  | b :: bs, c :: s => if b = c then afterBytes? bs s else none

mutual

/-- What may be left of a text after one part. -/
def rests : GlobPart → List UInt8 → List (List UInt8)
  | .literal bytes, s => (afterBytes? bytes s).toList
  | .anyByte, s =>
      match s with
      | [] => []
      | b :: rest => if b = slash then [] else [rest]
  | .anyName, s => afterName s
  | .starsFirst, s => s :: afterSlashes s
  | .starsLast, s =>
      match afterSlash? s with
      | none => []
      | some rest => afterAnything rest
  | .starsInner, s =>
      match afterSlash? s with
      | none => []
      | some rest => rest :: afterSlashes rest
  | .oneOf negated ranges, s =>
      match s with
      | [] => []
      | b :: rest =>
          if (ranges.any fun range => range.1 ≤ b && b ≤ range.2) != negated then [rest] else []
  | .either [], s => [s]
  | .either (branch :: branches), s => (branchRests (branch :: branches) s).eraseDups

/-- What may be left of a text after one of some alternatives. -/
def branchRests : List (List GlobPart) → List UInt8 → List (List UInt8)
  | [], _ => []
  | branch :: branches, s => sequenceRests branch [s] ++ branchRests branches s

/-- What may be left of some texts after all the parts. -/
def sequenceRests : List GlobPart → List (List UInt8) → List (List UInt8)
  | [], texts => texts
  | part :: parts, texts => sequenceRests parts (texts.flatMap part.rests).eraseDups

end

end GlobPart

/-- Whether the parts of a pattern match a whole path. `**` alone matches every path. -/
def matchesPath (parts : List GlobPart) (path : List UInt8) : Bool :=
  match parts with
  | [.starsFirst] => true
  | _ => (GlobPart.sequenceRests parts [path]).contains []

end TaskTidy.Discovery
