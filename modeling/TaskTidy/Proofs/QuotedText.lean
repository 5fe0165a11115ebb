import TaskTidy.Proofs.QuoteScans

/-!
# Quoted text behind spaced commas

A scan for quotes cuts a text into stretches that lie inside or outside quotes. Spacing the commas
of a text works on each stretch by itself: it copies a quoted stretch and spaces an unquoted one. So
a second scan finds the same quotes at the same places, and has nothing left to space.
-/

namespace TaskTidy.Quoting

open RuleSets

variable {state : Quoting} {c : Char} {s : List Char}

/-- A piece of a text on one side of its quotes. The mark that opens a quote is the end of an
unquoted stretch, the mark that closes it the end of the quoted one. -/
structure Stretch where
  isQuoted : Bool
  text : List Char
  deriving DecidableEq

namespace Stretch

/-- Stretches with a character in front, which joins a first stretch on its own side. -/
def push (isQuoted : Bool) (c : Char) : List Stretch → List Stretch
  | [] => [⟨isQuoted, [c]⟩]
  | x :: more =>
      if x.isQuoted = isQuoted then ⟨isQuoted, c :: x.text⟩ :: more
      else ⟨isQuoted, [c]⟩ :: x :: more

/-- The stretch with spaced commas, if it is not quoted. -/
def spaced (x : Stretch) : Stretch :=
  if x.isQuoted then x else ⟨false, spaceCommas none x.text⟩

@[simp]
theorem isQuoted_spaced (x : Stretch) : x.spaced.isQuoted = x.isQuoted := by
  cases hx : x.isQuoted <;> simp [spaced, hx]

theorem spaced_unquoted (t : List Char) : spaced ⟨false, t⟩ = ⟨false, spaceFrom outside t⟩ := by
  rw [spaced, if_neg Bool.false_ne_true, spaceCommas_eq_spaceFrom, ofQuote?]

theorem flatMap_text_push (isQuoted : Bool) (stretches : List Stretch) :
    (push isQuoted c stretches).flatMap Stretch.text = c :: stretches.flatMap Stretch.text := by
  cases stretches with
  | nil => rfl
  | cons x more =>
      rw [push]
      split <;> rfl

/-- A character that gets no space joins the spaced stretches as it joins the stretches. -/
theorem map_spaced_push {isQuoted : Bool} {stretches : List Stretch}
    (h : isQuoted = false → ∀ x ∈ stretches.head?, x.isQuoted = false →
      spaceFrom outside (c :: x.text) = c :: spaceFrom outside x.text) :
    (push isQuoted c stretches).map spaced = push isQuoted c (stretches.map spaced) := by
  have hsingle : spaced ⟨isQuoted, [c]⟩ = ⟨isQuoted, [c]⟩ := by
    cases isQuoted with
    | true => rfl
    | false =>
        rw [spaced_unquoted, spaceFrom, if_neg (fun hall => Bool.false_ne_true hall.2.2), spaceFrom]
  cases stretches with
  | nil => exact congrArg (· :: []) hsingle
  | cons x more =>
      rw [List.map_cons, push, push, isQuoted_spaced]
      split
      · next hx =>
          obtain ⟨side, t⟩ := x
          obtain rfl : side = isQuoted := hx
          cases side with
          | true => rfl
          | false =>
              rw [List.map_cons, spaced_unquoted, spaced_unquoted, h rfl ⟨false, t⟩ rfl rfl]
      · rw [List.map_cons, List.map_cons, hsingle]

end Stretch

open Stretch

/-- The stretches of a text, given the state in front of it. -/
def stretches : Quoting → List Char → List Stretch
  | _, [] => []
  | state, c :: rest => push (state != outside) c (stretches (state.step true c) rest)

/-- The stretches make up the text. -/
theorem flatMap_text_stretches : (stretches state s).flatMap Stretch.text = s := by
  induction s generalizing state with
  | nil => rfl
  | cons c s ih => rw [stretches, flatMap_text_push, ih]

example : stretches outside "[a,\"b\\\",c\",d]".toList =
    [⟨false, "[a,\"".toList⟩, ⟨true, "b\\\",c\"".toList⟩, ⟨false, ",d]".toList⟩] := by
  decide

/-- The first stretch lies on the side of the state and starts with the first character. -/
theorem exists_stretches_cons (state : Quoting) (c : Char) (s : List Char) :
    ∃ t more, stretches state (c :: s) = ⟨state != outside, c :: t⟩ :: more := by
  rw [stretches]
  cases stretches (state.step true c) s with
  | nil => exact ⟨[], [], rfl⟩
  | cons x more =>
      rw [push]
      split
      · exact ⟨x.text, more, rfl⟩
      · exact ⟨[], x :: more, rfl⟩

/-- A comma that gets a space stays with it in the stretch that the text behind them starts with. -/
private theorem stretches_spaceFrom_comma (hsolid : startsSolid s = true)
    (ih : stretches outside (spaceFrom outside s) = (stretches outside s).map Stretch.spaced) :
    stretches outside (spaceFrom outside (',' :: s)) =
      (stretches outside (',' :: s)).map Stretch.spaced := by
  have hcomma : step true outside ',' = outside := rfl
  have hspace : step true outside ' ' = outside := rfl
  cases s with
  | nil => cases hsolid
  | cons x s =>
      obtain ⟨t, more, hstretches⟩ := exists_stretches_cons outside x s
      rw [bne_self_eq_false] at hstretches
      have hlead : startsSolid (x :: t) = true := hsolid
      calc stretches outside (spaceFrom outside (',' :: x :: s))
          = stretches outside (',' :: ' ' :: spaceFrom outside (x :: s)) := by
            rw [spaceFrom_comma hsolid]
        _ = push false ',' (push false ' ' ((stretches outside (x :: s)).map spaced)) := by
            rw [stretches, stretches, hcomma, hspace, ih]
            rfl
        _ = ⟨false, ',' :: ' ' :: spaceFrom outside (x :: t)⟩ :: more.map spaced := by
            rw [hstretches, List.map_cons, spaced_unquoted]
            rfl
        _ = spaced ⟨false, ',' :: x :: t⟩ :: more.map spaced := by
            rw [spaced_unquoted, spaceFrom_comma hlead]
        _ = (stretches outside (',' :: x :: s)).map spaced := by
            rw [stretches, hcomma, hstretches]
            rfl

/-- Spacing commas spaces each stretch by itself. -/
theorem stretches_spaceFrom :
    stretches state (spaceFrom state s) = (stretches state s).map Stretch.spaced := by
  induction s generalizing state with
  | nil => rfl
  | cons c s ih =>
      by_cases h : state = outside ∧ c = ',' ∧ startsSolid s = true
      · obtain ⟨rfl, rfl, hsolid⟩ := h
        exact stretches_spaceFrom_comma hsolid ih
      · rw [spaceFrom, if_neg h, stretches, stretches, ih, map_spaced_push]
        intro hstate x hx hunquoted
        obtain rfl : state = outside := by simpa using hstate
        cases s with
        | nil => cases hx
        | cons y s =>
            obtain ⟨t, more, hstretches⟩ := exists_stretches_cons (step true outside c) y s
            rw [hstretches, List.head?_cons, Option.mem_some_iff] at hx
            subst hx
            have hstep : step true outside c = outside := by simpa using hunquoted
            rw [spaceFrom, if_neg (fun hall => h ⟨rfl, hall.2.1, hall.2.2⟩), hstep]

/-- Spacing commas is a closure: a text with spaced commas stays; a space is put behind each comma
that stands outside quotes in front of a character that is not blank, and nothing else is changed;
and the scan finds the same stretches in the spaced text, the quoted ones to the letter. -/
theorem spaceCommas_closure (s : List Char) :
    spaceCommas none (spaceCommas none s) = spaceCommas none s ∧
      (spaceCommas none s =
        s.zipIdx.flatMap fun x => if isSeparator s x.2 then [x.1, ' '] else [x.1]) ∧
      (stretches outside s).flatMap Stretch.text = s ∧
      stretches outside (spaceCommas none s) = (stretches outside s).map Stretch.spaced := by
  refine ⟨?_, spaceCommas_eq_flatMap s, flatMap_text_stretches, ?_⟩
  · simp only [spaceCommas_eq_spaceFrom, ofQuote?, spaceFrom_spaceFrom]
  · rw [spaceCommas_eq_spaceFrom, ofQuote?, stretches_spaceFrom]

end TaskTidy.Quoting
