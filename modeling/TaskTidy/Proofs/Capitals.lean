import TaskTidy.Text.Blank
import TaskTidy.Text.LetterCase
import TaskTidy.Text.Utf8

/-!
# Uppercase forms of lowercase letters

Capitalizing a lowercase letter gives a text that needs no capital, or the letter itself. The tables
are compared run by run: the uppercase forms of a run share no number with a run of lowercase
letters.
-/

namespace TaskTidy.Text

/-- Whether a character can start a name that needs no capital: it is no lowercase letter, no
indentation and no quote. -/
def isCapital (c : Char) : Bool :=
  !isLowercase c && !isIndent c && c != '"' && c != '\''

/-- Whether two runs have no number in common, because one ends before the other starts or because
they alternate. -/
def runsApart (first last step first' last' step' : Nat) : Bool :=
  Nat.ble (last + 1) first' || Nat.ble (last' + 1) first ||
    (Nat.beq step 2 || Nat.beq first last) && (Nat.beq step' 2 || Nat.beq first' last') &&
      !Nat.beq (first % 2) (first' % 2)

theorem onRun_of_runsApart {first last step first' last' step' n : Nat}
    (h : runsApart first last step first' last' step' = true)
    (hn : onRun first last step n = true) : onRun first' last' step' n = false := by
  simp only [onRun, Bool.and_eq_true, decide_eq_true_eq, beq_iff_eq] at hn
  obtain ⟨⟨hfirst, hlast⟩, hstep⟩ := hn
  rw [← Bool.not_eq_true]
  simp only [onRun, Bool.and_eq_true, decide_eq_true_eq, beq_iff_eq]
  rintro ⟨⟨hfirst', hlast'⟩, hstep'⟩
  simp only [runsApart, Bool.or_eq_true, Bool.and_eq_true, Nat.ble_eq, Nat.beq_eq,
    Bool.not_eq_true'] at h
  rcases h with (h | h) | ⟨⟨h, h'⟩, hodd⟩
  · omega
  · omega
  · have hn : n % 2 = first % 2 := by
      rcases h with rfl | rfl <;> omega
    have hn' : n % 2 = first' % 2 := by
      rcases h' with rfl | rfl <;> omega
    exact Nat.ne_of_beq_eq_false hodd (hn.symm.trans hn')

/-- Whether all numbers of a run are those of capitals. -/
def isCapitalRun (first last step : Nat) : Bool :=
  Nat.ble 0x41 first &&
    (Nat.ble (last + 1) 0xD800 || Nat.ble 0xE000 first && Nat.ble last 0x10FFFF) &&
    (Nat.ble last 0x5A || Nat.ble 0x80 first) &&
    lowercaseRuns.all fun (first', last', step') => runsApart first last step first' last' step'

theorem isCapital_of_isCapitalRun {first last step n : Nat}
    (h : isCapitalRun first last step = true) (hn : onRun first last step n = true) :
    isCapital (Char.ofNat n) = true := by
  simp only [isCapitalRun, Bool.and_eq_true, Bool.or_eq_true, Nat.ble_eq, List.all_eq_true] at h
  obtain ⟨⟨⟨hletter, hvalid⟩, hascii⟩, hruns⟩ := h
  have hon := hn
  simp only [onRun, Bool.and_eq_true, decide_eq_true_eq, beq_iff_eq] at hon
  obtain ⟨⟨hfirst, hlast⟩, _⟩ := hon
  have htoNat : (Char.ofNat n).toNat = n := by
    apply toNat_ofNat
    unfold Nat.isValidChar
    omega
  have hlower : isLowercase (Char.ofNat n) = false := by
    unfold isLowercase
    rw [htoNat]
    split
    · apply Bool.eq_false_iff.2
      intro hlower
      have hge : 0x61 ≤ (Char.ofNat n).toNat :=
        of_decide_eq_true (Bool.and_eq_true_iff.1 hlower).1
      rw [htoNat] at hge
      omega
    · rw [List.any_eq_false]
      rintro ⟨first', last', step'⟩ hmem
      rw [Bool.not_eq_true]
      exact onRun_of_runsApart (hruns _ hmem) hn
  have hne {c : Char} (hc : c.toNat < 0x41) : Char.ofNat n ≠ c := by
    rintro rfl
    omega
  simp [isCapital, hlower, isIndent, hne (c := ' ') (by decide), hne (c := '\t') (by decide),
    hne (c := '"') (by decide), hne (c := '\'') (by decide)]

private theorem isCapitalRun_of_mem {first last step form : Nat}
    (h : (first, last, step, form) ∈ uppercaseRuns) :
    isCapitalRun form (form + (last - first)) step = true := by
  have hall : uppercaseRuns.all (fun run =>
      isCapitalRun run.2.2.2 (run.2.2.2 + (run.2.1 - run.1)) run.2.2.1) = true := by
    decide +kernel
  exact List.all_eq_true.1 hall _ h

private theorem isCapital_of_mem_expansions {entry : Nat × List Nat}
    (h : entry ∈ uppercaseExpansions) :
    ∃ n ns, entry.2 = n :: ns ∧ isCapital (Char.ofNat n) = true ∧
      ∀ c ∈ ns.map Char.ofNat, isIndent c = false := by
  have hall : uppercaseExpansions.all (fun entry =>
      match entry.2 with
      | [] => false
      | n :: ns => isCapitalRun n n 1 && (ns.map Char.ofNat).all fun c => !isIndent c) = true := by
    decide +kernel
  have hentry := List.all_eq_true.1 hall entry h
  split at hentry
  · cases hentry
  · next n ns hn =>
      rw [Bool.and_eq_true, List.all_eq_true] at hentry
      refine ⟨n, ns, hn, isCapital_of_isCapitalRun hentry.1 (by simp [onRun]), fun c hc => ?_⟩
      simpa using hentry.2 c hc

private theorem isCapital_toUpper :
    ∀ n < 128, (Char.ofNat n).isLower = true → isCapital (Char.ofNat n).toUpper = true := by
  decide +kernel

/-- The uppercase form of a lowercase letter is the letter itself, or a capital and marks behind
it. -/
theorem upperChar_of_isLowercase {c : Char} (h : isLowercase c = true) :
    upperChar c = [c] ∨ ∃ u us, upperChar c = u :: us ∧ isCapital u = true ∧
      ∀ x ∈ us, isIndent x = false := by
  unfold upperChar
  split
  · next hc =>
      right
      have hlower : c.isLower = true := by rwa [isLowercase, if_pos hc] at h
      have hupper := isCapital_toUpper c.toNat hc
      rw [Char.ofNat_toNat] at hupper
      exact ⟨c.toUpper, [], rfl, hupper hlower, by simp⟩
  · split
    · next entry hentry =>
        right
        obtain ⟨n, ns, hn, hcap, hsolid⟩ :=
          isCapital_of_mem_expansions (List.mem_of_find?_eq_some hentry)
        exact ⟨Char.ofNat n, ns.map Char.ofNat, by rw [hn, List.map_cons], hcap, hsolid⟩
    · split
      · next first last step form hrun =>
          right
          have hmem := isCapitalRun_of_mem (List.mem_of_find?_eq_some hrun)
          have hon := List.find?_some hrun
          refine ⟨_, [], rfl, isCapital_of_isCapitalRun hmem ?_, by simp⟩
          simp only [onRun, Bool.and_eq_true, decide_eq_true_eq, beq_iff_eq] at hon ⊢
          rw [Nat.add_sub_cancel_left]
          omega
      · exact Or.inl rfl

/-- The uppercase form of a lowercase letter holds no character below the first of the letters. -/
theorem le_toNat_of_mem_upperChar {c x : Char} (h : isLowercase c = true)
    (hx : x ∈ upperChar c) : 0x41 ≤ x.toNat := by
  unfold upperChar at hx
  split at hx
  · next hc =>
      have hall : ∀ n < 128, (Char.ofNat n).isLower = true →
          0x41 ≤ (Char.ofNat n).toUpper.toNat := by decide +kernel
      have hlower : c.isLower = true := by rwa [isLowercase, if_pos hc] at h
      have hupper := hall c.toNat hc
      rw [Char.ofNat_toNat] at hupper
      rw [List.mem_singleton.1 hx]
      exact hupper hlower
  · next hc =>
      split at hx
      · next entry hentry =>
          have hall : uppercaseExpansions.all (fun entry =>
              (entry.2.map Char.ofNat).all fun x => Nat.ble 0x41 x.toNat) = true := by
            decide +kernel
          have hmem := List.all_eq_true.1 hall entry (List.mem_of_find?_eq_some hentry)
          exact Nat.le_of_ble_eq_true (List.all_eq_true.1 hmem x hx)
      · split at hx
        · next first last step form hrun =>
            have hmem := isCapitalRun_of_mem (List.mem_of_find?_eq_some hrun)
            have hon := List.find?_some hrun
            simp only [isCapitalRun, Bool.and_eq_true, Bool.or_eq_true, Nat.ble_eq] at hmem
            simp only [onRun, Bool.and_eq_true, decide_eq_true_eq] at hon
            rw [List.mem_singleton.1 hx, toNat_ofNat]
            · omega
            · unfold Nat.isValidChar
              omega
        · rw [List.mem_singleton.1 hx]
          omega

end TaskTidy.Text
