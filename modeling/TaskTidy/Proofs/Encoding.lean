import TaskTidy.Text.Utf8

/-!
# Encoding and decoding

Decoding is the inverse of encoding. A list of bytes starts with a character exactly when it starts
with the bytes of that character, and from there the whole text follows one character at a time.
-/

namespace TaskTidy.Text.Utf8

theorem toNat_toUInt8 {n : Nat} (h : n < 256) : n.toUInt8.toNat = n := by
  simpa using h

private theorem toUInt8_eq {b : UInt8} {n : Nat} (h : n = b.toNat) : n.toUInt8 = b := by
  simp [h]

/-- A byte carries a payload of six bits if it is `0x80` with that payload added. -/
theorem payload?_eq_some_iff {b : UInt8} {v : Nat} :
    payload? b = some v ↔ b = (0x80 + v).toUInt8 ∧ v < 64 := by
  simp only [payload?, Option.ite_none_right_eq_some, Option.some.injEq, Bool.and_eq_true,
    decide_eq_true_eq, UInt8.le_iff_toNat_le, UInt8.lt_iff_toNat_lt, ← UInt8.toNat_inj,
    Nat.toUInt8_eq, UInt8.toNat_ofNat', UInt8.reduceToNat]
  omega

@[simp]
theorem payload?_toUInt8 (n : Nat) : payload? (0x80 + n % 64).toUInt8 = some (n % 64) :=
  payload?_eq_some_iff.2 ⟨rfl, Nat.mod_lt n (by decide)⟩

section Widths

variable {b : UInt8} {v w u : Nat}

theorem encodeChar_one (hb : b.toNat < 0x80) : encodeChar (Char.ofNat b.toNat) = [b] := by
  have hvalid : b.toNat.isValidChar := Or.inl (by omega)
  simp only [encodeChar, toNat_ofNat hvalid, if_pos hb]
  rw [toUInt8_eq rfl]

theorem encodeChar_two (hb : b.toNat < 0xE0) (hv : v < 64)
    (hn : 0x80 ≤ (b.toNat - 0xC0) * 64 + v) :
    encodeChar (Char.ofNat ((b.toNat - 0xC0) * 64 + v)) = [b, (0x80 + v).toUInt8] := by
  generalize hsum : (b.toNat - 0xC0) * 64 + v = n at hn
  have hvalid : n.isValidChar := Or.inl (by omega)
  simp only [encodeChar, toNat_ofNat hvalid]
  rw [if_neg (by omega), if_pos (by omega), toUInt8_eq (show 0xC0 + n / 64 = b.toNat by omega),
    show n % 64 = v by omega]

theorem encodeChar_three (hlow : 0xE0 ≤ b.toNat) (hb : b.toNat < 0xF0) (hv : v < 64) (hw : w < 64)
    (hn : 0x800 ≤ ((b.toNat - 0xE0) * 64 + v) * 64 + w)
    (hvalid : (((b.toNat - 0xE0) * 64 + v) * 64 + w).isValidChar) :
    encodeChar (Char.ofNat (((b.toNat - 0xE0) * 64 + v) * 64 + w)) =
      [b, (0x80 + v).toUInt8, (0x80 + w).toUInt8] := by
  generalize hsum : ((b.toNat - 0xE0) * 64 + v) * 64 + w = n at hn hvalid
  simp only [encodeChar, toNat_ofNat hvalid]
  rw [if_neg (by omega), if_neg (by omega), if_pos (by omega),
    toUInt8_eq (show 0xE0 + n / 4096 = b.toNat by omega),
    show n / 64 % 64 = v by omega, show n % 64 = w by omega]

theorem encodeChar_four (hlow : 0xF0 ≤ b.toNat) (hv : v < 64) (hw : w < 64) (hu : u < 64)
    (hn : 0x10000 ≤ (((b.toNat - 0xF0) * 64 + v) * 64 + w) * 64 + u)
    (hlast : (((b.toNat - 0xF0) * 64 + v) * 64 + w) * 64 + u < 0x110000) :
    encodeChar (Char.ofNat ((((b.toNat - 0xF0) * 64 + v) * 64 + w) * 64 + u)) =
      [b, (0x80 + v).toUInt8, (0x80 + w).toUInt8, (0x80 + u).toUInt8] := by
  generalize hsum : (((b.toNat - 0xF0) * 64 + v) * 64 + w) * 64 + u = n at hn hlast
  have hvalid : n.isValidChar := Or.inr (by omega)
  simp only [encodeChar, toNat_ofNat hvalid]
  rw [if_neg (by omega), if_neg (by omega), if_neg (by omega),
    toUInt8_eq (show 0xF0 + n / 262144 = b.toNat by omega),
    show n / 4096 % 64 = v by omega, show n / 64 % 64 = w by omega, show n % 64 = u by omega]

end Widths

/-- The bytes that are read as a character are the bytes of that character. -/
theorem append_of_next? {bytes rest : List UInt8} {c : Char} (h : next? bytes = some (c, rest)) :
    bytes = encodeChar c ++ rest := by
  unfold next? at h
  split at h
  · cases h
  next b more =>
    simp only [UInt8.lt_iff_toNat_lt, UInt8.reduceToNat] at h
    split at h
    · next hb =>
      cases h
      rw [encodeChar_one hb, List.singleton_append]
    split at h
    · cases h
    split at h
    · next hb =>
      split at h
      · simp only [Option.bind_eq_bind, Option.bind_eq_some_iff, payload?_eq_some_iff,
          Option.ite_none_right_eq_some, Option.some.injEq, Prod.mk.injEq] at h
        obtain ⟨v, ⟨rfl, hv⟩, hn, rfl, rfl⟩ := h
        rw [encodeChar_two hb hv hn]
        rfl
      · cases h
    split at h
    · next hb =>
      split at h
      · simp only [Option.bind_eq_bind, Option.bind_eq_some_iff, payload?_eq_some_iff,
          Option.ite_none_right_eq_some, Option.some.injEq, Prod.mk.injEq, Bool.and_eq_true,
          Bool.not_eq_true', Bool.and_eq_false_iff, decide_eq_true_eq, decide_eq_false_iff_not] at h
        obtain ⟨v, ⟨rfl, hv⟩, w, ⟨rfl, hw⟩, ⟨hn, hscalar⟩, rfl, rfl⟩ := h
        rw [encodeChar_three (by omega) hb hv hw hn (by unfold Nat.isValidChar; omega)]
        rfl
      · cases h
    split at h
    · split at h
      · simp only [Option.bind_eq_bind, Option.bind_eq_some_iff, payload?_eq_some_iff,
          Option.ite_none_right_eq_some, Option.some.injEq, Prod.mk.injEq, Bool.and_eq_true,
          decide_eq_true_eq] at h
        obtain ⟨v, ⟨rfl, hv⟩, w, ⟨rfl, hw⟩, u, ⟨rfl, hu⟩, ⟨hn, hlast⟩, rfl, rfl⟩ := h
        rw [encodeChar_four (by omega) hv hw hu hn hlast]
        rfl
      · cases h
    · cases h

/-- The bytes of a character are read as that character. -/
theorem next?_encodeChar_append (c : Char) (rest : List UInt8) :
    next? (encodeChar c ++ rest) = some (c, rest) := by
  have hvalid : c.toNat < 0xD800 ∨ 0xDFFF < c.toNat ∧ c.toNat < 0x110000 := c.valid
  have hc : Char.ofNat c.toNat = c := Char.ofNat_toNat c
  generalize hn : c.toNat = n at hvalid hc
  simp only [encodeChar, hn]
  split
  · simp only [List.singleton_append, next?, UInt8.lt_iff_toNat_lt, UInt8.reduceToNat]
    rw [toNat_toUInt8 (by omega), if_pos (by omega), hc]
  split
  · simp only [List.cons_append, List.nil_append, next?, UInt8.lt_iff_toNat_lt, UInt8.reduceToNat,
      payload?_toUInt8, Option.bind_eq_bind, Option.bind_some]
    rw [toNat_toUInt8 (by omega), if_neg (by omega), if_neg (by omega), if_pos (by omega),
      show (0xC0 + n / 64 - 0xC0) * 64 + n % 64 = n by omega, if_pos (by omega), hc]
  split
  · simp only [List.cons_append, List.nil_append, next?, UInt8.lt_iff_toNat_lt, UInt8.reduceToNat,
      payload?_toUInt8, Option.bind_eq_bind, Option.bind_some]
    rw [toNat_toUInt8 (by omega), if_neg (by omega), if_neg (by omega), if_neg (by omega),
      if_pos (by omega),
      show ((0xE0 + n / 4096 - 0xE0) * 64 + n / 64 % 64) * 64 + n % 64 = n by omega, if_pos, hc]
    simp
    omega
  · simp only [List.cons_append, List.nil_append, next?, UInt8.lt_iff_toNat_lt, UInt8.reduceToNat,
      payload?_toUInt8, Option.bind_eq_bind, Option.bind_some]
    rw [toNat_toUInt8 (by omega), if_neg (by omega), if_neg (by omega), if_neg (by omega),
      if_neg (by omega), if_pos (by omega),
      show (((0xF0 + n / 262144 - 0xF0) * 64 + n / 4096 % 64) * 64 + n / 64 % 64) * 64 + n % 64 = n
        by omega, if_pos, hc]
    simp
    omega

theorem encodeChar_ne_nil (c : Char) : encodeChar c ≠ [] := by
  intro h
  have hnext := next?_encodeChar_append c []
  rw [h] at hnext
  cases hnext

/-- A decoded text encodes to the bytes it was decoded from. -/
theorem encode_of_decodeFrom {fuel done : Nat} {bytes : List UInt8} {s : List Char}
    (h : decodeFrom done fuel bytes = .ok s) : encode s = bytes := by
  fun_induction decodeFrom done fuel bytes generalizing s with
  | case1 => cases h; rfl
  | case2 => cases h
  | case3 => cases h
  | case4 done fuel b rest c more hnext ih =>
      cases hmore : decodeFrom (done + c.utf8Size) fuel more with
      | error n =>
          rw [hmore] at h
          cases h
      | ok t =>
          rw [hmore] at h
          cases h
          calc encode (c :: t)
              = encodeChar c ++ encode t := List.flatMap_cons
            _ = encodeChar c ++ more := by rw [ih hmore]
            _ = b :: rest := (append_of_next? hnext).symm

/-- The bytes of a text are decoded as that text, with fuel for every character. -/
theorem decodeFrom_encode {s : List Char} {fuel done : Nat} (hfuel : s.length ≤ fuel) :
    decodeFrom done fuel (encode s) = .ok s := by
  induction s generalizing fuel done with
  | nil => cases fuel <;> rfl
  | cons c s ih =>
      obtain ⟨fuel, rfl⟩ : ∃ k, fuel = k + 1 := ⟨fuel - 1, by simp at hfuel; omega⟩
      have hnext := next?_encodeChar_append c (encode s)
      have hcons : encode (c :: s) = encodeChar c ++ encode s := List.flatMap_cons
      cases hbytes : encodeChar c ++ encode s with
      | nil => exact absurd (List.append_eq_nil_iff.1 hbytes).1 (encodeChar_ne_nil c)
      | cons b rest =>
          rw [hbytes] at hnext
          rw [hcons, hbytes, decodeFrom, hnext]
          simp only
          rw [ih (by simpa using hfuel)]
          rfl

theorem length_le_length_encode (s : List Char) : s.length ≤ (encode s).length := by
  induction s with
  | nil => exact Nat.zero_le _
  | cons c s ih =>
      have hpos := List.length_pos_iff.2 (encodeChar_ne_nil c)
      have hcons : encode (c :: s) = encodeChar c ++ encode s := List.flatMap_cons
      rw [hcons, List.length_append, List.length_cons]
      omega

/-- Bytes are accepted exactly as the text they are the bytes of. -/
theorem decode_eq_ok_iff {bytes : List UInt8} {s : List Char} :
    decode bytes = .ok s ↔ encode s = bytes := by
  constructor
  · exact encode_of_decodeFrom
  · rintro rfl
    exact decodeFrom_encode (length_le_length_encode s)

end TaskTidy.Text.Utf8
