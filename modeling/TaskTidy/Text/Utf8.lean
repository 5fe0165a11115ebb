/-!
# Bytes of text

UTF-8 encoding and decoding. Decoding accepts the shortest form of a Unicode scalar value and
nothing else; a refusal gives the length of the longest valid beginning that ends between two
characters.
-/

namespace TaskTidy.Text

/-- The number of the character made of a Unicode scalar value is that value. -/
theorem toNat_ofNat {n : Nat} (h : n.isValidChar) : (Char.ofNat n).toNat = n := by
  rw [Char.ofNat, dif_pos h]
  rfl

namespace Utf8

/-- The bytes of one character. -/
def encodeChar (c : Char) : List UInt8 :=
  let n := c.toNat
  if n < 0x80 then [n.toUInt8]
  else if n < 0x800 then [(0xC0 + n / 64).toUInt8, (0x80 + n % 64).toUInt8]
  else if n < 0x10000 then
    [(0xE0 + n / 4096).toUInt8, (0x80 + n / 64 % 64).toUInt8, (0x80 + n % 64).toUInt8]
  else
    [(0xF0 + n / 262144).toUInt8, (0x80 + n / 4096 % 64).toUInt8, (0x80 + n / 64 % 64).toUInt8,
      (0x80 + n % 64).toUInt8]

/-- The bytes of a text. -/
def encode (s : List Char) : List UInt8 :=
  s.flatMap encodeChar

/-- The number of bytes of a text. -/
def size : List Char → Nat
  | [] => 0
  | c :: rest => c.utf8Size + size rest

theorem size_append (s t : List Char) : size (s ++ t) = size s + size t := by
  induction s with
  | nil => exact (Nat.zero_add _).symm
  | cons c s ih => rw [List.cons_append, size, size, ih, Nat.add_assoc]

theorem size_eq_length {s : List Char} (h : ∀ c ∈ s, c.utf8Size = 1) :
    size s = s.length := by
  induction s with
  | nil => rfl
  | cons c s ih =>
      obtain ⟨hc, hs⟩ := List.forall_mem_cons.1 h
      rw [size, ih hs, hc, List.length_cons, Nat.add_comm]

theorem size_pos {s : List Char} (h : s ≠ []) : 0 < size s := by
  obtain ⟨c, rest, rfl⟩ := List.exists_cons_of_ne_nil h
  exact Nat.lt_of_lt_of_le c.utf8Size_pos (Nat.le_add_right _ _)

/-- The text from a byte on, if a character starts there or the text ends there. -/
def drop? (n : Nat) : List Char → Option (List Char)
  | [] => if n = 0 then some [] else none
  | c :: rest =>
      if n = 0 then some (c :: rest)
      else if c.utf8Size ≤ n then drop? (n - c.utf8Size) rest
      else none

/-- What is dropped takes as many bytes as asked for. -/
theorem drop?_eq_some_iff {n : Nat} {s t : List Char} :
    drop? n s = some t ↔ ∃ u, s = u ++ t ∧ size u = n := by
  induction s generalizing n with
  | nil =>
      rw [drop?]
      constructor
      · intro h
        split at h
        · next hn => exact ⟨[], Option.some.inj h, hn.symm⟩
        · cases h
      · rintro ⟨u, hu, rfl⟩
        obtain ⟨rfl, rfl⟩ := List.append_eq_nil_iff.1 hu.symm
        rfl
  | cons c s ih =>
      have hpos := c.utf8Size_pos
      rw [drop?]
      constructor
      · intro h
        split at h
        · next hn => exact ⟨[], Option.some.inj h, hn.symm⟩
        · split at h
          · next hle =>
              obtain ⟨u, rfl, hu⟩ := ih.1 h
              exact ⟨c :: u, rfl, by rw [size, hu, Nat.add_sub_cancel' hle]⟩
          · cases h
      · rintro ⟨u, hu, rfl⟩
        cases u with
        | nil => rw [size, if_pos rfl, hu, List.nil_append]
        | cons x u =>
            obtain ⟨rfl, rfl⟩ := List.cons.inj hu
            rw [size, if_neg (by omega), if_pos (by omega), Nat.add_sub_cancel_left]
            exact ih.2 ⟨u, rfl, rfl⟩

/-- The six payload bits of a continuation byte. -/
def payload? (b : UInt8) : Option Nat :=
  if 0x80 ≤ b && b < 0xC0 then some (b.toNat - 0x80) else none

/-- The character that starts a list of bytes, with the bytes after it. -/
def next? : List UInt8 → Option (Char × List UInt8)
  | [] => none
  | b :: rest =>
      if b < 0x80 then some (Char.ofNat b.toNat, rest)
      else if b < 0xC0 then none
      else if b < 0xE0 then
        match rest with
        | b1 :: rest => do
            let n := (b.toNat - 0xC0) * 64 + (← payload? b1)
            if 0x80 ≤ n then some (Char.ofNat n, rest) else none
        | _ => none
      else if b < 0xF0 then
        match rest with
        | b1 :: b2 :: rest => do
            let n := ((b.toNat - 0xE0) * 64 + (← payload? b1)) * 64 + (← payload? b2)
            if 0x800 ≤ n && !(0xD800 ≤ n && n < 0xE000) then some (Char.ofNat n, rest) else none
        | _ => none
      else if b < 0xF8 then
        match rest with
        | b1 :: b2 :: b3 :: rest => do
            let n := (((b.toNat - 0xF0) * 64 + (← payload? b1)) * 64 + (← payload? b2)) * 64 +
              (← payload? b3)
            if 0x10000 ≤ n && n < 0x110000 then some (Char.ofNat n, rest) else none
        | _ => none
      else none

/-- Decode `fuel` characters at most; `done` counts the bytes already read. -/
def decodeFrom (done : Nat) : Nat → List UInt8 → Except Nat (List Char)
  | _, [] => .ok []
  | 0, _ :: _ => .error done
  | fuel + 1, b :: rest =>
      match next? (b :: rest) with
      | none => .error done
      | some (c, more) =>
          (decodeFrom (done + c.utf8Size) fuel more).map (c :: ·)

/-- Decode bytes, or give the length of the longest valid beginning. Every character takes at least
one byte, so the bytes themselves bound the number of characters. -/
def decode (bytes : List UInt8) : Except Nat (List Char) :=
  decodeFrom 0 bytes.length bytes

end Utf8

end TaskTidy.Text
