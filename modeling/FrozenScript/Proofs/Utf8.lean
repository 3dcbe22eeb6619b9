import FrozenScript.Text.Utf8

/-!
# Reading UTF-8 inverts writing it

The reader accepts the bytes that the writer makes and no others: `decode_eq_ok_iff`. One character
is the heart of it (`decodeChar_eq_ok_iff`). The ranges of the second byte keep overlong forms,
surrogates and numbers without a character out of the accepted bytes.
-/

namespace FrozenScript.Text.Utf8

/-! ## From a character to its bytes and back -/

/-- A byte that carries six bits of a code point adds them to the bits so far. -/
theorem follow_tail {offset seen following n : Nat} {low high : UInt8} {rest : List UInt8}
    (hlow : low.toNat ≤ n % 64 + 0x80) (hhigh : n % 64 + 0x80 ≤ high.toNat) :
    follow offset seen low high (following + 1) (n / 64) (UInt8.ofNat (n % 64 + 0x80) :: rest) =
      follow offset (seen + 1) 0x80 0xBF following n rest := by
  have hbyte : (UInt8.ofNat (n % 64 + 0x80)).toNat = n % 64 + 0x80 := by simp; omega
  have hbits : n / 64 * 64 + (n % 64 + 0x80 - 0x80) = n := by omega
  simp only [follow, UInt8.le_iff_toNat_le, hbyte, hlow, hhigh, and_self, if_true, hbits]

/-- The first byte of a character of three bytes. Its second byte is in the range that the first
one asks for. -/
theorem lead?_three {n : Nat} (hvalid : n.isValidChar) (hlow : 0x800 ≤ n) (hhigh : n ≤ 0xFFFF) :
    ∃ low high, lead? (UInt8.ofNat (n / 4096 % 16 + 0xE0)) = some ⟨2, n / 4096, low, high⟩ ∧
      low.toNat ≤ n / 64 % 64 + 0x80 ∧ n / 64 % 64 + 0x80 ≤ high.toNat := by
  have hbyte : (UInt8.ofNat (n / 4096 % 16 + 0xE0)).toNat = n / 4096 + 0xE0 := by simp; omega
  simp only [Nat.isValidChar] at hvalid
  simp only [lead?, hbyte]
  rw [if_neg (by omega), if_neg (by omega), if_neg (by omega)]
  split
  · exact ⟨0xA0, 0xBF, by simp; omega, by simp; omega, by simp; omega⟩
  split
  · exact ⟨0x80, 0x9F, by simp; omega, by simp, by simp; omega⟩
  · rw [if_pos (by omega), Nat.add_sub_cancel]
    exact ⟨0x80, 0xBF, rfl, by simp, by simp; omega⟩

/-- The first byte of a character of four bytes. -/
theorem lead?_four {n : Nat} (hvalid : n.isValidChar) (hlow : 0x10000 ≤ n) :
    ∃ low high, lead? (UInt8.ofNat (n / 262144 % 8 + 0xF0)) = some ⟨3, n / 262144, low, high⟩ ∧
      low.toNat ≤ n / 4096 % 64 + 0x80 ∧ n / 4096 % 64 + 0x80 ≤ high.toNat := by
  simp only [Nat.isValidChar] at hvalid
  have hbyte : (UInt8.ofNat (n / 262144 % 8 + 0xF0)).toNat = n / 262144 + 0xF0 := by simp; omega
  simp only [lead?, hbyte]
  rw [if_neg (by omega), if_neg (by omega), if_neg (by omega), if_neg (by omega),
    if_neg (by omega), if_neg (by omega)]
  split
  · exact ⟨0x90, 0xBF, by simp; omega, by simp; omega, by simp; omega⟩
  split
  · exact ⟨0x80, 0xBF, by simp, by simp, by simp; omega⟩
  · rw [if_pos (by omega)]
    exact ⟨0x80, 0x8F, by simp; omega, by simp, by simp; omega⟩

/-- The bytes of a character are read as that character. -/
theorem decodeChar_utf8EncodeChar (offset : Nat) (c : Char) (rest : List UInt8) :
    ∃ byte tail, String.utf8EncodeChar c = byte :: tail ∧
      decodeChar offset byte (tail ++ rest) = .ok (c, rest) := by
  have hvalid : c.val.toNat.isValidChar := c.valid
  have hc : Char.ofNat c.val.toNat = c := Char.ofNat_toNat c
  unfold String.utf8EncodeChar
  dsimp only
  generalize c.val.toNat = n at hvalid hc
  have htwo : n / 64 / 64 = n / 4096 := by omega
  have hthree : n / 4096 / 64 = n / 262144 := by omega
  split
  · refine ⟨_, _, rfl, ?_⟩
    have hbyte : (UInt8.ofNat n).toNat = n := by simp; omega
    have hlead : lead? (UInt8.ofNat n) = some { following := 0, bits := n } := by
      simp only [lead?, hbyte]
      rw [if_pos (by omega)]
    simp [decodeChar, hlead, follow, hc]
  split
  · refine ⟨_, _, rfl, ?_⟩
    have hbyte : (UInt8.ofNat (n / 64 % 32 + 0xC0)).toNat = n / 64 + 0xC0 := by simp; omega
    have hlead : lead? (UInt8.ofNat (n / 64 % 32 + 0xC0)) =
        some { following := 1, bits := n / 64 } := by
      simp only [lead?, hbyte]
      rw [if_neg (by omega), if_neg (by omega), if_pos (by omega), Nat.add_sub_cancel]
    simp only [decodeChar, hlead, List.cons_append, List.nil_append]
    rw [follow_tail (by simp) (by simp; omega), follow, hc]
  split
  · refine ⟨_, _, rfl, ?_⟩
    obtain ⟨low, high, hlead, hlow, hhigh⟩ := lead?_three hvalid (by omega) (by omega)
    simp only [decodeChar, hlead, List.cons_append, List.nil_append]
    rw [← htwo, follow_tail hlow hhigh, follow_tail (by simp) (by simp; omega), follow, hc]
  · refine ⟨_, _, rfl, ?_⟩
    obtain ⟨low, high, hlead, hlow, hhigh⟩ := lead?_four hvalid (by omega)
    simp only [decodeChar, hlead, List.cons_append, List.nil_append]
    rw [← hthree, follow_tail hlow hhigh, ← htwo, follow_tail (by simp) (by simp; omega),
      follow_tail (by simp) (by simp; omega), follow, hc]

/-! ## From bytes to a character and back -/

/-- A code point that belongs to a character is the code point of that character. -/
theorem toNat_val_ofNat {n : Nat} (h : n.isValidChar) : (Char.ofNat n).val.toNat = n := by
  have hchar : Char.ofNat n = Char.ofNatAux n h := dif_pos h
  rw [hchar]
  rfl

/-- A byte is known by its number. -/
theorem ofNat_eq_of_toNat_eq (byte : UInt8) {n : Nat} (h : n = byte.toNat) :
    UInt8.ofNat n = byte := by
  rw [h, UInt8.ofNat_toNat]

/-- A reader of following bytes that succeeds has found one in the range that it asked for. -/
theorem exists_of_follow {offset seen following bits : Nat} {low high : UInt8}
    {bytes : List UInt8} {result : Char × List UInt8}
    (h : follow offset seen low high (following + 1) bits bytes = .ok result) :
    ∃ byte rest, bytes = byte :: rest ∧ low.toNat ≤ byte.toNat ∧ byte.toNat ≤ high.toNat ∧
      follow offset (seen + 1) 0x80 0xBF following (bits * 64 + (byte.toNat - 0x80)) rest =
        .ok result := by
  cases bytes with
  | nil => simp [follow] at h
  | cons byte rest =>
    by_cases hrange : low ≤ byte ∧ byte ≤ high
    · rw [follow, if_pos hrange] at h
      exact ⟨byte, rest, rfl, hrange.1, hrange.2, h⟩
    · simp [follow, hrange] at h

section Bytes

variable {first second third fourth : UInt8} {n : Nat}

/-- Two bytes that belong together are the bytes of their character. -/
theorem utf8EncodeChar_two
    (hn : n = (first.toNat - 0xC0) * 64 + (second.toNat - 0x80))
    (hfirst : 0xC2 ≤ first.toNat ∧ first.toNat < 0xE0)
    (hsecond : 0x80 ≤ second.toNat ∧ second.toNat ≤ 0xBF) :
    String.utf8EncodeChar (Char.ofNat n) = [first, second] := by
  have hvalid : n.isValidChar := .inl (by omega)
  simp only [String.utf8EncodeChar, toNat_val_ofNat hvalid]
  rw [if_neg (by omega), if_pos (by omega), ofNat_eq_of_toNat_eq first (by omega),
    ofNat_eq_of_toNat_eq second (by omega)]

/-- Three bytes that belong together are the bytes of their character. -/
theorem utf8EncodeChar_three
    (hn : n = ((first.toNat - 0xE0) * 64 + (second.toNat - 0x80)) * 64 + (third.toNat - 0x80))
    (hlow : 0x800 ≤ n) (hvalid : n.isValidChar)
    (hfirst : 0xE0 ≤ first.toNat ∧ first.toNat < 0xF0)
    (hsecond : 0x80 ≤ second.toNat ∧ second.toNat ≤ 0xBF)
    (hthird : 0x80 ≤ third.toNat ∧ third.toNat ≤ 0xBF) :
    String.utf8EncodeChar (Char.ofNat n) = [first, second, third] := by
  simp only [String.utf8EncodeChar, toNat_val_ofNat hvalid]
  rw [if_neg (by omega), if_neg (by omega), if_pos (by omega),
    ofNat_eq_of_toNat_eq first (by omega),
    ofNat_eq_of_toNat_eq second (by omega),
    ofNat_eq_of_toNat_eq third (by omega)]

/-- Four bytes that belong together are the bytes of their character. -/
theorem utf8EncodeChar_four
    (hn : n = (((first.toNat - 0xF0) * 64 + (second.toNat - 0x80)) * 64 +
      (third.toNat - 0x80)) * 64 + (fourth.toNat - 0x80))
    (hlow : 0x10000 ≤ n) (hhigh : n < 0x110000)
    (hfirst : 0xF0 ≤ first.toNat ∧ first.toNat < 0xF5)
    (hsecond : 0x80 ≤ second.toNat ∧ second.toNat ≤ 0xBF)
    (hthird : 0x80 ≤ third.toNat ∧ third.toNat ≤ 0xBF)
    (hfourth : 0x80 ≤ fourth.toNat ∧ fourth.toNat ≤ 0xBF) :
    String.utf8EncodeChar (Char.ofNat n) = [first, second, third, fourth] := by
  have hvalid : n.isValidChar := .inr (by omega)
  simp only [String.utf8EncodeChar, toNat_val_ofNat hvalid]
  rw [if_neg (by omega), if_neg (by omega), if_neg (by omega),
    ofNat_eq_of_toNat_eq first (by omega),
    ofNat_eq_of_toNat_eq second (by omega),
    ofNat_eq_of_toNat_eq third (by omega),
    ofNat_eq_of_toNat_eq fourth (by omega)]

/-- What is read behind the first byte of a character of three bytes. The bounds of the second byte
are narrower behind `0xE0` and `0xED`. -/
theorem append_of_follow_two {offset : Nat} {low high : UInt8} {bytes rest : List UInt8} {c : Char}
    (h : follow offset 1 low high 2 (first.toNat - 0xE0) bytes = .ok (c, rest))
    (hfirst : 0xE0 ≤ first.toNat ∧ first.toNat < 0xF0)
    (hlow : 0x80 ≤ low.toNat ∧ (first.toNat = 0xE0 → 0xA0 ≤ low.toNat))
    (hhigh : high.toNat ≤ 0xBF ∧ (first.toNat = 0xED → high.toNat ≤ 0x9F)) :
    first :: bytes = String.utf8EncodeChar c ++ rest := by
  obtain ⟨second, bytes, rfl, hsecond, hsecond', h⟩ := exists_of_follow h
  obtain ⟨third, bytes, rfl, hthird, hthird', h⟩ := exists_of_follow h
  simp only [follow, Except.ok.injEq, Prod.mk.injEq] at h
  obtain ⟨rfl, rfl⟩ := h
  simp only [UInt8.reduceToNat] at hthird hthird'
  rw [utf8EncodeChar_three rfl (by omega) (by simp only [Nat.isValidChar]; omega) hfirst (by omega)
    ⟨hthird, hthird'⟩]
  rfl

/-- What is read behind the first byte of a character of four bytes. The bounds of the second byte
are narrower behind `0xF0` and `0xF4`. -/
theorem append_of_follow_three {offset : Nat} {low high : UInt8} {bytes rest : List UInt8}
    {c : Char}
    (h : follow offset 1 low high 3 (first.toNat - 0xF0) bytes = .ok (c, rest))
    (hfirst : 0xF0 ≤ first.toNat ∧ first.toNat < 0xF5)
    (hlow : 0x80 ≤ low.toNat ∧ (first.toNat = 0xF0 → 0x90 ≤ low.toNat))
    (hhigh : high.toNat ≤ 0xBF ∧ (first.toNat = 0xF4 → high.toNat ≤ 0x8F)) :
    first :: bytes = String.utf8EncodeChar c ++ rest := by
  obtain ⟨second, bytes, rfl, hsecond, hsecond', h⟩ := exists_of_follow h
  obtain ⟨third, bytes, rfl, hthird, hthird', h⟩ := exists_of_follow h
  obtain ⟨fourth, bytes, rfl, hfourth, hfourth', h⟩ := exists_of_follow h
  simp only [follow, Except.ok.injEq, Prod.mk.injEq] at h
  obtain ⟨rfl, rfl⟩ := h
  simp only [UInt8.reduceToNat] at hthird hthird' hfourth hfourth'
  rw [utf8EncodeChar_four rfl (by omega) (by omega) hfirst (by omega) ⟨hthird, hthird'⟩
    ⟨hfourth, hfourth'⟩]
  rfl

end Bytes

/-- Bytes that are read as a character start with the bytes of that character. -/
theorem append_of_decodeChar {offset : Nat} {byte : UInt8} {bytes rest : List UInt8} {c : Char}
    (h : decodeChar offset byte bytes = .ok (c, rest)) :
    byte :: bytes = String.utf8EncodeChar c ++ rest := by
  unfold decodeChar at h
  cases hlead : lead? byte with
  | none => simp [hlead] at h
  | some lead =>
    simp only [hlead] at h
    simp only [lead?] at hlead
    have hbyte := byte.toNat_lt
    split at hlead
    · obtain rfl := Option.some.inj hlead
      simp only [follow, Except.ok.injEq, Prod.mk.injEq] at h
      obtain ⟨rfl, rfl⟩ := h
      have hvalid : byte.toNat.isValidChar := .inl (by omega)
      simp only [String.utf8EncodeChar, toNat_val_ofNat hvalid]
      rw [if_pos (by omega), UInt8.ofNat_toNat]
      rfl
    split at hlead
    · cases hlead
    split at hlead
    · obtain rfl := Option.some.inj hlead
      obtain ⟨second, bytes, rfl, hlow, hhigh, h⟩ := exists_of_follow h
      simp only [follow, Except.ok.injEq, Prod.mk.injEq] at h
      obtain ⟨rfl, rfl⟩ := h
      rw [utf8EncodeChar_two rfl (by omega) ⟨hlow, hhigh⟩]
      rfl
    -- Three bytes: the classes of `0xE0`, of `0xED` and of the rest.
    split at hlead
    · obtain rfl := Option.some.inj hlead
      have hbits : byte.toNat - 0xE0 = 0 := by omega
      exact append_of_follow_two (hbits ▸ h) (by omega) (by simp) (by simp; omega)
    split at hlead
    · obtain rfl := Option.some.inj hlead
      have hbits : byte.toNat - 0xE0 = 0xD := by omega
      exact append_of_follow_two (hbits ▸ h) (by omega) (by simp; omega) (by simp)
    split at hlead
    · obtain rfl := Option.some.inj hlead
      exact append_of_follow_two h (by omega) (by simp; omega) (by simp; omega)
    -- Four bytes: the classes of `0xF0`, of the middle and of `0xF4`.
    split at hlead
    · obtain rfl := Option.some.inj hlead
      have hbits : byte.toNat - 0xF0 = 0 := by omega
      exact append_of_follow_three (hbits ▸ h) (by omega) (by simp) (by simp; omega)
    split at hlead
    · obtain rfl := Option.some.inj hlead
      exact append_of_follow_three h (by omega) (by simp; omega) (by simp; omega)
    split at hlead
    · obtain rfl := Option.some.inj hlead
      have hbits : byte.toNat - 0xF0 = 4 := by omega
      exact append_of_follow_three (hbits ▸ h) (by omega) (by simp; omega) (by simp)
    · cases hlead

/-- Reading a character takes exactly its bytes. -/
theorem decodeChar_eq_ok_iff {offset : Nat} {byte : UInt8} {bytes rest : List UInt8} {c : Char} :
    decodeChar offset byte bytes = .ok (c, rest) ↔
      byte :: bytes = String.utf8EncodeChar c ++ rest := by
  refine ⟨append_of_decodeChar, fun h => ?_⟩
  obtain ⟨first, tail, hencode, hdecode⟩ := decodeChar_utf8EncodeChar offset c rest
  rw [hencode, List.cons_append, List.cons.injEq] at h
  rw [h.1, h.2, hdecode]

/-! ## Texts -/

/-- Without bytes there is nothing more to read. -/
theorem decodeFrom_nil_eq_ok_iff {rounds offset : Nat} {read result : List Char} :
    decodeFrom rounds offset read [] = .ok result ↔
      ∃ chars, result = read.reverse ++ chars ∧ [] = chars.flatMap String.utf8EncodeChar := by
  have hread : decodeFrom rounds offset read [] = .ok read.reverse := by cases rounds <;> rfl
  rw [hread, Except.ok.injEq]
  constructor
  · rintro rfl
    exact ⟨[], by simp⟩
  · rintro ⟨chars, rfl, hbytes⟩
    cases chars with
    | nil => simp
    | cons c chars => simp [String.utf8EncodeChar_ne_nil] at hbytes

/-- Reading takes exactly the bytes of the characters that it gives, if it may take as many rounds
as there are bytes. -/
theorem decodeFrom_eq_ok_iff {rounds offset : Nat} {read result : List Char} {bytes : List UInt8}
    (hrounds : bytes.length ≤ rounds) :
    decodeFrom rounds offset read bytes = .ok result ↔
      ∃ chars, result = read.reverse ++ chars ∧ bytes = chars.flatMap String.utf8EncodeChar := by
  induction rounds generalizing offset read bytes with
  | zero =>
    obtain rfl := List.eq_nil_of_length_eq_zero (Nat.le_zero.mp hrounds)
    exact decodeFrom_nil_eq_ok_iff
  | succ rounds ih =>
    cases bytes with
    | nil => exact decodeFrom_nil_eq_ok_iff
    | cons byte bytes =>
      simp only [decodeFrom, bind, Except.bind]
      constructor
      · intro h
        cases hchar : decodeChar offset byte bytes with
        | error fault => simp [hchar] at h
        | ok found =>
          obtain ⟨c, rest⟩ := found
          have happend := append_of_decodeChar hchar
          have hlength := congrArg List.length happend
          have hsize := c.utf8Size_pos
          simp only [List.length_cons, List.length_append, String.length_utf8EncodeChar]
            at hlength hrounds
          simp only [hchar] at h
          obtain ⟨chars, rfl, rfl⟩ := (ih (by omega)).mp h
          exact ⟨c :: chars, by simp, by simp [happend]⟩
      · rintro ⟨chars, rfl, hbytes⟩
        cases chars with
        | nil => simp at hbytes
        | cons c chars =>
          rw [List.flatMap_cons] at hbytes
          have hlength := congrArg List.length hbytes
          have hsize := c.utf8Size_pos
          simp only [List.length_cons, List.length_append, String.length_utf8EncodeChar]
            at hlength hrounds
          rw [decodeChar_eq_ok_iff.mpr hbytes]
          exact (ih (by dsimp only; omega)).mpr ⟨chars, by simp, rfl⟩

/-- The bytes that are read as a text are the bytes of that text. -/
theorem decode_eq_ok_iff {bytes : List UInt8} {text : String} :
    decode bytes = .ok text ↔ bytes = encode text := by
  have hmap : decode bytes = .ok text ↔ decodeFrom bytes.length 0 [] bytes = .ok text.toList := by
    unfold decode
    cases decodeFrom bytes.length 0 [] bytes with
    | error fault => simp [Functor.map, Except.map]
    | ok chars => simp [Functor.map, Except.map, ← String.toList_inj]
  rw [hmap, decodeFrom_eq_ok_iff (Nat.le_refl _)]
  simp [encode]

end FrozenScript.Text.Utf8
