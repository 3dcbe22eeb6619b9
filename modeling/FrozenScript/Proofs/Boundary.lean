import FrozenScript.Text.Position
import FrozenScript.Text.Utf8

/-!
# Boundaries between characters

An offset of a source lies between two characters or inside one. `Span.Aligned` says that both ends
of a span lie between characters, which joining spans keeps (`Span.Aligned.join`). `slice?` takes
the text between two offsets, and refuses to do so if one of them lies inside a character. Whoever
walks over the bytes and stops by the value of a byte does not stop inside a character
(`takeWhile_bytes`).
-/

namespace FrozenScript.Text

/-! ## Spans -/

/-- A span ends within a source, and both its ends lie between characters. -/
structure Span.Aligned (source : String) (span : Span) : Prop where
  within : span.stop ≤ source.utf8ByteSize
  start : String.Pos.Raw.IsValid source ⟨span.offset⟩
  stop : String.Pos.Raw.IsValid source ⟨span.stop⟩

section

variable {source : String} {before inside after : List Char}

/-- Behind some of the characters of a source an offset lies between characters. -/
theorem isValid_of_split (h : source.toList = before ++ after) :
    String.Pos.Raw.IsValid source ⟨byteLength before⟩ := by
  refine String.Pos.Raw.isValid_iff_exists_append.mpr
    ⟨String.ofList before, String.ofList after, ?_, ?_⟩
  · rw [← String.ofList_append, ← h, String.ofList_toList]
  · rw [String.Pos.Raw.ext_iff, String.byteIdx_rawEndPos, ← byteLength_toList,
      String.toList_ofList]

/-- The span of some of the characters of a source. -/
theorem aligned_of_split (h : source.toList = before ++ (inside ++ after)) :
    Span.Aligned source ⟨byteLength before, byteLength inside⟩ := by
  have hstop : String.Pos.Raw.IsValid source ⟨byteLength (before ++ inside)⟩ :=
    isValid_of_split (h.trans (List.append_assoc ..).symm)
  rw [byteLength_append] at hstop
  exact ⟨hstop.le_utf8ByteSize, isValid_of_split h, hstop⟩

/-- The empty span at the start of a source. -/
theorem aligned_zero (source : String) : Span.Aligned source ⟨0, 0⟩ := by
  have hsplit : source.toList = [] ++ ([] ++ source.toList) := rfl
  exact aligned_of_split hsplit

theorem Span.Aligned.join {first second : Span} (h : first.Aligned source)
    (h' : second.Aligned source) : (first.join second).Aligned source := by
  refine ⟨?_, ?_, ?_⟩
  · rw [Span.stop_join]
    exact Nat.max_le.mpr ⟨h.within, h'.within⟩
  · rw [Span.start_join]
    rcases Nat.le_total first.offset second.offset with hle | hle
    · rw [Nat.min_eq_left hle]
      exact h.start
    · rw [Nat.min_eq_right hle]
      exact h'.start
  · rw [Span.stop_join]
    rcases Nat.le_total first.stop second.stop with hle | hle
    · rw [Nat.max_eq_right hle]
      exact h'.stop
    · rw [Nat.max_eq_left hle]
      exact h.stop

/-! ## Slices -/

/-- The text between two offsets of a source, if both lie between characters. -/
def slice? (source : String) (start stop : Nat) : Option String :=
  if h : String.Pos.Raw.IsValid source ⟨start⟩ ∧ String.Pos.Raw.IsValid source ⟨stop⟩ ∧
      start ≤ stop then
    some (source.extract ⟨⟨start⟩, h.1⟩ ⟨⟨stop⟩, h.2.1⟩)
  else none

theorem size_utf8Encode (chars : List Char) : chars.utf8Encode.size = byteLength chars := by
  have hsize := byteLength_toList (String.ofList chars)
  rw [String.toList_ofList] at hsize
  rw [hsize, ← String.toByteArray_ofList, String.size_toByteArray]

theorem extract_utf8Encode (before inside after : List Char) :
    (before ++ (inside ++ after)).utf8Encode.extract (byteLength before)
      (byteLength before + byteLength inside) = inside.utf8Encode := by
  rw [List.utf8Encode_append, List.utf8Encode_append, ← size_utf8Encode, ← size_utf8Encode]
  exact (ByteArray.extract_append_size_add (i := 0)).trans (ByteArray.extract_append_eq_left rfl)

theorem slice?_of_split (h : source.toList = before ++ (inside ++ after)) {start stop : Nat}
    (hstart : start = byteLength before) (hstop : stop = start + byteLength inside) :
    slice? source start stop = some (String.ofList inside) := by
  subst hstop hstart
  have haligned := aligned_of_split h
  have hbounds : String.Pos.Raw.IsValid source ⟨byteLength before⟩ ∧
      String.Pos.Raw.IsValid source ⟨byteLength before + byteLength inside⟩ ∧
      byteLength before ≤ byteLength before + byteLength inside :=
    ⟨haligned.start, haligned.stop, Nat.le_add_right _ _⟩
  unfold slice?
  rw [dif_pos hbounds, Option.some.injEq, ← String.toByteArray_inj, String.toByteArray_extract,
    String.toByteArray_ofList, ← String.utf8Encode_toList, h]
  exact extract_utf8Encode before inside after

example : slice? "é" 0 2 = some "é" ∧ slice? "é" 1 2 = none := by decide +kernel

end

/-! ## Bytes of characters -/

/-- A character below 128 takes one byte. -/
theorem utf8Size_of_lt {c : Char} (h : c.toNat < 128) : c.utf8Size = 1 :=
  Char.utf8Size_eq_one_iff.mpr (UInt32.le_iff_toNat_le.mpr (Nat.le_of_lt_succ h))

theorem byteLength_singleton (c : Char) : byteLength [c] = c.utf8Size :=
  Nat.zero_add _

theorem length_le_byteLength (chars : List Char) : chars.length ≤ byteLength chars := by
  induction chars with
  | nil => exact Nat.le_refl 0
  | cons c chars ih =>
      have hpos : 0 < c.utf8Size := c.utf8Size_pos
      rw [List.length_cons, byteLength_cons]
      omega

/-- The bytes of some characters. -/
def Utf8.bytes (chars : List Char) : List UInt8 :=
  chars.flatMap String.utf8EncodeChar

theorem Utf8.length_bytes (chars : List Char) : (Utf8.bytes chars).length = byteLength chars := by
  induction chars with
  | nil => rfl
  | cons c chars ih =>
      unfold Utf8.bytes at ih ⊢
      rw [List.flatMap_cons, List.length_append, ih, String.length_utf8EncodeChar, byteLength_cons]

theorem Utf8.bytes_cons (c : Char) (chars : List Char) :
    Utf8.bytes (c :: chars) = String.utf8EncodeChar c ++ Utf8.bytes chars :=
  List.flatMap_cons

theorem Utf8.bytes_append (chars more : List Char) :
    Utf8.bytes (chars ++ more) = Utf8.bytes chars ++ Utf8.bytes more :=
  List.flatMap_append

/-- A character below 128 is one byte, and the byte stands for the character. -/
theorem utf8EncodeChar_of_lt {c : Char} (h : c.toNat < 128) :
    ∃ byte, String.utf8EncodeChar c = [byte] ∧ Char.ofUInt8 byte = c := by
  refine ⟨c.val.toUInt8, String.utf8EncodeChar_eq_singleton (utf8Size_of_lt h), ?_⟩
  refine Char.ext (UInt32.toNat.inj ?_)
  have hvalue : c.val.toNat % 256 = c.val.toNat := Nat.mod_eq_of_lt (Nat.lt_trans h (by decide))
  exact hvalue

/-- No byte of another character is below 128. -/
theorem le_ofUInt8 {c : Char} (h : 128 ≤ c.toNat) {b : UInt8}
    (hb : b ∈ String.utf8EncodeChar c) : 128 ≤ (Char.ofUInt8 b).toNat := by
  suffices hall : ∀ b ∈ String.utf8EncodeChar c, 128 ≤ (Char.ofUInt8 b).toNat from hall b hb
  clear hb b
  have hbyte (n : Nat) (hlow : 128 ≤ n) (hhigh : n < 256) :
      128 ≤ (Char.ofUInt8 (UInt8.ofNat n)).toNat := by
    have hvalue : (Char.ofUInt8 (UInt8.ofNat n)).toNat = n := Nat.mod_eq_of_lt hhigh
    omega
  have htail (n : Nat) : 128 ≤ (Char.ofUInt8 (UInt8.ofNat (n % 64 + 128))).toNat :=
    hbyte _ (by omega) (by omega)
  have hc : 128 ≤ c.val.toNat := h
  unfold String.utf8EncodeChar
  dsimp only
  generalize c.val.toNat = n at hc
  split
  next hsmall => exact absurd (Nat.le_trans hc hsmall) (by decide)
  split
  next =>
    simp only [List.forall_mem_cons]
    exact ⟨hbyte _ (by omega) (by omega), htail _, nofun⟩
  split
  next =>
    simp only [List.forall_mem_cons]
    exact ⟨hbyte _ (by omega) (by omega), htail _, htail _, nofun⟩
  next =>
    simp only [List.forall_mem_cons]
    exact ⟨hbyte _ (by omega) (by omega), htail _, htail _, htail _, nofun⟩

/-! ## Walking over bytes -/

/-- The bytes in a class, each of them read as a character. -/
def byteIn (p : Char → Bool) (byte : UInt8) : Bool :=
  p (Char.ofUInt8 byte)

/-- A class of characters does not tell the characters from 128 on apart. -/
def Blind (p : Char → Bool) (answer : Bool) : Prop :=
  ∀ c : Char, 128 ≤ c.toNat → p c = answer

/-- A class without the characters from 128 on has smaller ones only. -/
theorem Blind.toNat_lt {p : Char → Bool} (h : Blind p false) {c : Char} (hc : p c = true) :
    c.toNat < 128 :=
  Nat.lt_of_not_le fun hle => Bool.false_ne_true ((h c hle).symm.trans hc)

/-- The bytes of a character are in a class exactly if the character is. -/
theorem Blind.byteIn_of_mem {p : Char → Bool} {answer : Bool} (h : Blind p answer) {c : Char}
    {b : UInt8} (hb : b ∈ String.utf8EncodeChar c) : byteIn p b = p c := by
  rcases Nat.lt_or_ge c.toNat 128 with hlt | hle
  · obtain ⟨byte, hbytes, hbyte⟩ := utf8EncodeChar_of_lt hlt
    rw [hbytes, List.mem_singleton] at hb
    exact congrArg p (hb ▸ hbyte)
  · exact (h _ (le_ofUInt8 hle hb)).trans (h c hle).symm

/-- The first bytes in a class are the bytes of the first characters in it. -/
theorem takeWhile_bytes {p : Char → Bool} {answer : Bool} (h : Blind p answer)
    (chars : List Char) :
    (Utf8.bytes chars).takeWhile (byteIn p) = Utf8.bytes (chars.takeWhile p) := by
  induction chars with
  | nil => rfl
  | cons c chars ih =>
      have hall (b : UInt8) (hb : b ∈ String.utf8EncodeChar c) := h.byteIn_of_mem hb
      rw [Utf8.bytes_cons]
      cases hp : p c with
      | true =>
          rw [List.takeWhile_append_of_pos fun b hb => (hall b hb).trans hp, ih,
            List.takeWhile_cons_of_pos hp, Utf8.bytes_cons]
      | false =>
          rw [List.takeWhile_cons_of_neg (Bool.eq_false_iff.mp hp)]
          cases hbytes : String.utf8EncodeChar c with
          | nil => exact absurd hbytes String.utf8EncodeChar_ne_nil
          | cons byte tail =>
              have hfirst : byteIn p byte = false :=
                (hall byte (hbytes ▸ List.mem_cons_self)).trans hp
              exact List.takeWhile_cons_of_neg (Bool.eq_false_iff.mp hfirst)

/-! ## Classes of characters -/

/-- A character from 128 on is no sign below. -/
theorem ne_of_toNat_lt {c sign : Char} (hc : 128 ≤ c.toNat) (hsign : sign.toNat < 128) :
    c ≠ sign := by
  rintro rfl
  exact absurd hsign (Nat.not_lt.mpr hc)

theorem blind_eq {sign : Char} (h : sign.toNat < 128) : Blind (· == sign) false :=
  fun _ hc => beq_eq_false_iff_ne.mpr (ne_of_toNat_lt hc h)

theorem blind_ne {sign : Char} (h : sign.toNat < 128) : Blind (· != sign) true :=
  fun _ hc => bne_iff_ne.mpr (ne_of_toNat_lt hc h)

theorem blind_or {p q : Char → Bool} (hp : Blind p false) (hq : Blind q false) :
    Blind (fun c => p c || q c) false :=
  fun c hc => Bool.or_eq_false_iff.mpr ⟨hp c hc, hq c hc⟩

theorem blind_and {p q : Char → Bool} (hp : Blind p true) (hq : Blind q true) :
    Blind (fun c => p c && q c) true :=
  fun c hc => Bool.and_eq_true_iff.mpr ⟨hp c hc, hq c hc⟩

theorem isDigit_blind : Blind Char.isDigit false := by
  intro c hc
  refine Bool.eq_false_iff.mpr fun hdigit => ?_
  have hle : c.toNat ≤ 57 := (Char.isDigit_iff_toNat.mp hdigit).2
  omega

theorem isUpper_blind : Blind Char.isUpper false := by
  intro c hc
  refine Bool.eq_false_iff.mpr fun hupper => ?_
  have hle : c.toNat ≤ 90 := UInt32.le_iff_toNat_le.mp (of_decide_eq_true hupper).2
  omega

theorem isLower_blind : Blind Char.isLower false := by
  intro c hc
  refine Bool.eq_false_iff.mpr fun hlower => ?_
  have hle : c.val ≤ 'z'.val := of_decide_eq_true (Bool.and_eq_true_iff.mp hlower).2
  have hle : c.toNat ≤ 122 := UInt32.le_iff_toNat_le.mp hle
  omega

theorem isAlphanum_blind : Blind Char.isAlphanum false :=
  blind_or (blind_or isUpper_blind isLower_blind) isDigit_blind

/-- The first byte of a character is a sign below 128 exactly if the character is. -/
theorem ofUInt8_eq_iff {c sign : Char} {byte : UInt8} (hmem : byte ∈ String.utf8EncodeChar c)
    (hsign : sign.toNat < 128) : Char.ofUInt8 byte = sign ↔ c = sign := by
  have hclass : (Char.ofUInt8 byte == sign) = (c == sign) := (blind_eq hsign).byteIn_of_mem hmem
  exact ⟨fun h => beq_iff_eq.mp (hclass.symm.trans (beq_iff_eq.mpr h)),
    fun h => beq_iff_eq.mp (hclass.trans (beq_iff_eq.mpr h))⟩

/-! ## Bytes read as characters -/

/-- Bytes of characters below 128, read as characters. -/
theorem map_ofUInt8_bytes {chars : List Char} (h : ∀ c ∈ chars, c.toNat < 128) :
    (Utf8.bytes chars).map Char.ofUInt8 = chars := by
  induction chars with
  | nil => rfl
  | cons c chars ih =>
      obtain ⟨hc, hchars⟩ := List.forall_mem_cons.mp h
      obtain ⟨byte, hbytes, hbyte⟩ := utf8EncodeChar_of_lt hc
      rw [Utf8.bytes_cons, hbytes, List.map_append, ih hchars, List.map_singleton, hbyte]
      rfl

/-- The byte that ends a line is the line break. -/
theorem bne_newlineByte : (· != newlineByte) = byteIn (· != '\n') := by
  funext byte
  refine Bool.eq_iff_iff.mpr ?_
  unfold byteIn
  rw [bne_iff_ne, bne_iff_ne]
  refine not_congr ⟨fun h => h ▸ rfl, fun h => UInt8.toNat.inj ?_⟩
  exact congrArg Char.toNat h

/-- The next byte is a sign below 128 exactly if the next character is. -/
theorem head?_map_ofUInt8_iff (chars : List Char) (sign : Char) (hsign : sign.toNat < 128) :
    ((Utf8.bytes chars).map Char.ofUInt8).head? = some sign ↔ chars.head? = some sign := by
  cases chars with
  | nil => exact Iff.rfl
  | cons c chars =>
  rw [Utf8.bytes_cons]
  cases hbytes : String.utf8EncodeChar c with
  | nil => exact absurd hbytes String.utf8EncodeChar_ne_nil
  | cons byte tail =>
      have hmem : byte ∈ String.utf8EncodeChar c := hbytes ▸ List.mem_cons_self
      rw [List.cons_append, List.map_cons, List.head?_cons, List.head?_cons, Option.some.injEq,
        Option.some.injEq]
      exact ofUInt8_eq_iff hmem hsign

end FrozenScript.Text
