import FrozenScript.Image.Decode
import FrozenScript.Proofs.Utf8

/-!
# Readers that invert writers

`Inverts read write fits` says that a reader takes exactly what a writer makes of the values that
fit, whatever follows: a reader that accepted a second form of a value, or looked at the bytes
behind it, would not invert the writer. The lemmas of this module give the readers of numbers,
flags, texts, lists, operators and instructions. Lengths are numbers of eight bytes, so a text or a
list fits if it is shorter than `widthBound 8`.
-/

namespace FrozenScript.Image

open Text

/-! ## Numbers as digits -/

/-- The numbers below this one have digits of the given width. -/
def widthBound : (width : Nat) → Nat
  | 0 => 1
  | width + 1 => 256 * widthBound width

@[simp] theorem length_littleEndian (width n : Nat) : (littleEndian width n).length = width := by
  induction width generalizing n with
  | zero => rfl
  | succ width ih => simp [littleEndian, ih]

/-- A number is read back from its digits. -/
theorem fromLittleEndian_littleEndian {width n : Nat} (h : n < widthBound width) :
    fromLittleEndian (littleEndian width n) = n := by
  induction width generalizing n with
  | zero =>
    simp only [widthBound] at h
    simp only [littleEndian, fromLittleEndian]
    omega
  | succ width ih =>
    have hrest : n / 256 < widthBound width := by
      simp only [widthBound] at h
      omega
    simp only [littleEndian, fromLittleEndian, ih hrest, UInt8.toNat_ofNat']
    omega

/-- Digits make a number of their width. -/
theorem fromLittleEndian_lt (digits : List UInt8) :
    fromLittleEndian digits < widthBound digits.length := by
  induction digits with
  | nil => simp [fromLittleEndian, widthBound]
  | cons byte rest ih =>
    have hbyte := byte.toNat_lt
    simp only [fromLittleEndian, List.length_cons, widthBound]
    omega

/-- Digits are the digits of their number. -/
theorem littleEndian_fromLittleEndian (digits : List UInt8) :
    littleEndian digits.length (fromLittleEndian digits) = digits := by
  induction digits with
  | nil => rfl
  | cons byte rest ih =>
    have hbyte := byte.toNat_lt
    have hhigh : (byte.toNat + 256 * fromLittleEndian rest) / 256 = fromLittleEndian rest := by
      omega
    have hlow : UInt8.ofNat (byte.toNat + 256 * fromLittleEndian rest) = byte := by
      apply UInt8.toNat_inj.mp
      rw [UInt8.toNat_ofNat']
      omega
    simp only [List.length_cons, fromLittleEndian, littleEndian, hlow, hhigh, ih]

namespace Reader

variable {α β : Type}

/-- A reader takes exactly what a writer makes of the values that fit, whatever follows. -/
def Inverts (read : Reader α) (write : α → List UInt8) (fits : α → Prop) : Prop :=
  ∀ bytes value rest, read bytes = .ok (value, rest) ↔ fits value ∧ bytes = write value ++ rest

/-! ## Success of a composed reader -/

/-- Two readers in a row succeed if the first one does and the second one does behind it. -/
theorem bind_eq_ok_iff {read : Reader α} {next : α → Reader β} {bytes rest : List UInt8} {b : β} :
    (read >>= next) bytes = .ok (b, rest) ↔
      ∃ a behind, read bytes = .ok (a, behind) ∧ next a behind = .ok (b, rest) := by
  simp only [bind, StateT.bind, Except.bind]
  cases read bytes with
  | error defect => simp
  | ok found =>
    obtain ⟨a, behind⟩ := found
    constructor
    · exact fun h => ⟨a, behind, rfl, h⟩
    · rintro ⟨a', behind', h, hnext⟩
      cases h
      exact hnext

/-- A reader of nothing leaves all bytes. -/
theorem pure_eq_ok_iff {a b : α} {bytes rest : List UInt8} :
    (pure a : Reader α) bytes = .ok (b, rest) ↔ b = a ∧ bytes = rest := by
  constructor
  · intro h
    obtain ⟨hvalue, hrest⟩ := Prod.mk.inj (Except.ok.inj h)
    exact ⟨hvalue.symm, hrest⟩
  · rintro ⟨rfl, rfl⟩
    rfl

/-- A reader of something computed succeeds with what it computes from. -/
theorem map_eq_ok_iff {f : α → β} {read : Reader α} {bytes rest : List UInt8} {b : β} :
    (f <$> read) bytes = .ok (b, rest) ↔ ∃ a, read bytes = .ok (a, rest) ∧ b = f a := by
  rw [map_eq_pure_bind, bind_eq_ok_iff]
  simp only [pure_eq_ok_iff]
  constructor
  · rintro ⟨a, behind, hread, rfl, rfl⟩
    exact ⟨a, hread, rfl⟩
  · rintro ⟨a, hread, rfl⟩
    exact ⟨a, rest, hread, rfl, rfl⟩

/-- Reading another representation of a value inverts writing it. -/
theorem Inverts.map {read : Reader α} {write : α → List UInt8} {fits : α → Prop}
    (h : Inverts read write fits) {f : α → β} {g : β → α} (hback : ∀ b, f (g b) = b)
    (hforth : ∀ a, fits a → g (f a) = a) : Inverts (f <$> read) (write ∘ g) (fits ∘ g) := by
  intro bytes b rest
  rw [map_eq_ok_iff]
  constructor
  · rintro ⟨a, hread, rfl⟩
    obtain ⟨hfits, rfl⟩ := (h _ _ _).mp hread
    exact ⟨by simpa only [Function.comp_apply, hforth a hfits],
      by simp only [Function.comp_apply, hforth a hfits]⟩
  · rintro ⟨hfits, rfl⟩
    exact ⟨g b, (h _ _ _).mpr ⟨hfits, rfl⟩, (hback b).symm⟩

/-! ## Items of fixed size -/

/-- Reading a number takes the digits of its width. -/
theorem number_inverts (width : Nat) :
    Inverts (number width) (littleEndian width) (· < widthBound width) := by
  intro bytes n rest
  simp only [number]
  constructor
  · intro h
    split at h
    · next hlength =>
      simp only [Except.ok.injEq, Prod.mk.injEq] at h
      obtain ⟨rfl, rfl⟩ := h
      have hlt := fromLittleEndian_lt (bytes.take width)
      have hsame := littleEndian_fromLittleEndian (bytes.take width)
      rw [hlength] at hlt hsame
      exact ⟨hlt, by rw [hsame, List.take_append_drop]⟩
    · cases h
  · rintro ⟨hlt, rfl⟩
    have hlength := length_littleEndian width n
    rw [List.take_left' hlength, List.drop_left' hlength, if_pos hlength,
      fromLittleEndian_littleEndian hlt]

/-- Every word is read back. -/
theorem word_inverts : Inverts word encodeWord fun _ => True := by
  intro bytes n rest
  have h := (number_inverts 4).map (f := UInt32.ofNat) (g := UInt32.toNat)
    (fun n => UInt32.ofNat_toNat) (fun n hn => UInt32.toNat_ofNat_of_lt' hn) bytes n rest
  have hn : n.toNat < widthBound 4 := n.toNat_lt
  simpa [word, encodeWord, hn] using h

/-- Every signed word is read back. -/
theorem int_inverts : Inverts int encodeInt fun _ => True := by
  intro bytes n rest
  have h := (number_inverts 8).map (f := fun n => (UInt64.ofNat n).toInt64)
    (g := fun n => n.toUInt64.toNat) (fun n => by simp)
    (fun n hn => by simpa using UInt64.toNat_ofNat_of_lt' hn) bytes n rest
  have hn : n.toUInt64.toNat < widthBound 8 := n.toUInt64.toNat_lt
  simpa [int, encodeInt, hn] using h

/-- Every flag is read back, and only zero and one are flags. -/
theorem flag_inverts : Inverts flag encodeFlag fun _ => True := by
  intro bytes value rest
  simp only [flag, bind_eq_ok_iff]
  constructor
  · rintro ⟨n, behind, hnumber, h⟩
    obtain ⟨-, rfl⟩ := (number_inverts 1 _ _ _).mp hnumber
    match n, h with
    | 0, h | 1, h =>
      obtain ⟨rfl, rfl⟩ := pure_eq_ok_iff.mp h
      exact ⟨trivial, rfl⟩
    | n + 2, h => cases h
  · rintro ⟨-, rfl⟩
    cases value with
    | false =>
      exact ⟨0, rest, (number_inverts 1 _ _ _).mpr ⟨by decide, rfl⟩, pure_eq_ok_iff.mpr ⟨rfl, rfl⟩⟩
    | true =>
      exact ⟨1, rest, (number_inverts 1 _ _ _).mpr ⟨by decide, rfl⟩, pure_eq_ok_iff.mpr ⟨rfl, rfl⟩⟩

/-! ## Texts and lists -/

/-- A text of fewer than `widthBound 8` bytes is read back. -/
theorem text_inverts :
    Inverts text encodeText fun text => (Utf8.encode text).length < widthBound 8 := by
  intro bytes value rest
  simp only [text, bind_eq_ok_iff, textBody, encodeText, encodeLength]
  constructor
  · rintro ⟨length, behind, hnumber, h⟩
    obtain ⟨hfits, rfl⟩ := (number_inverts 8 _ _ _).mp hnumber
    split at h
    · next hlength =>
      split at h
      · next hdecode =>
        simp only [Except.ok.injEq, Prod.mk.injEq] at h
        obtain ⟨rfl, rfl⟩ := h
        have hbody := Utf8.decode_eq_ok_iff.mp hdecode
        rw [← hbody, hlength]
        exact ⟨hfits, by rw [List.append_assoc, List.take_append_drop]⟩
      · cases h
    · cases h
  · rintro ⟨hfits, rfl⟩
    refine ⟨(Utf8.encode value).length, Utf8.encode value ++ rest,
      (number_inverts 8 _ _ _).mpr ⟨hfits, by rw [List.append_assoc]⟩, ?_⟩
    rw [List.take_left, if_pos rfl, Utf8.decode_eq_ok_iff.mpr rfl, List.drop_left]

/-- Reading items takes exactly what the writer of an item makes of each of them. -/
theorem items_eq_ok_iff {item : Reader α} {write : α → List UInt8} {fits : α → Prop}
    (hitem : Inverts item write fits) {count : Nat} {read result : List α}
    {bytes rest : List UInt8} :
    items item count read bytes = .ok (result, rest) ↔
      ∃ values, result = read.reverse ++ values ∧ values.length = count ∧
        (∀ value ∈ values, fits value) ∧ bytes = values.flatMap write ++ rest := by
  induction count generalizing read bytes with
  | zero =>
    rw [items, pure_eq_ok_iff]
    constructor
    · rintro ⟨rfl, rfl⟩
      exact ⟨[], by simp⟩
    · rintro ⟨values, rfl, hlength, -, rfl⟩
      obtain rfl := List.eq_nil_of_length_eq_zero hlength
      simp
  | succ count ih =>
    rw [items, bind_eq_ok_iff]
    constructor
    · rintro ⟨value, behind, hread, h⟩
      obtain ⟨hfits, rfl⟩ := (hitem _ _ _).mp hread
      obtain ⟨values, rfl, rfl, hall, rfl⟩ := ih.mp h
      exact ⟨value :: values, by simp, by simp, by simpa using ⟨hfits, hall⟩, by simp⟩
    · rintro ⟨values, rfl, hlength, hall, rfl⟩
      cases values with
      | nil => cases hlength
      | cons value values =>
        simp only [List.mem_cons, forall_eq_or_imp] at hall
        exact ⟨value, values.flatMap write ++ rest, (hitem _ _ _).mpr ⟨hall.1, by simp⟩,
          ih.mpr ⟨values, by simp, Nat.succ.inj hlength, hall.2, rfl⟩⟩

/-- A list is read back if it has fewer than `widthBound 8` items and its items are read back. -/
theorem list_inverts {item : Reader α} {write : α → List UInt8} {fits : α → Prop}
    (hitem : Inverts item write fits) :
    Inverts (list item) (encodeList write) fun values =>
      values.length < widthBound 8 ∧ ∀ value ∈ values, fits value := by
  intro bytes values rest
  simp only [list, bind_eq_ok_iff, encodeList, encodeLength, items_eq_ok_iff hitem]
  constructor
  · rintro ⟨length, behind, hnumber, _, rfl, rfl, hall, rfl⟩
    obtain ⟨hlength, rfl⟩ := (number_inverts 8 _ _ _).mp hnumber
    exact ⟨⟨hlength, hall⟩, by simp⟩
  · rintro ⟨⟨hlength, hall⟩, rfl⟩
    exact ⟨values.length, values.flatMap write ++ rest,
      (number_inverts 8 _ _ _).mpr ⟨hlength, by simp⟩, values, by simp, rfl, hall, rfl⟩

/-! ## Choices -/

/-- A choice takes a tag and gives the variant that has it. -/
theorem choice_eq_ok_iff {variants : List α} {bytes rest : List UInt8} {variant : α} :
    choice variants bytes = .ok (variant, rest) ↔
      ∃ tag : UInt32, variants[tag.toNat]? = some variant ∧ bytes = encodeWord tag ++ rest := by
  simp only [choice, bind_eq_ok_iff]
  constructor
  · rintro ⟨tag, behind, hword, h⟩
    obtain ⟨-, rfl⟩ := (word_inverts _ _ _).mp hword
    cases hvariant : variants[tag.toNat]? with
    | none =>
      rw [hvariant] at h
      cases h
    | some found =>
      rw [hvariant] at h
      obtain ⟨rfl, rfl⟩ := pure_eq_ok_iff.mp h
      exact ⟨tag, hvariant, rfl⟩
  · rintro ⟨tag, hvariant, rfl⟩
    refine ⟨tag, rest, (word_inverts _ _ _).mpr ⟨trivial, rfl⟩, ?_⟩
    rw [hvariant]
    exact pure_eq_ok_iff.mpr ⟨rfl, rfl⟩

/-- A choice between constants inverts writing the tag of each, if tags are positions. -/
theorem choice_inverts {variants : List α} {tagOf : α → UInt32}
    (hall : ∀ variant, variants[(tagOf variant).toNat]? = some variant)
    (htag : ∀ n (h : n < variants.length), (tagOf variants[n]).toNat = n) :
    Inverts (choice variants) (fun variant => encodeWord (tagOf variant)) fun _ => True := by
  intro bytes variant rest
  rw [choice_eq_ok_iff]
  constructor
  · rintro ⟨tag, hvariant, rfl⟩
    obtain ⟨hlt, rfl⟩ := List.getElem?_eq_some_iff.mp hvariant
    have hsame : tagOf variants[tag.toNat] = tag := UInt32.toNat_inj.mp (htag _ hlt)
    exact ⟨trivial, by simp only [hsame]⟩
  · rintro ⟨-, rfl⟩
    exact ⟨tagOf variant, hall variant, rfl⟩

/-- Every arithmetic operator is read back. -/
theorem binaryOp_inverts :
    Inverts binaryOp (fun op => encodeWord (binaryTag op)) fun _ => True :=
  choice_inverts (fun op => by cases op <;> rfl) (by decide)

/-- Every operator with one operand is read back. -/
theorem unaryOp_inverts : Inverts unaryOp (fun op => encodeWord (unaryTag op)) fun _ => True :=
  choice_inverts (fun op => by cases op <;> rfl) (by decide)

/-- Every comparison operator is read back. -/
theorem compareOp_inverts :
    Inverts compareOp (fun op => encodeWord (compareTag op)) fun _ => True :=
  choice_inverts (fun op => by cases op <;> rfl) (by decide)

/-! ## Instructions -/

/-- Reading an operand and what it belongs to takes what the operand's writer makes of it. -/
theorem Inverts.map_eq_ok_iff {read : Reader α} {write : α → List UInt8} {fits : α → Prop}
    (h : Inverts read write fits) {f : α → β} {bytes rest : List UInt8} {b : β} :
    (f <$> read) bytes = .ok (b, rest) ↔
      ∃ a, fits a ∧ b = f a ∧ bytes = write a ++ rest := by
  rw [Reader.map_eq_ok_iff]
  constructor
  · rintro ⟨a, hread, rfl⟩
    obtain ⟨hfits, rfl⟩ := (h _ _ _).mp hread
    exact ⟨a, hfits, rfl, rfl⟩
  · rintro ⟨a, hfits, rfl, rfl⟩
    exact ⟨a, (h _ _ _).mpr ⟨hfits, rfl⟩, rfl⟩

/-- An instruction is read by the operand reader of its tag. -/
theorem instr_eq_ok_iff {bytes rest : List UInt8} {value : Instr} :
    instr bytes = .ok (value, rest) ↔ ∃ (tag : UInt32) (operand : Reader Instr) (behind : _),
      operands[tag.toNat]? = some operand ∧ bytes = encodeWord tag ++ behind ∧
        operand behind = .ok (value, rest) := by
  simp only [instr, bind_eq_ok_iff, choice_eq_ok_iff]
  constructor
  · rintro ⟨operand, behind, ⟨tag, hoperand, rfl⟩, h⟩
    exact ⟨tag, operand, behind, hoperand, rfl, h⟩
  · rintro ⟨tag, operand, behind, hoperand, rfl, h⟩
    exact ⟨operand, behind, ⟨tag, hoperand, rfl⟩, h⟩

/-- What an operand reader has read is the instruction that was written. -/
theorem eq_encodeInstr_append {tag : UInt32} {operand : Reader Instr} {behind rest : List UInt8}
    {value : Instr} (hoperand : operands[tag.toNat]? = some operand)
    (h : operand behind = .ok (value, rest)) :
    encodeWord tag ++ behind = encodeInstr value ++ rest := by
  -- A word has no cases, but a number has, and the table gives a reader for few of them.
  obtain ⟨n, hn⟩ : ∃ n, tag.toNat = n := ⟨_, rfl⟩
  obtain rfl : tag = UInt32.ofNat n := by rw [← hn, UInt32.ofNat_toNat]
  rw [hn] at hoperand
  match n, hoperand with
  | 0, rfl | 1, rfl | 2, rfl | 3, rfl | 4, rfl | 8, rfl | 9, rfl | 10, rfl | 11, rfl | 12, rfl
  | 13, rfl | 14, rfl =>
    obtain ⟨index, -, rfl, rfl⟩ := word_inverts.map_eq_ok_iff.mp h
    rfl
  | 5, rfl =>
    obtain ⟨op, -, rfl, rfl⟩ := binaryOp_inverts.map_eq_ok_iff.mp h
    rfl
  | 6, rfl =>
    obtain ⟨op, -, rfl, rfl⟩ := unaryOp_inverts.map_eq_ok_iff.mp h
    rfl
  | 7, rfl =>
    obtain ⟨op, -, rfl, rfl⟩ := compareOp_inverts.map_eq_ok_iff.mp h
    rfl
  | 15, rfl | 16, rfl =>
    obtain ⟨rfl, rfl⟩ := pure_eq_ok_iff.mp h
    rfl
  | 17, rfl =>
    obtain ⟨flag, -, rfl, rfl⟩ := flag_inverts.map_eq_ok_iff.mp h
    rfl

/-- Every instruction is read back. -/
theorem instr_inverts : Inverts instr encodeInstr fun _ => True := by
  intro bytes value rest
  rw [instr_eq_ok_iff]
  constructor
  · rintro ⟨tag, operand, behind, hoperand, rfl, h⟩
    exact ⟨trivial, eq_encodeInstr_append hoperand h⟩
  · rintro ⟨-, rfl⟩
    have hword : ∀ (tag : UInt32) (f : UInt32 → Instr) (n : UInt32),
        operands[tag.toNat]? = some (f <$> word) →
        encodeInstr (f n) = encodeWord tag ++ encodeWord n →
        ∃ (tag : UInt32) (operand : Reader Instr) (behind : _),
          operands[tag.toNat]? = some operand ∧
            encodeInstr (f n) ++ rest = encodeWord tag ++ behind ∧
              operand behind = .ok (f n, rest) := by
      intro tag f n hoperand hencode
      exact ⟨tag, _, _, hoperand, by rw [hencode, List.append_assoc],
        word_inverts.map_eq_ok_iff.mpr ⟨n, trivial, rfl, rfl⟩⟩
    cases value with
    | loadConst index => exact hword 0 .loadConst index rfl rfl
    | loadName index => exact hword 1 .loadName index rfl rfl
    | storeName index => exact hword 2 .storeName index rfl rfl
    | loadMember index => exact hword 3 .loadMember index rfl rfl
    | importName index => exact hword 4 .importName index rfl rfl
    | binaryOp op =>
      exact ⟨5, _, _, rfl, List.append_assoc ..,
        binaryOp_inverts.map_eq_ok_iff.mpr ⟨op, trivial, rfl, rfl⟩⟩
    | unaryOp op =>
      exact ⟨6, _, _, rfl, List.append_assoc ..,
        unaryOp_inverts.map_eq_ok_iff.mpr ⟨op, trivial, rfl, rfl⟩⟩
    | compare op =>
      exact ⟨7, _, _, rfl, List.append_assoc ..,
        compareOp_inverts.map_eq_ok_iff.mpr ⟨op, trivial, rfl, rfl⟩⟩
    | jump target => exact hword 8 .jump target rfl rfl
    | popJumpIfFalse target => exact hword 9 .popJumpIfFalse target rfl rfl
    | popJumpIfTrue target => exact hword 10 .popJumpIfTrue target rfl rfl
    | jumpIfFalseOrPop target => exact hword 11 .jumpIfFalseOrPop target rfl rfl
    | jumpIfTrueOrPop target => exact hword 12 .jumpIfTrueOrPop target rfl rfl
    | call argCount => exact hword 13 .call argCount rfl rfl
    | makeFunction index => exact hword 14 .makeFunction index rfl rfl
    | pop => exact ⟨15, _, _, rfl, rfl, pure_eq_ok_iff.mpr ⟨rfl, rfl⟩⟩
    | giveBack => exact ⟨16, _, _, rfl, rfl, pure_eq_ok_iff.mpr ⟨rfl, rfl⟩⟩
    | raiseAssert withMessage =>
      exact ⟨17, _, _, rfl, List.append_assoc ..,
        flag_inverts.map_eq_ok_iff.mpr ⟨withMessage, trivial, rfl, rfl⟩⟩

end Reader

end FrozenScript.Image
