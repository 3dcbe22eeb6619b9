import FrozenScript.Proofs.Image.Reader

/-!
# Images are canonical and delimit themselves

The main statement, `decode_canonical`, says that reading an image gives a unit exactly if the
image starts with what writing the unit makes. Hence a unit is read back from its image, no two
units have the same image, no image starts with the image of another unit, and writing what was
read gives back the bytes that were read.

The induction is on the number of levels that `Reader.unitWithin` may take (`unitWithin_inverts`).
A unit inside another one is shorter than it, so `Reader.unit` has as many levels as it needs.
Every length inside a unit of fewer than 2⁶⁴ bytes can be written (`unit_fits_of_length_lt`).
-/

namespace FrozenScript.Image

open Text

/-- Whether the length of a text can be written. -/
def TextFits (text : String) : Prop :=
  (Utf8.encode text).length < widthBound 8

/-- Whether the length of a list can be written. -/
def CountFits {α : Type} (items : List α) : Prop :=
  items.length < widthBound 8

end Image

open Image

mutual
/-- Whether every length inside a constant can be written. -/
def Constant.Fits : Constant → Prop
  | .none | .bool _ | .int _ => True
  | .text value => TextFits value
  | .code unit => unit.Fits

/-- Whether every length inside a unit can be written: texts have fewer than 2⁶⁴ bytes and lists
fewer than 2⁶⁴ items. -/
def CodeUnit.Fits : CodeUnit → Prop
  | .mk name file params consts names code lines =>
    TextFits name ∧ TextFits file ∧ (CountFits params ∧ ∀ param ∈ params, TextFits param) ∧
      (CountFits consts ∧ constantsFit consts) ∧
      (CountFits names.toList ∧ ∀ name ∈ names.toList, TextFits name) ∧
      CountFits code.toList ∧ CountFits lines.toList

/-- Whether every length inside some constants can be written. -/
def constantsFit : List Constant → Prop
  | [] => True
  | const :: rest => const.Fits ∧ constantsFit rest
end

namespace Image

/-! ## Levels of units -/

/-- Whether a constant fits, judging the units inside it by a predicate. -/
def ConstantFitsBy (fits : CodeUnit → Prop) : Constant → Prop
  | .none | .bool _ | .int _ => True
  | .text value => TextFits value
  | .code unit => fits unit

/-- Whether a unit fits and has at most `levels` units inside each other. -/
def UnitFitsWithin : (levels : Nat) → CodeUnit → Prop
  | 0, _ => False
  | levels + 1, unit =>
    TextFits unit.name ∧ TextFits unit.file ∧
      (CountFits unit.params ∧ ∀ param ∈ unit.params, TextFits param) ∧
      (CountFits unit.consts ∧
        ∀ const ∈ unit.consts, ConstantFitsBy (UnitFitsWithin levels) const) ∧
      (CountFits unit.names.toList ∧ ∀ name ∈ unit.names.toList, TextFits name) ∧
      CountFits unit.code.toList ∧ CountFits unit.lines.toList

theorem encodeConstants_eq_flatMap (consts : List Constant) :
    encodeConstants consts = consts.flatMap encodeConstant := by
  induction consts with
  | nil => rfl
  | cons const rest ih => simp [encodeConstants, ih]

namespace Reader

theorem constant_inverts {unit : Reader CodeUnit} {fits : CodeUnit → Prop}
    (hunit : Inverts unit encodeUnit fits) :
    Inverts (constant unit) encodeConstant (ConstantFitsBy fits) := by
  intro bytes value rest
  simp only [constant, bind_eq_ok_iff, choice_eq_ok_iff]
  constructor
  · rintro ⟨operand, behind, ⟨tag, hoperand, rfl⟩, h⟩
    obtain ⟨n, hn⟩ : ∃ n, tag.toNat = n := ⟨_, rfl⟩
    obtain rfl : tag = UInt32.ofNat n := by rw [← hn, UInt32.ofNat_toNat]
    rw [hn] at hoperand
    match n, hoperand with
    | 0, rfl =>
      obtain ⟨rfl, rfl⟩ := pure_eq_ok_iff.mp h
      exact ⟨trivial, rfl⟩
    | 1, rfl =>
      obtain ⟨flag, -, rfl, rfl⟩ := flag_inverts.map_eq_ok_iff.mp h
      exact ⟨trivial, rfl⟩
    | 2, rfl =>
      obtain ⟨n, -, rfl, rfl⟩ := int_inverts.map_eq_ok_iff.mp h
      exact ⟨trivial, rfl⟩
    | 3, rfl =>
      obtain ⟨text, hfits, rfl, rfl⟩ := text_inverts.map_eq_ok_iff.mp h
      exact ⟨hfits, by simp [encodeConstant]⟩
    | 4, rfl =>
      obtain ⟨inner, hfits, rfl, rfl⟩ := hunit.map_eq_ok_iff.mp h
      exact ⟨hfits, by simp [encodeConstant]⟩
  · rintro ⟨hfits, rfl⟩
    cases value with
    | none => exact ⟨_, _, ⟨0, rfl, rfl⟩, pure_eq_ok_iff.mpr ⟨rfl, rfl⟩⟩
    | bool value =>
      exact ⟨_, _, ⟨1, rfl, List.append_assoc ..⟩,
        flag_inverts.map_eq_ok_iff.mpr ⟨value, trivial, rfl, rfl⟩⟩
    | int value =>
      exact ⟨_, _, ⟨2, rfl, List.append_assoc ..⟩,
        int_inverts.map_eq_ok_iff.mpr ⟨value, trivial, rfl, rfl⟩⟩
    | text value =>
      exact ⟨_, _, ⟨3, rfl, List.append_assoc ..⟩,
        text_inverts.map_eq_ok_iff.mpr ⟨value, hfits, rfl, rfl⟩⟩
    | code inner =>
      exact ⟨_, _, ⟨4, rfl, List.append_assoc ..⟩,
        hunit.map_eq_ok_iff.mpr ⟨inner, hfits, rfl, rfl⟩⟩

theorem unitWithin_inverts (levels : Nat) :
    Inverts (unitWithin levels) encodeUnit (UnitFitsWithin levels) := by
  induction levels with
  | zero =>
    intro bytes unit rest
    simp [unitWithin, fail, UnitFitsWithin]
  | succ levels ih =>
    intro bytes unit rest
    have htexts := list_inverts text_inverts
    have hconsts := list_inverts (constant_inverts ih)
    have hcode := list_inverts instr_inverts
    have hlines := list_inverts word_inverts
    simp only [unitWithin, bind_eq_ok_iff, pure_eq_ok_iff]
    constructor
    · rintro ⟨name, _, rname, file, _, rfile, params, _, rparams, consts, _, rconsts, names, _,
        rnames, code, _, rcode, lines, _, rlines, rfl, rfl⟩
      obtain ⟨hname, rfl⟩ := (text_inverts _ _ _).mp rname
      obtain ⟨hfile, rfl⟩ := (text_inverts _ _ _).mp rfile
      obtain ⟨hparams, rfl⟩ := (htexts _ _ _).mp rparams
      obtain ⟨hread, rfl⟩ := (hconsts _ _ _).mp rconsts
      obtain ⟨hnames, rfl⟩ := (htexts _ _ _).mp rnames
      obtain ⟨hinstrs, rfl⟩ := (hcode _ _ _).mp rcode
      obtain ⟨hwords, rfl⟩ := (hlines _ _ _).mp rlines
      refine ⟨⟨hname, hfile, hparams, hread, hnames, hinstrs.1, hwords.1⟩, ?_⟩
      simp [encodeUnit, encodeConstants_eq_flatMap, encodeList]
    · rintro ⟨⟨hname, hfile, hparams, hread, hnames, hinstrs, hwords⟩, rfl⟩
      obtain ⟨name, file, params, consts, names, code, lines⟩ := unit
      refine ⟨name, _, (text_inverts _ _ _).mpr ⟨hname, ?_⟩, file, _,
        (text_inverts _ _ _).mpr ⟨hfile, rfl⟩, params, _, (htexts _ _ _).mpr ⟨hparams, rfl⟩, consts,
        _, (hconsts _ _ _).mpr ⟨hread, rfl⟩, names.toList, _, (htexts _ _ _).mpr ⟨hnames, rfl⟩,
        code.toList, _, (hcode _ _ _).mpr ⟨⟨hinstrs, fun _ _ => trivial⟩, rfl⟩, lines.toList, rest,
        (hlines _ _ _).mpr ⟨⟨hwords, fun _ _ => trivial⟩, rfl⟩, by simp, rfl⟩
      simp [encodeUnit, encodeConstants_eq_flatMap, encodeList]

end Reader

/-! ## Enough levels -/

theorem constantsFit_iff (consts : List Constant) :
    constantsFit consts ↔ ∀ const ∈ consts, const.Fits := by
  induction consts with
  | nil => simp [constantsFit]
  | cons const rest ih => simp [constantsFit, ih]

/-- A unit that is read within some levels has lengths that can be written. -/
theorem fits_of_unitFitsWithin {levels : Nat} {unit : CodeUnit} (h : UnitFitsWithin levels unit) :
    unit.Fits := by
  induction levels generalizing unit with
  | zero => exact h.elim
  | succ levels ih =>
    obtain ⟨name, file, params, consts, names, code, lines⟩ := unit
    obtain ⟨hname, hfile, hparams, ⟨hcount, hconsts⟩, hnames, hcode, hlines⟩ := h
    refine ⟨hname, hfile, hparams, ⟨hcount, (constantsFit_iff _).mpr fun const hmem => ?_⟩, hnames,
      hcode, hlines⟩
    have hconst := hconsts const hmem
    cases const with
    | code inner => exact ih hconst
    | _ => exact hconst

/-- A unit inside another one is shorter. -/
theorem length_encodeUnit_lt {unit inner : CodeUnit} (h : Constant.code inner ∈ unit.consts) :
    (encodeUnit inner).length < (encodeUnit unit).length := by
  obtain ⟨name, file, params, consts, names, code, lines⟩ := unit
  obtain ⟨before, after, rfl⟩ := List.append_of_mem h
  simp [encodeUnit, encodeConstants_eq_flatMap, encodeConstant, encodeText, encodeLength]
  omega

/-- As many levels as a unit has bytes are enough. -/
theorem unitFitsWithin_of_fits {levels : Nat} {unit : CodeUnit} (hfits : unit.Fits)
    (h : (encodeUnit unit).length < levels) : UnitFitsWithin levels unit := by
  induction levels generalizing unit with
  | zero => omega
  | succ levels ih =>
    have hshorter : ∀ inner, Constant.code inner ∈ unit.consts →
        (encodeUnit inner).length < (encodeUnit unit).length := fun _ => length_encodeUnit_lt
    obtain ⟨name, file, params, consts, names, code, lines⟩ := unit
    obtain ⟨hname, hfile, hparams, ⟨hcount, hconsts⟩, hnames, hcode, hlines⟩ := hfits
    -- Only the units among the constants are nested, and their images are shorter.
    refine ⟨hname, hfile, hparams, ⟨hcount, fun const hmem => ?_⟩, hnames, hcode, hlines⟩
    have hconst := (constantsFit_iff _).mp hconsts const hmem
    cases const with
    | code inner =>
      have hlt := hshorter inner hmem
      exact ih hconst (by omega)
    | _ => exact hconst

/-! ## Short images -/

/-- Items of at least one byte each take at least as many bytes as there are items. -/
theorem length_le_length_flatMap {α : Type} {write : α → List UInt8}
    (h : ∀ item, 0 < (write item).length) (items : List α) :
    items.length ≤ (items.flatMap write).length := by
  induction items with
  | nil => exact Nat.zero_le _
  | cons item items ih =>
    have hitem := h item
    simp only [List.flatMap_cons, List.length_cons, List.length_append]
    omega

theorem length_encodeInstr_pos (instr : Instr) : 0 < (encodeInstr instr).length := by
  cases instr <;>
    simp only [encodeInstr, encodeWord, List.length_append, length_littleEndian] <;> omega

theorem length_encodeConstant_pos (const : Constant) : 0 < (encodeConstant const).length := by
  cases const <;>
    simp only [encodeConstant, encodeWord, List.length_append, length_littleEndian] <;> omega

theorem length_encodeText_pos (text : String) : 0 < (encodeText text).length := by
  simp only [encodeText, encodeLength, List.length_append, length_littleEndian]
  omega

theorem textFits_of_length_lt {text : String} (h : (encodeText text).length < widthBound 8) :
    TextFits text := by
  simp only [encodeText, List.length_append] at h
  exact Nat.lt_of_le_of_lt (Nat.le_add_left ..) h

theorem countFits_of_length_lt {α : Type} {write : α → List UInt8}
    (hpos : ∀ item, 0 < (write item).length) {items : List α}
    (h : (encodeList write items).length < widthBound 8) : CountFits items := by
  have hcount := length_le_length_flatMap hpos items
  simp only [encodeList, List.length_append] at h
  exact Nat.lt_of_le_of_lt (Nat.le_trans hcount (Nat.le_add_left ..)) h

theorem textsFit_of_length_lt {texts : List String}
    (h : (encodeList encodeText texts).length < widthBound 8) :
    CountFits texts ∧ ∀ text ∈ texts, TextFits text := by
  refine ⟨countFits_of_length_lt length_encodeText_pos h,
    fun text hmem => textFits_of_length_lt ?_⟩
  obtain ⟨before, after, rfl⟩ := List.append_of_mem hmem
  simp only [encodeList, List.flatMap_append, List.flatMap_cons, List.length_append] at h
  omega

mutual
/-- Every length inside a constant can be written if the constant is short. -/
theorem constant_fits_of_length_lt :
    ∀ const : Constant, (encodeConstant const).length < widthBound 8 → const.Fits
  | .none, _ | .bool _, _ | .int _, _ => trivial
  | .text value, h => by
    simp only [encodeConstant, List.length_append] at h
    exact textFits_of_length_lt (Nat.lt_of_le_of_lt (Nat.le_add_left ..) h)
  | .code unit, h => by
    simp only [encodeConstant, List.length_append] at h
    exact unit_fits_of_length_lt unit (Nat.lt_of_le_of_lt (Nat.le_add_left ..) h)

/-- Every length inside a unit can be written if the unit is short. -/
theorem unit_fits_of_length_lt :
    ∀ unit : CodeUnit, (encodeUnit unit).length < widthBound 8 → unit.Fits
  | .mk name file params consts names code lines, h => by
    simp only [encodeUnit, List.length_append] at h
    have hcount := length_le_length_flatMap length_encodeConstant_pos consts
    rw [← encodeConstants_eq_flatMap] at hcount
    have hword (word : UInt32) : 0 < (encodeWord word).length := by simp [encodeWord]
    refine ⟨textFits_of_length_lt (by omega), textFits_of_length_lt (by omega),
      textsFit_of_length_lt (by omega), ⟨?_, constants_fit_of_length_lt consts (by omega)⟩,
      textsFit_of_length_lt (by omega), countFits_of_length_lt length_encodeInstr_pos (by omega),
      countFits_of_length_lt hword (by omega)⟩
    unfold CountFits
    omega

/-- Every length inside some constants can be written if the constants are short. -/
theorem constants_fit_of_length_lt :
    ∀ consts : List Constant, (encodeConstants consts).length < widthBound 8 → constantsFit consts
  | [], _ => trivial
  | const :: consts, h => by
    simp only [encodeConstants, List.length_append] at h
    exact ⟨constant_fits_of_length_lt const (by omega), constants_fit_of_length_lt consts (by omega)⟩
end

/-! ## Whole units -/

/-- Reading a unit takes exactly what writing it makes. -/
theorem Reader.unit_inverts : Reader.Inverts Reader.unit encodeUnit CodeUnit.Fits := by
  intro bytes unit rest
  unfold Reader.unit
  rw [Reader.unitWithin_inverts]
  constructor
  · rintro ⟨hfits, rfl⟩
    exact ⟨fits_of_unitFitsWithin hfits, rfl⟩
  · rintro ⟨hfits, rfl⟩
    exact ⟨unitFitsWithin_of_fits hfits (by simp only [List.length_append]; omega), rfl⟩

/-! ## Images -/

/-- What stands behind the header is read by the reader of units. -/
theorem decode_header_append (payload : List UInt8) :
    decode (header formatVersion ++ payload) =
      (Reader.unit.run' payload).mapError .undecodable := by
  have hlength : ¬ (header formatVersion ++ payload).length < headerLength := by
    simp [header, mark, encodeWord, headerLength]
  simp only [decode]
  rw [if_neg hlength]
  rfl

theorem decode_header_append_eq_ok_iff {payload : List UInt8} {unit : CodeUnit} :
    decode (header formatVersion ++ payload) = .ok unit ↔
      ∃ rest, Reader.unit payload = .ok (unit, rest) := by
  rw [decode_header_append]
  simp only [StateT.run', Functor.map, Except.map]
  cases Reader.unit payload with
  | error defect =>
    refine iff_of_false (fun h => ?_) fun ⟨rest, h⟩ => ?_
    all_goals cases h
  | ok found =>
    obtain ⟨found, rest⟩ := found
    constructor
    · intro h
      obtain rfl : found = unit := Except.ok.inj h
      exact ⟨rest, rfl⟩
    · rintro ⟨rest', h⟩
      obtain ⟨rfl, -⟩ := Prod.mk.inj (Except.ok.inj h)
      rfl

/-- Bytes that are read as a unit start with the header. -/
theorem exists_header_append {image : Image} {unit : CodeUnit} (h : decode image = .ok unit) :
    ∃ payload, image = header formatVersion ++ payload := by
  simp only [decode] at h
  split at h
  · cases h
  next hlength =>
  split at h
  · cases h
  next hmark =>
  split at h
  · cases h
  next hversion =>
  simp only [headerLength] at hlength
  have hdigits : ((image.drop mark.length).take 4).length = 4 := by
    simp only [List.length_take, List.length_drop, mark, List.length_cons, List.length_nil]
    omega
  have hnumber := fromLittleEndian_lt ((image.drop mark.length).take 4)
  have hword := littleEndian_fromLittleEndian ((image.drop mark.length).take 4)
  rw [hdigits] at hnumber hword
  have hencode : encodeWord formatVersion = (image.drop mark.length).take 4 := by
    rw [← Decidable.not_not.mp hversion, encodeWord, UInt32.toNat_ofNat_of_lt' hnumber, hword]
  have hsplit := List.take_append_drop mark.length image
  rw [Decidable.not_not.mp hmark] at hsplit
  refine ⟨(image.drop mark.length).drop 4, ?_⟩
  rw [header, hencode, List.append_assoc, List.take_append_drop, hsplit]

/-- An image is read as a unit exactly if it starts with the image of that unit. -/
theorem decode_eq_ok_iff {image : Image} {unit : CodeUnit} :
    decode image = .ok unit ↔ unit.Fits ∧ ofUnit unit <+: image := by
  constructor
  · intro h
    obtain ⟨payload, rfl⟩ := exists_header_append h
    obtain ⟨rest, hread⟩ := decode_header_append_eq_ok_iff.mp h
    obtain ⟨hfits, rfl⟩ := (Reader.unit_inverts _ _ _).mp hread
    exact ⟨hfits, rest, by simp [ofUnit]⟩
  · rintro ⟨hfits, rest, rfl⟩
    rw [ofUnit, List.append_assoc, decode_header_append_eq_ok_iff]
    exact ⟨rest, (Reader.unit_inverts _ _ _).mpr ⟨hfits, rfl⟩⟩

/-- A unit of the supported format is written as its image. -/
theorem encode_formatVersion (unit : CodeUnit) : encode formatVersion unit = .ok (ofUnit unit) := by
  rw [encode, if_pos rfl]

/-- An image is read as a unit exactly if it starts with what writing the unit makes. Hence a unit
is read back from its image, an image that starts with the image of a unit is the image of no other
unit, and writing the unit that was read gives the bytes that were read. -/
theorem decode_canonical (unit : CodeUnit) (image : Image) :
    (decode image = .ok unit ↔
      unit.Fits ∧ ∃ written, encode formatVersion unit = .ok written ∧ written <+: image) ∧
    (unit.Fits → ∃ written, encode formatVersion unit = .ok written ∧ decode written = .ok unit) ∧
    (∀ other written extended, unit.Fits → other.Fits → encode formatVersion unit = .ok written →
      encode formatVersion other = .ok extended → written <+: extended → unit = other) ∧
    (∀ payload rest, Reader.unit payload = .ok (unit, rest) →
      ∃ written, encode formatVersion unit = .ok written ∧
        header formatVersion ++ payload = written ++ rest) := by
  refine ⟨?_, ?_, ?_, ?_⟩
  · simp only [decode_eq_ok_iff, encode_formatVersion, Except.ok.injEq, exists_eq_left']
  · intro hfits
    exact ⟨ofUnit unit, encode_formatVersion unit,
      decode_eq_ok_iff.mpr ⟨hfits, List.prefix_refl _⟩⟩
  · intro other written extended hfits hother hwritten hextended hprefix
    rw [encode_formatVersion, Except.ok.injEq] at hwritten hextended
    subst hwritten hextended
    -- The longer image reads as both units, and reading is a function.
    have hread := decode_eq_ok_iff.mpr ⟨hfits, hprefix⟩
    rw [decode_eq_ok_iff.mpr ⟨hother, List.prefix_refl _⟩] at hread
    exact (Except.ok.inj hread).symm
  · intro payload rest hread
    obtain ⟨-, rfl⟩ := (Reader.unit_inverts _ _ _).mp hread
    exact ⟨ofUnit unit, encode_formatVersion unit, by simp [ofUnit]⟩

end Image

end FrozenScript
