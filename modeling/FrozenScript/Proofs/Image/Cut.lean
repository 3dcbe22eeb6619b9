import FrozenScript.Proofs.Image.Canonical
import Mathlib.Data.List.Forall2

/-!
# Images that are cut off

A reader judges only what it has before it. So whatever it finds out about some bytes it also finds
out if more bytes follow, unless what it finds is that they end too early (`Persists`). An image is
read as its unit and no byte of it is left, hence the only thing that can be found out about a
shorter piece of it is that it ends too early. This is the main statement, `decode_cut`.

The reader of units takes as many levels as there are bytes, and so more of them if more bytes
follow. This is why `Persists` relates two readers.
-/

namespace FrozenScript.Image

open Text

/-- The bytes end inside a text or inside an item of fixed size. -/
def Defect.EndsEarly (defect : Defect) : Prop :=
  defect = .shortText ∨ defect = .endOfInput

namespace Reader

variable {α β : Type}

/-- A result and the result with more bytes behind those that were read. -/
inductive Persisted (more : List UInt8) (later : Except Defect (α × List UInt8)) :
    Except Defect (α × List UInt8) → Prop where
  | ok {value : α} {rest : List UInt8} (h : later = .ok (value, rest ++ more)) :
      Persisted more later (.ok (value, rest))
  | early {defect : Defect} (h : defect.EndsEarly) : Persisted more later (.error defect)
  | error {defect : Defect} (h : later = .error defect) : Persisted more later (.error defect)

/-- What the one reader finds out about some bytes, the other one finds out if more bytes follow,
unless the bytes end too early. -/
def Persists (read later : Reader α) : Prop :=
  ∀ bytes more, Persisted more (later (bytes ++ more)) (read bytes)

section

variable {read later : Reader α}

theorem Persists.pure (value : α) : Persists (Pure.pure value) (Pure.pure value) :=
  fun _ _ => .ok rfl

theorem Persists.fail (defect : Defect) :
    Persists (Reader.fail defect : Reader α) (Reader.fail defect) :=
  fun _ _ => .error rfl

theorem Persists.bind {next after : α → Reader β} (h : Persists read later)
    (hnext : ∀ value, Persists (next value) (after value)) :
    Persists (read >>= next) (later >>= after) := by
  intro bytes more
  have hfirst := h bytes more
  change Persisted more (Except.bind (later (bytes ++ more)) _) (Except.bind (read bytes) _)
  generalize read bytes = result at hfirst
  cases hfirst with
  | ok hlater =>
    rw [hlater]
    exact hnext _ _ _
  | early hearly => exact .early hearly
  | error hlater =>
    rw [hlater]
    exact .error rfl

theorem Persists.map (h : Persists read later) (f : α → β) :
    Persists (f <$> read) (f <$> later) := by
  rw [map_eq_pure_bind, map_eq_pure_bind]
  exact h.bind fun value => .pure (f value)

end

/-! ## Items of fixed size -/

/-- Bytes that are there are still there if more bytes follow. -/
theorem take_drop_append {bytes : List UInt8} {width : Nat} (h : (bytes.take width).length = width)
    (more : List UInt8) :
    (bytes ++ more).take width = bytes.take width ∧
      (bytes ++ more).drop width = bytes.drop width ++ more := by
  have hle : width ≤ bytes.length := by
    rw [List.length_take] at h
    omega
  exact ⟨List.take_append_of_le_length hle, List.drop_append_of_le_length hle⟩

theorem number_persists (width : Nat) : Persists (number width) (number width) := by
  intro bytes more
  by_cases hlength : (bytes.take width).length = width
  · obtain ⟨htake, hdrop⟩ := take_drop_append hlength more
    simp only [number, htake, hdrop, if_pos hlength]
    exact .ok rfl
  · simp only [number, if_neg hlength]
    exact .early (.inr rfl)

theorem word_persists : Persists word word :=
  (number_persists 4).map _

theorem int_persists : Persists int int :=
  (number_persists 8).map _

theorem flag_persists : Persists flag flag := by
  refine (number_persists 1).bind fun n => ?_
  split
  next => exact .pure false
  next => exact .pure true
  next => exact .fail _

/-! ## Texts and lists -/

theorem textBody_persists (length : Nat) : Persists (textBody length) (textBody length) := by
  intro bytes more
  by_cases hlength : (bytes.take length).length = length
  · obtain ⟨htake, hdrop⟩ := take_drop_append hlength more
    simp only [textBody, htake, hdrop, if_pos hlength]
    split
    next => exact .ok rfl
    next => exact .error rfl
  · -- The length is compared before the bytes are decoded, so no character is seen in part.
    simp only [textBody, if_neg hlength]
    exact .early (.inl rfl)

theorem text_persists : Persists text text :=
  (number_persists 8).bind textBody_persists

theorem items_persists {item later : Reader α} (h : Persists item later) (count : Nat) :
    ∀ read, Persists (items item count read) (items later count read) := by
  induction count with
  | zero => exact fun read => .pure read.reverse
  | succ count ih => exact fun read => h.bind fun next => ih (next :: read)

theorem list_persists {item later : Reader α} (h : Persists item later) :
    Persists (list item) (list later) :=
  (number_persists 8).bind fun count => items_persists h count []

/-! ## Choices -/

theorem choice_persists (variants : List α) : Persists (choice variants) (choice variants) := by
  refine word_persists.bind fun tag => ?_
  split
  next variant _ => exact .pure variant
  next => exact .fail _

/-- A tag and what belongs to it. -/
theorem chosen_persists {variants later : List (Reader α)}
    (h : List.Forall₂ Persists variants later) :
    Persists (choice variants >>= fun operand => operand)
      (choice later >>= fun operand => operand) := by
  unfold choice
  rw [bind_assoc, bind_assoc]
  refine word_persists.bind fun tag => ?_
  have hlength := h.length_eq
  cases hread : variants[tag.toNat]? with
  | none =>
    have hlater : later[tag.toNat]? = none := by
      rw [List.getElem?_eq_none_iff] at hread ⊢
      omega
    rw [hlater, hlength]
    exact fun _ _ => .error rfl
  | some operand =>
    obtain ⟨hlt, rfl⟩ := List.getElem?_eq_some_iff.mp hread
    rw [List.getElem?_eq_getElem (hlength ▸ hlt)]
    exact h.get hlt (hlength ▸ hlt)

theorem instr_persists : Persists instr instr := by
  have hword (f : UInt32 → Instr) : Persists (f <$> word) (f <$> word) := word_persists.map f
  refine chosen_persists (List.forall₂_same.mpr ?_)
  simp only [operands, List.forall_mem_cons]
  exact ⟨hword _, hword _, hword _, hword _, hword _, (choice_persists _).map _,
    (choice_persists _).map _, (choice_persists _).map _, hword _, hword _, hword _, hword _,
    hword _, hword _, hword _, .pure _, .pure _, flag_persists.map _, nofun⟩

/-! ## Units -/

theorem constant_persists {unit later : Reader CodeUnit} (h : Persists unit later) :
    Persists (constant unit) (constant later) :=
  chosen_persists (.cons (.pure _) (.cons (flag_persists.map _) (.cons (int_persists.map _)
    (.cons (text_persists.map _) (.cons (h.map _) .nil)))))

/-- More levels find out no less. -/
theorem unitWithin_persists {levels levels' : Nat} (h : levels ≤ levels') :
    Persists (unitWithin levels) (unitWithin levels') := by
  induction levels generalizing levels' with
  | zero => exact fun _ _ => .early (.inr rfl)
  | succ levels ih =>
    obtain ⟨levels', rfl⟩ := Nat.exists_eq_add_one_of_ne_zero (Nat.ne_zero_of_lt h)
    refine text_persists.bind fun name => text_persists.bind fun file => ?_
    refine (list_persists text_persists).bind fun params => ?_
    refine (list_persists (constant_persists (ih (Nat.le_of_succ_le_succ h)))).bind fun consts => ?_
    refine (list_persists text_persists).bind fun names => ?_
    refine (list_persists instr_persists).bind fun code => ?_
    exact (list_persists word_persists).bind fun lines => .pure _

theorem unit_persists : Persists unit unit := by
  intro bytes more
  have hlevels : bytes.length + 1 ≤ (bytes ++ more).length + 1 := by simp
  exact unitWithin_persists hlevels bytes more

end Reader

/-! ## Images -/

/-- The reader of units meets the end of a piece of a unit. -/
theorem unit_endsEarly {unit : CodeUnit} (hfits : unit.Fits) {piece more : List UInt8}
    (hunit : encodeUnit unit = piece ++ more) (hmore : more ≠ []) :
    ∃ defect, Reader.unit piece = .error defect ∧ defect.EndsEarly := by
  have hwhole : Reader.unit (piece ++ more) = .ok (unit, []) :=
    (Reader.unit_inverts _ _ _).mpr ⟨hfits, by rw [hunit, List.append_nil]⟩
  have hpiece := Reader.unit_persists piece more
  rw [hwhole] at hpiece
  generalize Reader.unit piece = result at hpiece
  cases hpiece with
  | ok h =>
    -- The whole unit leaves no byte, but here the bytes that follow would be left.
    obtain ⟨-, hrest⟩ := Prod.mk.inj (Except.ok.inj h)
    exact absurd (List.append_eq_nil_iff.mp hrest.symm).2 hmore
  | early h => exact ⟨_, rfl, h⟩
  | error h => exact nomatch h

/-- A piece of an image that is shorter than the image is refused as cut off: it is shorter than a
header, or it ends inside a text or inside an item of fixed size. -/
theorem decode_cut {unit : CodeUnit} (hfits : unit.Fits) {image : Image}
    (hencode : encode formatVersion unit = .ok image) {length : Nat} (h : length < image.length) :
    (length < headerLength → decode (image.take length) = .error (.truncated length)) ∧
      (headerLength ≤ length → ∃ defect,
        decode (image.take length) = .error (.undecodable defect) ∧ defect.EndsEarly) := by
  rw [encode_formatVersion, Except.ok.injEq] at hencode
  subst hencode
  have hlength : ((ofUnit unit).take length).length = length := by
    rw [List.length_take]
    omega
  constructor
  · intro hshort
    rw [decode, if_pos (by rw [hlength]; exact hshort), hlength]
  · intro hlong
    have hheader : (header formatVersion).length = headerLength := by
      simp [header, mark, encodeWord, headerLength]
    obtain ⟨size, rfl⟩ := Nat.exists_eq_add_of_le hlong
    have htake : (ofUnit unit).take (headerLength + size) =
        header formatVersion ++ (encodeUnit unit).take size := by
      rw [ofUnit, ← hheader, List.take_length_add_append]
    have hsize : size < (encodeUnit unit).length := by
      rw [ofUnit, List.length_append, hheader] at h
      omega
    have hmore : (encodeUnit unit).drop size ≠ [] := by
      rw [Ne, List.drop_eq_nil_iff]
      omega
    obtain ⟨defect, hread, hearly⟩ :=
      unit_endsEarly hfits (List.take_append_drop size _).symm hmore
    refine ⟨defect, ?_, hearly⟩
    rw [htake, decode_header_append, StateT.run', hread]
    rfl

/-- A unit inside another one, with a character of two bytes at the end of its only constant. -/
def accentUnit : CodeUnit where
  name := "m"
  file := "f"
  params := []
  consts := [.code ⟨"g", "f", [], [.text "é"], #[], #[], #[]⟩]
  names := #[]
  code := #[]
  lines := #[]

/-- A cut between the two bytes of the character is no fault of the character. -/
theorem decode_cut_accent :
    accentUnit.Fits ∧ encode formatVersion accentUnit = .ok (ofUnit accentUnit) ∧
      93 < (ofUnit accentUnit).length ∧ ∃ defect,
        decode ((ofUnit accentUnit).take 93) = .error (.undecodable defect) ∧
          defect.EndsEarly := by
  have hfits : accentUnit.Fits := by
    simp only [accentUnit, CodeUnit.Fits, constantsFit, Constant.Fits, TextFits, CountFits]
    decide +kernel
  have hencode := encode_formatVersion accentUnit
  have hlength : 93 < (ofUnit accentUnit).length := by decide +kernel
  exact ⟨hfits, hencode, hlength, (decode_cut hfits hencode hlength).2 (by decide)⟩

end FrozenScript.Image
