import FrozenScript.Artifact.ArrayText
import FrozenScript.Text.Blank
import FrozenScript.Text.Decimal

/-!
# Array texts are read back

`ArrayText.read?` takes the decimal numbers between the first opening brace and the last closing
one. The main statement, `read?_render`, says that it finds exactly the bytes that an array text was
rendered from.
-/

namespace FrozenScript.ArrayText

open Text

/-! ## Reading an array text -/

/-- The characters behind the first occurrence of a character. -/
def afterFirst? (mark : Char) : List Char → Option (List Char)
  | [] => none
  | c :: rest => if c = mark then some rest else afterFirst? mark rest

/-- The characters before the last occurrence of a pattern. -/
def beforeLast? (pattern : List Char) : List Char → Option (List Char)
  | [] => none
  | c :: rest =>
    match beforeLast? pattern rest with
    | some before => some (c :: before)
    | none => if pattern.isPrefixOf (c :: rest) then some [] else none

/-- What stands between commas, without the blanks around it and without empty pieces. -/
def fields (chars : List Char) : List (List Char) :=
  ((chars.splitOn ',').map trim).filter (!·.isEmpty)

/-- The bytes of an array text. -/
def read? (text : String) : Option (List UInt8) := do
  let opened ← afterFirst? '\x7b' text.toList
  let body ← beforeLast? closing.toList opened
  (fields body).mapM Decimal.readUInt8?

/-! ## Braces -/

/-- Characters without the mark are skipped. -/
theorem afterFirst?_append_of_not_mem {mark : Char} {before : List Char} (h : mark ∉ before)
    (rest : List Char) : afterFirst? mark (before ++ rest) = afterFirst? mark rest := by
  induction before with
  | nil => rfl
  | cons c before ih =>
    obtain ⟨hc, hbefore⟩ := not_or.mp (h ∘ List.mem_cons.mpr)
    rw [List.cons_append, afterFirst?, if_neg (Ne.symm hc), ih hbefore]

/-- What stands behind a text whose first mark is its end is found. -/
theorem afterFirst?_append {mark : Char} {before : List Char} (h : afterFirst? mark before = some [])
    (rest : List Char) : afterFirst? mark (before ++ rest) = some rest := by
  induction before with
  | nil => exact nomatch h
  | cons c before ih =>
    rw [afterFirst?] at h
    rw [List.cons_append, afterFirst?]
    split at h
    next hc => rw [if_pos hc, Option.some.inj h, List.nil_append]
    next hc => rw [if_neg hc, ih h]

/-- What stands before a text whose last pattern is its start does not matter. -/
theorem beforeLast?_append {pattern rest : List Char} (h : beforeLast? pattern rest = some [])
    (before : List Char) : beforeLast? pattern (before ++ rest) = some before := by
  induction before with
  | nil => exact h
  | cons c before ih => rw [List.cons_append, beforeLast?, ih]

/-! ## Fields -/

/-- A blank before a field does not matter. -/
theorem fields_cons_of_isBlank {c : Char} (h : isBlank c = true) (chars : List Char) :
    fields (c :: chars) = fields chars := by
  have hcomma : (c == ',') = false := by
    rw [beq_eq_false_iff_ne]
    rintro rfl
    exact absurd h (by decide)
  obtain ⟨first, others, hsplit⟩ := List.exists_cons_of_ne_nil (List.splitOn_ne_nil ',' chars)
  simp only [fields, List.splitOn_cons_eq_if_modifyHead, hcomma, Bool.false_eq_true, if_false,
    hsplit, List.modifyHead_cons, List.map_cons, trim_cons_of_isBlank h]

/-- Blanks before a field do not matter. -/
theorem fields_append_of_isBlank {blanks : List Char} (h : blanks.all isBlank = true)
    (chars : List Char) : fields (blanks ++ chars) = fields chars := by
  induction blanks with
  | nil => rfl
  | cons c blanks ih =>
    rw [List.all_cons, Bool.and_eq_true] at h
    rw [List.cons_append, fields_cons_of_isBlank h.1, ih h.2]

/-- The item of a byte is a field of its own, its numeral. -/
theorem fields_item_append (byte : UInt8) (chars : List Char) :
    fields ((item byte).toList ++ chars) = Nat.toDigits 10 byte.toNat :: fields chars := by
  have hitem : (item byte).toList ++ chars = Nat.toDigits 10 byte.toNat ++ ',' :: chars := by
    rw [item, String.toList_append, List.append_assoc]
    exact congrArg (· ++ _) Nat.toList_repr
  have hcomma : ',' ∉ Nat.toDigits 10 byte.toNat := fun h =>
    absurd (Decimal.isDigit_of_mem_toDigits h) (by decide)
  have htrim : trim (Nat.toDigits 10 byte.toNat) = Nat.toDigits 10 byte.toNat :=
    trim_eq_self fun _ h => isBlank_of_isDigit (Decimal.isDigit_of_mem_toDigits h)
  rw [hitem, fields, List.splitOn_append_cons_self_of_not_mem hcomma, List.map_cons, htrim,
    List.filter_cons_of_pos (by simp), ← fields]

/-- The fields of some items are their numerals. -/
theorem fields_items_append (row : List UInt8) (chars : List Char) :
    fields (row.flatMap (item · |>.toList) ++ chars) =
      row.map (Nat.toDigits 10 ·.toNat) ++ fields chars := by
  induction row with
  | nil => rfl
  | cons byte row ih =>
    rw [List.flatMap_cons, List.append_assoc, fields_item_append, ih, List.map_cons,
      List.cons_append]

/-- The fields of a row are the numerals of its bytes. -/
theorem fields_row_append (row : List UInt8) (chars : List Char) :
    fields ((rowLine row ++ "\n").toList ++ chars) =
      row.map (Nat.toDigits 10 ·.toNat) ++ fields chars := by
  have hrow : (rowLine row ++ "\n").toList ++ chars =
      "    ".toList ++ (row.flatMap (item · |>.toList) ++ ("\n".toList ++ chars)) := by
    simp only [rowLine, String.toList_append, String.toList_join, List.flatMap_map,
      List.append_assoc]
  rw [hrow, fields_append_of_isBlank (by decide), fields_items_append,
    fields_append_of_isBlank (by decide)]

/-- The fields of some rows are the numerals of their bytes. -/
theorem fields_rows (rows : List (List UInt8)) :
    fields (rows.flatMap fun row => (rowLine row ++ "\n").toList) =
      rows.flatten.map (Nat.toDigits 10 ·.toNat) := by
  induction rows with
  | nil => rfl
  | cons row rows ih =>
    rw [List.flatMap_cons, fields_row_append, ih, List.flatten_cons, List.map_append]

/-- Bytes are read back from their numerals. -/
theorem mapM_readUInt8? (data : List UInt8) :
    (data.map (Nat.toDigits 10 ·.toNat)).mapM Decimal.readUInt8? = some data := by
  induction data with
  | nil => rfl
  | cons byte data ih =>
    rw [List.map_cons, List.mapM_cons, Decimal.readUInt8?_toDigits, ih]
    rfl

/-! ## Whole texts -/

/-- The rows between the braces of an array text. -/
def body (data : List UInt8) : List Char :=
  "\n".toList ++ (rows data).flatMap fun row => (rowLine row ++ "\n").toList

theorem fields_body (data : List UInt8) :
    fields (body data) = data.map (Nat.toDigits 10 ·.toNat) := by
  rw [body, fields_append_of_isBlank (by decide), fields_rows, flatten_rows]

/-- The parts of an array text: the header, the declaration, the rows and the last line. -/
theorem toList_render (module : String) (data : List UInt8) :
    (render module data).toList =
      (header ++ "\n").toList ++ ("const unsigned char M_".toList ++ (module.toList ++
        ("[] = \x7b".toList ++ (body data ++ (closing ++ "\n").toList)))) := by
  -- Stated for any texts, so that no literal is taken apart.
  have happend (a b c d : String) : (a ++ b ++ c ++ d).toList =
      a.toList ++ (b.toList ++ (c.toList ++ d.toList)) := by
    simp only [String.toList_append, List.append_assoc]
  have hdeclaration : (declaration module ++ "\n").toList =
      "const unsigned char M_".toList ++ (module.toList ++ ("[] = \x7b".toList ++ "\n".toList)) :=
    happend ..
  simp only [render, lines, body, String.toList_join, List.map_cons, List.map_append, List.map_nil,
    List.flatMap_cons, List.flatMap_append, List.flatMap_map, List.flatMap_nil, List.append_nil,
    List.append_assoc, hdeclaration]

/-- The bytes of an array are read back from its text. -/
theorem read?_render {module : String} (hmodule : '\x7b' ∉ module.toList) (data : List UInt8) :
    read? (render module data) = some data := by
  have hopened : afterFirst? '\x7b' (render module data).toList =
      some (body data ++ (closing ++ "\n").toList) := by
    rw [toList_render, afterFirst?_append_of_not_mem (by decide),
      afterFirst?_append_of_not_mem (by decide), afterFirst?_append_of_not_mem hmodule,
      afterFirst?_append (by decide)]
  have hbody : beforeLast? closing.toList (body data ++ (closing ++ "\n").toList) =
      some (body data) := beforeLast?_append (by decide) _
  simp only [read?, hopened, hbody, bind, Option.bind_some, fields_body, mapM_readUInt8?]

end FrozenScript.ArrayText
