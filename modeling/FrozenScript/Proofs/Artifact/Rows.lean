import FrozenScript.Proofs.Artifact.RoundTrip

/-!
# The lines of an array text

An array text is made of lines: the header, the declaration, the rows and the closing line. `Cut`
says how bytes are cut into rows, and the number and the lengths of the rows follow from it. The
main statement, `render_lays_out_bytes`, says which lines the text of a module has, and that the
bytes are read back from it.
-/

namespace FrozenScript.ArrayText

/-! ## Rows -/

/-- Bytes are cut into full rows, and what is left at the end is the last row. -/
inductive Cut : (data : List UInt8) → (rows : List (List UInt8)) → Prop where
  | nil : Cut [] []
  | last {row : List UInt8} (hsome : row ≠ []) (hfits : row.length ≤ rowLength) : Cut row [row]
  | full {row rest : List UInt8} {rows : List (List UInt8)} (hfull : row.length = rowLength)
      (hrest : rest ≠ []) (h : Cut rest rows) : Cut (row ++ rest) (row :: rows)

theorem cut_rowsWithin {rounds : Nat} {data : List UInt8} (h : data.length ≤ rounds) :
    Cut data (rowsWithin rounds data) := by
  induction rounds generalizing data with
  | zero =>
      rw [List.length_eq_zero_iff.mp (Nat.le_zero.mp h)]
      exact .nil
  | succ rounds ih =>
      cases data with
      | nil => exact .nil
      | cons byte rest =>
          show Cut _ (_ :: rowsWithin rounds ((byte :: rest).drop rowLength))
          rcases Nat.lt_or_ge rowLength (byte :: rest).length with hlong | hshort
          · have hdrop : ((byte :: rest).drop rowLength).length ≤ rounds := by
              simp only [List.length_drop, List.length_cons, rowLength] at h ⊢
              omega
            have hrow : ((byte :: rest).take rowLength).length = rowLength :=
              List.length_take_of_le (Nat.le_of_lt hlong)
            have hrest : (byte :: rest).drop rowLength ≠ [] := by simpa using hlong
            have hcut := Cut.full hrow hrest (ih hdrop)
            rwa [List.take_append_drop] at hcut
          · have hnone : rowsWithin rounds [] = [] := by cases rounds <;> rfl
            rw [List.take_of_length_le hshort, List.drop_eq_nil_of_le hshort, hnone]
            exact .last (List.cons_ne_nil _ _) hshort

theorem cut_rows (data : List UInt8) : Cut data (rows data) :=
  cut_rowsWithin (Nat.le_refl _)

namespace Cut

variable {data : List UInt8} {rows : List (List UInt8)}

theorem ne_nil (h : Cut data rows) (hdata : data ≠ []) : rows ≠ [] := by
  cases h with
  | nil => exact absurd rfl hdata
  | last | full => exact List.cons_ne_nil _ _

/-- There are as many rows as are needed. -/
theorem length_eq (h : Cut data rows) : rows.length = (data.length + 15) / 16 := by
  induction h with
  | nil => rfl
  | last hsome hfits =>
      have hpos := List.length_pos_iff.mpr hsome
      simp only [List.length_singleton, rowLength] at hfits ⊢
      omega
  | full hfull _ _ ih =>
      simp only [List.length_cons, List.length_append, hfull, ih, rowLength]
      omega

/-- All rows before the last one are full. -/
theorem length_of_mem_dropLast (h : Cut data rows) : ∀ row ∈ rows.dropLast, row.length = 16 := by
  induction h with
  | nil => exact nofun
  | last => exact nofun
  | full hfull hrest h ih =>
      rw [List.dropLast_cons_of_ne_nil (h.ne_nil hrest)]
      exact List.forall_mem_cons.mpr ⟨hfull, ih⟩

/-- The last row holds a byte, and no more than a row can. -/
theorem length_of_mem_getLast? (h : Cut data rows) :
    ∀ row ∈ rows.getLast?, 1 ≤ row.length ∧ row.length ≤ 16 := by
  induction h with
  | nil => exact nofun
  | last hsome hfits =>
      rintro _ ⟨⟩
      exact ⟨List.length_pos_iff.mpr hsome, hfits⟩
  | full _ hrest h ih =>
      rw [List.getLast?_cons_of_ne_nil (h.ne_nil hrest)]
      exact ih

end Cut

/-! ## Lines -/

/-- A text of lines is split into these lines, and nothing is left behind the last one. -/
theorem splitOn_join {lines : List String} (h : ∀ line ∈ lines, '\n' ∉ line.toList) :
    (String.join (lines.map (· ++ "\n"))).toList.splitOn '\n' =
      (lines ++ [""]).map String.toList := by
  rw [String.toList_join]
  induction lines with
  | nil => rfl
  | cons line lines ih =>
      obtain ⟨hline, hlines⟩ := List.forall_mem_cons.mp h
      have hsplit : (line ++ "\n").toList ++ (lines.map (· ++ "\n")).flatMap String.toList =
          line.toList ++ '\n' :: (lines.map (· ++ "\n")).flatMap String.toList := by
        rw [String.toList_append, List.append_assoc]
        rfl
      rw [List.map_cons, List.flatMap_cons, hsplit,
        List.splitOn_append_cons_self_of_not_mem hline, ih hlines]
      rfl

theorem not_mem_toList_append {c : Char} {text more : String} (h : c ∉ text.toList)
    (hmore : c ∉ more.toList) : c ∉ (text ++ more).toList := by
  rw [String.toList_append, List.mem_append, not_or]
  exact ⟨h, hmore⟩

theorem newline_not_mem_item (byte : UInt8) : '\n' ∉ (item byte).toList := by
  refine not_mem_toList_append (fun hmem => ?_) (by decide)
  have hdigit : '\n' ∈ Nat.toDigits 10 byte.toNat := by rwa [← Nat.toList_repr]
  exact absurd (Text.Decimal.isDigit_of_mem_toDigits hdigit) (by decide)

theorem newline_not_mem_rowLine (row : List UInt8) : '\n' ∉ (rowLine row).toList := by
  refine not_mem_toList_append (by decide) fun hmem => ?_
  rw [String.toList_join, List.flatMap_map] at hmem
  obtain ⟨byte, -, hbyte⟩ := List.mem_flatMap.mp hmem
  exact newline_not_mem_item byte hbyte

/-- There is no line break in a line of an array text. -/
theorem newline_not_mem_lines {module : String} (h : '\n' ∉ module.toList) (data : List UInt8) :
    ∀ line ∈ lines module data, '\n' ∉ line.toList := by
  have hdeclaration : '\n' ∉ (declaration module).toList :=
    not_mem_toList_append (not_mem_toList_append (by decide) h) (by decide)
  intro line hline
  rw [lines, List.mem_append, List.mem_cons, List.mem_cons, List.mem_map,
    List.mem_singleton] at hline
  rcases hline with (rfl | rfl | ⟨row, -, rfl⟩) | rfl
  · decide
  · exact hdeclaration
  · exact newline_not_mem_rowLine row
  · decide

/-! ## Whole texts -/

/-- The array text of a module is the header, the declaration, as many rows as the bytes need, and
the closing line. All rows but the last one hold sixteen bytes and the last one holds some, and the
numbers between the braces are the bytes. -/
theorem render_lays_out_bytes {module : String} {label : Label}
    (h : Label.ofModule module = .ok label) (data : List UInt8) :
    ∃ rows : List (List UInt8),
      (render module data).toList.splitOn '\n' =
        ("/* Auto-generated by freeze_module */" ::
          ("const unsigned char M_" ++ module ++ "[] = \x7b") ::
          rows.map (fun row =>
            "    " ++ String.join (row.map fun byte => toString byte.toNat ++ ",")) ++
          ["\x7d;", ""]).map String.toList ∧
      rows.length = (data.length + 15) / 16 ∧
      rows.flatten = data ∧
      (∀ row ∈ rows.dropLast, row.length = 16) ∧
      (∀ row ∈ rows.getLast?, 1 ≤ row.length ∧ row.length ≤ 16) ∧
      read? (render module data) = some data := by
  obtain rfl := Label.module_of_ofModule h
  have hcut := cut_rows data
  have hnewline := newline_not_mem_lines (not_mem_of_isModuleName label.isName (by decide)) data
  have hread := read?_render (not_mem_of_isModuleName label.isName (by decide)) data
  refine ⟨rows data, ?_, hcut.length_eq, flatten_rows data, hcut.length_of_mem_dropLast,
    hcut.length_of_mem_getLast?, hread⟩
  rw [render, splitOn_join hnewline, lines, List.append_assoc]
  rfl

/-- Twenty bytes are a full row and a row of four. -/
theorem render_lays_out_bytes_twenty :
    ∃ label, Label.ofModule "greet" = .ok label ∧
      ∃ rows : List (List UInt8), rows.length = 2 ∧
        rows.flatten = [0, 1, 2, 3, 4, 5, 6, 7, 8, 9, 10, 11, 12, 13, 14, 15, 16, 17, 18, 255] ∧
        (∀ row ∈ rows.dropLast, row.length = 16) ∧
        (∀ row ∈ rows.getLast?, 1 ≤ row.length ∧ row.length ≤ 16) := by
  have hname : isModuleName "greet" = true := by decide +kernel
  have hshort : (labelText "greet").utf8ByteSize ≤ maxLabelLength := by decide +kernel
  have hlabel : Label.ofModule "greet" = .ok ⟨"greet", hname, hshort⟩ := by
    rw [Label.ofModule, dif_pos hname, dif_pos hshort]
  obtain ⟨rows, -, hlength, hflatten, hfull, hlast, -⟩ := render_lays_out_bytes hlabel
    [0, 1, 2, 3, 4, 5, 6, 7, 8, 9, 10, 11, 12, 13, 14, 15, 16, 17, 18, 255]
  exact ⟨_, hlabel, rows, hlength, hflatten, hfull, hlast⟩

end FrozenScript.ArrayText
