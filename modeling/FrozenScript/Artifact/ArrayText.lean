/-!
# Array texts

The text of a C array that holds some bytes: a header line, the declaration, rows of sixteen
decimal numbers with a comma behind each, and a closing line. `flatten_rows` says that the rows
hold all bytes in order.
-/

namespace FrozenScript.ArrayText

/-- The first line. -/
def header : String := "/* Auto-generated by freeze_module */"

/-- The number of bytes in a full row. -/
def rowLength : Nat := 16

/-- The line that declares the array of a module. -/
def declaration (module : String) : String :=
  "const unsigned char M_" ++ module ++ "[] = \x7b"

/-- The last line. -/
def closing : String := "\x7d;"

/-- Cut bytes into rows. Every round cuts off one row, so as many rounds as there are bytes are
enough. -/
def rowsWithin : (rounds : Nat) → List UInt8 → List (List UInt8)
  | 0, _ => []
  | _ + 1, [] => []
  | rounds + 1, data => data.take rowLength :: rowsWithin rounds (data.drop rowLength)

/-- The rows of some bytes. All of them are full, except perhaps the last one. -/
def rows (data : List UInt8) : List (List UInt8) :=
  rowsWithin data.length data

/-- Enough rounds cut off every byte. -/
theorem flatten_rowsWithin {rounds : Nat} {data : List UInt8} (h : data.length ≤ rounds) :
    (rowsWithin rounds data).flatten = data := by
  induction rounds generalizing data with
  | zero => simp [rowsWithin, List.length_eq_zero_iff.mp (Nat.le_zero.mp h)]
  | succ rounds ih =>
    cases data with
    | nil => rfl
    | cons byte rest =>
      have hdrop : ((byte :: rest).drop rowLength).length ≤ rounds := by
        simp only [List.length_drop, List.length_cons, rowLength] at h ⊢
        omega
      simp [rowsWithin, ih hdrop]

/-- The rows hold all bytes in order. -/
theorem flatten_rows (data : List UInt8) : (rows data).flatten = data :=
  flatten_rowsWithin (Nat.le_refl _)

/-- The text of a byte in a row. -/
def item (byte : UInt8) : String :=
  toString byte.toNat ++ ","

/-- The line of a row. -/
def rowLine (row : List UInt8) : String :=
  "    " ++ String.join (row.map item)

/-- The lines of the array of a module. -/
def lines (module : String) (data : List UInt8) : List String :=
  header :: declaration module :: (rows data).map rowLine ++ [closing]

/-- The text of the array of a module. -/
def render (module : String) (data : List UInt8) : String :=
  String.join ((lines module data).map (· ++ "\n"))

end FrozenScript.ArrayText
