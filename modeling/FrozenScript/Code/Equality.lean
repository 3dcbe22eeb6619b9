import FrozenScript.Code.Basic

/-!
# Equality of code units

Equality of units is decided by comparing them field by field, constants inside constants
included. `CodeUnit.matches_iff` says that the comparison decides equality.
-/

namespace FrozenScript

mutual
/-- Whether two constants are equal. -/
def Constant.matches : Constant → Constant → Bool
  | .none, .none => true
  | .bool a, .bool b => a == b
  | .int a, .int b => a == b
  | .text a, .text b => a == b
  | .code a, .code b => a.matches b
  | _, _ => false

/-- Whether two units are equal. -/
def CodeUnit.matches : CodeUnit → CodeUnit → Bool
  | .mk name file params consts names code lines,
    .mk name' file' params' consts' names' code' lines' =>
    name == name' && file == file' && params == params' && constantsMatch consts consts' &&
      names == names' && decide (code = code') && lines == lines'

/-- Whether two lists of constants are equal. -/
def constantsMatch : List Constant → List Constant → Bool
  | [], [] => true
  | a :: as, b :: bs => a.matches b && constantsMatch as bs
  | _, _ => false
end

mutual
/-- Matching constants are equal constants. -/
theorem Constant.matches_iff : ∀ a b : Constant, a.matches b = true ↔ a = b
  | .none, b => by cases b <;> simp [Constant.matches]
  | .bool _, b => by cases b <;> simp [Constant.matches]
  | .int _, b => by cases b <;> simp [Constant.matches]
  | .text _, b => by cases b <;> simp [Constant.matches]
  | .code a, b => by
    cases b with
    | code b => simp [Constant.matches, CodeUnit.matches_iff a b]
    | _ => simp [Constant.matches]

/-- Matching units are equal units. -/
theorem CodeUnit.matches_iff : ∀ a b : CodeUnit, a.matches b = true ↔ a = b
  | .mk name file params consts names code lines, b => by
    obtain ⟨name', file', params', consts', names', code', lines'⟩ := b
    simp [CodeUnit.matches, constantsMatch_iff consts consts', and_assoc]

/-- Matching lists of constants are equal lists. -/
theorem constantsMatch_iff : ∀ as bs : List Constant, constantsMatch as bs = true ↔ as = bs
  | [], bs => by cases bs <;> simp [constantsMatch]
  | a :: as, bs => by
    cases bs with
    | nil => simp [constantsMatch]
    | cons b bs => simp [constantsMatch, Constant.matches_iff a b, constantsMatch_iff as bs]
end

/-- Equality of constants is decided by comparing them. -/
instance : DecidableEq Constant := fun a b =>
  decidable_of_iff (a.matches b = true) (Constant.matches_iff a b)

/-- Equality of units is decided by comparing them. -/
instance : DecidableEq CodeUnit := fun a b =>
  decidable_of_iff (a.matches b = true) (CodeUnit.matches_iff a b)

end FrozenScript
