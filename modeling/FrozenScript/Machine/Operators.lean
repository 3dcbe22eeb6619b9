import FrozenScript.Machine.Fault
import FrozenScript.Machine.Value

/-!
# Operators on values

Arithmetic on numbers is exact or overflows. A sum, a difference or a product is computed as an
integer without bounds and then has to fit. Division and remainder start from the operations on
words, which round towards zero, and correct them: division rounds down, and a remainder has the
sign of the divisor. Texts can be joined and repeated up to a length of `maxTextLength` bytes.
-/

namespace FrozenScript

open Text

/-- The number of bytes that a text made by an operator may have. -/
def maxTextLength : Nat := 16 * 1024 * 1024

/-- A number that has to fit into a signed 64-bit word. -/
def bounded (n : Int) : Except Fault Value :=
  match Decimal.toInt64? n with
  | some value => .ok (.int value)
  | none => .error .overflow

/-- The quotient of two words, rounded towards zero. That of the least word and minus one does not
fit into a word. The divisor must not be zero. -/
def quotient? (a b : Int64) : Option Int64 :=
  if a == Int64.minValue && b == -1 then none else some (a / b)

/-- Whether one of two words is negative and the other is not. -/
def differInSign (a b : Int64) : Bool :=
  decide (a < 0) != decide (b < 0)

namespace BinaryOp

/-- Apply an arithmetic operator to two numbers. -/
def onInts (op : BinaryOp) (a b : Int64) : Except Fault Value :=
  match op with
  | .add => bounded (a.toInt + b.toInt)
  | .sub => bounded (a.toInt - b.toInt)
  | .mul => bounded (a.toInt * b.toInt)
  | .floorDiv =>
    if b == 0 then .error .zeroDivision
    else
      match quotient? a b with
      | some q => .ok (.int (if a % b != 0 && differInSign a b then q - 1 else q))
      | none => .error .overflow
  | .mod =>
    if b == 0 then .error .zeroDivision
    else
      let r := a % b
      .ok (.int (if r != 0 && differInSign r b then r + b else r))

end BinaryOp

/-- Some copies of a text, one behind the other. The empty text needs no copying. -/
def copies (text : String) (count : Nat) : String :=
  if text.isEmpty then "" else Nat.repeat (· ++ text) count ""

/-- Join two texts. -/
def joinTexts (a b : String) : Except Fault Value :=
  if a.utf8ByteSize + b.utf8ByteSize ≤ maxTextLength then .ok (.text (a ++ b))
  else .error .overflow

/-- Repeat a text. A negative number of copies counts as none. -/
def repeatText (text : String) (count : Int) : Except Fault Value :=
  if text.utf8ByteSize * count.toNat ≤ maxTextLength then .ok (.text (copies text count.toNat))
  else .error .overflow

/-- The fault of an arithmetic operator on values that it does not take. -/
def wrongOperands (op : BinaryOp) (left right : Value) : Except Fault Value :=
  .error (.type (.arithmetic op left.typeName right.typeName))

/-- Apply an arithmetic operator. -/
def BinaryOp.apply (op : BinaryOp) (left right : Value) : Except Fault Value :=
  match left.toInt?, right.toInt? with
  | some a, some b => op.onInts a b
  | _, _ =>
    match op, left, right with
    | .add, .text a, .text b => joinTexts a b
    | .mul, .text text, count | .mul, count, .text text =>
      match count.toInt? with
      | some n => repeatText text n.toInt
      | none => wrongOperands op left right
    | _, _, _ => wrongOperands op left right

/-- Apply an operator with one operand. -/
def UnaryOp.apply (op : UnaryOp) (operand : Value) : Except Fault Value :=
  match op with
  | .not => .ok (.bool (!operand.isTruthy))
  | .neg =>
    match operand.toInt? with
    | some n => bounded (-n.toInt)
    | none => .error (.type (.negation operand.typeName))

/-- The order of two values: numbers by size, texts by their code points, and no other values. -/
def order? (left right : Value) : Option Ordering :=
  match left, right with
  | .text a, .text b => some (compare a b)
  | _, _ =>
    match left.toInt?, right.toInt? with
    | some a, some b => some (compare a.toInt b.toInt)
    | _, _ => none

/-- Whether a comparison holds of two values in an order. -/
def CompareOp.holds : CompareOp → Ordering → Bool
  | .eq, order => order == .eq
  | .ne, order => order != .eq
  | .lt, order => order == .lt
  | .le, order => order != .gt
  | .gt, order => order == .gt
  | .ge, order => order != .lt

/-- Apply a comparison operator. Equality is defined for all values. -/
def CompareOp.apply (op : CompareOp) (left right : Value) : Except Fault Value :=
  match op with
  | .eq => .ok (.bool (left.equals right))
  | .ne => .ok (.bool (!left.equals right))
  | op =>
    match order? left right with
    | some order => .ok (.bool (op.holds order))
    | none => .error (.type (.comparison op left.typeName right.typeName))

end FrozenScript
