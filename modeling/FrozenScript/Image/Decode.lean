import FrozenScript.Image.Encode

/-!
# Reading images

`decode` reads the unit at the start of an image and does not look at what follows it. Every
reader takes the bytes that are left and gives back the bytes behind its item. A reader that meets
the end of the bytes says so before it judges what it has read.
-/

namespace FrozenScript.Image

open Text

/-- A reader of one item. -/
abbrev Reader := StateT (List UInt8) (Except Defect)

/-- The number that is written by some bytes, the least significant one first. -/
def fromLittleEndian : List UInt8 → Nat
  | [] => 0
  | byte :: rest => byte.toNat + 256 * fromLittleEndian rest

namespace Reader

/-- Fail. -/
def fail {α : Type} (defect : Defect) : Reader α :=
  fun _ => .error defect

/-- Read a number of the given width. -/
def number (width : Nat) : Reader Nat :=
  fun bytes =>
    let digits := bytes.take width
    if digits.length = width then .ok (fromLittleEndian digits, bytes.drop width)
    else .error .endOfInput

/-- Read a word of four bytes. -/
def word : Reader UInt32 :=
  UInt32.ofNat <$> number 4

/-- Read a signed word of eight bytes. -/
def int : Reader Int64 :=
  (fun n => (UInt64.ofNat n).toInt64) <$> number 8

/-- Read a flag. -/
def flag : Reader Bool := do
  match ← number 1 with
  | 0 => return false
  | 1 => return true
  | n => fail (.badFlag (UInt8.ofNat n))

/-- Read the body of a text that takes some bytes. -/
def textBody (length : Nat) : Reader String :=
  fun bytes =>
    let body := bytes.take length
    if body.length = length then
      match Utf8.decode body with
      | .ok text => .ok (text, bytes.drop length)
      | .error fault => .error (.badText fault)
    else .error .shortText

/-- Read a text. -/
def text : Reader String := do
  textBody (← number 8)

/-- Read some items one behind the other. `read` holds the items so far, last one first. -/
def items {α : Type} (item : Reader α) : (count : Nat) → List α → Reader (List α)
  | 0, read => return read.reverse
  | count + 1, read => do
    let next ← item
    items item count (next :: read)

/-- Read a list of items. -/
def list {α : Type} (item : Reader α) : Reader (List α) := do
  items item (← number 8) []

/-- Read a tag and look up its variant. -/
def choice {α : Type} (variants : List α) : Reader α := do
  let tag ← word
  match variants[tag.toNat]? with
  | some variant => return variant
  | none => fail (.badTag tag variants.length)

/-- Read an arithmetic operator. -/
def binaryOp : Reader BinaryOp :=
  choice [.add, .sub, .mul, .floorDiv, .mod]

/-- Read an operator with one operand. -/
def unaryOp : Reader UnaryOp :=
  choice [.neg, .not]

/-- Read a comparison operator. -/
def compareOp : Reader CompareOp :=
  choice [.eq, .ne, .lt, .le, .gt, .ge]

/-- The readers of what follows the tag of an instruction, in the order of the tags. -/
def operands : List (Reader Instr) :=
  [.loadConst <$> word, .loadName <$> word, .storeName <$> word, .loadMember <$> word,
    .importName <$> word, .binaryOp <$> binaryOp, .unaryOp <$> unaryOp, .compare <$> compareOp,
    .jump <$> word, .popJumpIfFalse <$> word, .popJumpIfTrue <$> word,
    .jumpIfFalseOrPop <$> word, .jumpIfTrueOrPop <$> word, .call <$> word,
    .makeFunction <$> word, pure .pop, pure .giveBack, .raiseAssert <$> flag]

/-- Read an instruction. -/
def instr : Reader Instr := do
  let operand ← choice operands
  operand

/-- Read a constant, given a reader of the units inside it. -/
def constant (unit : Reader CodeUnit) : Reader Constant := do
  let value ← choice
    [pure .none, .bool <$> flag, .int <$> int, .text <$> text, .code <$> unit]
  value

/-- Read a unit that has at most `levels` units inside each other. -/
def unitWithin : (levels : Nat) → Reader CodeUnit
  | 0 => fail .endOfInput
  | levels + 1 => do
    let name ← text
    let file ← text
    let params ← list text
    let consts ← list (constant (unitWithin levels))
    let names ← list text
    let code ← list instr
    let lines ← list word
    return { name, file, params, consts, names := names.toArray, code := code.toArray,
             lines := lines.toArray }

/-- Read a unit. A unit inside another one takes fewer bytes, so there are not more levels than
bytes. -/
def unit : Reader CodeUnit :=
  fun bytes => unitWithin (bytes.length + 1) bytes

end Reader

/-- Read the unit of an image. -/
def decode (image : Image) : Except Fault CodeUnit :=
  if image.length < headerLength then .error (.truncated image.length)
  else if image.take mark.length ≠ mark then .error .badMark
  else
    let rest := image.drop mark.length
    let version := UInt32.ofNat (fromLittleEndian (rest.take 4))
    if version ≠ formatVersion then .error (.unsupportedVersion version)
    else (Reader.unit.run' (rest.drop 4)).mapError .undecodable

end FrozenScript.Image
