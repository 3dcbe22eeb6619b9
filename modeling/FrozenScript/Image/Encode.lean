import FrozenScript.Code.Basic
import FrozenScript.Image.Basic

/-!
# Writing images

Numbers are written with their least significant byte first. A list is its length and its items, a
text is the list of its bytes, and a choice is a tag and what belongs to it.
-/

namespace FrozenScript.Image

open Text

/-- The lowest bytes of a number, the least significant one first. -/
def littleEndian : (width : Nat) → Nat → List UInt8
  | 0, _ => []
  | width + 1, n => UInt8.ofNat n :: littleEndian width (n / 256)

/-- A word of four bytes. -/
def encodeWord (n : UInt32) : List UInt8 :=
  littleEndian 4 n.toNat

/-- A length. -/
def encodeLength (n : Nat) : List UInt8 :=
  littleEndian 8 n

/-- A signed word of eight bytes. -/
def encodeInt (n : Int64) : List UInt8 :=
  littleEndian 8 n.toUInt64.toNat

/-- A flag. -/
def encodeFlag (flag : Bool) : List UInt8 :=
  [if flag then 1 else 0]

/-- A text. -/
def encodeText (text : String) : List UInt8 :=
  let bytes := Utf8.encode text
  encodeLength bytes.length ++ bytes

/-- A list of items. -/
def encodeList {α : Type} (item : α → List UInt8) (items : List α) : List UInt8 :=
  encodeLength items.length ++ items.flatMap item

/-- The position of an arithmetic operator among its kind. -/
def binaryTag : BinaryOp → UInt32
  | .add => 0
  | .sub => 1
  | .mul => 2
  | .floorDiv => 3
  | .mod => 4

/-- The position of an operator with one operand among its kind. -/
def unaryTag : UnaryOp → UInt32
  | .neg => 0
  | .not => 1

/-- The position of a comparison operator among its kind. -/
def compareTag : CompareOp → UInt32
  | .eq => 0
  | .ne => 1
  | .lt => 2
  | .le => 3
  | .gt => 4
  | .ge => 5

/-- An instruction. -/
def encodeInstr : Instr → List UInt8
  | .loadConst index => encodeWord 0 ++ encodeWord index
  | .loadName index => encodeWord 1 ++ encodeWord index
  | .storeName index => encodeWord 2 ++ encodeWord index
  | .loadMember index => encodeWord 3 ++ encodeWord index
  | .importName index => encodeWord 4 ++ encodeWord index
  | .binaryOp op => encodeWord 5 ++ encodeWord (binaryTag op)
  | .unaryOp op => encodeWord 6 ++ encodeWord (unaryTag op)
  | .compare op => encodeWord 7 ++ encodeWord (compareTag op)
  | .jump target => encodeWord 8 ++ encodeWord target
  | .popJumpIfFalse target => encodeWord 9 ++ encodeWord target
  | .popJumpIfTrue target => encodeWord 10 ++ encodeWord target
  | .jumpIfFalseOrPop target => encodeWord 11 ++ encodeWord target
  | .jumpIfTrueOrPop target => encodeWord 12 ++ encodeWord target
  | .call argCount => encodeWord 13 ++ encodeWord argCount
  | .makeFunction index => encodeWord 14 ++ encodeWord index
  | .pop => encodeWord 15
  | .giveBack => encodeWord 16
  | .raiseAssert withMessage => encodeWord 17 ++ encodeFlag withMessage

mutual
/-- A constant. -/
def encodeConstant : Constant → List UInt8
  | .none => encodeWord 0
  | .bool value => encodeWord 1 ++ encodeFlag value
  | .int value => encodeWord 2 ++ encodeInt value
  | .text value => encodeWord 3 ++ encodeText value
  | .code unit => encodeWord 4 ++ encodeUnit unit

/-- A unit. -/
def encodeUnit : CodeUnit → List UInt8
  | .mk name file params consts names code lines =>
    encodeText name ++ (encodeText file ++ (encodeList encodeText params ++
      (encodeLength consts.length ++ (encodeConstants consts ++
        (encodeList encodeText names.toList ++ (encodeList encodeInstr code.toList ++
          encodeList encodeWord lines.toList))))))

/-- Constants one behind the other. -/
def encodeConstants : List Constant → List UInt8
  | [] => []
  | const :: rest => encodeConstant const ++ encodeConstants rest
end

/-- What stands before the unit in an image of a version. -/
def header (version : UInt32) : List UInt8 :=
  mark ++ encodeWord version

/-- The image of a unit in the supported format. -/
def ofUnit (unit : CodeUnit) : Image :=
  header formatVersion ++ encodeUnit unit

/-- Write the image of a unit in a version of the format. -/
def encode (version : UInt32) (unit : CodeUnit) : Except Fault Image :=
  if version = formatVersion then .ok (ofUnit unit) else .error (.unsupportedVersion version)

end FrozenScript.Image
