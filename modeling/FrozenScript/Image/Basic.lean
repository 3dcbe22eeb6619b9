import FrozenScript.Text.Utf8

/-!
# Images

An image is a code unit as a sequence of bytes: a mark, a format version, and the unit. This
module holds what writing and reading share, and the faults of both.
-/

namespace FrozenScript

open Text

/-- A sequence of bytes that may hold a code unit. -/
abbrev Image := List UInt8

namespace Image

/-- The mark at the start of every image. -/
def mark : List UInt8 := [0x46, 0x52, 0x5A, 0x4E]

/-- The version of the format. -/
def formatVersion : UInt32 := 1

/-- The number of bytes before the unit. -/
def headerLength : Nat := 8

/-- Why the bytes of a unit cannot be read. -/
inductive Defect where
  /-- The bytes end inside a text. -/
  | shortText
  /-- The bytes end inside an item of fixed size. -/
  | endOfInput
  | badText (fault : Utf8.Fault)
  /-- A tag that none of the `count` variants has. -/
  | badTag (tag : UInt32) (count : Nat)
  | badFlag (flag : UInt8)
  deriving DecidableEq, Repr

/-- The wording of a defect. -/
def Defect.message : Defect → String
  | shortText => "io error: "
  | endOfInput => "io error: unexpected end of file"
  | badText fault => s!"string is not valid utf8: {fault.message}"
  | badTag tag count =>
    s!"invalid value: integer `{tag}`, expected variant index 0 <= i < {count}"
  | badFlag flag => s!"invalid u8 while decoding bool, expected 0 or 1, found {flag}"

/-- Why an image cannot be written or read. -/
inductive Fault where
  | unsupportedVersion (found : UInt32)
  | badMark
  | truncated (length : Nat)
  | undecodable (defect : Defect)
  deriving DecidableEq, Repr

namespace Fault

/-- The wording of a fault. -/
def message : Fault → String
  | unsupportedVersion found =>
    s!"unsupported marshal format version {found} (supported: {formatVersion})"
  | badMark => "data is not a frozen code image (bad magic number)"
  | truncated length => s!"frozen code image is truncated ({length} bytes)"
  | undecodable _ => "could not decode code unit"

/-- The identifier of the kind of a fault. -/
def code : Fault → String
  | unsupportedVersion _ => "freezec::marshal::version"
  | badMark => "freezec::marshal::magic"
  | truncated _ => "freezec::marshal::truncated"
  | undecodable _ => "freezec::marshal::decode"

end Fault

end Image

end FrozenScript
