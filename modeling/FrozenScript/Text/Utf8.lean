/-!
# UTF-8

`encode` writes characters as bytes and `decode` reads them back. Reading stops at the first byte
that cannot belong to a character: the fault names its offset and how many bytes form the longest
beginning of a character there, or that the bytes end inside a character.
-/

namespace FrozenScript.Text.Utf8

/-- Why a sequence of bytes is not a text. -/
inductive Fault where
  /-- The bytes from `offset` on begin no character; `length` of them form the longest beginning
  of one. -/
  | invalid (offset length : Nat)
  /-- The bytes end inside the character that starts at `offset`. -/
  | incomplete (offset : Nat)
  deriving DecidableEq, Repr

namespace Fault

/-- The offset of the first byte that is not part of the text. -/
def offset : Fault → Nat
  | invalid offset _ => offset
  | incomplete offset => offset

/-- The wording of a fault. -/
def message : Fault → String
  | invalid offset length => s!"invalid utf-8 sequence of {length} bytes from index {offset}"
  | incomplete offset => s!"incomplete utf-8 byte sequence from index {offset}"

end Fault

/-- What the first byte of a character says about the rest: how many bytes follow, the bits of
the code point that the first byte holds, and the range of the second byte. -/
structure Lead where
  following : Nat
  bits : Nat
  low : UInt8 := 0x80
  high : UInt8 := 0xBF

/-- The kinds of first bytes. The ranges of the second byte exclude overlong forms, surrogates and
code points that are too large. -/
def lead? (byte : UInt8) : Option Lead :=
  let b := byte.toNat
  if b < 0x80 then some { following := 0, bits := b }
  else if b < 0xC2 then none
  else if b < 0xE0 then some { following := 1, bits := b - 0xC0 }
  else if b = 0xE0 then some { following := 2, bits := 0, low := 0xA0 }
  else if b = 0xED then some { following := 2, bits := 0xD, high := 0x9F }
  else if b < 0xF0 then some { following := 2, bits := b - 0xE0 }
  else if b = 0xF0 then some { following := 3, bits := 0, low := 0x90 }
  else if b < 0xF4 then some { following := 3, bits := b - 0xF0 }
  else if b = 0xF4 then some { following := 3, bits := 4, high := 0x8F }
  else none

/-- Read the bytes that follow a first byte. `seen` counts the bytes of the character so far and
`bits` holds the code point so far. -/
def follow (offset seen : Nat) (low high : UInt8) :
    (following bits : Nat) → List UInt8 → Except Fault (Char × List UInt8)
  | 0, bits, rest => .ok (Char.ofNat bits, rest)
  | _ + 1, _, [] => .error (.incomplete offset)
  | following + 1, bits, byte :: rest =>
    if low ≤ byte ∧ byte ≤ high then
      follow offset (seen + 1) 0x80 0xBF following (bits * 64 + (byte.toNat - 0x80)) rest
    else .error (.invalid offset seen)

/-- Read one character whose first byte is at `offset`. -/
def decodeChar (offset : Nat) (byte : UInt8) (rest : List UInt8) :
    Except Fault (Char × List UInt8) :=
  match lead? byte with
  | none => .error (.invalid offset 1)
  | some lead => follow offset 1 lead.low lead.high lead.following lead.bits rest

/-- Read all characters; `chars` holds those read so far, last one first. Each character takes at
least one byte, so as many rounds as there are bytes are enough. -/
def decodeFrom : (rounds offset : Nat) → List Char → List UInt8 → Except Fault (List Char)
  | 0, _, chars, _ => .ok chars.reverse
  | _ + 1, _, chars, [] => .ok chars.reverse
  | rounds + 1, offset, chars, byte :: rest => do
    let (c, rest) ← decodeChar offset byte rest
    decodeFrom rounds (offset + c.utf8Size) (c :: chars) rest

/-- Read a sequence of bytes as a text. -/
def decode (bytes : List UInt8) : Except Fault String :=
  String.ofList <$> decodeFrom bytes.length 0 [] bytes

/-- The bytes of a text. -/
def encode (text : String) : List UInt8 :=
  text.toList.flatMap String.utf8EncodeChar

end FrozenScript.Text.Utf8
