/-!
# Quoted text

The quoted form of a text stands between single quotes. A backslash, a single quote, a line feed,
a tab, a carriage return and the zero character are written as escapes, and every other character
as itself.
-/

namespace FrozenScript.Text.Quoted

/-- The form of one character between the quotes. -/
def encodeChar : Char → List Char
  | '\\' => ['\\', '\\']
  | '\'' => ['\\', '\'']
  | '\n' => ['\\', 'n']
  | '\t' => ['\\', 't']
  | '\r' => ['\\', 'r']
  | '\x00' => ['\\', 'x', '0', '0']
  | c => [c]

/-- The quoted form of a list of characters. -/
def encode (chars : List Char) : List Char :=
  '\'' :: (chars.flatMap encodeChar ++ ['\''])

/-- The quoted form of a text. -/
def quote (text : String) : String :=
  String.ofList (encode text.toList)

end FrozenScript.Text.Quoted
