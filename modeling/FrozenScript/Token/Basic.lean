import FrozenScript.Text.Decimal
import FrozenScript.Text.Span

/-!
# Tokens

A token is a kind together with the place of its lexeme. Keywords and symbols have one fixed
spelling each. `Keyword.ofSpelling?` finds a keyword from its spelling. It is a table of its own;
`Keyword.ofSpelling?_spelling` and `Keyword.spelling_of_ofSpelling?` say that it is the inverse of
the table of spellings.
-/

namespace FrozenScript

open Text

/-- The reserved words. -/
inductive Keyword where
  | defWord | returnWord | ifWord | elifWord | elseWord | whileWord | breakWord | continueWord
  | passWord | importWord | assertWord | andWord | orWord | notWord | trueWord | falseWord
  | noneWord
  deriving DecidableEq, Repr

namespace Keyword

/-- Every reserved word. -/
def all : List Keyword :=
  [defWord, returnWord, ifWord, elifWord, elseWord, whileWord, breakWord, continueWord, passWord,
    importWord, assertWord, andWord, orWord, notWord, trueWord, falseWord, noneWord]

/-- The spelling of a reserved word. -/
def spelling : Keyword → String
  | defWord => "def"
  | returnWord => "return"
  | ifWord => "if"
  | elifWord => "elif"
  | elseWord => "else"
  | whileWord => "while"
  | breakWord => "break"
  | continueWord => "continue"
  | passWord => "pass"
  | importWord => "import"
  | assertWord => "assert"
  | andWord => "and"
  | orWord => "or"
  | notWord => "not"
  | trueWord => "True"
  | falseWord => "False"
  | noneWord => "None"

/-- The reserved word that is spelled like this, if there is one. -/
def ofSpelling? : String → Option Keyword
  | "def" => some defWord
  | "return" => some returnWord
  | "if" => some ifWord
  | "elif" => some elifWord
  | "else" => some elseWord
  | "while" => some whileWord
  | "break" => some breakWord
  | "continue" => some continueWord
  | "pass" => some passWord
  | "import" => some importWord
  | "assert" => some assertWord
  | "and" => some andWord
  | "or" => some orWord
  | "not" => some notWord
  | "True" => some trueWord
  | "False" => some falseWord
  | "None" => some noneWord
  | _ => none

/-- Every reserved word is found from its spelling. -/
theorem ofSpelling?_spelling (keyword : Keyword) :
    ofSpelling? keyword.spelling = some keyword := by
  cases keyword <;> rfl

/-- A reserved word is found from its own spelling only. -/
theorem spelling_of_ofSpelling? {word : String} {keyword : Keyword}
    (h : ofSpelling? word = some keyword) : keyword.spelling = word := by
  unfold ofSpelling? at h
  split at h <;> cases h <;> rfl

end Keyword

/-- Punctuation and operators. -/
inductive Symbol where
  | comma | colon | dot | openParen | closeParen
  | assign | plus | minus | star | floorDivide | percent
  | equal | notEqual | less | lessEqual | greater | greaterEqual
  deriving DecidableEq, Repr

namespace Symbol

/-- Every symbol. -/
def all : List Symbol :=
  [comma, colon, dot, openParen, closeParen, assign, plus, minus, star, floorDivide, percent, equal,
    notEqual, less, lessEqual, greater, greaterEqual]

/-- The spelling of a symbol. -/
def spelling : Symbol → String
  | comma => ","
  | colon => ":"
  | dot => "."
  | openParen => "("
  | closeParen => ")"
  | assign => "="
  | plus => "+"
  | minus => "-"
  | star => "*"
  | floorDivide => "//"
  | percent => "%"
  | equal => "=="
  | notEqual => "!="
  | less => "<"
  | lessEqual => "<="
  | greater => ">"
  | greaterEqual => ">="

end Symbol

/-- What a token is. -/
inductive Kind where
  | identifier (name : String)
  | integer (value : Int64)
  | text (value : String)
  | keyword (word : Keyword)
  | symbol (sign : Symbol)
  /-- The end of a logical line. -/
  | newline
  /-- The beginning of a deeper block. -/
  | indent
  /-- The end of a block. -/
  | dedent
  | endOfFile
  deriving DecidableEq, Repr

namespace Kind

/-- How an error message names a kind. -/
def describe : Kind → String
  | identifier name => s!"identifier `{name}`"
  | integer value => s!"integer `{Decimal.ofInt64 value}`"
  | text _ => "string literal"
  | keyword word => s!"`{word.spelling}`"
  | symbol sign => s!"`{sign.spelling}`"
  | newline => "end of line"
  | indent => "indent"
  | dedent => "dedent"
  | endOfFile => "end of file"

/-- Whether a kind stands for the layout of the text and not for a lexeme. -/
def isLayout : Kind → Bool
  | newline | indent | dedent | endOfFile => true
  | _ => false

end Kind

/-- A kind at a place of a source text. Lines and columns count from one. -/
structure Token where
  kind : Kind
  span : Span
  line : Nat
  column : Nat
  deriving DecidableEq, Repr

end FrozenScript
