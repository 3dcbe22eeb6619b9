import FrozenScript.Text.Span

/-!
# Abstract syntax

A program is a list of statements. Expressions know the span they were written in, and statements
know their span and their line. Parentheses leave no node: they only widen the span of the
expression between them.
-/

namespace FrozenScript

open Text

/-- The arithmetic operators. -/
inductive BinaryOp where
  | add | sub | mul | floorDiv | mod
  deriving DecidableEq, Repr

/-- The operators with one operand. -/
inductive UnaryOp where
  | neg | not
  deriving DecidableEq, Repr

/-- The comparison operators. -/
inductive CompareOp where
  | eq | ne | lt | le | gt | ge
  deriving DecidableEq, Repr

/-- The operators that evaluate their right operand only if the left one does not decide. -/
inductive LogicalOp where
  | and | or
  deriving DecidableEq, Repr

/-- A value that is written out in a program. -/
inductive Literal where
  | none
  | bool (value : Bool)
  | int (value : Int64)
  | text (value : String)
  deriving DecidableEq, Repr

/-- An expression. -/
inductive Expr where
  | literal (span : Span) (value : Literal)
  | name (span : Span) (name : String)
  | binary (span : Span) (op : BinaryOp) (left right : Expr)
  | unary (span : Span) (op : UnaryOp) (operand : Expr)
  | compare (span : Span) (op : CompareOp) (left right : Expr)
  | logical (span : Span) (op : LogicalOp) (left right : Expr)
  | call (span : Span) (callee : Expr) (args : List Expr)
  | member (span : Span) (object : Expr) (name : String)

namespace Expr

/-- The span that an expression was written in. -/
def span : Expr → Span
  | .literal span _ | .name span _ | .binary span _ _ _ | .unary span _ _ | .compare span _ _ _
  | .logical span _ _ _ | .call span _ _ | .member span _ _ => span

/-- The same expression in another span. -/
def withSpan (expr : Expr) (span : Span) : Expr :=
  match expr with
  | .literal _ value => .literal span value
  | .name _ ident => .name span ident
  | .binary _ op left right => .binary span op left right
  | .unary _ op operand => .unary span op operand
  | .compare _ op left right => .compare span op left right
  | .logical _ op left right => .logical span op left right
  | .call _ callee args => .call span callee args
  | .member _ object ident => .member span object ident

/-- An expression with a replaced span has that span. -/
@[simp] theorem span_withSpan (s : Span) (expr : Expr) : (expr.withSpan s).span = s := by
  cases expr <;> rfl

end Expr

/-- A parameter of a function. -/
structure Param where
  name : String
  span : Span
  deriving DecidableEq, Repr

/-- Where a statement stands. -/
structure Place where
  span : Span
  line : Nat
  deriving DecidableEq, Repr

mutual
/-- A statement. -/
inductive Stmt where
  | expr (place : Place) (value : Expr)
  | assign (place : Place) (target value : Expr)
  | branch (place : Place) (condition : Expr) (body : List Stmt) (alternative : Alternative)
  | loop (place : Place) (condition : Expr) (body : List Stmt)
  | define (place : Place) (name : String) (params : List Param) (body : List Stmt)
  | giveBack (place : Place) (value : Option Expr)
  | importModule (place : Place) (name : String)
  | assert (place : Place) (test : Expr) (message : Option Expr)
  | pass (place : Place)
  | breakLoop (place : Place)
  | continueLoop (place : Place)

/-- What happens if the condition of a branch does not hold. -/
inductive Alternative where
  | nothing
  | elif (condition : Expr) (body : List Stmt) (rest : Alternative)
  | otherwise (body : List Stmt)
end

/-- A sequence of statements. -/
abbrev Block := List Stmt

/-- Where a statement stands. -/
def Stmt.place : Stmt → Place
  | .expr place _ | .assign place _ _ | .branch place _ _ _ | .loop place _ _ | .define place _ _ _
  | .giveBack place _ | .importModule place _ | .assert place _ _ | .pass place | .breakLoop place
  | .continueLoop place => place

end FrozenScript
