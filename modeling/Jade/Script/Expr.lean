import Jade.Value

/-!
# Expressions and statements

The scripting language inside templates: constants, names, displays of lists, tuples and tables,
operators, comparisons in chains, conditional expressions, members, indices, slices and calls; and
assignments of their values to names and to what stands at an index.
-/

namespace Jade.Script

/-- An operator with two operands. -/
inductive BinaryOp where
  | add
  | sub
  | mul
  | div
  | floorDiv
  | mod
  | pow
  | bitOr
  | bitAnd
  | bitXor
  | shiftLeft
  | shiftRight
  deriving DecidableEq, Repr

/-- An operator with one operand. -/
inductive UnaryOp where
  | plus
  | minus
  | invert
  deriving DecidableEq, Repr

/-- A comparison. -/
inductive CompareOp where
  | eq
  | ne
  | lt
  | le
  | gt
  | ge
  | within
  | notWithin
  | same
  | notSame
  deriving DecidableEq, Repr

/-- An expression. -/
inductive Expr where
  /-- A constant. -/
  | const (v : Value)
  /-- A name. -/
  | name (s : String)
  /-- A list display. -/
  | list (items : List Expr)
  /-- A tuple display. -/
  | tuple (items : List Expr)
  /-- A table display. -/
  | dict (pairs : List (Expr × Expr))
  /-- An operator with one operand. -/
  | unary (op : UnaryOp) (e : Expr)
  /-- An operator with two operands. -/
  | binary (op : BinaryOp) (left right : Expr)
  /-- The first operand if it counts as false, else the second. -/
  | both (left right : Expr)
  /-- The first operand if it counts as true, else the second. -/
  | either (left right : Expr)
  /-- Negation. -/
  | negation (e : Expr)
  /-- A chain of comparisons. -/
  | compare (first : Expr) (rest : List (CompareOp × Expr))
  /-- A choice. -/
  | choice (cond yes no : Expr)
  /-- The member of a value with a name. -/
  | member (e : Expr) (name : String)
  /-- What stands at an index or under a key. -/
  | index (e i : Expr)
  /-- A part of a sequence. -/
  | slice (e : Expr) (start stop step : Option Expr)
  /-- A call with arguments by place and by name. -/
  | call (f : Expr) (args : List Expr) (named : List (String × Expr))
  deriving Repr, Inhabited

/-- Whether two constants are one: of one kind and written for the same. -/
def sameConstant : Value → Value → Bool
  | .none, .none => true
  | .bool a, .bool b => a == b
  | .int a, .int b => a == b
  | .float a, .float b => a == b
  | .text a, .text b => a == b
  | .bytes a, .bytes b => a == b
  | _, _ => false

/-- Whether two expressions are bound to give the very same object: one name twice or one constant
twice. -/
def Expr.sameObject : Expr → Expr → Bool
  | .name a, .name b => a == b
  | .const a, .const b => sameConstant a b
  | _, _ => false

/-- What is assigned to. -/
inductive Target where
  /-- A name. -/
  | name (s : String)
  /-- Several targets for the members of a value. -/
  | tuple (targets : List Target)
  /-- What stands at an index or under a key. -/
  | index (e i : Expr)
  /-- A member of a value. -/
  | member (e : Expr)
  deriving Repr, Inhabited

/-- A statement. -/
inductive Statement where
  /-- An expression, for its effects. -/
  | expr (e : Expr)
  /-- An assignment to one or more targets. -/
  | assign (targets : List Target) (e : Expr)
  /-- An assignment that combines what a target holds with a value. -/
  | update (target : Target) (op : BinaryOp) (e : Expr)
  /-- Nothing. -/
  | pass
  deriving Repr, Inhabited

end Jade.Script
