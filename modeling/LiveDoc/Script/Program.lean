import LiveDoc.Number.Basic

namespace LiveDoc.Script

inductive BinaryOp where
  | add
  | sub
  | mul
  | div
  | rem
  | eq
  | notEq
  | strictEq
  | strictNotEq
  | lt
  | ltEq
  | gt
  | gtEq
  deriving DecidableEq, Repr

inductive LogicalOp where
  | and
  | or
  deriving DecidableEq, Repr

inductive UnaryOp where
  | not
  | neg
  | plus
  | typeof
  deriving DecidableEq, Repr

inductive Expr where
  | number (n : Number)
  | text (s : String)
  | bool (b : Bool)
  | null
  | undefined
  | this
  | name (s : String)
  | array (items : List Expr)
  | object (entries : List (String × Expr))
  | member (object : Expr) (property : String)
  | index (object index : Expr)
  | call (callee : Expr) (args : List Expr)
  | unary (op : UnaryOp) (operand : Expr)
  | binary (op : BinaryOp) (left right : Expr)
  | logical (op : LogicalOp) (left right : Expr)
  | conditional (condition thenExpr elseExpr : Expr)
  /-- An assignment, after the operation if there is one. -/
  | assign (target : Expr) (op : Option BinaryOp) (value : Expr)

def Expr.isTarget : Expr → Bool
  | name _ | member .. | index .. => true
  | _ => false

inductive Stmt where
  | declare (isConst : Bool) (bindings : List (String × Option Expr))
  | returns (value : Option Expr)
  | ifElse (condition : Expr) (thenStmt : Stmt) (elseStmt : Option Stmt)
  | whileLoop (condition : Expr) (body : Stmt)
  | breakLoop
  | continueLoop
  | throws (value : Expr)
  | block (body : List Stmt)
  | expr (e : Expr)
  | empty

abbrev Program := List Stmt

end LiveDoc.Script
