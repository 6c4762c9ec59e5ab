import LiveDoc.Script.Program
import LiveDoc.Script.Token

namespace LiveDoc.Script

inductive Expectation where
  | statement
  | variableName
  | openParen
  | closeParen
  | closeBrace
  | closeBracket
  | colon
  | propertyName
  | expression
  | listEnd (close : Sign)
  deriving DecidableEq, Repr

def Expectation.text : Expectation → String
  | statement => "statement"
  | variableName => "variable name"
  | openParen => "'('"
  | closeParen => "')'"
  | closeBrace => "'\x7d'"
  | closeBracket => "']'"
  | colon => "':'"
  | propertyName => "property name"
  | expression => "expression"
  | listEnd close => close.name

inductive Cause where
  | expected (what : Expectation)
  | invalidTarget
  deriving DecidableEq, Repr

def Cause.text : Cause → String
  | expected what => "expected " ++ what.text
  | invalidTarget => "invalid assignment target"

/-- Why no program was found, and the tokens from the first one that does not fit. -/
structure Failure where
  cause : Cause
  rest : List Token
  deriving DecidableEq

def Failure.text (f : Failure) : String :=
  f.cause.text ++
    match f.rest with
    | [] => ", found end of body"
    | t :: _ => ", found " ++ t.shown

/-- What was read, and the tokens behind it, which are fewer than a bound. -/
structure Parsed (α : Type) (bound : Nat) where
  value : α
  rest : List Token
  shorter : rest.length < bound

inductive Level where
  | or
  | and
  | equality
  | relational
  | additive
  | term
  deriving DecidableEq, Repr

namespace Level

/-- The level of the operands. Those of the tightest level are unary operations. -/
def tighter : Level → Option Level
  | or => some and
  | and => some equality
  | equality => some relational
  | relational => some additive
  | additive => some term
  | term => none

def height : Level → Nat
  | or => 5
  | and => 4
  | equality => 3
  | relational => 2
  | additive => 1
  | term => 0

def operator? : Level → Token → Option (Expr → Expr → Expr)
  | or, .sign .or => some (.logical .or)
  | and, .sign .and => some (.logical .and)
  | equality, .sign .eq => some (.binary .eq)
  | equality, .sign .notEq => some (.binary .notEq)
  | equality, .sign .strictEq => some (.binary .strictEq)
  | equality, .sign .strictNotEq => some (.binary .strictNotEq)
  | relational, .sign .lt => some (.binary .lt)
  | relational, .sign .ltEq => some (.binary .ltEq)
  | relational, .sign .gt => some (.binary .gt)
  | relational, .sign .gtEq => some (.binary .gtEq)
  | additive, .sign .plus => some (.binary .add)
  | additive, .sign .minus => some (.binary .sub)
  | term, .sign .star => some (.binary .mul)
  | term, .sign .slash => some (.binary .div)
  | term, .sign .percent => some (.binary .rem)
  | _, _ => none

theorem height_of_tighter {level next : Level} (h : level.tighter = some next) :
    next.height < level.height := by
  cases level <;> cases h <;> decide

theorem height_le (level : Level) : level.height ≤ 5 := by
  cases level <;> decide

end Level

namespace Parser

abbrev Result (α : Type) (bound : Nat) := Except Failure (Parsed α bound)

def fail (cause : Cause) (rest : List Token) : Except Failure α :=
  .error ⟨cause, rest⟩

def missing (what : Expectation) (rest : List Token) : Except Failure α :=
  fail (.expected what) rest

def eat? (s : Sign) : (ts : List Token) → Option (Parsed Unit ts.length)
  | [] => none
  | t :: rest => if t = .sign s then some ⟨(), rest, by simp⟩ else none

def expect (s : Sign) (what : Expectation) (ts : List Token) : Result Unit ts.length :=
  match eat? s ts with
  | some p => .ok p
  | none => missing what ts

def dropSemicolon : List Token → List Token
  | .sign .semicolon :: rest => rest
  | ts => ts

theorem length_dropSemicolon_le (ts : List Token) : (dropSemicolon ts).length ≤ ts.length := by
  unfold dropSemicolon
  split <;> simp

/-- A name, or a keyword, which is as good as a name for a property. -/
def propertyName? : Token → Option String
  | .name s => some s
  | .keyword k => some k.text
  | _ => none

/-- The key of an entry: also a text, or a number, by its text. -/
def entryKey? : Token → Option String
  | .text s => some s
  | .number n => some n.text
  | t => propertyName? t

def unaryOp? : Token → Option UnaryOp
  | .sign .not => some .not
  | .sign .minus => some .neg
  | .sign .plus => some .plus
  | .keyword .typeofK => some .typeof
  | _ => none

def assignment? : Token → Option (Option BinaryOp)
  | .sign .assign => some none
  | .sign .plusAssign => some (some .add)
  | .sign .minusAssign => some (some .sub)
  | .sign .starAssign => some (some .mul)
  | .sign .slashAssign => some (some .div)
  | .sign .percentAssign => some (some .rem)
  | _ => none

def atom? : Token → Option Expr
  | .number n => some (.number n)
  | .text s => some (.text s)
  | .name s => some (.name s)
  | .keyword .trueK => some (.bool true)
  | .keyword .falseK => some (.bool false)
  | .keyword .nullK => some .null
  | .keyword .undefinedK => some .undefined
  | .keyword .thisK => some .this
  | _ => none

/-- Whether a `return` has no value: its statement or its block ends. -/
def endsReturn : List Token → Bool
  | [] | .sign .semicolon :: _ | .sign .closeBrace :: _ => true
  | _ => false

mutual

def primary (ts : List Token) : Result Expr ts.length :=
  match ts with
  | [] => missing .expression []
  | .sign .openParen :: rest => do
    let ⟨e, rest, _⟩ ← expression rest
    let ⟨_, rest, _⟩ ← expect .closeParen .closeParen rest
    return ⟨e, rest, by simp only [List.length_cons]; omega⟩
  | .sign .openBracket :: rest => do
    let ⟨items, rest, _⟩ ← expressions .closeBracket rest
    return ⟨.array items, rest, by simp only [List.length_cons]; omega⟩
  | .sign .openBrace :: rest => do
    let ⟨es, rest, _⟩ ← entries rest
    return ⟨.object es, rest, by simp only [List.length_cons]; omega⟩
  | t :: rest =>
    match atom? t with
    | some e => .ok ⟨e, rest, by simp⟩
    | none => missing .expression (t :: rest)
termination_by 32 * ts.length

def accesses (e : Expr) (ts : List Token) : Result Expr (ts.length + 1) :=
  match ts with
  | .sign .dot :: [] => missing .propertyName []
  | .sign .dot :: t :: rest =>
    match propertyName? t with
    | none => missing .propertyName (t :: rest)
    | some property => do
      let ⟨e, rest, _⟩ ← accesses (.member e property) rest
      return ⟨e, rest, by simp only [List.length_cons]; omega⟩
  | .sign .openBracket :: rest => do
    let ⟨index, rest, _⟩ ← expression rest
    let ⟨_, rest, _⟩ ← expect .closeBracket .closeBracket rest
    let ⟨e, rest, _⟩ ← accesses (.index e index) rest
    return ⟨e, rest, by simp only [List.length_cons]; omega⟩
  | .sign .openParen :: rest => do
    let ⟨args, rest, _⟩ ← expressions .closeParen rest
    let ⟨e, rest, _⟩ ← accesses (.call e args) rest
    return ⟨e, rest, by simp only [List.length_cons]; omega⟩
  | ts => .ok ⟨e, ts, by omega⟩
termination_by 32 * ts.length

def unary (ts : List Token) : Result Expr ts.length :=
  match ts with
  | [] => missing .expression []
  | t :: rest =>
    match unaryOp? t with
    | some op => do
      let ⟨e, rest, _⟩ ← unary rest
      return ⟨.unary op e, rest, by simp only [List.length_cons]; omega⟩
    | none => do
      let ⟨e, rest, _⟩ ← primary (t :: rest)
      let ⟨e, rest, _⟩ ← accesses e rest
      return ⟨e, rest, by omega⟩
termination_by 32 * ts.length + 1
decreasing_by all_goals
  simp only [List.length_cons] at *
  omega

def operand (level : Level) (ts : List Token) : Result Expr ts.length :=
  match h : level.tighter with
  | some next =>
    have := Level.height_of_tighter h
    chain next ts
  | none => unary ts
termination_by 32 * ts.length + 2 * level.height + 2

/-- Operands of a level with operators between them, which associate to the left. -/
def chain (level : Level) (ts : List Token) : Result Expr ts.length := do
  let ⟨e, rest, _⟩ ← operand level ts
  let ⟨e, rest, _⟩ ← chainRest level e rest
  return ⟨e, rest, by omega⟩
termination_by 32 * ts.length + 2 * level.height + 3

def chainRest (level : Level) (left : Expr) (ts : List Token) : Result Expr (ts.length + 1) :=
  match ts with
  | [] => .ok ⟨left, [], by simp⟩
  | t :: rest =>
    match level.operator? t with
    | none => .ok ⟨left, t :: rest, by simp⟩
    | some join => do
      let ⟨right, rest, _⟩ ← operand level rest
      let ⟨e, rest, _⟩ ← chainRest level (join left right) rest
      return ⟨e, rest, by simp only [List.length_cons]; omega⟩
termination_by 32 * ts.length
decreasing_by
  · have := level.height_le
    simp only [List.length_cons]
    omega
  · simp only [List.length_cons]
    omega

def conditional (ts : List Token) : Result Expr ts.length := do
  let ⟨condition, rest, h⟩ ← chain .or ts
  match rest, h with
  | .sign .question :: rest, _ => do
    let ⟨thenExpr, rest, _⟩ ← expression rest
    let ⟨_, rest, _⟩ ← expect .colon .colon rest
    let ⟨elseExpr, rest, _⟩ ← expression rest
    return ⟨.conditional condition thenExpr elseExpr, rest,
      by simp only [List.length_cons] at *; omega⟩
  | rest, h => return ⟨condition, rest, h⟩
termination_by 32 * ts.length + 14
decreasing_by all_goals
  simp only [List.length_cons, Level.height] at *
  omega

def expression (ts : List Token) : Result Expr ts.length := do
  let ⟨target, rest, h⟩ ← conditional ts
  match rest, h with
  | [], h => return ⟨target, [], h⟩
  | t :: rest, h =>
    match assignment? t with
    | none => return ⟨target, t :: rest, h⟩
    | some op =>
      if target.isTarget then do
        let ⟨value, rest, _⟩ ← expression rest
        return ⟨.assign target op value, rest, by simp only [List.length_cons] at *; omega⟩
      else fail .invalidTarget (t :: rest)
termination_by 32 * ts.length + 15
decreasing_by
  · omega
  · simp only [List.length_cons] at *
    omega

def expressions (close : Sign) (ts : List Token) : Result (List Expr) ts.length :=
  match eat? close ts with
  | some ⟨_, rest, h⟩ => .ok ⟨[], rest, h⟩
  | none => do
    let ⟨e, rest, h⟩ ← expression ts
    match rest, h with
    | .sign .comma :: rest, _ => do
      let ⟨es, rest, _⟩ ← expressions close rest
      return ⟨e :: es, rest, by simp only [List.length_cons] at *; omega⟩
    | rest, _ => do
      let ⟨_, rest, _⟩ ← expect close (.listEnd close) rest
      return ⟨[e], rest, by omega⟩
termination_by 32 * ts.length + 16
decreasing_by
  · omega
  · simp only [List.length_cons] at *
    omega

def entry (ts : List Token) : Result (String × Expr) ts.length :=
  match ts with
  | [] => missing .propertyName []
  | t :: rest =>
    match entryKey? t with
    | none => missing .propertyName (t :: rest)
    | some key => do
      let ⟨_, rest, _⟩ ← expect .colon .colon rest
      let ⟨e, rest, _⟩ ← expression rest
      return ⟨(key, e), rest, by simp only [List.length_cons]; omega⟩
termination_by 32 * ts.length

def entries (ts : List Token) : Result (List (String × Expr)) ts.length :=
  match eat? .closeBrace ts with
  | some ⟨_, rest, h⟩ => .ok ⟨[], rest, h⟩
  | none => do
    let ⟨e, rest, h⟩ ← entry ts
    match rest, h with
    | .sign .comma :: rest, _ => do
      let ⟨es, rest, _⟩ ← entries rest
      return ⟨e :: es, rest, by simp only [List.length_cons] at *; omega⟩
    | rest, _ => do
      let ⟨_, rest, _⟩ ← expect .closeBrace (.listEnd .closeBrace) rest
      return ⟨[e], rest, by omega⟩
termination_by 32 * ts.length + 1
decreasing_by
  · omega
  · simp only [List.length_cons] at *
    omega

end

def condition (ts : List Token) : Result Expr ts.length := do
  let ⟨_, rest, _⟩ ← expect .openParen .openParen ts
  let ⟨e, rest, _⟩ ← expression rest
  let ⟨_, rest, _⟩ ← expect .closeParen .closeParen rest
  return ⟨e, rest, by omega⟩

def initializer (ts : List Token) : Result (Option Expr) (ts.length + 1) :=
  match ts with
  | .sign .assign :: rest => do
    let ⟨e, rest, _⟩ ← expression rest
    return ⟨some e, rest, by simp only [List.length_cons]; omega⟩
  | ts => .ok ⟨none, ts, by omega⟩

def bindings (ts : List Token) : Result (List (String × Option Expr)) ts.length :=
  match ts with
  | .name s :: rest => do
    let ⟨value, rest, h⟩ ← initializer rest
    match rest, h with
    | .sign .comma :: rest, _ => do
      let ⟨bs, rest, _⟩ ← bindings rest
      return ⟨(s, value) :: bs, rest, by simp only [List.length_cons] at *; omega⟩
    | rest, _ => return ⟨[(s, value)], rest, by simp only [List.length_cons]; omega⟩
  | ts => missing .variableName ts
termination_by ts.length
decreasing_by simp only [List.length_cons] at *; omega

def ended (f : α → Stmt) (p : Parsed α n) : Parsed Stmt (n + 1) where
  value := f p.value
  rest := dropSemicolon p.rest
  shorter := by
    have := length_dropSemicolon_le p.rest
    have := p.shorter
    omega

def single (s : Stmt) (ts : List Token) : Parsed Stmt (ts.length + 1) where
  value := s
  rest := dropSemicolon ts
  shorter := by
    have := length_dropSemicolon_le ts
    omega

mutual

def statement (ts : List Token) : Result Stmt ts.length :=
  match ts with
  | [] => missing .statement []
  | .keyword .letK :: rest => (bindings rest).map (ended (.declare false))
  | .keyword .varK :: rest => (bindings rest).map (ended (.declare false))
  | .keyword .constK :: rest => (bindings rest).map (ended (.declare true))
  | .keyword .returnK :: rest =>
    if endsReturn rest then .ok (single (.returns none) rest)
    else (expression rest).map (ended fun e => .returns (some e))
  | .keyword .breakK :: rest => .ok (single .breakLoop rest)
  | .keyword .continueK :: rest => .ok (single .continueLoop rest)
  | .keyword .throwK :: rest => (expression rest).map (ended .throws)
  | .keyword .ifK :: rest => do
    let ⟨c, rest, _⟩ ← condition rest
    let ⟨thenStmt, rest, h⟩ ← statement rest
    match rest, h with
    | .keyword .elseK :: rest, _ => do
      let ⟨elseStmt, rest, _⟩ ← statement rest
      return ⟨.ifElse c thenStmt (some elseStmt), rest, by simp only [List.length_cons] at *; omega⟩
    | rest, _ => return ⟨.ifElse c thenStmt none, rest, by simp only [List.length_cons]; omega⟩
  | .keyword .whileK :: rest => do
    let ⟨c, rest, _⟩ ← condition rest
    let ⟨body, rest, _⟩ ← statement rest
    return ⟨.whileLoop c body, rest, by simp only [List.length_cons]; omega⟩
  | .sign .openBrace :: rest => do
    let ⟨body, rest, _⟩ ← block rest
    return ⟨.block body, rest, by simp only [List.length_cons]; omega⟩
  | .sign .semicolon :: rest => .ok ⟨.empty, rest, by simp⟩
  | ts => do
    let ⟨e, rest, _⟩ ← expression ts
    return ⟨.expr e, dropSemicolon rest, by have := length_dropSemicolon_le rest; omega⟩
termination_by 2 * ts.length
decreasing_by all_goals
  simp only [List.length_cons] at *
  omega

def block (ts : List Token) : Result (List Stmt) ts.length :=
  match eat? .closeBrace ts with
  | some ⟨_, rest, h⟩ => .ok ⟨[], rest, h⟩
  | none =>
    if ts = [] then missing .closeBrace []
    else do
      let ⟨s, rest, _⟩ ← statement ts
      let ⟨body, rest, _⟩ ← block rest
      return ⟨s :: body, rest, by omega⟩
termination_by 2 * ts.length + 1

end

def program (ts : List Token) : Except Failure Program :=
  if ts = [] then .ok []
  else do
    let ⟨s, rest, _⟩ ← statement ts
    let body ← program rest
    return s :: body
termination_by ts.length

end Parser

end LiveDoc.Script
