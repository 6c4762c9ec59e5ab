import LiveDoc.Script.Operators
import LiveDoc.Script.Property
import LiveDoc.Script.Scope

namespace LiveDoc.Script

structure Locals where
  heap : Heap
  scopes : Scopes

abbrev Run := ExceptT Interrupt (StateM Locals)

structure Frame where
  this : Value
  /-- What the callers hold, and what the call itself does. -/
  held : List Ref
  /-- The rounds of one loop. -/
  fuel : Nat
  /-- The frames around this one, as the body counts them. -/
  depth : Nat
  call : Call

inductive Flow where
  | normal
  | returns (v : Value)
  | breaks
  | continues

namespace Run

def fail (e : RuntimeError) : Run α := throw (.error e)

def onHeap (act : HeapRun α) : Run α := fun s =>
  match act s.heap with
  | (result, heap) => (result, { s with heap })

def lookup (name : String) : Run Value := do
  match (← get).scopes.lookup name with
  | .ok v => return v
  | .error e => fail e

def onScopes (change : Scopes → Except RuntimeError Scopes) : Run Unit := do
  match change (← get).scopes with
  | .ok scopes => modify ({ · with scopes })
  | .error e => fail e

def inBlock (act : Run α) : Run α := fun s =>
  match act { s with scopes := [] :: s.scopes } with
  | (result, s) => (result, { s with scopes := s.scopes.tail })

def propertyName (v : Value) : Run String := do
  onHeap (.liftText v ((← get).heap.propertyName? v))

def applyBinary (op : BinaryOp) (a b : Value) : Run Value := do
  let h := (← get).heap
  onHeap (.liftText (h.textless a b) (op.result? h a b))

def getProperty (f : Frame) (depth : Nat) (held : List Ref) (object : Value) (name : String) :
    Run Value := do
  onHeap (.getProperty f.call depth (held ++ (← get).scopes.refs) object name)

def setProperty (f : Frame) (depth : Nat) (held : List Ref) (object : Value) (name : String)
    (v : Value) : Run Unit := do
  onHeap (.setProperty f.call depth (held ++ (← get).scopes.refs) object name v)

def call (f : Frame) (depth : Nat) (held : List Ref) (callee : Value) (args : List Value) :
    Run Value := do
  match callee with
  | .function g => onHeap (f.call depth (held ++ (← get).scopes.refs) g args)
  | other => fail (.notCallable other.typeName)

/-- The value to assign, which an operation makes out of the current value and the right side. -/
def assigned (held : List Ref) (op : Option BinaryOp) (current : Run Value)
    (right : List Ref → Run Value) : Run Value := do
  match op with
  | none => right held
  | some op =>
    let left ← current
    applyBinary op left (← right (hold held left))

def assignName (held : List Ref) (name : String) (op : Option BinaryOp)
    (right : List Ref → Run Value) : Run Value := do
  let v ← assigned held op (lookup name) right
  onScopes (Scopes.assign name v)
  return v

def assignProperty (f : Frame) (held : List Ref) (object : Value) (name : String)
    (op : Option BinaryOp) (right : List Ref → Run Value) : Run Value := do
  let held := hold held object
  -- the current value is read before the right side is evaluated
  let v ← assigned held op (getProperty f (f.depth + 1) held object name) right
  setProperty f (f.depth + 1) (hold held v) object name v
  return v

end Run

def LogicalOp.isDecidedBy (op : LogicalOp) (left : Value) : Bool :=
  match op with
  | .and => !left.isTruthy
  | .or => left.isTruthy

mutual

def eval (f : Frame) (held : List Ref) : Expr → Run Value
  | .number n => return .number n
  | .text s => return .text s
  | .bool b => return .bool b
  | .null => return .null
  | .undefined => return .undefined
  | .this => return f.this
  | .name s => Run.lookup s
  | .array items => do Run.onHeap (.alloc (.sequence (← evalAll f held items).toArray))
  | .object entries => do Run.onHeap (.alloc (.mapping (← evalEntries f held [] entries)))
  | .member object property => do
    Run.getProperty f (f.depth + 1) held (← eval f held object) property
  | .index object index => do
    let object ← eval f held object
    let name ← Run.propertyName (← eval f (hold held object) index)
    Run.getProperty f (f.depth + 1) held object name
  | .call callee args => do
    let callee ← eval f held callee
    Run.call f (f.depth + 1) held callee (← evalAll f (hold held callee) args)
  | .unary op operand => return op.apply (← eval f held operand)
  | .binary op left right => do
    let left ← eval f held left
    Run.applyBinary op left (← eval f (hold held left) right)
  | .logical op left right => do
    let left ← eval f held left
    if op.isDecidedBy left then return left else eval f (hold held left) right
  | .conditional condition thenExpr elseExpr => do
    if (← eval f held condition).isTruthy then eval f held thenExpr else eval f held elseExpr
  | .assign (.name s) op value => Run.assignName held s op (fun held => eval f held value)
  | .assign (.member object property) op value => do
    let object ← eval f held object
    Run.assignProperty f held object property op (fun held => eval f held value)
  | .assign (.index object index) op value => do
    let object ← eval f held object
    let name ← Run.propertyName (← eval f (hold held object) index)
    Run.assignProperty f held object name op (fun held => eval f held value)
  | .assign _ _ _ => Run.fail .invalidAssignmentTarget
termination_by structural e => e

def evalAll (f : Frame) (held : List Ref) : List Expr → Run (List Value)
  | [] => return []
  | e :: es => do
    let v ← eval f held e
    return v :: (← evalAll f (hold held v) es)
termination_by structural es => es

def evalEntries (f : Frame) (held : List Ref) (done : Entries) :
    List (String × Expr) → Run Entries
  | [] => return done
  | (key, e) :: rest => do
    let v ← eval f (done.values.foldl hold held) e
    evalEntries f held (done.put key v) rest
termination_by structural entries => entries

end

def loop (condition : Run Value) (body : Run Flow) : Nat → Run Flow
  | 0 => throw .outOfFuel
  | fuel + 1 => do
    if (← condition).isTruthy then
      match ← body with
      | .breaks => return .normal
      | .returns v => return .returns v
      | .normal | .continues => loop condition body fuel
    else return .normal

def declareAll (f : Frame) (isConst : Bool) : List (String × Option Expr) → Run Unit
  | [] => return
  | (name, init) :: rest => do
    let v ← init.elim (return .undefined) (eval f f.held)
    Run.onScopes (Scopes.declare name v isConst)
    declareAll f isConst rest

mutual

def exec (f : Frame) : Stmt → Run Flow
  | .declare isConst bindings => do
    declareAll f isConst bindings
    return .normal
  | .returns none => return .returns .undefined
  | .returns (some e) => return .returns (← eval f f.held e)
  | .ifElse condition thenStmt none => do
    if (← eval f f.held condition).isTruthy then exec f thenStmt else return .normal
  | .ifElse condition thenStmt (some elseStmt) => do
    if (← eval f f.held condition).isTruthy then exec f thenStmt else exec f elseStmt
  | .whileLoop condition body => loop (eval f f.held condition) (exec f body) f.fuel
  | .breakLoop => return .breaks
  | .continueLoop => return .continues
  | .throws e => do
    let v ← eval f f.held e
    let text ← Run.onHeap (.liftText v ((← get).heap.text? v))
    Run.fail (.thrown text)
  | .block body => Run.inBlock (execAll f body)
  | .expr e => do
    let _ ← eval f f.held e
    return .normal
  | .empty => return .normal
termination_by structural s => s

def execAll (f : Frame) : List Stmt → Run Flow
  | [] => return .normal
  | s :: rest => do
    match ← exec f s with
    | .normal => execAll f rest
    | flow => return flow
termination_by structural body => body

end

def Flow.answer : Flow → Except RuntimeError Value
  | normal => .ok .undefined
  | returns v => .ok v
  | breaks => .error (.strayControlFlow "break")
  | continues => .error (.strayControlFlow "continue")

def runBody (f : Frame) (scope : Scope) (body : Program) : HeapRun Value := fun heap =>
  match execAll f body ⟨heap, [scope]⟩ with
  | (.ok flow, s) => (flow.answer.mapError .error, s.heap)
  | (.error e, s) => (.error e, s.heap)

def enter (fuel : Nat) (call : Call) : Call := fun depth held g args => do
  let scope := Scope.ofParams [] g.params args
  -- an argument without a parameter has no variable, but it is there until the call returns
  let held := (args.drop g.params.length).foldl hold held
  let this := (← get).receiver (held ++ scope.refs) g
  runBody { this, held := hold held this, fuel, depth, call } scope g.definition.body

/-- Calls a function, with some room for the calls that are nested in this one. A call at a depth
that is not allowed is refused; calls from outside of all functions are at the depth of 0. -/
def invoke (fuel : Nat) (room : Nat) : Call := fun depth held g args =>
  if maxCallDepth ≤ depth then .fail .callDepthExceeded
  else
    match room with
    | 0 => throw .outOfFuel
    | room + 1 => enter fuel (invoke fuel room) depth held g args

def hostCall (fuel : Nat) : Call := invoke fuel maxCallDepth

end LiveDoc.Script
