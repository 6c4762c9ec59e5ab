import LiveDoc.Load.Resolve
import LiveDoc.Script.Eval

namespace LiveDoc

open Script

/-- What a program has of live documents. Only the values that are kept under names keep containers
alive between two operations. -/
structure Session where
  heap : Heap := {}
  kept : Slots Value := []
  deriving Inhabited

/-- Operations of a session. What a failing one has changed stays changed. -/
abbrev Hosted := ExceptT Interrupt (StateM Session)

namespace Session

def roots (s : Session) : List Ref :=
  s.kept.values.flatMap Value.refs

def keep (s : Session) (name : String) (v : Value) : Session :=
  { s with kept := s.kept.put name v }

def drop (s : Session) (name : String) : Session :=
  { s with kept := s.kept.erase name }

def find? (s : Session) (name : String) : Option Value :=
  s.kept.get? name

def load (s : Session) (document : Load.Build Value) : Except LoadError (Value × Session) :=
  (document s.heap).map fun (v, heap) => (v, { s with heap })

def alloc (s : Session) (c : Container) : Value × Session :=
  match s.heap.alloc c with
  | (r, heap) => (.container r, { s with heap })

def compile (s : Session) (params : List String) (source : String) :
    Except SyntaxError (Function × Session) :=
  (s.heap.compile params source).map fun (f, heap) => (f, { s with heap })

def insert? (s : Session) (r : Ref) (key : String) (v : Value) : Option (Option Value × Session) :=
  (s.heap.insert? r key v).map fun (old, heap) => (old, { s with heap })

def remove? (s : Session) (r : Ref) (key : String) : Option (Option Value × Session) :=
  (s.heap.remove? r key).map fun (old, heap) => (old, { s with heap })

def push? (s : Session) (r : Ref) (v : Value) : Option (Nat × Session) :=
  (s.heap.push? r v).map fun (size, heap) => (size, { s with heap })

def receiver (s : Session) (held : Value) (f : Function) : Value :=
  s.heap.receiver (hold s.roots held) f

/-- Reads properties one after the other. Only the value that is read from is held, and what the
caller holds. -/
def readPath (call : Call) (held : List Ref) (v : Value) : List String → HeapRun Value
  | [] => return v
  | name :: path => do readPath call held (← HeapRun.getProperty call 0 held v name) path

def onHeap (act : List Ref → HeapRun α) : Hosted α := fun s =>
  match act s.roots s.heap with
  | (result, heap) => (result, { s with heap })

def read (fuel : Nat) (held v : Value) (path : List String) : Hosted Value :=
  onHeap fun roots => readPath (hostCall fuel) (hold roots held) v path

/-- Writes a property, a setter being called if there is one. The value is given away. -/
def write (fuel : Nat) (target : Value) (name : String) (v : Value) : Hosted Unit :=
  onHeap fun roots => HeapRun.setProperty (hostCall fuel) 0 roots target name v

def call (fuel : Nat) (target : Value) (args : List Value) : Hosted Value :=
  onHeap fun roots =>
    match target with
    | .function f => hostCall fuel 0 (args.foldl hold roots) f args
    | other => HeapRun.fail (.notCallable other.typeName)

def isSame? (s : Session) (a b : Value) : Option Bool :=
  match a, b with
  | .container r, .container q =>
    match s.heap.get? r, s.heap.get? q with
    | some (.mapping _), some (.mapping _) | some (.sequence _), some (.sequence _) =>
      some (decide (r = q))
    | _, _ => none
  | _, _ => none

def slot? (s : Session) (target : Value) (name : String) : Option Value :=
  match target with
  | .container r =>
    match s.heap.get? r with
    | some (.mapping entries) => entries.get? name
    | some (.sequence items) => (Decimal.index? name.toList).bind (items[·]?)
    | none => none
  | _ => none

end Session

end LiveDoc
