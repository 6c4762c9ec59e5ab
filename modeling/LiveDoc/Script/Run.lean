import LiveDoc.Script.RuntimeError
import LiveDoc.Value.Liveness

namespace LiveDoc.Script

inductive Interrupt where
  | error (e : RuntimeError)
  /-- A loop took all the rounds that it was given, or calls all the room that there was. -/
  | outOfFuel
  /-- The text of a value was asked for that has none, as a sequence in it contains itself. -/
  | endlessText (v : Value)

/-- What a failing run has changed stays changed. -/
abbrev HeapRun := ExceptT Interrupt (StateM Heap)

/-- Calls a function at a depth with arguments, while the caller holds some containers. -/
abbrev Call := Nat → List Ref → Function → List Value → HeapRun Value

def hold (held : List Ref) (v : Value) : List Ref :=
  v.refs.foldr List.insert held

namespace HeapRun

def fail (e : RuntimeError) : HeapRun α := throw (.error e)

def liftText (v : Value) (made : Option α) : HeapRun α :=
  match made with
  | some a => return a
  | none => throw (.endlessText v)

def alloc (c : Container) : HeapRun Value := do
  let (r, h) := (← get).alloc c
  set h
  return .container r

end HeapRun

end LiveDoc.Script
