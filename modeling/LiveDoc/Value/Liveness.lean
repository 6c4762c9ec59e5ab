import LiveDoc.Value.Heap

namespace LiveDoc.Heap

abbrev Marks := Array Bool

def mark (marks : Marks) (r : Ref) : Marks :=
  marks.setIfInBounds r.index true

def isMarked (marks : Marks) (r : Ref) : Bool :=
  marks.getD r.index false

def markHeld (h : Heap) (marks next : Marks) (index : Nat) : Marks :=
  match h.containers[index]? with
  | some c => if marks.getD index false then c.refs.foldl mark next else next
  | none => next

def supported (h : Heap) (roots : List Ref) (marks : Marks) : Marks :=
  (List.range h.size).foldl (h.markHeld marks) (roots.foldl mark (Array.replicate h.size false))

/-- Unmarks unsupported containers until all marked ones are supported. -/
def settle (h : Heap) (roots : List Ref) : Nat → Marks → Marks
  | 0, marks => marks
  | fuel + 1, marks =>
    let next := h.supported roots marks
    if next = marks then marks else settle h roots fuel next

/-- Each round but the last unmarks a container, so there are no more rounds than containers. -/
def alive (h : Heap) (roots : List Ref) : Marks :=
  h.settle roots (h.size + 1) (Array.replicate h.size true)

def visit (h : Heap) (state : Marks × List Ref) (r : Ref) : Marks × List Ref :=
  if isMarked state.1 r then state
  else (mark state.1 r, ((h.get? r).elim [] Container.refs) ++ state.2)

def spread (h : Heap) : Nat → Marks → List Ref → Marks
  | 0, marks, _ => marks
  | _, marks, [] => marks
  | fuel + 1, marks, r :: rs =>
    match (r :: rs).foldl h.visit (marks, []) with
    | (marks, next) => spread h fuel marks next

/-- Every step but the last marks a container, so there are no more steps than containers. -/
def reachable (h : Heap) (roots : List Ref) : Marks :=
  h.spread (h.size + 1) (Array.replicate h.size false) roots

/-- What can be reached is alive, and that is quickly found. -/
def isAlive (h : Heap) (roots : List Ref) (r : Ref) : Bool :=
  roots.contains r || isMarked (h.reachable roots) r || isMarked (h.alive roots) r

/-- The value of `this` in a function: its receiver, as long as that is alive. -/
def receiver (h : Heap) (roots : List Ref) (f : Function) : Value :=
  match f.receiver with
  | some r => if h.isAlive roots r then .container r else .undefined
  | none => .undefined

end LiveDoc.Heap
