import LiveDoc.Yaml.Error
import LiveDoc.Yaml.Event

namespace LiveDoc.Yaml

/-- An event, where an alias has the number of its anchor. -/
inductive Linked where
  | alias (anchor : Nat)
  | event (event : Event)

structure Document where
  events : Array (Linked × Mark)
  anchors : List (Nat × Nat)
  stop : Option Error
  isFollowed : Bool

/-- The anchors met so far. The number of an anchor is the count of the names before it, so that
the anchor after a repeated name has the same number. -/
structure Anchors where
  names : List (String × Nat) := []
  places : List (Nat × Nat) := []

def Anchors.add (a : Anchors) (place : Nat) : Option String → Anchors
  | none => a
  | some name =>
    let number := a.names.length
    let others := a.names.filter (·.1 ≠ name)
    ⟨(name, number) :: others, (number, place) :: a.places⟩

def Event.anchor? : Event → Option String
  | .scalar properties .. | .sequenceStart properties | .mappingStart properties =>
    properties.anchor
  | _ => none

def link (anchors : Anchors) (linked : Array (Linked × Mark)) :
    List Located → Array (Linked × Mark) × Anchors × Option Error
  | [] => (linked, anchors, none)
  | (.alias name, mark) :: events =>
    match anchors.names.lookup name with
    | some number => link anchors (linked.push (.alias number, mark)) events
    | none => (linked, anchors, some (.unknownAnchor mark))
  | (event, mark) :: events =>
    link (anchors.add linked.size event.anchor?) (linked.push (.event event, mark)) events

def Document.ofOutline (o : Outline) (events : List Located) : Document :=
  let (linked, anchors, unknown) := link {} #[] events
  let stop := unknown.orElse fun _ => o.fault.map .fault
  ⟨linked, anchors.places, stop, o.isFollowed⟩

structure Position where
  next : Nat := 0
  aliasCount : Nat := 0

abbrev Reader := StateT Position (Except Error)

namespace Document

structure Place where
  path : Path := .root
  depth : Nat := 128
  isTagged : Bool := false

def Place.child (p : Place) (path : Path) : Place :=
  { path, depth := p.depth - 1 }

def endError (d : Document) : Error :=
  d.stop.getD .severalDocuments

def peek (d : Document) : Reader (Linked × Mark) := do
  match d.events[(← get).next]? with
  | some located => return located
  | none => throw d.endError

def take (d : Document) : Reader (Linked × Mark) := do
  let located ← d.peek
  modify fun p => { p with next := p.next + 1 }
  return located

/-- Moves to the node of an anchor. The aliases followed are limited by the size of the document. -/
def jump (d : Document) (anchor : Nat) : Reader Unit := do
  let count := (← get).aliasCount + 1
  if d.events.size * 100 < count then throw .tooManyAliases
  match d.anchors.lookup anchor with
  | some place => set (⟨place, count⟩ : Position)
  | none => throw d.endError

def localTag? : Option Bytes → Option String
  | some (33 :: []) => some "!"
  | some (33 :: octets) => Text.ofUtf8? octets
  | _ => none

def coreTag? (tag : Option Bytes) : Option String :=
  tag.bind Text.ofUtf8?

def isLocal : Option Bytes → Bool
  | some (33 :: _) => true
  | _ => false

/-- The value of a scalar. A tag that is not one of the core stands for text, unless it is local. -/
def scalarValue (isTagged : Bool) (tag : Option Bytes) (text : String) (style : Style) :
    Except Resolution.Mismatch Tree :=
  let untagged := if style = .plain then Resolution.plain text else .ok (.string text)
  if isTagged ∨ tag.isNone then untagged
  else
    match (coreTag? tag).bind (Resolution.core? · text) with
    | some value => value
    | none => if isLocal tag then untagged else .ok (.string text)

def scalar (place : Place) (mark : Mark) (tag : Option Bytes) (text : String) (style : Style) :
    Reader Tree :=
  match scalarValue place.isTagged tag text style with
  | .ok tree => return tree
  | .error mismatch =>
    throw (.invalid (.ofMismatch "any YAML value" mismatch) mark place.path)

def Place.under (p : Place) : Linked → Place
  | .event (.scalar _ text _) => p.child (.entry p.path text)
  | _ => p.child (.unnamed p.path)

def sameKey? (entries : List (Tree × Tree)) (key : Tree) : Option Tree :=
  (entries.find? fun entry => entry.1.same key).map (·.1)

def withLocalTag (place : Place) (tag : Option Bytes) (node : Place → Reader Tree) : Reader Tree :=
  match if place.isTagged then none else localTag? tag with
  | some text => return .withTag text (← node { place with isTagged := true })
  | none => node place

mutual

def node (d : Document) : Nat → Place → Reader Tree
  | 0, _ => throw .tooManyAliases
  | fuel + 1, place => do
    let (linked, mark) ← d.take
    match linked with
    | .alias anchor =>
      let next := (← get).next
      d.jump anchor
      let tree ← d.node fuel { place with isTagged := false }
      modify fun p => { p with next }
      return tree
    | .event (.scalar properties text style) =>
      withLocalTag place properties.tag fun place =>
        scalar place mark properties.tag text style
    | .event (.sequenceStart properties) =>
      withLocalTag place properties.tag fun place => do
        if place.depth = 0 then throw (.tooDeep mark)
        return .sequence (← d.items fuel place 0)
    | .event (.mappingStart properties) =>
      withLocalTag place properties.tag fun place => do
        if place.depth = 0 then throw (.tooDeep mark)
        return .mapping (← d.entries fuel place mark [])
    | .event _ => throw d.endError

def items (d : Document) : Nat → Place → Nat → Reader (List Tree)
  | 0, _, _ => throw .tooManyAliases
  | fuel + 1, place, index => do
    match (← d.peek).1 with
    | .event .sequenceEnd => do
      let _ ← d.take
      return []
    | _ =>
      let item ← d.node fuel (place.child (.item place.path index))
      return item :: (← d.items fuel place (index + 1))

def entries (d : Document) : Nat → Place → Mark → List (Tree × Tree) → Reader (List (Tree × Tree))
  | 0, _, _, _ => throw .tooManyAliases
  | fuel + 1, place, mark, before => do
    let (linked, _) ← d.peek
    match linked with
    | .event .mappingEnd => do
      let _ ← d.take
      return before.reverse
    | _ =>
      let key ← d.node fuel { place with depth := place.depth - 1 }
      if let some earlier := sameKey? before.reverse key then
        throw (.invalid (.duplicateKey earlier) mark place.path)
      let value ← d.node fuel (place.under linked)
      d.entries fuel place mark ((key, value) :: before)

end

/-- Enough steps for a document: no path through it is longer. -/
def fuel (d : Document) : Nat := 300 * (d.events.size + 2)

def root (d : Document) : Reader Tree := d.node d.fuel {}

def read (text : String) (empty : α) (reader : Document → Reader α) : Except Error α := do
  let o := Outline.ofText text.toList
  match o.events with
  | none => return empty
  | some events =>
    let d := Document.ofOutline o events
    let (value, _) ← (reader d).run {}
    match d.stop with
    | some error => throw error
    | none => if d.isFollowed then throw .severalDocuments else return value

end Document

def Tree.ofText (text : String) : Except Error Tree :=
  Document.read text .null Document.root

end LiveDoc.Yaml
