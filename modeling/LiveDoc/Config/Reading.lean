import LiveDoc.Config
import LiveDoc.Yaml.Document

namespace LiveDoc.Overrides

open Yaml

def floatName (x : Float) : String :=
  match Decimal.Binary.ofFloat x with
  | .nan => "NaN"
  | .infinite negative => if negative then "-inf" else "inf"
  | .finite negative m q => (⟨.up, none, true⟩ : Decimal.Layout).finite negative m q

def kindName : Tree → String
  | .null => "unit value"
  | .bool b => "boolean \x60" ++ toString b ++ "\x60"
  | .int n => "integer \x60" ++ Tree.intText n ++ "\x60"
  | .float x => "floating point \x60" ++ floatName x ++ "\x60"
  | .string s => "string " ++ Text.quoted s
  | .sequence _ => "sequence"
  | .mapping _ | .tagged .. => "map"

def wrongKind (event : Linked) (expected : String) : Reason :=
  match event with
  | .event (.scalar properties text style) =>
    match Document.scalarValue false properties.tag text style with
    | .ok tree => .wrongType (kindName tree) expected
    | .error mismatch => .ofMismatch expected mismatch
  | .event (.sequenceStart _) => .wrongType "sequence" expected
  | _ => .wrongType "map" expected

def target (d : Document) : Reader (Linked × Mark × Nat) := do
  let (event, mark) ← d.take
  let next := (← get).next
  match event with
  | .alias anchor =>
    d.jump anchor
    let (event, mark) ← d.take
    return (event, mark, next)
  | _ => return (event, mark, next)

def scalarText (d : Document) (path : Path) (expected : String) : Reader String := do
  let (event, mark, next) ← target d
  match event with
  | .event (.scalar _ text _) =>
    modify fun p => { p with next }
    return text
  | event => throw (.invalid (wrongKind event expected) mark path)

def isAbsent (mark : Mark) (properties : Properties) (text : String) (style : Style) :
    Except Error Bool :=
  if style ≠ .plain then .ok false
  else if properties.tag.isNone then .ok (text = "" ∨ Resolution.isNull text)
  else if Document.coreTag? properties.tag = some "tag:yaml.org,2002:null" then
    if Resolution.isNull text then .ok true
    else
      .error (.invalid (.wrongValue ("string " ++ Text.quoted text) "null") mark .root)
  else .ok false

def token (d : Document) (mark : Mark) (name : String) : Reader (Option String) := do
  let before ← get
  let (event, _, next) ← target d
  let absent ← match event with
    | .event (.scalar properties text style) => isAbsent mark properties text style
    | _ => pure false
  if absent then
    modify fun p => { p with next }
    return none
  else
    set before
    return some (← scalarText d (.entry .root name) "a string")

def skip (d : Document) : Nat → Nat → Reader Unit
  | 0, _ => throw d.endError
  | fuel + 1, depth => do
    let depth := match (← d.take).1 with
      | .event (.sequenceStart _) | .event (.mappingStart _) => depth + 1
      | .event .sequenceEnd | .event .mappingEnd => depth - 1
      | _ => depth
    if depth = 0 then return () else skip d fuel depth

def field? : String → Option (Option String → Overrides → Overrides)
  | "functionOpen" => some fun t o => { o with functionOpen := t }
  | "functionClose" => some fun t o => { o with functionClose := t }
  | "getKey" => some fun t o => { o with getKey := t }
  | "setKey" => some fun t o => { o with setKey := t }
  | "includeKey" => some fun t o => { o with includeKey := t }
  | _ => none

/-- Reads entries. Each token may be named once; other names are passed over. -/
def entries (d : Document) (mark : Mark) : Nat → List String → Overrides → Reader Overrides
  | 0, _, _ => throw d.endError
  | fuel + 1, named, o => do
    match (← d.peek).1 with
    | .event .mappingEnd => do
      let _ ← d.take
      return o
    | _ =>
      let name ← scalarText d .root "field identifier"
      match field? name with
      | none => do
        skip d d.events.size 0
        entries d mark fuel named o
      | some change => do
        if named.contains name then throw (.invalid (.duplicateField name) mark .root)
        let text ← token d mark name
        entries d mark fuel (name :: named) (change text o)

def root (d : Document) : Reader Overrides := do
  let (event, mark) ← d.take
  match event with
  | .event (.mappingStart _) => entries d mark (d.events.size + 1) [] {}
  | .event (.scalar _ "" .plain) => return {}
  | event => throw (.invalid (wrongKind event "struct SyntaxOverrides") mark .root)

/-- Reads overrides from a YAML mapping; a blank text changes nothing. -/
def ofYaml (text : String) : Except Yaml.Error Overrides :=
  if text.toList.all Text.isBlank then .ok {} else Document.read text {} root

end LiveDoc.Overrides
