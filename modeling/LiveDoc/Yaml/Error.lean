import LiveDoc.Text.Quoted
import LiveDoc.Yaml.Fault
import LiveDoc.Yaml.Resolution

namespace LiveDoc.Yaml

inductive Path where
  | root
  | item (parent : Path) (index : Nat)
  | entry (parent : Path) (key : String)
  /-- Under a key that is not a scalar. -/
  | unnamed (parent : Path)

def Path.text : Path → String
  | root => "."
  | item parent index => parent.text ++ "[" ++ toString index ++ "]"
  | entry root key => key
  | entry parent key => parent.text ++ "." ++ key
  | unnamed root => "?"
  | unnamed parent => parent.text ++ ".?"

inductive Reason where
  | duplicateKey (key : Tree)
  | duplicateField (name : String)
  | wrongType (found expected : String)
  | wrongValue (found expected : String)

def duplicateText : Tree → String
  | .null => "with null key"
  | .bool b => "with key \x60" ++ toString b ++ "\x60"
  | .int n => "with key " ++ Tree.intText n
  | .float x => "with key " ++ Tree.floatText x
  | .string s => "with key " ++ Text.quoted s
  | .sequence _ | .mapping _ | .tagged .. => "in YAML map"

def Reason.text : Reason → String
  | duplicateKey key => "duplicate entry " ++ duplicateText key
  | duplicateField name => "duplicate field \x60" ++ name ++ "\x60"
  | wrongType found expected => "invalid type: " ++ found ++ ", expected " ++ expected
  | wrongValue found expected => "invalid value: " ++ found ++ ", expected " ++ expected

def Reason.ofMismatch (expected : String) : Resolution.Mismatch → Reason
  | .wide n =>
    let width := if n < 0 then "i128" else "u128"
    .wrongType ("integer \x60" ++ Tree.intText n ++ "\x60 as " ++ width) expected
  | .wrong text demanded => .wrongValue ("string " ++ Text.quoted text) demanded

inductive Error where
  | fault (fault : Fault)
  | unknownAnchor (mark : Mark)
  | tooManyAliases
  | tooDeep (mark : Mark)
  | severalDocuments
  | invalid (reason : Reason) (mark : Mark) (path : Path)

def Error.text : Error → String
  | fault f => f.text
  | unknownAnchor mark => "unknown anchor" ++ mark.suffix
  | tooManyAliases => "repetition limit exceeded"
  | tooDeep mark => "recursion limit exceeded" ++ mark.suffix
  | severalDocuments =>
    "deserializing from YAML containing more than one document is not supported"
  | invalid reason mark .root => reason.text ++ mark.suffix
  | invalid reason mark path => path.text ++ ": " ++ reason.text ++ mark.suffix

end LiveDoc.Yaml
