import LiveDoc.Yaml.Tag

namespace LiveDoc.Yaml

inductive Style where
  | plain
  | quoted
  | block
  deriving DecidableEq, Repr

inductive Token.Kind where
  | streamStart
  | streamEnd
  | version (major minor : Nat)
  | tagHandle (handle start : Bytes)
  | documentStart
  | documentEnd
  | blockSequenceStart
  | blockMappingStart
  | blockEnd
  | flowSequenceStart
  | flowSequenceEnd
  | flowMappingStart
  | flowMappingEnd
  | entry
  | flowEntry
  | key
  | value
  | alias (name : String)
  | anchor (name : String)
  | tag (handle suffix : Bytes)
  | scalar (text : String) (style : Style)
  deriving DecidableEq, Repr

structure Token where
  kind : Token.Kind
  start : Mark
  stop : Mark
  deriving DecidableEq, Repr

end LiveDoc.Yaml
