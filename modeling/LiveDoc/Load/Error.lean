import LiveDoc.Text.Quoted

namespace LiveDoc

inductive LoadError where
  /-- A token makes a pattern that is refused. -/
  | pattern (message : String)
  /-- The text is not valid YAML; a position of zero is unknown. -/
  | parse (message : String) (line column : Nat)
  | malformedFunction (value : String)
  | functionBody (message source : String)
  | malformedInclusion (value : String)
  | notFound (path : String)
  | unreadable (path : String)
  | cycle (chain : List String)
  | invalidAccessor (key : String)
  | unsupportedKey (key : String)
  deriving DecidableEq, Repr

def LoadError.message : LoadError → String
  | .pattern message => "invalid syntax configuration: " ++ message
  | .parse message line column =>
    "YAML parse error at line " ++ toString line ++ " column " ++ toString column ++ ": " ++ message
  | .malformedFunction value => "malformed function signal: " ++ Text.quoted value
  | .functionBody message source =>
    "invalid function body: " ++ message ++ " in " ++ Text.quoted source
  | .malformedInclusion value => "malformed include signal: " ++ Text.quoted value
  | .notFound path => "included file not found: " ++ path
  | .unreadable path => "failed to read " ++ path
  | .cycle chain => "include cycle detected: " ++ " -> ".intercalate chain
  | .invalidAccessor key => "accessor '" ++ key ++ "' must map to a function"
  | .unsupportedKey key => "unsupported mapping key: " ++ key

end LiveDoc
