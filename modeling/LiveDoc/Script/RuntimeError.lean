namespace LiveDoc.Script

/-- How many calls may be open at once, those of getters and setters included. -/
def maxCallDepth : Nat := 100

inductive RuntimeError where
  | undefinedVariable (name : String)
  | constAssignment (name : String)
  | redeclaration (name : String)
  | notCallable (type : String)
  | invalidPropertyRead (property target : String)
  | invalidPropertyWrite (property type : String)
  | invalidAssignmentTarget
  | readOnly (property : String)
  | strayControlFlow (statement : String)
  | thrown (text : String)
  | callDepthExceeded
  | indexTooLarge (index length : Nat)
  deriving DecidableEq, Repr

def RuntimeError.message : RuntimeError → String
  | .undefinedVariable name => name ++ " is not defined"
  | .constAssignment name => "assignment to constant variable '" ++ name ++ "'"
  | .redeclaration name => "identifier '" ++ name ++ "' has already been declared"
  | .notCallable type => type ++ " is not a function"
  | .invalidPropertyRead property target =>
    "cannot read property '" ++ property ++ "' of " ++ target
  | .invalidPropertyWrite property type => "cannot set property '" ++ property ++ "' of " ++ type
  | .invalidAssignmentTarget => "invalid assignment target"
  | .readOnly property => "property '" ++ property ++ "' has a getter but no setter"
  | .strayControlFlow statement => statement ++ " outside of a loop"
  | .thrown text => "uncaught " ++ text
  | .callDepthExceeded => "maximum call depth of " ++ toString maxCallDepth ++ " exceeded"
  | .indexTooLarge index length =>
    "index " ++ toString index ++ " is too far past the end of a sequence of length " ++
      toString length

end LiveDoc.Script
