import LiveDoc.Script.RuntimeError
import LiveDoc.Value.Heap

namespace LiveDoc.Script

structure Binding where
  value : Value
  isConst : Bool

abbrev Scope := Slots Binding

namespace Scope

/-- A scope of parameters. Missing arguments are undefined, and further ones have no name. -/
def ofParams (done : Scope) : List String → List Value → Scope
  | [], _ => done
  | name :: names, [] => ofParams (done.put name ⟨.undefined, false⟩) names []
  | name :: names, v :: vs => ofParams (done.put name ⟨v, false⟩) names vs

def refs (scope : Scope) : List Ref :=
  scope.values.flatMap (·.value.refs)

end Scope

abbrev Scopes := List Scope

namespace Scopes

def refs (scopes : Scopes) : List Ref :=
  scopes.flatMap Scope.refs

def find? (name : String) : Scopes → Option Binding
  | [] => none
  | scope :: outer =>
    match scope.get? name with
    | some binding => some binding
    | none => find? name outer

def lookup (scopes : Scopes) (name : String) : Except RuntimeError Value :=
  match find? name scopes with
  | some binding => .ok binding.value
  | none => .error (.undefinedVariable name)

/-- Declares a variable in the innermost scope, where only a constant cannot be declared again. -/
def declare (name : String) (value : Value) (isConst : Bool) : Scopes → Except RuntimeError Scopes
  | [] => .error (.undefinedVariable name)
  | scope :: outer =>
    if (scope.get? name).any (·.isConst) then .error (.redeclaration name)
    else .ok (scope.put name ⟨value, isConst⟩ :: outer)

def assign (name : String) (value : Value) : Scopes → Except RuntimeError Scopes
  | [] => .error (.undefinedVariable name)
  | scope :: outer =>
    match scope.get? name with
    | some binding =>
      if binding.isConst then .error (.constAssignment name)
      else .ok (scope.put name { binding with value } :: outer)
    | none => (assign name value outer).map (scope :: ·)

end Scopes

end LiveDoc.Script
