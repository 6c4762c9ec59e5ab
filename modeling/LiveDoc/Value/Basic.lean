import LiveDoc.Script.Program

namespace LiveDoc

structure Ref where
  index : Nat
  deriving DecidableEq, Repr

theorem Ref.eq_of_index {r s : Ref} (h : r.index = s.index) : r = s := by
  cases r
  cases s
  cases h
  rfl

/-- A compiled function. Two functions are the same if their definitions have one number. -/
structure Definition where
  number : Nat
  params : List String
  source : String
  body : Script.Program

/-- A definition with the container it is bound to, which it does not keep alive. -/
structure Function where
  definition : Definition
  receiver : Option Ref := none

namespace Function

def params (f : Function) : List String := f.definition.params

def source (f : Function) : String := f.definition.source

def bind (f : Function) (receiver : Ref) : Function := { f with receiver := some receiver }

def isSame (f g : Function) : Bool := f.definition.number = g.definition.number

end Function

structure Accessor where
  getter : Option Function := none
  setter : Option Function := none

inductive Value where
  | undefined
  | null
  | bool (b : Bool)
  | number (n : Number)
  | text (s : String)
  | container (r : Ref)
  | function (f : Function)
  | accessor (a : Accessor)
  deriving Inhabited

namespace Value

def refs : Value → List Ref
  | container r => [r]
  | _ => []

/-- Whether a value has no part in the heap. -/
def IsData : Value → Prop
  | container _ | function _ | accessor _ => False
  | _ => True

def ofNat (n : Nat) : Value := .number (.int (.ofInt n))

def isUndefined : Value → Bool
  | undefined => true
  | _ => false

def isNull : Value → Bool
  | null => true
  | _ => false

def typeName : Value → String
  | undefined => "undefined"
  | bool _ => "boolean"
  | number _ => "number"
  | text _ => "string"
  | function _ => "function"
  | null | container _ | accessor _ => "object"

def isTruthy : Value → Bool
  | undefined | null => false
  | bool b => b
  | number n => !n.isNaN && !n.isZero
  | text s => s ≠ ""
  | _ => true

end Value

end LiveDoc
