import LiveDoc.Value.Heap

namespace LiveDoc

def sameFunction? : Option Function → Option Function → Bool
  | some f, some g => f.isSame g
  | none, none => true
  | _, _ => false

def Accessor.isSame (a b : Accessor) : Bool :=
  sameFunction? a.getter b.getter && sameFunction? a.setter b.setter

namespace Heap

def allM? (test : α → Option Bool) : List α → Option Bool
  | [] => some true
  | a :: as => do if ← test a then allM? test as else return false

/-- Equality of values that nest at most `depth` pairs of containers. The order of slots does not
matter. -/
def equalIn (h : Heap) : Nat → Value → Value → Option Bool
  | _, .undefined, .undefined => some true
  | _, .null, .null => some true
  | _, .bool a, .bool b => some (a = b)
  | _, .number a, .number b => some (a.equals b)
  | _, .text a, .text b => some (a = b)
  | _, .function f, .function g => some (f.isSame g)
  | _, .accessor a, .accessor b => some (a.isSame b)
  | depth, .container r, .container s =>
    if r = s then some true
    else
      match h.get? r, h.get? s, depth with
      | some (.sequence as), some (.sequence bs), depth + 1 =>
        if as.size = bs.size then
          allM? (fun p => equalIn h depth p.1 p.2) (as.toList.zip bs.toList)
        else some false
      | some (.mapping as), some (.mapping bs), depth + 1 =>
        let test (a : String × Value) :=
          match bs.get? a.1 with
          | some b => equalIn h depth a.2 b
          | none => some false
        if as.length = bs.length then allM? test as else some false
      | some (.sequence _), some (.sequence _), 0 => none
      | some (.mapping _), some (.mapping _), 0 => none
      | _, _, _ => some false
  | _, _, _ => some false

/-- Equality by contents; none if it is never decided, because of values that contain themselves. -/
def equal? (h : Heap) (a b : Value) : Option Bool :=
  h.equalIn (h.size * h.size + 1) a b

end Heap

end LiveDoc
