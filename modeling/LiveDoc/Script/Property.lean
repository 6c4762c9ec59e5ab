import LiveDoc.Script.Run

namespace LiveDoc.Script

/-- How far behind the end of a sequence an element can be written. -/
def maxGap : Nat := 1024

namespace HeapRun

-- The getters and setters of what is read or written are called at the given depth.
variable (call : Call) (depth : Nat) (held : List Ref)

def readSlot : Option Value → HeapRun Value
  | some (.accessor ⟨some getter, _⟩) => call depth held getter []
  | some (.accessor ⟨none, _⟩) | none => return .undefined
  | some v => return v

def getElement (items : Array Value) (name : String) : HeapRun Value :=
  if name = "length" then return .ofNat items.size
  else
    match Decimal.index? name.toList with
    | some i => readSlot call depth held items[i]?
    | none => return .undefined

def textProperty (s : String) (name : String) : Value :=
  if name = "length" then .ofNat s.length
  else
    match (Decimal.index? name.toList).bind (s.toList[·]?) with
    | some c => .text c.toString
    | none => .undefined

def getProperty (object : Value) (name : String) : HeapRun Value := do
  match object with
  | .container r =>
    match (← get).get? r with
    | some (.mapping entries) => readSlot call depth (hold held object) (entries.get? name)
    | some (.sequence items) => getElement call depth (hold held object) items name
    | none => return .undefined
  | .text s => return textProperty s name
  | .undefined => fail (.invalidPropertyRead name "undefined")
  | .null => fail (.invalidPropertyRead name "null")
  | _ => return .undefined

def writeAccessor (a : Accessor) (name : String) (v : Value) : HeapRun Unit :=
  match a.setter with
  | some setter => do let _ ← call depth held setter [v]
  | none => fail (.readOnly name)

/-- The items with one of them written, and undefined ones in the gap before it. -/
def writeAt (items : Array Value) (i : Nat) (v : Value) : Array Value :=
  if i < items.size then items.setIfInBounds i v
  else (items ++ Array.replicate (i - items.size) Value.undefined).push v

def setEntry (r : Ref) (entries : Entries) (name : String) (v : Value) : HeapRun Unit :=
  match entries.get? name with
  | some (.accessor a) => writeAccessor call depth held a name v
  | _ => modify (·.set r (.mapping (entries.put name v)))

def setElement (r : Ref) (items : Array Value) (i : Nat) (v : Value) : HeapRun Unit :=
  match items[i]? with
  | some (.accessor a) => writeAccessor call depth held a (toString i) v
  | _ =>
    if items.size + maxGap < i then fail (.indexTooLarge i items.size)
    else modify (·.set r (.sequence (writeAt items i v)))

def setProperty (object : Value) (name : String) (v : Value) : HeapRun Unit := do
  let invalid : HeapRun Unit := fail (.invalidPropertyWrite name object.typeName)
  match object with
  | .container r =>
    match (← get).get? r with
    | some (.mapping entries) => setEntry call depth (hold held object) r entries name v
    | some (.sequence items) =>
      match Decimal.index? name.toList with
      | some i => setElement call depth (hold held object) r items i v
      | none => invalid
    | none => invalid
  | _ => invalid

end HeapRun

end LiveDoc.Script
