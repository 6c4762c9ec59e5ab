import LiveDoc.Text.Quoted
import LiveDoc.Text.Trim
import LiveDoc.Value.Heap

namespace LiveDoc

def Function.text (f : Function) : String :=
  "(" ++ ", ".intercalate f.params ++ ") " ++ String.ofList (Text.trim f.source.toList)

namespace Heap

/-- The text of a value that nests at most `depth` sequences. Missing values in a sequence are
blank, and mappings all look alike. -/
def textIn (h : Heap) (depth : Nat) : Value → Option String
  | .undefined => some "undefined"
  | .null => some "null"
  | .bool b => some (toString b)
  | .number n => some n.text
  | .text s => some s
  | .function f => some f.text
  | .accessor _ => some "[object Object]"
  | .container r =>
    match h.get? r with
    | some (.sequence items) =>
      match depth with
      | 0 => none
      | depth + 1 =>
        let item (v : Value) := if v.isUndefined || v.isNull then some "" else textIn h depth v
        (items.toList.mapM item).map ",".intercalate
    | _ => some "[object Object]"

/-- The text of a value; none if a sequence in it contains itself. -/
def text? (h : Heap) (v : Value) : Option String :=
  h.textIn h.size v

end Heap

def Function.shown (f : Function) : String :=
  "Function(" ++ ", ".intercalate f.params ++ ")"

def shownFunction : Option Function → String
  | some f => "Some(" ++ f.shown ++ ")"
  | none => "None"

def Accessor.shown (a : Accessor) : String :=
  "Accessor \x7b getter: " ++ shownFunction a.getter ++ ", setter: " ++ shownFunction a.setter ++
    " \x7d"

namespace Heap

def shownIn (h : Heap) (depth : Nat) : Value → Option String
  | .undefined => some "Undefined"
  | .null => some "Null"
  | .bool b => some ("Bool(" ++ toString b ++ ")")
  | .number n => some ("Number(" ++ n.text ++ ")")
  | .text s => some ("String(" ++ Text.quoted s ++ ")")
  | .function f => some f.shown
  | .accessor a => some a.shown
  | .container r =>
    match h.get? r, depth with
    | none, _ => some "Undefined"
    | _, 0 => none
    | some (.sequence items), depth + 1 => do
      let items ← items.toList.mapM (shownIn h depth)
      return "[" ++ ", ".intercalate items ++ "]"
    | some (.mapping entries), depth + 1 => do
      let entry (e : String × Value) := (shownIn h depth e.2).map (Text.quoted e.1 ++ ": " ++ ·)
      let entries ← entries.mapM entry
      return "\x7b" ++ ", ".intercalate entries ++ "\x7d"

def shown? (h : Heap) (v : Value) : Option String :=
  h.shownIn h.size v

end Heap

end LiveDoc
