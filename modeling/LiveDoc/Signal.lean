import LiveDoc.Text.Trim

namespace LiveDoc

inductive Signal where
  | function (params : List String) (body : String)
  | inclusion (path : String)
  deriving DecidableEq, Repr

namespace Signal

open Text

inductive Kind where
  | function
  | inclusion
  deriving DecidableEq, Repr

def Kind.mark : Kind → String
  | .function => "__YAML_SCRIPT_FN__"
  | .inclusion => "__YAML_SCRIPT_INCLUDE__"

def functionHead (args : List Char) : List Char :=
  Kind.function.mark.toList ++ '(' :: args ++ [')']

def inclusionText (path : List Char) : List Char :=
  Kind.inclusion.mark.toList ++ ' ' :: path

def isNameStart (c : Char) : Bool :=
  c.isAlpha || c = '_' || c = '$'

def isNameRest (c : Char) : Bool :=
  isNameStart c || c.isDigit

/-- Letters of ASCII, digits, `_` and `$`, with no digit in front. -/
def isName : List Char → Bool
  | [] => false
  | c :: cs => isNameStart c && cs.all isNameRest

/-- The trimmed names between commas; a blank text has none. -/
def params? (args : List Char) : Option (List String) :=
  if args.all isBlank then some []
  else
    let names := (splitOn ',' args).map trim
    if names.all isName then some (names.map String.ofList) else none

def function? (rest : List Char) : Option Signal :=
  match rest with
  | '(' :: inner =>
    match inner.dropWhile (· ≠ ')') with
    | ')' :: body =>
      (params? (inner.takeWhile (· ≠ ')'))).map fun params => .function params (String.ofList body)
    | _ => none
  | _ => none

def inclusion? (rest : List Char) : Option Signal :=
  match rest with
  | [] => none
  | c :: _ =>
    let path := trim rest
    if isBlank c ∧ path ≠ [] then some (.inclusion (String.ofList path)) else none

/-- Fails with the kind of a signal that begins well and does not continue as it should. -/
def detect (text : String) : Except Kind (Option Signal) :=
  let body := trimStart text.toList
  match after? Kind.function.mark.toList body with
  | some rest =>
    match function? rest with
    | some signal => .ok (some signal)
    | none => .error .function
  | none =>
    match after? Kind.inclusion.mark.toList body with
    | some rest =>
      match inclusion? rest with
      | some signal => .ok (some signal)
      | none => .error .inclusion
    | none => .ok none

end Signal

end LiveDoc
