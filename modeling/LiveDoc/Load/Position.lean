import LiveDoc.Decimal.Reading
import LiveDoc.Load.Error
import LiveDoc.Text.Trim
import LiveDoc.Yaml.Document

namespace LiveDoc.Load

open Text

def digits? (cs : List Char) : Option (List Char × List Char) :=
  match cs.takeWhile isDecimalDigit with
  | [] => none
  | digits => some (digits, cs.dropWhile isDecimalDigit)

def mention? (cs : List Char) : Option (List Char × List Char × List Char) := do
  let (line, rest) ← (after? "at line ".toList cs).bind digits?
  let (column, rest) ← (after? " column ".toList rest).bind digits?
  return (line, column, rest)

/-- A number of 32 bits, and zero for all others. -/
def wordOrZero (digits : List Char) : Nat :=
  match Decimal.natural? 10 digits with
  | some n => if n < Nat.pow 2 32 then n else 0
  | none => 0

/-- The line and the column that are mentioned first; zeros if none are. -/
def firstPosition : List Char → Nat × Nat
  | [] => (0, 0)
  | c :: cs =>
    match mention? (c :: cs) with
    | some (line, column, _) => (wordOrZero line, wordOrZero column)
    | none => firstPosition cs

def isEnding (cs : List Char) : Bool :=
  cs.head?.any isBlank &&
    match mention? (trimStart cs) with
    | some (_, _, rest) => rest.isEmpty
    | none => false

def withoutEnding : List Char → List Char
  | [] => []
  | c :: cs => if isEnding (c :: cs) then [] else c :: withoutEnding cs

def parseError (message : String) : LoadError :=
  let (line, column) := firstPosition message.toList
  .parse (String.ofList (withoutEnding message.toList)) line column

/-- Reads plain YAML, or says what is wrong with it. -/
abbrev Reader := String → Except String Yaml.Tree

namespace Reader

def yaml : Reader := fun text => (Yaml.Tree.ofText text).mapError (·.text)

def tree (reader : Reader) (text : String) : Except LoadError Yaml.Tree :=
  (reader text).mapError parseError

end Reader

def tree (text : String) : Except LoadError Yaml.Tree :=
  Reader.yaml.tree text

end LiveDoc.Load
