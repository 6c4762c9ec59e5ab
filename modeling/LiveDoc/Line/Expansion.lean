import LiveDoc.Config
import LiveDoc.Signal

namespace LiveDoc.Line

open Text

inductive Place where
  | key
  | item
  deriving DecidableEq, Repr

inductive Construct where
  | multiline
  | inline
  | inclusion
  deriving DecidableEq, Repr

/-- What is left of a text after each number of blanks it begins with, the shortest rest first. -/
def afterBlanks : List Char → List (List Char)
  | [] => [[]]
  | c :: cs => if isBlank c then afterBlanks cs ++ [c :: cs] else [c :: cs]

/-- The first place in the line where `close` stands and `finish` takes all that follows. -/
def upTo (close : List Char) (finish : List Char → Option α) :
    List Char → Option (List Char × α)
  | [] => ((after? close []).bind finish).map ([], ·)
  | c :: cs =>
    match (after? close (c :: cs)).bind finish with
    | some found => some ([], found)
    | none =>
      if c = '\n' then none
      else (upTo close finish cs).map fun (skipped, found) => (c :: skipped, found)

def arguments? (c : Config) (finish : List Char → Option α) (cs : List Char) :
    Option (List Char × α) :=
  (afterBlanks cs).findSome? fun rest =>
    (after? c.functionOpen.toList rest).bind (upTo c.functionClose.toList finish)

def onlyBlanks? (cs : List Char) : Option Unit :=
  if cs.all isBlank then some () else none

def oneLine? (cs : List Char) : Option (List Char) :=
  if '\n' ∈ cs then none else some cs

def path? (cs : List Char) : Option (List Char) :=
  match cs with
  | [] => none
  | c :: _ => if isBlank c then oneLine? (trim cs) else none

/-- The text to write for a construct that fills the rest of a line. -/
def Construct.written? (c : Config) (nextIndent : List Char) :
    Construct → List Char → Option (List Char)
  | .multiline, cs =>
    (arguments? c onlyBlanks? cs).map fun (args, _) =>
      '>' :: '\n' :: nextIndent ++ Signal.functionHead args
  | .inline, cs =>
    (arguments? c oneLine? cs).map fun (args, body) =>
      Signal.functionHead args ++ ' ' :: body
  | .inclusion, cs =>
    ((afterBlanks cs).findSome? fun rest =>
      (after? c.includeKey.toList rest).bind path?).map Signal.inclusionText

def keyEnd? (tail : List Char → Option α) (before rest : List Char) : Option (List Char × α) :=
  (oneLine? (trimEnd before.reverse)).bind fun key => (tail rest).map (key, ·)

/-- The first colon with a rest that `tail` takes; the text before it is the key, trimmed. -/
def keyed (tail : List Char → Option α) (before : List Char) : List Char → Option (List Char × α)
  | [] => none
  | c :: cs =>
    match if c = ':' then keyEnd? tail before cs else none with
    | some found => some found
    | none => keyed tail (c :: before) cs

def expand? (c : Config) (nextIndent : List Char) (construct : Construct) (place : Place)
    (line : List Char) : Option (List Char) :=
  let indent := indentation line
  let tail := construct.written? c nextIndent
  match place, trimStart line with
  | .key, body =>
    (keyed tail [] body).map fun (key, written) => indent ++ key ++ ':' :: ' ' :: written
  | .item, '-' :: body => (tail body).map fun written => indent ++ '-' :: ' ' :: written
  | .item, _ => none

/-- The order in which constructs are looked for. -/
def order : List (Construct × Place) :=
  [(.multiline, .key), (.multiline, .item), (.inline, .key), (.inline, .item),
    (.inclusion, .key), (.inclusion, .item)]

def expandOr (c : Config) (nextIndent : List Char) (line : List Char)
    (sought : Construct × Place) : List Char :=
  (expand? c nextIndent sought.1 sought.2 line).getD line

def expand (c : Config) (nextIndent line : List Char) : List Char :=
  order.foldl (expandOr c nextIndent) line

def expandLines (c : Config) : List (List Char) → List (List Char)
  | [] => []
  | [line] => [expand c [] line]
  | line :: next :: lines => expand c (indentation next) line :: expandLines c (next :: lines)

def expandText (c : Config) (text : String) : String :=
  String.ofList (joinWith ['\n'] (expandLines c (splitOn '\n' text.toList)))

end LiveDoc.Line
