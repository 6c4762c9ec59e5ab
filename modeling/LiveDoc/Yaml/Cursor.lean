import LiveDoc.Yaml.Fault

namespace LiveDoc.Yaml

def isSpace (c : Char) : Bool :=
  c = ' ' || c = '\t'

def isBreak (c : Char) : Bool :=
  c = '\r' || c = '\n' || c = '\u0085' || c = '\u2028' || c = '\u2029'

def isWordChar (c : Char) : Bool :=
  c.isAlphanum || c = '_' || c = '-'

def endsWord : List Char → Bool
  | [] => true
  | c :: _ => isSpace c || isBreak c

def endsLine : List Char → Bool
  | [] => true
  | c :: _ => isBreak c

structure Cursor where
  rest : List Char
  mark : Mark := {}

namespace Cursor

def column (c : Cursor) : Nat := c.mark.column

def drop (c : Cursor) (n : Nat) : Cursor :=
  ⟨c.rest.drop n, c.mark.advance n⟩

def span (p : Char → Bool) (c : Cursor) : List Char × Cursor :=
  let taken := c.rest.takeWhile p
  (taken, ⟨c.rest.dropWhile p, c.mark.advance taken.length⟩)

def skipSpaces (c : Cursor) : Cursor := (c.span isSpace).2

def skipLine (c : Cursor) : Cursor := (c.span (fun ch => !isBreak ch)).2

def skipComment (c : Cursor) : Cursor :=
  if c.rest.head? = some '#' then c.skipLine else c

/-- Takes a line break. All breaks of ASCII and the next-line character count as a newline. -/
def takeBreak? (c : Cursor) : Option (Char × Cursor) :=
  match c.rest with
  | '\r' :: '\n' :: rest => some ('\n', ⟨rest, c.mark.newLine 2⟩)
  | ch :: rest =>
    if isBreak ch then
      let written := if ch = '\u2028' ∨ ch = '\u2029' then ch else '\n'
      some (written, ⟨rest, c.mark.newLine 1⟩)
    else none
  | [] => none

def skipBreak (c : Cursor) : Cursor :=
  match c.takeBreak? with
  | some (_, next) => next
  | none => c

def atDocumentMark (c : Cursor) : Bool :=
  c.column = 0 &&
    match c.rest with
    | '-' :: '-' :: '-' :: rest | '.' :: '.' :: '.' :: rest => endsWord rest
    | _ => false

def fault (c : Cursor) (problem : Problem) (activity : Activity) (start : Mark) : Fault :=
  .located problem c.mark (some (activity, start))

end Cursor

end LiveDoc.Yaml
