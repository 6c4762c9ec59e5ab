import LiveDoc.Yaml.Token

namespace LiveDoc.Yaml.Directive

/-- A part of a version: at most nine digits. -/
def versionPart (start : Mark) (c : Cursor) : Except Fault (Nat × Cursor) :=
  let (digits, next) := c.span Decimal.isDigit
  if 9 < digits.length then .error ((c.drop 9).fault .longVersion .versionDirective start)
  else
    match Decimal.natural? 10 digits with
    | some n => .ok (n, next)
    | none => .error (next.fault .versionNumber .versionDirective start)

def version (start : Mark) (c : Cursor) : Except Fault (Token.Kind × Cursor) := do
  let (major, next) ← versionPart start c.skipSpaces
  if next.rest.head? ≠ some '.' then throw (next.fault .versionDot .versionDirective start)
  let (minor, next) ← versionPart start (next.drop 1)
  return (.version major minor, next)

def tagHandle (start : Mark) (c : Cursor) : Except Fault (Token.Kind × Cursor) := do
  let (handle, next) ← Tag.handle .directive start c.skipSpaces
  if next.skipSpaces.mark = next.mark then
    throw (next.fault .blankAfterHandle .tagDirective start)
  let (octets, next) ← Tag.uri .directive true [] start next.skipSpaces
  if endsWord next.rest then return (.tagHandle handle octets, next)
  else throw (next.fault .blankOrBreak .tagDirective start)

def scan (c : Cursor) : Except Fault (Token × Cursor) := do
  let start := c.mark
  let (name, next) := (c.drop 1).span isWordChar
  if name = [] then throw (next.fault .directiveName .directive start)
  if !endsWord next.rest then throw (next.fault .directiveCharacter .directive start)
  let (kind, next) ←
    if name = ['Y', 'A', 'M', 'L'] then version start next
    else if name = ['T', 'A', 'G'] then tagHandle start next
    else throw (next.fault .unknownDirective .directive start)
  let rest := next.skipSpaces.skipComment
  if endsLine rest.rest then return (⟨kind, start, next.mark⟩, rest.skipBreak)
  else throw (rest.fault .commentOrBreak .directive start)

end LiveDoc.Yaml.Directive
