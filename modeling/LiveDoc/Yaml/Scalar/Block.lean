import LiveDoc.Decimal.Reading
import LiveDoc.Yaml.Cursor

namespace LiveDoc.Yaml.Block

inductive Chomp where
  | strip
  | clip
  | keep
  deriving DecidableEq

def chomp? (c : Cursor) : Option Chomp :=
  match c.rest.head? with
  | some '+' => some .keep
  | some '-' => some .strip
  | _ => none

def chompOf (c : Cursor) : Chomp × Cursor :=
  match chomp? c with
  | some chomp => (chomp, c.drop 1)
  | none => (.clip, c)

def increment (start : Mark) (c : Cursor) : Except Fault (Nat × Cursor) :=
  match c.rest with
  | ch :: _ =>
    if ch = '0' then .error (c.fault .zeroIndent .blockScalar start)
    else if Decimal.isDigit ch then .ok (ch.toNat - '0'.toNat, c.drop 1)
    else .ok (0, c)
  | [] => .ok (0, c)

def header (start : Mark) (c : Cursor) : Except Fault (Chomp × Nat × Cursor) := do
  let (chomp, next) := chompOf c
  let (indent, next) ← increment start next
  let (chomp, next) := if chomp = .clip ∧ indent ≠ 0 then chompOf next else (chomp, next)
  let next := next.skipSpaces.skipComment
  if endsLine next.rest then return (chomp, indent, next.skipBreak)
  else throw (next.fault .commentOrBreak .blockScalar start)

/-- Takes empty lines and the indentation of the next line. An indentation of zero is not known yet:
then the widest one is found. -/
def emptyLines (start : Mark) (indent : Nat) :
    Nat → String → Nat → Cursor → Except Fault (String × Nat × Cursor)
  | 0, breaks, widest, c => .ok (breaks, widest, c)
  | fuel + 1, breaks, widest, c =>
    let spaces := (c.rest.takeWhile (· = ' ')).length
    let next := c.drop (if indent = 0 then spaces else min spaces (indent - c.column))
    let widest := max widest next.column
    if (indent = 0 ∨ next.column < indent) ∧ next.rest.head? = some '\t' then
      .error (next.fault .tabIndent .blockScalar start)
    else
      match next.takeBreak? with
      | some (b, next) => emptyLines start indent fuel (breaks.push b) widest next
      | none => .ok (breaks, widest, next)

structure Lines where
  text : String := ""
  ending : String := ""
  breaks : String := ""
  isBlank : Bool := false
  next : Cursor

/-- The break between two lines: folding makes a space of it, unless one of them begins with a blank
or empty lines stand between them. -/
def Lines.joint (l : Lines) (folded isBlank : Bool) : String :=
  if folded ∧ l.ending = "\n" ∧ !l.isBlank ∧ !isBlank then
    if l.breaks = "" then " " else l.breaks
  else l.ending ++ l.breaks

def lines (folded : Bool) (start : Mark) (indent : Nat) : Nat → Lines → Except Fault Lines
  | 0, l => .ok l
  | fuel + 1, l =>
    match l.next.rest with
    | [] => .ok l
    | ch :: _ =>
      if l.next.column = indent then do
        let isBlank := isSpace ch
        let (line, next) := l.next.span (fun ch => !isBreak ch)
        let (ending, next) :=
          match next.takeBreak? with
          | some (b, next) => (b.toString, next)
          | none => ("", next)
        let (breaks, _, next) ← emptyLines start indent (next.rest.length + 1) "" 0 next
        lines folded start indent fuel
          ⟨l.text ++ l.joint folded isBlank ++ String.ofList line, ending, breaks, isBlank, next⟩
      else .ok l

def scan (folded : Bool) (outer : Int) (c : Cursor) : Except Fault (String × Cursor) := do
  let start := c.mark
  let (chomp, increment, next) ← header start (c.drop 1)
  let given := if increment = 0 then 0 else increment + outer.toNat
  let (breaks, widest, next) ← emptyLines start given (next.rest.length + 1) "" 0 next
  let indent := if given = 0 then max (max widest (outer + 1).toNat) 1 else given
  let l ← lines folded start indent (next.rest.length + 1) { breaks, next }
  let ending := if chomp = .strip then "" else l.ending
  let breaks := if chomp = .keep then l.breaks else ""
  return (l.text ++ ending ++ breaks, l.next)

end LiveDoc.Yaml.Block
