import LiveDoc.Decimal.Reading
import LiveDoc.Yaml.Scalar.Gap

namespace LiveDoc.Yaml.Quoted

def escape? : Char → Option Char
  | '0' => some '\x00'
  | 'a' => some '\x07'
  | 'b' => some '\x08'
  | 't' | '\t' => some '\t'
  | 'n' => some '\n'
  | 'v' => some '\x0b'
  | 'f' => some '\x0c'
  | 'r' => some '\r'
  | 'e' => some '\x1b'
  | ' ' => some ' '
  | '\x22' => some '\x22'
  | '/' => some '/'
  | '\\' => some '\\'
  | 'N' => some '\u0085'
  | '_' => some '\u00a0'
  | 'L' => some '\u2028'
  | 'P' => some '\u2029'
  | _ => none

def digitCount? : Char → Option Nat
  | 'x' => some 2
  | 'u' => some 4
  | 'U' => some 8
  | _ => none

def numbered (count : Nat) (start : Mark) (c : Cursor) : Except Fault (Char × Cursor) :=
  let digits := c.rest.take count
  match if digits.length = count then Decimal.natural? 16 digits else none with
  | none => .error (c.fault .hexNumber .quotedEscape start)
  | some n =>
    if n < 0xd800 ∨ (0xdfff < n ∧ n ≤ 0x10ffff) then .ok (Char.ofNat n, c.drop count)
    else .error (c.fault .escapeCode .quotedEscape start)

def escaped (start : Mark) (c : Cursor) : Except Fault (Char × Cursor) :=
  match c.rest with
  | _ :: letter :: _ =>
    match escape? letter with
    | some ch => .ok (ch, c.drop 2)
    | none =>
      match digitCount? letter with
      | some count => numbered count start (c.drop 2)
      | none => .error (c.fault .unknownEscape .quotedEscape start)
  | _ => .error (c.fault .unknownEscape .quotedEscape start)

/-- Takes characters up to a blank, a line break, the closing quote, or behind an escaped line
break, which opens a gap. -/
def run (isSingle : Bool) (start : Mark) :
    Nat → String → Cursor → Except Fault (String × Gap × Cursor)
  | 0, text, c => .ok (text, {}, c)
  | fuel + 1, text, c =>
    match c.rest with
    | [] => .ok (text, {}, c)
    | ch :: rest =>
      if isSpace ch || isBreak ch then .ok (text, {}, c)
      else if isSingle ∧ ch = '\x27' then
        if rest.head? = some '\x27' then run isSingle start fuel (text.push ch) (c.drop 2)
        else .ok (text, {}, c)
      else if !isSingle ∧ ch = '\x22' then .ok (text, {}, c)
      else if !isSingle ∧ ch = '\\' then
        if rest ≠ [] ∧ endsLine rest then
          .ok (text, { isBroken := true }, (c.drop 1).skipBreak)
        else do
          let (ch, next) ← escaped start c
          run isSingle start fuel (text.push ch) next
      else run isSingle start fuel (text.push ch) (c.drop 1)

def runs (isSingle : Bool) (start : Mark) : Nat → String → Cursor → Except Fault (String × Cursor)
  | 0, _, c => .error (c.fault .endInScalar .quotedScalar start)
  | fuel + 1, text, c => do
    if c.atDocumentMark then throw (c.fault .documentInScalar .quotedScalar start)
    if c.rest = [] then throw (c.fault .endInScalar .quotedScalar start)
    let (text, gap, next) ← run isSingle start c.rest.length text c
    if next.rest.head? = some (if isSingle then '\x27' else '\x22') then
      return (text, next.drop 1)
    let (gap, next) ← Gap.take 0 start next.rest.length gap next
    runs isSingle start fuel (text ++ gap.text) next

def scan (isSingle : Bool) (c : Cursor) : Except Fault (String × Cursor) :=
  runs isSingle c.mark (c.rest.length + 1) "" (c.drop 1)

end LiveDoc.Yaml.Quoted
