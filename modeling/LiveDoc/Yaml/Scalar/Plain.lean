import LiveDoc.Yaml.Scalar.Gap

namespace LiveDoc.Yaml.Plain

def isFlowMark (c : Char) : Bool :=
  c = ',' || c = '[' || c = ']' || c = '\x7b' || c = '\x7d'

/-- Whether a word ends before this rest: at a blank, at a colon before a blank, and inside of flow
collections at their marks. -/
def stops (inFlow : Bool) : List Char → Bool
  | [] => true
  | c :: cs => isSpace c || isBreak c || c = ':' && endsWord cs || inFlow && isFlowMark c

/-- Inside of flow collections a colon must not touch one of their marks. -/
def clashes (inFlow : Bool) : List Char → Bool
  | ':' :: c :: _ => inFlow && (isFlowMark c || c = '?')
  | _ => false

def word (inFlow : Bool) (start : Mark) : Nat → String → Cursor → Except Fault (String × Cursor)
  | 0, text, c => .ok (text, c)
  | fuel + 1, text, c =>
    if clashes inFlow c.rest then .error (c.fault .colonInFlow .plainScalar start)
    else if stops inFlow c.rest then .ok (text, c)
    else
      match c.rest with
      | [] => .ok (text, c)
      | ch :: _ => word inFlow start fuel (text.push ch) (c.drop 1)

structure Result where
  text : String
  stop : Mark
  isBroken : Bool
  next : Cursor

def words (inFlow : Bool) (margin : Nat) (start : Mark) :
    Nat → Result → Gap → Except Fault Result
  | 0, r, _ => .ok r
  | fuel + 1, r, gap => do
    let c := r.next
    if c.atDocumentMark ∨ c.rest.head? = some '#' then return r
    let (text, next) ← word inFlow start (c.rest.length + 1) "" c
    let r := if text = "" then r else ⟨r.text ++ gap.text ++ text, next.mark, false, next⟩
    match next.rest with
    | [] => return r
    | ch :: _ =>
      if isSpace ch || isBreak ch then
        let (gap, next) ← Gap.take margin start next.rest.length {} next
        let r := { r with next, isBroken := gap.isBroken }
        if !inFlow ∧ next.column < margin then return r
        else words inFlow margin start fuel r gap
      else return r

def scan (inFlow : Bool) (margin : Nat) (c : Cursor) : Except Fault Result :=
  words inFlow margin c.mark (c.rest.length + 1) ⟨"", c.mark, false, c⟩ {}

end LiveDoc.Yaml.Plain
