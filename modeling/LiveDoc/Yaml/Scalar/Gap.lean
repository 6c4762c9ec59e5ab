import LiveDoc.Yaml.Cursor

namespace LiveDoc.Yaml

structure Gap where
  spaces : String := ""
  first : String := ""
  more : String := ""
  isBroken : Bool := false

namespace Gap

/-- A single newline is folded into a space; of several, the first one is dropped. -/
def text (g : Gap) : String :=
  if g.isBroken then
    if g.first = "\n" then if g.more = "" then " " else g.more
    else g.first ++ g.more
  else g.spaces

def addSpace (g : Gap) (c : Char) : Gap :=
  if g.isBroken then g else { g with spaces := g.spaces.push c }

def addBreak (g : Gap) (c : Char) : Gap :=
  if g.isBroken then { g with more := g.more.push c }
  else { spaces := "", first := c.toString, more := "", isBroken := true }

/-- Takes a gap. On a new line no tab may stand left of the column `margin`. -/
def take (margin : Nat) (start : Mark) : Nat → Gap → Cursor → Except Fault (Gap × Cursor)
  | 0, g, c => .ok (g, c)
  | fuel + 1, g, c =>
    match c.rest with
    | [] => .ok (g, c)
    | ch :: _ =>
      if isSpace ch then
        if g.isBroken ∧ ch = '\t' ∧ c.column < margin then
          .error (c.fault .tabInPlain .plainScalar start)
        else take margin start fuel (g.addSpace ch) (c.drop 1)
      else
        match c.takeBreak? with
        | some (b, next) => take margin start fuel (g.addBreak b) next
        | none => .ok (g, c)

end Gap

end LiveDoc.Yaml
