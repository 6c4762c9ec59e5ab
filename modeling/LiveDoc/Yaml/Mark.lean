namespace LiveDoc.Yaml

/-- The characters before a place, the lines before it, and the characters before it in its line. -/
structure Mark where
  index : Nat := 0
  line : Nat := 0
  column : Nat := 0
  deriving DecidableEq, Repr

namespace Mark

def advance (m : Mark) (n : Nat) : Mark :=
  { m with index := m.index + n, column := m.column + n }

def newLine (m : Mark) (n : Nat) : Mark :=
  ⟨m.index + n, m.line + 1, 0⟩

def isOrigin (m : Mark) : Bool :=
  m.line = 0 && m.column = 0

def text (m : Mark) : String :=
  "line " ++ toString (m.line + 1) ++ " column " ++ toString (m.column + 1)

/-- The first place of a text is not mentioned. -/
def suffix (m : Mark) : String :=
  if m.isOrigin then "" else " at " ++ m.text

end Mark

end LiveDoc.Yaml
