import LiveDoc.Line.Expansion
import LiveDoc.Load.Error

namespace LiveDoc.Line

def patternSigns : List Char := "\\.+*?()|[]\x7b\x7d^$#&-~".toList

def literal (s : String) : String :=
  String.ofList (s.toList.flatMap fun c => if c ∈ patternSigns then ['\\', c] else [c])

def Place.pattern : Place → String
  | key => "^(\\s*)(.*?)\\s*:\\s*"
  | item => "^(\\s*)-\\s*"

def Construct.pattern (c : Config) : Construct → String
  | multiline => literal c.functionOpen ++ "(.*?)" ++ literal c.functionClose ++ "\\s*$"
  | inline => literal c.functionOpen ++ "(.*?)" ++ literal c.functionClose ++ "(.*?)$"
  | inclusion => literal c.includeKey ++ "\\s+(.*?)\\s*$"

def patterns (c : Config) : List String :=
  order.map fun (construct, place) => place.pattern ++ construct.pattern c

example : (patterns {}).head? = some "^(\\s*)(.*?)\\s*:\\s*\\((.*?)\\)\\s*$" := by cbv

/-- Why an engine refuses a pattern, if it does. -/
abbrev Engine := String → Option String

/-- A configuration with patterns that an engine has taken. -/
structure Patterns where
  config : Config
  engine : Engine
  taken : ∀ pattern ∈ patterns config, engine pattern = none

namespace Patterns

/-- The patterns are taken one after the other; the first one that is refused is the error. -/
def compile (engine : Engine) (c : Config) : Except LoadError Patterns :=
  match h : (patterns c).findSome? engine with
  | some message => .error (.pattern message)
  | none => .ok ⟨c, engine, List.findSome?_eq_none_iff.1 h⟩

theorem config_of_compile {engine : Engine} {c : Config} {p : Patterns}
    (h : compile engine c = .ok p) : p.config = c := by
  rw [compile] at h
  split at h <;> cases h
  rfl

def standard : Patterns :=
  ⟨{}, fun _ => none, fun _ _ => rfl⟩

def expandText (p : Patterns) (text : String) : String :=
  Line.expandText p.config text

end Patterns

def transform (engine : Engine) (c : Config) (text : String) : Except LoadError String :=
  (Patterns.compile engine c).map (·.expandText text)

theorem transform_eq (engine : Engine) (c : Config) (text : String) :
    transform engine c text = (Patterns.compile engine c).map fun _ => expandText c text := by
  cases h : Patterns.compile engine c with
  | error e => rw [transform, h, Except.map, Except.map]
  | ok p =>
    rw [transform, h, Except.map, Except.map, Patterns.expandText, Patterns.config_of_compile h]

end LiveDoc.Line
