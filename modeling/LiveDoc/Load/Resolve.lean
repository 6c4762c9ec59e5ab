import LiveDoc.Config
import LiveDoc.Line.Patterns
import LiveDoc.Load.Build
import LiveDoc.Load.Files
import LiveDoc.Load.Position
import LiveDoc.Signal
import LiveDoc.Value.Compile

namespace LiveDoc.Load

namespace Build

def function (owner : Option Ref) (params : List String) (source : String) : Build Value := fun h =>
  match h.compile params source with
  | .error e => .error (.functionBody e.message source)
  | .ok (f, h) => .ok (.function { f with receiver := owner }, h)

def half (owner : Ref) (name : String) (entries : Entries) (key : String) :
    Except LoadError (Option Function) :=
  match entries.get? key with
  | none => .ok none
  | some (.function f) => .ok (some (f.bind owner))
  | some _ => .error (.invalidAccessor name)

def accessor (c : Config) (owner : Ref) (name : String) (entries : Entries) :
    Except LoadError Value := do
  let getter ← half owner name entries c.getKey
  let setter ← half owner name entries c.setKey
  return .accessor ⟨getter, setter⟩

/-- What a slot holds for its node. Only a mapping that is written there becomes an accessor. -/
def place (c : Config) (owner : Ref) (name : String) (node : Yaml.Tree) (v : Value) :
    Build Value := do
  match node, v with
  | .mapping _, .container r =>
    match (← get).entries? r with
    | some entries =>
      if c.isAccessorKeySet entries.keys then liftM (accessor c owner name entries) else return v
    | none => return v
  | _, _ => return v

def text (document : String → Build Value) (owner : Option Ref) (s : String) : Build Value :=
  match Signal.detect s with
  | .error .function => throw (.malformedFunction s)
  | .error .inclusion => throw (.malformedInclusion s)
  | .ok none => return .text s
  | .ok (some (.function params body)) => function owner params body
  | .ok (some (.inclusion path)) => document path

mutual

def resolve (c : Config) (document : String → Build Value) (owner : Option Ref) :
    Yaml.Tree → Build Value
  | .string s => text document owner s
  | .sequence nodes => do
    let r ← alloc (.sequence #[])
    let items ← resolveItems c document r 0 nodes
    fill r (.sequence items.toArray)
    return .container r
  | .mapping nodes => do
    let r ← alloc (.mapping [])
    let entries ← resolveEntries c document r [] nodes
    fill r (.mapping entries)
    return .container r
  | .tagged _ node => resolve c document owner node
  | node => return node.scalar
termination_by structural node => node

def resolveItems (c : Config) (document : String → Build Value) (owner : Ref) (index : Nat) :
    List Yaml.Tree → Build (List Value)
  | [] => return []
  | node :: nodes => do
    let v ← resolve c document (some owner) node
    let v ← place c owner (toString index) node v
    return v :: (← resolveItems c document owner (index + 1) nodes)
termination_by structural nodes => nodes

def resolveEntries (c : Config) (document : String → Build Value) (owner : Ref) (done : Entries) :
    List (Yaml.Tree × Yaml.Tree) → Build Entries
  | [] => return done
  | (key, node) :: rest => do
    let name ← liftM key.key
    let v ← resolve c document (some owner) node
    let v ← place c owner name node v
    resolveEntries c document owner (done.put name v) rest
termination_by structural nodes => nodes

end

end Build

/-- The syntax of documents, where included ones come from, and what reads them. -/
structure Loader where
  patterns : Line.Patterns
  files : Files
  reader : Reader

namespace Loader

/-- There is a loader for a configuration if its patterns are taken. -/
def make (engine : Line.Engine) (c : Config) (files : Files) (reader : Reader) :
    Except LoadError Loader :=
  (Line.Patterns.compile engine c).map fun patterns => { patterns, files, reader }

def config (l : Loader) : Config := l.patterns.config

def tree (l : Loader) (text : String) : Except LoadError Yaml.Tree :=
  l.reader.tree (l.patterns.expandText text)

def left (l : Loader) (stack : List Identity) : List Identity :=
  l.files.known.filter fun i => !i.isOn stack

theorem left_append (l : Loader) (stack rest : List Identity) :
    l.left (stack ++ rest) = (l.left stack).filter fun i => !i.isOn rest := by
  simp only [left, List.filter_filter, Identity.isOn_append, Bool.not_or, Bool.and_comm]

theorem length_left_append_lt (l : Loader) {stack : List Identity} {path text : String}
    (hs : ¬(l.files.identity path).isOn stack = true) (hr : l.files.read path = .ok text) :
    (l.left (stack ++ [l.files.identity path])).length < (l.left stack).length := by
  obtain ⟨i, hi, hp⟩ := Identity.isOn_iff.1 (l.files.isOn_known hr)
  have his : ¬i.isOn stack = true := fun h => hs (Identity.isOn_of_same hp h)
  have hip : i.isOn [l.files.identity path] = true :=
    Identity.isOn_iff.2 ⟨_, List.mem_singleton_self _, Identity.same_symm hp⟩
  rw [left_append, List.length_filter_lt_length_iff_exists]
  exact ⟨i, by simp [left, hi, his], by simp [hip]⟩

/-- Loads a document inside of those on the stack, which include each other from the outermost on.
Every document that is opened goes on the stack, where no document is twice. -/
def document (l : Loader) (stack : List Identity) (path : String) : Build Value :=
  let chain := stack ++ [l.files.identity path]
  if _ : (l.files.identity path).isOn stack then throw (.cycle (chain.map Identity.shown))
  else
    match _ : l.files.read path with
    | .error e => throw e
    | .ok text => do
      let tree ← liftM (l.tree text)
      Build.resolve l.config (document l chain) none tree
termination_by (l.left stack).length
decreasing_by exact l.length_left_append_lt ‹_› ‹_›

def file (l : Loader) (path : String) : Build Value :=
  l.document [] path

def node (l : Loader) (tree : Yaml.Tree) : Build Value :=
  Build.resolve l.config l.file none tree

def text (l : Loader) (text : String) : Build Value := do
  l.node (← liftM (l.tree text))

end Loader

def resolve (engine : Line.Engine) (c : Config) (files : Files) (reader : Reader)
    (tree : Yaml.Tree) : Build Value := do
  (← liftM (Loader.make engine c files reader)).node tree

def plain (text : String) : Build Value := do
  Build.plain (← liftM (Load.tree text))

end LiveDoc.Load
