import LiveDoc.Load.Error
import LiveDoc.Load.Path

namespace LiveDoc.Load

/-- Documents by their paths. What can be read is among finitely many known documents. -/
structure Files where
  known : List Identity
  identity : String → Identity
  read : String → Except LoadError String
  isOn_known : ∀ {path text}, read path = .ok text → (identity path).isOn known = true

/-- Documents by their paths; of two with one path the last counts. -/
abbrev Collection := List (String × String)

namespace Collection

def find? (c : Collection) (path : String) : Option String :=
  (c.reverse.find? fun document => Path.same document.1 path).map (·.2)

def read (c : Collection) (path : String) : Except LoadError String :=
  match c.find? path with
  | some text => .ok text
  | none => .error (.notFound path)

theorem isOn_of_read {c : Collection} {path text : String} (h : c.read path = .ok text) :
    (Identity.spelled path).isOn (c.map fun document => .spelled document.1) = true := by
  rw [read] at h
  split at h
  next _ found =>
    rw [find?, Option.map_eq_some_iff] at found
    obtain ⟨document, found, _⟩ := found
    have hm := List.mem_reverse.1 (List.mem_of_find?_eq_some found)
    have hs := List.find?_some found
    exact Identity.isOn_iff.2 ⟨_, List.mem_map_of_mem hm, Identity.same_symm hs⟩
  next => cases h

def files (c : Collection) : Files where
  known := c.map fun document => .spelled document.1
  identity := .spelled
  read := c.read
  isOn_known := isOn_of_read

end Collection

/-- The files and directories below a working directory, by the names on their way. A directory also
is there if something is in it. -/
abbrev Disk := List (List String × Option ByteArray)

namespace Disk

inductive Place where
  | inside (names : List String)
  | outside
  deriving DecidableEq

inductive Trouble where
  | missing
  | notDirectory
  deriving DecidableEq

def file? (d : Disk) (names : List String) : Option ByteArray :=
  d.findSome? fun entry => if entry.1 = names then entry.2 else none

def isDirectory (d : Disk) (names : List String) : Bool :=
  names = [] || d.any fun entry =>
    names.isPrefixOf entry.1 && (entry.1.length ≠ names.length || entry.2.isNone)

/-- One step from a directory. Nothing is known about what is outside of the working directory. -/
def step (d : Disk) (place : Place) (name : String) : Except Trouble Place :=
  match place with
  | .outside => if name = ".." ∨ name = "." then .ok .outside else .error .missing
  | .inside names =>
    if !d.isDirectory names then .error .notDirectory
    else if name = "." then .ok (.inside names)
    else if name = ".." then .ok (if names = [] then .outside else .inside names.dropLast)
    else
      let next := names ++ [name]
      if d.isDirectory next || (d.file? next).isSome then .ok (.inside next) else .error .missing

def steps (path : List Char) : List String :=
  (Text.splitOn '/' path).mapIdx
    (fun i piece => if piece = [] ∧ i ≠ 0 then "." else String.ofList piece)

def walk (d : Disk) (path : String) : Except Trouble Place :=
  match steps path.toList with
  | "" :: [] => .error .missing
  | "" :: names => names.foldlM d.step .outside
  | names => names.foldlM d.step (.inside [])

def read (d : Disk) (path : String) : Except LoadError String :=
  if path.toList.contains '\x00' then .error (.unreadable path)
  else
    match d.walk path with
    | .error .missing => .error (.notFound path)
    | .error .notDirectory | .ok .outside => .error (.unreadable path)
    | .ok (.inside names) =>
      match (d.file? names).bind String.fromUTF8? with
      | some text => .ok text
      | none => .error (.unreadable path)

def identity (d : Disk) (path : String) : Identity :=
  match d.walk path with
  | .ok (.inside names) => .place names
  | _ => .spelled path

theorem mem_of_file? {d : Disk} {names : List String} {bytes : ByteArray}
    (h : d.file? names = some bytes) : (names, some bytes) ∈ d := by
  rw [file?] at h
  obtain ⟨entry, hm, h⟩ := List.exists_of_findSome?_eq_some h
  split at h
  next he => exact he ▸ h ▸ hm
  next => cases h

theorem isOn_of_read {d : Disk} {path text : String} (h : d.read path = .ok text) :
    (d.identity path).isOn (d.map fun entry => .place entry.1) = true := by
  rw [read] at h
  split at h
  · cases h
  · split at h
    · cases h
    · cases h
    · cases h
    next names walked =>
      split at h
      next _ found =>
        obtain ⟨bytes, hf, _⟩ := Option.bind_eq_some_iff.1 found
        rw [identity, walked]
        exact Identity.isOn_iff.2 ⟨_, List.mem_map_of_mem (mem_of_file? hf), Identity.same_refl _⟩
      next => cases h

def files (d : Disk) : Files where
  known := d.map fun entry => .place entry.1
  identity := d.identity
  read := d.read
  isOn_known := isOn_of_read

end Disk

end LiveDoc.Load
