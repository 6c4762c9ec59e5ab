import LiveDoc.Value.Tree

namespace LiveDoc.Load

abbrev Build := StateT Heap (Except LoadError)

namespace Build

def alloc (c : Container) : Build Ref := fun h => .ok (h.alloc c)

def fill (r : Ref) (c : Container) : Build Unit := modify (·.set r c)

mutual

def plain : Yaml.Tree → Build Value
  | .sequence items => do return .container (← alloc (.sequence (← plainItems items).toArray))
  | .mapping entries => do return .container (← alloc (.mapping (← plainEntries [] entries)))
  | .tagged _ tree => plain tree
  | tree => return tree.scalar
termination_by structural tree => tree

def plainItems : List Yaml.Tree → Build (List Value)
  | [] => return []
  | tree :: trees => return (← plain tree) :: (← plainItems trees)
termination_by structural trees => trees

/-- Of two keys with one name the first gives the place, and the last the value. -/
def plainEntries (done : Entries) : List (Yaml.Tree × Yaml.Tree) → Build Entries
  | [] => return done
  | (key, tree) :: rest => do
    let name ← liftM key.key
    plainEntries (done.put name (← plain tree)) rest
termination_by structural entries => entries

end

end Build

end LiveDoc.Load
