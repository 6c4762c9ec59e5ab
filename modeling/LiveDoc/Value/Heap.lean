import LiveDoc.Value.Basic
import LiveDoc.Value.Slots

namespace LiveDoc

abbrev Entries := Slots Value

inductive Container where
  | mapping (entries : Entries)
  | sequence (items : Array Value)

namespace Container

def values : Container → List Value
  | mapping entries => entries.values
  | sequence items => items.toList

def refs (c : Container) : List Ref := c.values.flatMap Value.refs

end Container

structure Heap where
  containers : Array Container := #[]
  /-- How many functions have been compiled. -/
  definitions : Nat := 0
  deriving Inhabited

namespace Heap

def size (h : Heap) : Nat := h.containers.size

def get? (h : Heap) (r : Ref) : Option Container := h.containers[r.index]?

def set (h : Heap) (r : Ref) (c : Container) : Heap :=
  { h with containers := h.containers.setIfInBounds r.index c }

def alloc (h : Heap) (c : Container) : Ref × Heap :=
  (⟨h.size⟩, { h with containers := h.containers.push c })

def define (h : Heap) (params : List String) (source : String) (body : Script.Program) :
    Function × Heap :=
  (⟨⟨h.definitions, params, source, body⟩, none⟩, { h with definitions := h.definitions + 1 })

def entries? (h : Heap) (r : Ref) : Option Entries :=
  match h.get? r with
  | some (.mapping entries) => some entries
  | _ => none

def items? (h : Heap) (r : Ref) : Option (Array Value) :=
  match h.get? r with
  | some (.sequence items) => some items
  | _ => none

theorem get?_of_entries? {h : Heap} {r : Ref} {entries : Entries}
    (he : h.entries? r = some entries) : h.get? r = some (.mapping entries) := by
  rw [entries?] at he
  split at he
  next hget => cases he; exact hget
  · cases he

theorem get?_of_items? {h : Heap} {r : Ref} {items : Array Value} (hi : h.items? r = some items) :
    h.get? r = some (.sequence items) := by
  rw [items?] at hi
  split at hi
  next hget => cases hi; exact hget
  · cases hi

/-- Writes an entry of a mapping past any accessor, and gives what was there; none if there is no
such mapping. -/
def insert? (h : Heap) (r : Ref) (key : String) (v : Value) : Option (Option Value × Heap) :=
  (h.entries? r).map fun entries => (entries.get? key, h.set r (.mapping (entries.put key v)))

def remove? (h : Heap) (r : Ref) (key : String) : Option (Option Value × Heap) :=
  (h.entries? r).map fun entries => (entries.get? key, h.set r (.mapping (entries.erase key)))

def push? (h : Heap) (r : Ref) (v : Value) : Option (Nat × Heap) :=
  (h.items? r).map fun items => (items.size + 1, h.set r (.sequence (items.push v)))

theorem get?_set_self (h : Heap) (r : Ref) (c : Container) (hr : r.index < h.size) :
    (h.set r c).get? r = some c := by
  simp only [get?, set, Array.getElem?_setIfInBounds, ↓reduceIte]
  exact if_pos hr

theorem get?_set_of_ne (h : Heap) {r s : Ref} (c : Container) (hne : s ≠ r) :
    (h.set r c).get? s = h.get? s := by
  have : r.index ≠ s.index := fun he => hne (Ref.eq_of_index he.symm)
  simp only [get?, set, Array.getElem?_setIfInBounds, if_neg this]

theorem size_set (h : Heap) (r : Ref) (c : Container) : (h.set r c).size = h.size := by
  simp only [size, set, Array.size_setIfInBounds]

theorem size_alloc (h : Heap) (c : Container) : (h.alloc c).2.size = h.size + 1 :=
  Array.size_push c

theorem get?_alloc (h : Heap) (c : Container) (r : Ref) :
    (h.alloc c).2.get? r = if r.index = h.size then some c else h.get? r :=
  Array.getElem?_push

theorem get?_alloc_self (h : Heap) (c : Container) : (h.alloc c).2.get? ⟨h.size⟩ = some c :=
  Array.getElem?_push_size

theorem get?_alloc_of_lt (h : Heap) (c : Container) {r : Ref} (hr : r.index < h.size) :
    (h.alloc c).2.get? r = h.get? r := by
  rw [get?_alloc, if_neg (Nat.ne_of_lt hr)]

end Heap

end LiveDoc
