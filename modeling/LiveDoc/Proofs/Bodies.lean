import LiveDoc.Proofs.Comparison
import LiveDoc.Proofs.Liveness

namespace LiveDoc

def Value.Bodies (good : Script.Program → Prop) : Value → Prop
  | function f => good f.definition.body
  | accessor a =>
    (∀ f, a.getter = some f → good f.definition.body) ∧
      ∀ f, a.setter = some f → good f.definition.body
  | _ => True

def Heap.Bodies (good : Script.Program → Prop) (h : Heap) : Prop :=
  ∀ r c, h.get? r = some c → ∀ v ∈ c.values, v.Bodies good

section

variable {good : Script.Program → Prop}

theorem Value.IsData.bodies {v : Value} (hv : v.IsData) : v.Bodies good := by
  cases v <;> trivial

theorem Value.bodies_true (v : Value) : v.Bodies fun _ => True := by
  cases v <;> simp [Bodies]

theorem Heap.bodies_true (h : Heap) : h.Bodies fun _ => True :=
  fun _ _ _ v _ => v.bodies_true

theorem Heap.bodies_of_mem {h : Heap}
    (hh : ∀ c ∈ h.containers.toList, ∀ v ∈ c.values, v.Bodies good) : h.Bodies good :=
  fun _ c hc => hh c (Array.mem_toList_iff.2 (Array.mem_of_getElem? hc))

theorem Heap.Bodies.alloc {h : Heap} (hh : h.Bodies good) {c : Container}
    (hc : ∀ v ∈ c.values, v.Bodies good) : (h.alloc c).2.Bodies good := by
  intro r d hd
  rw [get?_alloc] at hd
  split at hd
  · cases hd
    exact hc
  · exact hh r d hd

theorem Heap.Bodies.write {h : Heap} (hh : h.Bodies good) {r : Ref} {c c' : Container}
    {v : Value} (hc : h.get? r = some c) (hv : v.Bodies good) (hw : c.Writes v c') :
    (h.set r c').Bodies good := by
  intro q d hd w hwd
  by_cases he : q = r
  · subst he
    rw [get?_set_self h q c' (index_lt_of_get? hc)] at hd
    cases hd
    rcases hw.mem_values hwd with rfl | hwc | rfl
    · exact hv
    · exact hh q c hc w hwc
    · trivial
  · rw [get?_set_of_ne h c' he] at hd
    exact hh q d hd w hwd

theorem Heap.bodies_receiver (h : Heap) (roots : List Ref) (f : Function) :
    (h.receiver roots f).Bodies good := by
  rw [receiver]
  split
  · split <;> trivial
  · trivial

end

namespace Script

/-- Bodies may hold and call whatever has bodies of some kind. -/
def Policy.bodies (good : Program → Prop) : Policy where
  heap := Heap.Bodies good
  value := Value.Bodies good
  held _ := True
  data hv := hv.bodies
  refs _ _ := trivial
  getter ha hf := ha.1 _ hf
  setter ha hf := ha.2 _ hf
  receiver _ _ _ := Heap.bodies_receiver ..
  alloc hh hc := ⟨hh.alloc hc, trivial⟩
  read hh _ hc hv := hh _ _ hc _ hv
  write hh _ hc hv hw := hh.write hc hv hw

theorem Policy.holds_bodies (good : Program → Prop) (held : List Ref) :
    (Policy.bodies good).Holds held held :=
  ⟨fun _ _ => trivial, List.Subset.refl held⟩

end Script

end LiveDoc
