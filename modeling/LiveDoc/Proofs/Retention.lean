import LiveDoc.Proofs.Confinement

namespace LiveDoc

open Confinement

/-- A heap in which every slot holds what its container held before, or what was alive then, or what
is new. -/
structure Retained (before : Heap) (roots : List Ref) (h : Heap) : Prop where
  size_le : before.size ≤ h.size
  slots : ∀ {d c r}, h.get? d = some c → r ∈ c.refs →
    (∃ c', before.get? d = some c' ∧ r ∈ c'.refs) ∨ Held before roots r

def Value.Keeps (before : Heap) (roots : List Ref) (v : Value) : Prop :=
  ∀ r ∈ v.refs, Held before roots r

theorem Value.IsData.keeps {before : Heap} {roots : List Ref} {v : Value} (hv : v.IsData) :
    v.Keeps before roots := by
  intro r hr
  cases v with
  | container => exact hv.elim
  | undefined | null | bool | number | text | function | accessor => cases hr

namespace Retained

variable {before h : Heap} {roots : List Ref}

theorem refl : Retained before roots before :=
  ⟨Nat.le_refl _, fun hget hr => .inl ⟨_, hget, hr⟩⟩

theorem held_of_slot (hh : Retained before roots h) {d : Ref} {c : Container}
    (hd : Held before roots d) (hget : h.get? d = some c) {r : Ref} (hr : r ∈ c.refs) :
    Held before roots r := by
  rcases hh.slots hget hr with ⟨c', hget', hr'⟩ | hheld
  · have ha := hd.resolve_right (Nat.not_le_of_lt (Heap.index_lt_of_get? hget'))
    by_cases hlt : r.index < before.size
    · exact .inl (Heap.isAlive_of_refs ha hget' hr' hlt)
    · exact .inr (Nat.le_of_not_lt hlt)
  · exact hheld

theorem keeps_of_slot (hh : Retained before roots h) {d : Ref} {c : Container} {v : Value}
    (hd : Held before roots d) (hget : h.get? d = some c) (hv : v ∈ c.values) :
    v.Keeps before roots :=
  fun _ hr => hh.held_of_slot hd hget (List.mem_flatMap.2 ⟨v, hv, hr⟩)

theorem keeps_receiver (hh : Retained before roots h) {later : List Ref}
    (hl : ∀ r ∈ later, Held before roots r) (f : Function) :
    (h.receiver later f).Keeps before roots := by
  rw [Heap.receiver]
  split
  next r _ =>
    split
    next ha =>
      intro q hq
      cases List.mem_singleton.1 hq
      exact held_of_isAlive hl hh.slots ha
    · exact Value.IsData.keeps trivial
  · exact Value.IsData.keeps trivial

theorem alloc (hh : Retained before roots h) {c : Container}
    (hc : ∀ v ∈ c.values, v.Keeps before roots) : Retained before roots (h.alloc c).2 := by
  constructor
  · rw [Heap.size_alloc]
    exact Nat.le_succ_of_le hh.size_le
  · intro d c' r hget hr
    rw [Heap.get?_alloc] at hget
    split at hget
    · cases hget
      obtain ⟨v, hv, hr⟩ := List.mem_flatMap.1 hr
      exact .inr (hc v hv r hr)
    · exact hh.slots hget hr

theorem set (hh : Retained before roots h) {d : Ref} {c c' : Container} (hget : h.get? d = some c)
    (hc : ∀ v ∈ c'.values, v ∈ c.values ∨ v.Keeps before roots) :
    Retained before roots (h.set d c') := by
  constructor
  · rw [Heap.size_set]
    exact hh.size_le
  · intro q k r hq hr
    by_cases he : q = d
    · subst he
      rw [Heap.get?_set_self _ _ _ (Heap.index_lt_of_get? hget)] at hq
      cases hq
      obtain ⟨v, hv, hr⟩ := List.mem_flatMap.1 hr
      rcases hc v hv with hvc | hkeeps
      · exact hh.slots hget (List.mem_flatMap.2 ⟨v, hvc, hr⟩)
      · exact .inr (hkeeps r hr)
    · rw [Heap.get?_set_of_ne _ _ he] at hq
      exact hh.slots hq hr

end Retained

def Retained.policy (before : Heap) (roots : List Ref) : Script.Policy where
  heap := Retained before roots
  value := Value.Keeps before roots
  held := Held before roots
  data := Value.IsData.keeps
  refs hv hr := hv _ hr
  getter _ _ _ hr := by cases hr
  setter _ _ _ hr := by cases hr
  receiver hh hl _ := hh.keeps_receiver hl _
  alloc hh hc := by
    refine ⟨hh.alloc hc, fun r hr => ?_⟩
    cases List.mem_singleton.1 hr
    exact .inr hh.size_le
  read hh hd hget hv := hh.keeps_of_slot (hd _ (List.mem_singleton_self _)) hget hv
  write hh _ hget hv hw := by
    refine hh.set hget fun w hwd => ?_
    rcases hw.mem_values hwd with rfl | hwc | rfl
    · exact .inr hv
    · exact .inl hwc
    · exact .inr (Value.IsData.keeps trivial)

end LiveDoc
