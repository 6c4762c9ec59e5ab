import LiveDoc.Proofs.Liveness
import LiveDoc.Proofs.Requests

namespace LiveDoc

/-- Names and elements may have come behind those that were there, and no accessor has gone. -/
inductive Container.GrowsTo : Container → Container → Prop
  | mapping {entries entries' : Entries} (hk : entries.keys <+: entries'.keys)
    (ha : ∀ {name a}, entries.get? name = some (.accessor a) →
      entries'.get? name = some (.accessor a)) : GrowsTo (.mapping entries) (.mapping entries')
  | sequence {items items' : Array Value} (hs : items.size ≤ items'.size)
    (ha : ∀ {i : Nat} {a}, items[i]? = some (.accessor a) → items'[i]? = some (.accessor a)) :
    GrowsTo (.sequence items) (.sequence items')

def Heap.GrowsTo (h h' : Heap) : Prop :=
  ∀ r c, h.get? r = some c → ∃ c', h'.get? r = some c' ∧ c.GrowsTo c'

namespace Container

theorem GrowsTo.refl (c : Container) : c.GrowsTo c := by
  cases c with
  | mapping entries => exact .mapping List.prefix_rfl id
  | sequence items => exact .sequence (Nat.le_refl _) id

theorem GrowsTo.trans {c₁ c₂ c₃ : Container} (h : c₁.GrowsTo c₂) (h' : c₂.GrowsTo c₃) :
    c₁.GrowsTo c₃ := by
  cases h with
  | mapping hk ha =>
    cases h' with
    | mapping hk' ha' => exact .mapping (hk.trans hk') fun h => ha' (ha h)
  | sequence hs ha =>
    cases h' with
    | sequence hs' ha' => exact .sequence (Nat.le_trans hs hs') fun h => ha' (ha h)

theorem size_writeAt (items : Array Value) (i : Nat) (v : Value) :
    (Script.HeapRun.writeAt items i v).size = max items.size (i + 1) := by
  rw [Script.HeapRun.writeAt]
  split
  · rw [Array.size_setIfInBounds]
    omega
  · rw [Array.size_push, Array.size_append, Array.size_replicate]
    omega

theorem size_le_writeAt (items : Array Value) (i : Nat) (v : Value) :
    items.size ≤ (Script.HeapRun.writeAt items i v).size := by
  rw [size_writeAt]
  exact Nat.le_max_left ..

theorem getElem?_writeAt_self (items : Array Value) (i : Nat) (v : Value) :
    (Script.HeapRun.writeAt items i v)[i]? = some v := by
  rw [Script.HeapRun.writeAt]
  split
  next hi => rw [Array.getElem?_setIfInBounds_self_of_lt hi]
  next hi =>
    have hsize : (items ++ Array.replicate (i - items.size) Value.undefined).size = i := by
      rw [Array.size_append, Array.size_replicate]
      omega
    rw [Array.getElem?_push, if_pos hsize.symm]

theorem getElem?_writeAt_of_ne {items : Array Value} {i j : Nat} (v : Value)
    (hj : j < items.size) (hne : j ≠ i) :
    (Script.HeapRun.writeAt items i v)[j]? = items[j]? := by
  rw [Script.HeapRun.writeAt]
  split
  · rw [Array.getElem?_setIfInBounds, if_neg (Ne.symm hne)]
  · have hlt : j < (items ++ Array.replicate (i - items.size) Value.undefined).size := by
      rw [Array.size_append]
      omega
    rw [Array.getElem?_push, if_neg (Nat.ne_of_lt hlt), Array.getElem?_append_left hj]

theorem getElem?_writeAt_of_gap {items : Array Value} {i j : Nat} (v : Value)
    (hj : items.size ≤ j) (hlt : j < i) :
    (Script.HeapRun.writeAt items i v)[j]? = some .undefined := by
  have hout : ¬ i < items.size := by omega
  have hne : j ≠ (items ++ Array.replicate (i - items.size) Value.undefined).size := by
    rw [Array.size_append, Array.size_replicate]
    omega
  rw [Script.HeapRun.writeAt, if_neg hout, Array.getElem?_push, if_neg hne,
    Array.getElem?_append_right hj, Array.getElem?_replicate, if_pos (by omega)]

/-- A write that an accessor does not take goes to another slot than any accessor is in. -/
theorem Writes.growsTo {c c' : Container} {v : Value} (h : c.Writes v c') : c.GrowsTo c' := by
  cases h with
  | @entry name entries hslot =>
    refine .mapping ?_ fun {other a} ha => ?_
    · rw [Slots.keys_put]
      split
      · exact List.prefix_rfl
      · exact List.prefix_append _ _
    · have hne : other ≠ name := by
        rintro rfl
        exact hslot a ha
      rw [Slots.get?_put_of_ne _ _ hne, ha]
  | @element i items hslot _ =>
    refine .sequence (size_le_writeAt items i v) fun {j a} ha => ?_
    have hne : j ≠ i := by
      rintro rfl
      exact hslot a ha
    have hj : j < items.size := (Array.getElem?_eq_some_iff.1 ha).1
    rw [getElem?_writeAt_of_ne v hj hne, ha]

end Container

namespace Heap.GrowsTo

theorem refl (h : Heap) : h.GrowsTo h :=
  fun _ c hc => ⟨c, hc, .refl c⟩

theorem trans {h₁ h₂ h₃ : Heap} (h : h₁.GrowsTo h₂) (h' : h₂.GrowsTo h₃) : h₁.GrowsTo h₃ := by
  intro r c hc
  obtain ⟨c', hc', hgrow⟩ := h r c hc
  obtain ⟨c'', hc'', hgrow'⟩ := h' r c' hc'
  exact ⟨c'', hc'', hgrow.trans hgrow'⟩

theorem alloc (h : Heap) (c : Container) : h.GrowsTo (h.alloc c).2 := by
  intro r d hd
  refine ⟨d, ?_, .refl d⟩
  rw [get?_alloc_of_lt h c (index_lt_of_get? hd), hd]

theorem set {h : Heap} {r : Ref} {c c' : Container} (hc : h.get? r = some c)
    (hgrow : c.GrowsTo c') : h.GrowsTo (h.set r c') := by
  intro q d hd
  by_cases he : q = r
  · subst he
    cases hc.symm.trans hd
    exact ⟨c', get?_set_self h q c' (index_lt_of_get? hc), hgrow⟩
  · exact ⟨d, by rw [get?_set_of_ne h c' he, hd], .refl d⟩

end Heap.GrowsTo

namespace Script

def Policy.growing (before : Heap) : Policy where
  heap := before.GrowsTo
  value _ := True
  held _ := True
  data _ := trivial
  refs _ _ := trivial
  getter _ _ := trivial
  setter _ _ := trivial
  receiver _ _ _ := trivial
  alloc hgrow _ := ⟨hgrow.trans (.alloc _ _), trivial⟩
  read _ _ _ _ := trivial
  write hgrow _ hc _ hw := hgrow.trans (.set hc hw.growsTo)

theorem Turn.growsTo (turn : Turn) (h : Heap) : h.GrowsTo (turn.run h).2 := by
  have hcalls := (Policy.growing h).calls_invoke turn.fuel maxCallDepth
  have hkeeps : Keeps h.GrowsTo (fun _ => True) turn.run :=
    Policy.keeps_request hcalls (fun _ _ => trivial) (fun _ _ => trivial)
  exact (hkeeps h (.refl h)).1

/-- Requests let every container grow, whether they succeed or fail. -/
theorem growsTo_afterAll (h : Heap) (turns : List Turn) : h.GrowsTo (afterAll h turns) := by
  induction turns generalizing h with
  | nil => exact .refl h
  | cons turn turns ih => exact (turn.growsTo h).trans (ih _)

end Script

end LiveDoc
