import LiveDoc.Proofs.Ownership

namespace LiveDoc.Heap

open Relation

noncomputable def inside (h : Heap) (r : Ref) : Finset Nat :=
  open Classical in (Finset.range h.size).filter fun i => TransGen h.Holds r ⟨i⟩

noncomputable def height (h : Heap) (r : Ref) : Nat :=
  (h.inside r).card

section

variable {h : Heap} {d r : Ref}

theorem mem_inside {i : Nat} : i ∈ h.inside r ↔ i < h.size ∧ TransGen h.Holds r ⟨i⟩ := by
  classical
  rw [inside, Finset.mem_filter, Finset.mem_range]

theorem height_lt_of_holds (hd : h.Holds d r) (hr : r.index < h.size)
    (hloop : ¬TransGen h.Holds r r) : h.height r < h.height d := by
  have hsubset : h.inside r ⊆ h.inside d := by
    intro i hi
    obtain ⟨hlt, hi⟩ := mem_inside.1 hi
    exact mem_inside.2 ⟨hlt, .head hd hi⟩
  apply Finset.card_lt_card
  apply (Finset.ssubset_iff_of_subset hsubset).2
  exact ⟨r.index, mem_inside.2 ⟨hr, .single hd⟩, fun hmem => hloop (mem_inside.1 hmem).2⟩

theorem height_lt_size (hr : r.index < h.size) (hloop : ¬TransGen h.Holds r r) :
    h.height r < h.size := by
  have hsubset : h.inside r ⊆ Finset.range h.size :=
    fun i hi => Finset.mem_range.2 (mem_inside.1 hi).1
  rw [← Finset.card_range h.size]
  apply Finset.card_lt_card
  apply (Finset.ssubset_iff_of_subset hsubset).2
  exact ⟨r.index, Finset.mem_range.2 hr, fun hmem => hloop (mem_inside.1 hmem).2⟩

theorem reached_of_mem {q : Ref} {k : Container} {v : Value} (hd : h.get? d = some k)
    (hv : v ∈ k.values) (hq : h.Reached v.refs q) : h.Reached [d] q := by
  induction hq with
  | root hr =>
    exact .slot (.root (List.mem_singleton_self d)) hd (List.mem_flatMap.2 ⟨v, hv, hr⟩)
  | slot _ hc hr ih => exact .slot ih hc hr

def Acyclic (h : Heap) : Prop :=
  ∀ r, ¬TransGen h.Holds r r

theorem acyclic_of_lt (hlt : ∀ d r, h.Holds d r → r.index < d.index) : h.Acyclic := by
  intro r hloop
  have hdown {d q : Ref} (hd : TransGen h.Holds d q) : q.index < d.index := by
    induction hd with
    | single hd => exact hlt _ _ hd
    | tail _ hq ih => exact Nat.lt_trans (hlt _ _ hq) ih
  exact absurd (hdown hloop) (Nat.lt_irrefl _)

end

end LiveDoc.Heap
