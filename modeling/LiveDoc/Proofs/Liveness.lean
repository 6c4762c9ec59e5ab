import LiveDoc.Value.Liveness
import Mathlib.Data.Finset.Card

namespace LiveDoc

namespace Container

theorem mem_refs {c : Container} {r : Ref} (h : .container r ∈ c.values) : r ∈ c.refs :=
  List.mem_flatMap.2 ⟨_, h, List.mem_singleton_self r⟩

theorem mem_values_of_refs {c : Container} {r : Ref} (h : r ∈ c.refs) :
    .container r ∈ c.values := by
  obtain ⟨v, hv, hr⟩ := List.mem_flatMap.1 h
  cases v with
  | container q => exact List.mem_singleton.1 hr ▸ hv
  | _ => cases hr

end Container

namespace Heap

/-- What can be reached from some containers through slots. -/
inductive Reached (h : Heap) (roots : List Ref) : Ref → Prop
  | root (hr : r ∈ roots) : Reached h roots r
  | slot (hd : Reached h roots d) (hc : h.get? d = some c) (hr : r ∈ c.refs) : Reached h roots r

theorem Reached.mono {h : Heap} {roots roots' : List Ref} (hs : ∀ r ∈ roots, r ∈ roots') {r : Ref}
    (hr : h.Reached roots r) : h.Reached roots' r := by
  induction hr with
  | root hr => exact .root (hs _ hr)
  | slot _ hc hr ih => exact .slot ih hc hr

/-- Each member is held from outside, or by a member. -/
def Supported (h : Heap) (roots : List Ref) (s : Ref → Prop) : Prop :=
  ∀ r, s r → r ∈ roots ∨ ∃ d c, s d ∧ h.get? d = some c ∧ r ∈ c.refs

theorem supported_reached (h : Heap) (roots : List Ref) : h.Supported roots (h.Reached roots) := by
  intro r hr
  cases hr with
  | root hr => exact .inl hr
  | slot hd hc hr => exact .inr ⟨_, _, hd, hc, hr⟩

theorem index_lt_of_get? {h : Heap} {r : Ref} (hr : h.get? r = some c) : r.index < h.size :=
  (Array.getElem?_eq_some_iff.1 hr).1

theorem size_mark (m : Marks) (r : Ref) : (mark m r).size = m.size :=
  Array.size_setIfInBounds

theorem isMarked_mark {m : Marks} {q r : Ref} :
    isMarked (mark m q) r = true ↔ isMarked m r = true ∨ r = q ∧ r.index < m.size := by
  cases q with
  | mk j =>
    cases r with
    | mk i =>
      simp only [isMarked, mark, Array.getD_eq_getD_getElem?, Array.getElem?_setIfInBounds,
        Ref.mk.injEq]
      by_cases hij : j = i
      · subst hij
        by_cases hj : j < m.size <;> simp [hj]
      · simp [hij, Ne.symm hij]

theorem size_marks {rs : List Ref} {m : Marks} : (rs.foldl mark m).size = m.size := by
  induction rs generalizing m with
  | nil => rfl
  | cons q rs ih => rw [List.foldl_cons, ih, size_mark]

theorem isMarked_marks {rs : List Ref} {m : Marks} {r : Ref} :
    isMarked (rs.foldl mark m) r = true ↔
      isMarked m r = true ∨ r ∈ rs ∧ r.index < m.size := by
  induction rs generalizing m with
  | nil => simp
  | cons q rs ih =>
    rw [List.foldl_cons, ih, isMarked_mark, size_mark, List.mem_cons]
    constructor
    · rintro ((h | ⟨h, hlt⟩) | ⟨h, hlt⟩)
      · exact .inl h
      · exact .inr ⟨.inl h, hlt⟩
      · exact .inr ⟨.inr h, hlt⟩
    · rintro (h | ⟨h | h, hlt⟩)
      · exact .inl (.inl h)
      · exact .inl (.inr ⟨h, hlt⟩)
      · exact .inr ⟨h, hlt⟩

theorem isMarked_replicate_false (n : Nat) (r : Ref) :
    isMarked (Array.replicate n false) r = false := by
  simp only [isMarked, Array.getD_eq_getD_getElem?, Array.getElem?_replicate]
  split <;> rfl

theorem isMarked_replicate_true (n : Nat) (r : Ref) :
    isMarked (Array.replicate n true) r = true ↔ r.index < n := by
  simp only [isMarked, Array.getD_eq_getD_getElem?, Array.getElem?_replicate]
  split <;> simp_all

theorem marks_ext {m n : Marks} (hsize : m.size = n.size)
    (h : ∀ r, isMarked m r = true ↔ isMarked n r = true) : m = n := by
  apply Array.ext hsize
  intro i hm hn
  have := h ⟨i⟩
  simp only [isMarked, Array.getD_eq_getD_getElem?, Array.getElem?_eq_getElem hm,
    Array.getElem?_eq_getElem hn, Option.getD_some] at this
  exact Bool.eq_iff_iff.2 this

theorem index_lt_of_isMarked {m : Marks} {r : Ref} (hr : isMarked m r = true) :
    r.index < m.size := by
  by_contra hlt
  simp [isMarked, Array.getD_eq_getD_getElem?, Array.getElem?_eq_none (Nat.le_of_not_lt hlt)] at hr

theorem size_markHeld (h : Heap) (m next : Marks) (i : Nat) :
    (h.markHeld m next i).size = next.size := by
  rw [markHeld]
  split
  · split
    · exact size_marks
    · rfl
  · rfl

theorem isMarked_markHeld {h : Heap} {m next : Marks} {i : Nat} {r : Ref} :
    isMarked (h.markHeld m next i) r = true ↔ isMarked next r = true ∨
      r.index < next.size ∧ isMarked m ⟨i⟩ = true ∧ ∃ c, h.get? ⟨i⟩ = some c ∧ r ∈ c.refs := by
  rw [markHeld, get?]
  split
  next c hc =>
    rw [hc]
    simp only [Option.some.injEq, exists_eq_left', isMarked]
    split
    next hm =>
      rw [← isMarked, isMarked_marks]
      simp [hm, isMarked, and_comm]
    next hm => simp [hm]
  next hc => simp [hc]

theorem size_supported (h : Heap) (roots : List Ref) (m : Marks) :
    (h.supported roots m).size = h.size := by
  have hfold (is : List Nat) (next : Marks) :
      (is.foldl (h.markHeld m) next).size = next.size := by
    induction is generalizing next with
    | nil => rfl
    | cons i is ih => rw [List.foldl_cons, ih, size_markHeld]
  rw [supported, hfold, size_marks, Array.size_replicate]

/-- A round marks what is held from outside or by a marked container. -/
theorem isMarked_supported {h : Heap} {roots : List Ref} {m : Marks} {r : Ref} :
    isMarked (h.supported roots m) r = true ↔ r.index < h.size ∧
      (r ∈ roots ∨ ∃ d c, isMarked m d = true ∧ h.get? d = some c ∧ r ∈ c.refs) := by
  have hfold (is : List Nat) (next : Marks) : isMarked (is.foldl (h.markHeld m) next) r = true ↔
      isMarked next r = true ∨ r.index < next.size ∧
        ∃ i ∈ is, isMarked m ⟨i⟩ = true ∧ ∃ c, h.get? ⟨i⟩ = some c ∧ r ∈ c.refs := by
    induction is generalizing next with
    | nil => simp
    | cons i is ih =>
      rw [List.foldl_cons, ih, isMarked_markHeld, size_markHeld]
      simp only [List.mem_cons, exists_eq_or_imp, and_or_left, or_assoc]
  rw [supported, hfold, isMarked_marks, isMarked_replicate_false, size_marks, Array.size_replicate]
  simp only [Bool.false_eq_true, false_or, List.mem_range]
  constructor
  · rintro (⟨hr, hlt⟩ | ⟨hlt, i, _, hm, c, hc, hr⟩)
    · exact ⟨hlt, .inl hr⟩
    · exact ⟨hlt, .inr ⟨⟨i⟩, c, hm, hc, hr⟩⟩
  · rintro ⟨hlt, hr | ⟨d, c, hm, hc, hr⟩⟩
    · exact .inl ⟨hr, hlt⟩
    · exact .inr ⟨hlt, d.index, index_lt_of_get? hc, hm, c, hc, hr⟩

/-- A round keeps every supported set marked. -/
theorem Supported.settle {h : Heap} {roots : List Ref} {s : Ref → Prop} (hs : h.Supported roots s)
    (fuel : Nat) {m : Marks} (hm : ∀ r, s r → r.index < h.size → isMarked m r = true) {r : Ref}
    (hr : s r) (hlt : r.index < h.size) : isMarked (h.settle roots fuel m) r = true := by
  induction fuel generalizing m with
  | zero => exact hm r hr hlt
  | succ fuel ih =>
    rw [Heap.settle]
    split
    · exact hm r hr hlt
    · apply ih
      intro q hq hqlt
      rw [isMarked_supported]
      refine ⟨hqlt, ?_⟩
      rcases hs q hq with hq | ⟨d, c, hd, hc, hq⟩
      · exact .inl hq
      · exact .inr ⟨d, c, hm d hd (index_lt_of_get? hc), hc, hq⟩

def markedIndices (m : Marks) : Finset Nat :=
  (Finset.range m.size).filter fun i => isMarked m ⟨i⟩ = true

theorem card_markedIndices_le (m : Marks) : (markedIndices m).card ≤ m.size :=
  (Finset.card_filter_le ..).trans_eq (Finset.card_range _)

theorem card_markedIndices_supported_lt {h : Heap} {roots : List Ref} {m : Marks}
    (hsize : m.size = h.size)
    (hle : ∀ r, isMarked (h.supported roots m) r = true → isMarked m r = true)
    (hne : h.supported roots m ≠ m) :
    (markedIndices (h.supported roots m)).card < (markedIndices m).card := by
  apply Finset.card_lt_card
  rw [Finset.ssubset_iff_of_subset]
  · by_contra hall
    simp only [not_exists, not_and, not_not] at hall
    apply hne
    apply marks_ext
    · rw [size_supported, hsize]
    · intro r
      refine ⟨hle r, fun hr => ?_⟩
      have hi : r.index ∈ markedIndices m :=
        Finset.mem_filter.2 ⟨Finset.mem_range.2 (index_lt_of_isMarked hr), hr⟩
      exact (Finset.mem_filter.1 (hall r.index hi)).2
  · intro i hi
    simp only [markedIndices, Finset.mem_filter, Finset.mem_range] at hi ⊢
    have := hle ⟨i⟩ hi.2
    exact ⟨index_lt_of_isMarked this, this⟩

/-- With a round for every marked container and one more, the marked containers that are left are
supported. -/
theorem supported_settle {h : Heap} {roots : List Ref} {fuel : Nat} {m : Marks}
    (hsize : m.size = h.size)
    (hle : ∀ r, isMarked (h.supported roots m) r = true → isMarked m r = true)
    (hfuel : (markedIndices m).card < fuel) :
    h.Supported roots fun r => isMarked (h.settle roots fuel m) r = true := by
  induction fuel generalizing m with
  | zero => exact absurd hfuel (Nat.not_lt_zero _)
  | succ fuel ih =>
    intro r hr
    rw [Heap.settle] at hr ⊢
    by_cases he : h.supported roots m = m
    · simp only [he, ↓reduceIte] at hr ⊢
      rw [← he, isMarked_supported] at hr
      exact hr.2
    · simp only [he, ↓reduceIte] at hr ⊢
      have hlt := card_markedIndices_supported_lt hsize hle he
      refine ih (size_supported ..) ?_ (by omega) r hr
      intro q hq
      rw [isMarked_supported] at hq ⊢
      refine ⟨hq.1, hq.2.imp_right ?_⟩
      rintro ⟨d, c, hd, hc, hr⟩
      exact ⟨d, c, hle d hd, hc, hr⟩

theorem supported_alive (h : Heap) (roots : List Ref) :
    h.Supported roots fun r => isMarked (h.alive roots) r = true := by
  apply supported_settle Array.size_replicate
  · intro r hr
    exact (isMarked_replicate_true ..).2 (isMarked_supported.1 hr).1
  · have hle := card_markedIndices_le (Array.replicate h.size true)
    rw [Array.size_replicate] at hle
    exact Nat.lt_succ_of_le hle

theorem reached_of_visit {h : Heap} {roots rs : List Ref} {state : Marks × List Ref}
    (hm : ∀ r, isMarked state.1 r = true → h.Reached roots r)
    (hl : ∀ r ∈ state.2, h.Reached roots r) (hrs : ∀ r ∈ rs, h.Reached roots r) :
    (∀ r, isMarked (rs.foldl h.visit state).1 r = true → h.Reached roots r) ∧
      ∀ r ∈ (rs.foldl h.visit state).2, h.Reached roots r := by
  induction rs generalizing state with
  | nil => exact ⟨hm, hl⟩
  | cons q rs ih =>
    have hq := hrs q (List.mem_cons_self ..)
    rw [List.foldl_cons]
    have hstep : (∀ r, isMarked (h.visit state q).1 r = true → h.Reached roots r) ∧
        ∀ r ∈ (h.visit state q).2, h.Reached roots r := by
      rw [visit]
      split
      · exact ⟨hm, hl⟩
      · constructor
        · intro r hr
          rcases isMarked_mark.1 hr with hr | ⟨rfl, _⟩
          · exact hm r hr
          · exact hq
        · intro r hr
          rcases List.mem_append.1 hr with hr | hr
          · cases hc : h.get? q with
            | none => simp [hc] at hr
            | some c =>
              simp only [hc, Option.elim_some] at hr
              exact .slot hq hc hr
          · exact hl r hr
    exact ih hstep.1 hstep.2 fun r hr => hrs r (List.mem_cons_of_mem _ hr)

theorem reached_of_spread {h : Heap} {roots : List Ref} {fuel : Nat} {m : Marks} {rs : List Ref}
    (hm : ∀ r, isMarked m r = true → h.Reached roots r) (hrs : ∀ r ∈ rs, h.Reached roots r)
    {r : Ref} (hr : isMarked (h.spread fuel m rs) r = true) : h.Reached roots r := by
  induction fuel generalizing m rs with
  | zero => exact hm r hr
  | succ fuel ih =>
    cases rs with
    | nil => exact hm r hr
    | cons q rs =>
      have hnil : ∀ r ∈ (m, ([] : List Ref)).2, h.Reached roots r := by simp
      obtain ⟨hm', hrs'⟩ := reached_of_visit hm hnil hrs
      exact ih hm' hrs' hr

theorem reached_of_isMarked_reachable {h : Heap} {roots : List Ref} {r : Ref}
    (hr : isMarked (h.reachable roots) r = true) : h.Reached roots r := by
  apply reached_of_spread _ _ hr
  · intro q hq
    rw [isMarked_replicate_false] at hq
    cases hq
  · exact fun q hq => .root hq

theorem isAlive_of_supported {h : Heap} {roots : List Ref} {s : Ref → Prop} {r : Ref}
    (hs : h.Supported roots s) (hr : s r) (hlt : r.index < h.size) :
    h.isAlive roots r = true := by
  have hm : isMarked (h.alive roots) r = true :=
    hs.settle _ (fun q _ hq => (isMarked_replicate_true ..).2 hq) hr hlt
  simp [isAlive, hm]

theorem supported_of_isAlive {h : Heap} {roots : List Ref} {r : Ref}
    (hr : h.isAlive roots r = true) : ∃ s, h.Supported roots s ∧ s r := by
  simp only [isAlive, Bool.or_eq_true, List.contains_iff_mem] at hr
  rcases hr with (hr | hr) | hr
  · exact ⟨_, supported_reached h roots, .root hr⟩
  · exact ⟨_, supported_reached h roots, reached_of_isMarked_reachable hr⟩
  · exact ⟨_, supported_alive h roots, hr⟩

theorem isAlive_of_mem {h : Heap} {roots : List Ref} {r : Ref} (hr : r ∈ roots) :
    h.isAlive roots r = true := by
  simp [isAlive, hr]

theorem isAlive_of_reached {h : Heap} {roots : List Ref} {r : Ref} (hr : h.Reached roots r)
    (hlt : r.index < h.size) : h.isAlive roots r = true :=
  isAlive_of_supported (supported_reached h roots) hr hlt

theorem isAlive_of_refs {h : Heap} {roots : List Ref} {d r : Ref} (hd : h.isAlive roots d = true)
    (hc : h.get? d = some c) (hr : r ∈ c.refs) (hlt : r.index < h.size) :
    h.isAlive roots r = true := by
  obtain ⟨s, hs, hsd⟩ := supported_of_isAlive hd
  refine isAlive_of_supported (s := fun q => s q ∨ q = r) ?_ (.inr rfl) hlt
  rintro q (hq | rfl)
  · rcases hs q hq with hq | ⟨d', c', hd', hc', hq⟩
    · exact .inl hq
    · exact .inr ⟨d', c', .inl hd', hc', hq⟩
  · exact .inr ⟨d, c, .inl hsd, hc, hr⟩

end Heap

end LiveDoc
