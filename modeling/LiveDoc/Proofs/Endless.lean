import LiveDoc.Proofs.Liveness
import LiveDoc.Value.Text
import Mathlib.Combinatorics.Pigeonhole
import Mathlib.Logic.Relation

namespace LiveDoc.Heap

/-- A sequence holds a container as an element. -/
def Nests (h : Heap) (r s : Ref) : Prop :=
  ∃ items, h.get? r = some (.sequence items) ∧ .container s ∈ items.toList

/-- The elements of a value, and their elements, lead to a sequence that contains itself. -/
def IsEndless (h : Heap) (v : Value) : Prop :=
  ∃ q r, v = .container q ∧ Relation.ReflTransGen h.Nests q r ∧ Relation.TransGen h.Nests r r

theorem exists_mem_of_mapM_eq_none {f : α → Option β} {xs : List α} (h : xs.mapM f = none) :
    ∃ x ∈ xs, f x = none := by
  induction xs with
  | nil => simp at h
  | cons x xs ih =>
    cases hx : f x with
    | none => exact ⟨x, List.mem_cons_self .., hx⟩
    | some y =>
      cases hxs : xs.mapM f with
      | none =>
        obtain ⟨z, hz, hfz⟩ := ih hxs
        exact ⟨z, List.mem_cons_of_mem _ hz, hfz⟩
      | some ys => simp [List.mapM_cons, hx, hxs] at h

/-- A value whose text nests deeper than a number begins a way of that length through sequences. -/
theorem exists_path_of_textIn {h : Heap} {depth : Nat} {v : Value} (hv : h.textIn depth v = none) :
    ∃ path : Nat → Ref, v = .container (path 0) ∧
      (∀ i < depth, h.Nests (path i) (path (i + 1))) ∧
      ∀ i ≤ depth, (path i).index < h.size := by
  induction depth generalizing v with
  | zero =>
    cases v with
    | container r =>
      simp only [textIn] at hv
      split at hv
      next items hr =>
        refine ⟨fun _ => r, rfl, by simp, fun _ _ => index_lt_of_get? hr⟩
      · cases hv
    | _ => simp [textIn] at hv
  | succ depth ih =>
    cases v with
    | container r =>
      simp only [textIn] at hv
      split at hv
      next items hr =>
        obtain ⟨w, hw, hwtext⟩ := exists_mem_of_mapM_eq_none (Option.map_eq_none_iff.1 hv)
        split at hwtext
        · cases hwtext
        · obtain ⟨path, rfl, hnests, hlt⟩ := ih hwtext
          refine ⟨fun i => Nat.casesOn (motive := fun _ => Ref) i r path, rfl, ?_, ?_⟩
          · intro i hi
            cases i with
            | zero => exact ⟨items, hr, hw⟩
            | succ i => exact hnests i (Nat.lt_of_succ_lt_succ hi)
          · intro i hi
            cases i with
            | zero => exact index_lt_of_get? hr
            | succ i => exact hlt i (Nat.le_of_succ_le_succ hi)
      · cases hv
    | _ => simp [textIn] at hv

section

variable {h : Heap} {path : Nat → Ref} {n i j : Nat}

theorem reflTransGen_of_path (hnests : ∀ i < n, h.Nests (path i) (path (i + 1))) (hij : i ≤ j)
    (hj : j ≤ n) : Relation.ReflTransGen h.Nests (path i) (path j) := by
  induction j, hij using Nat.le_induction with
  | base => exact .refl
  | succ j _ ih => exact (ih (by omega)).tail (hnests j (by omega))

theorem isEndless_of_path (hnests : ∀ i < n, h.Nests (path i) (path (i + 1))) (hij : i < j)
    (hj : j ≤ n) (he : path i = path j) : h.IsEndless (.container (path 0)) := by
  have hto : Relation.ReflTransGen h.Nests (path 0) (path i) :=
    reflTransGen_of_path hnests (Nat.zero_le i) (by omega)
  have hround : Relation.ReflTransGen h.Nests (path (i + 1)) (path j) :=
    reflTransGen_of_path hnests hij hj
  rw [← he] at hround
  exact ⟨path 0, path i, rfl, hto, .head' (hnests i (by omega)) hround⟩

end

/-- A value without a text leads to a sequence that contains itself, as there are fewer containers
than a way would need that visits none twice. -/
theorem isEndless_of_text? {h : Heap} {v : Value} (hv : h.text? v = none) : h.IsEndless v := by
  obtain ⟨path, rfl, hnests, hlt⟩ := exists_path_of_textIn hv
  have hmaps : Set.MapsTo (fun i => (path i).index) ↑(Finset.range (h.size + 1))
      ↑(Finset.range h.size) := by
    intro i hi
    simp only [Finset.coe_range, Set.mem_Iio] at hi ⊢
    exact hlt i (Nat.le_of_lt_succ hi)
  obtain ⟨i, hi, j, hj, hne, he⟩ :=
    Finset.exists_ne_map_eq_of_card_lt_of_maps_to (by simp) hmaps
  rw [Finset.mem_range] at hi hj
  have hpath : path i = path j := congrArg Ref.mk he
  rcases Nat.lt_or_gt_of_ne hne with hlt | hgt
  · exact isEndless_of_path hnests hlt (by omega) hpath
  · exact isEndless_of_path hnests hgt (by omega) hpath.symm

end LiveDoc.Heap
