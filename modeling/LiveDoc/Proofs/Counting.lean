import LiveDoc.Proofs.Liveness
import Mathlib.Data.List.Perm.Subperm

namespace LiveDoc.Heap

/-- The strong handles that are left after some containers were dropped: those from outside, and
the slots of the other containers. -/
def handles (h : Heap) (roots dropped : List Ref) : List Ref :=
  roots ++ (List.range h.size).flatMap fun i =>
    if ⟨i⟩ ∈ dropped then [] else (h.get? ⟨i⟩).elim [] Container.refs

def strongCount (h : Heap) (roots dropped : List Ref) (r : Ref) : Nat :=
  (h.handles roots dropped).count r

/-- Cascades: one container after the other is dropped, when it has no handle left. -/
inductive Drops (h : Heap) (roots : List Ref) : List Ref → Prop
  | none : Drops h roots []
  | next (hd : Drops h roots dropped) (hlt : r.index < h.size) (hnew : r ∉ dropped)
    (hr : h.strongCount roots dropped r = 0) : Drops h roots (r :: dropped)

section

variable {h : Heap} {roots dropped : List Ref} {r : Ref}

theorem mem_handles : r ∈ h.handles roots dropped ↔
    r ∈ roots ∨ ∃ d c, d ∉ dropped ∧ h.get? d = some c ∧ r ∈ c.refs := by
  simp only [handles, List.mem_append, List.mem_flatMap, List.mem_range]
  apply or_congr_right
  constructor
  · rintro ⟨i, -, hr⟩
    split at hr
    · cases hr
    next hd =>
      cases hc : h.get? ⟨i⟩ with
      | none => simp [hc] at hr
      | some c => exact ⟨⟨i⟩, c, hd, hc, by simpa [hc] using hr⟩
  · rintro ⟨d, c, hd, hc, hr⟩
    exact ⟨d.index, index_lt_of_get? hc, by simpa [hd, hc] using hr⟩

theorem strongCount_eq_zero :
    h.strongCount roots dropped r = 0 ↔ r ∉ h.handles roots dropped :=
  List.count_eq_zero

namespace Drops

/-- Containers that support each other keep a handle each. -/
theorem not_mem_of_supported (hd : h.Drops roots dropped) {s : Ref → Prop}
    (hs : h.Supported roots s) (hr : s r) : r ∉ dropped := by
  induction hd generalizing r with
  | none => exact List.not_mem_nil
  | next _ _ _ hzero ih =>
    intro hmem
    rcases List.mem_cons.1 hmem with rfl | hmem
    · apply strongCount_eq_zero.1 hzero
      rw [mem_handles]
      rcases hs r hr with hroot | ⟨d, c, hd, hc, hrc⟩
      · exact .inl hroot
      · exact .inr ⟨d, c, ih hd, hc, hrc⟩
    · exact ih hr hmem

theorem nodup (hd : h.Drops roots dropped) : dropped.Nodup := by
  induction hd with
  | none => exact .nil
  | next _ _ hnew _ ih => exact List.nodup_cons.2 ⟨hnew, ih⟩

theorem index_lt (hd : h.Drops roots dropped) (hr : r ∈ dropped) : r.index < h.size := by
  induction hd with
  | none => cases hr
  | next _ hlt _ _ ih =>
    rcases List.mem_cons.1 hr with rfl | hr
    · exact hlt
    · exact ih hr

theorem length_le (hd : h.Drops roots dropped) : dropped.length ≤ h.size := by
  have hsub : dropped ⊆ (List.range h.size).map Ref.mk := by
    intro r hr
    exact List.mem_map.2 ⟨r.index, List.mem_range.2 (hd.index_lt hr), rfl⟩
  have hle := (hd.nodup.subperm hsub).length_le
  simpa using hle

/-- A cascade goes on until every container that is left has a handle. -/
theorem exists_settled (hd : h.Drops roots dropped) : ∃ all, h.Drops roots all ∧
    ∀ r, r.index < h.size → r ∉ all → h.strongCount roots all r ≠ 0 := by
  induction hn : h.size - dropped.length using Nat.strong_induction_on generalizing dropped with
  | _ n ih =>
    by_cases hall : ∀ r, r.index < h.size → r ∉ dropped → h.strongCount roots dropped r ≠ 0
    · exact ⟨dropped, hd, hall⟩
    · push Not at hall
      obtain ⟨r, hlt, hnew, hr⟩ := hall
      have hnext := hd.next hlt hnew hr
      have hlength := hnext.length_le
      rw [List.length_cons] at hlength
      exact ih (h.size - (r :: dropped).length) (by rw [List.length_cons]; omega) hnext rfl

end Drops

theorem isAlive_iff (hlt : r.index < h.size) :
    h.isAlive roots r = true ↔ ∀ dropped, h.Drops roots dropped → r ∉ dropped := by
  constructor
  · intro hr dropped hd
    obtain ⟨s, hs, hsr⟩ := supported_of_isAlive hr
    exact hd.not_mem_of_supported hs hsr
  · intro hall
    have hnone : h.Drops roots [] := .none
    obtain ⟨all, hd, hsettled⟩ := hnone.exists_settled
    have hs : h.Supported roots fun q => q.index < h.size ∧ q ∉ all := by
      rintro q ⟨hqlt, hq⟩
      have hmem := not_not.1 (mt strongCount_eq_zero.2 (hsettled q hqlt hq))
      rcases mem_handles.1 hmem with hroot | ⟨d, c, hd, hc, hqc⟩
      · exact .inl hroot
      · exact .inr ⟨d, c, ⟨index_lt_of_get? hc, hd⟩, hc, hqc⟩
    exact isAlive_of_supported hs ⟨hlt, hall all hd⟩ hlt

end

/-- A container that no cascade gets to, and that all functions find that are bound to it, whatever
else is held. -/
structure Stays (h : Heap) (roots : List Ref) (r : Ref) : Prop where
  kept : ∀ dropped, h.Drops roots dropped → r ∉ dropped
  found : ∀ f : Function, f.receiver = some r → ∀ held, roots ⊆ held →
    h.receiver held f = .container r

theorem isAlive_mono {h : Heap} {roots held : List Ref} (hs : roots ⊆ held) {r : Ref}
    (hlt : r.index < h.size) (hr : h.isAlive roots r = true) : h.isAlive held r = true := by
  obtain ⟨s, hsupported, hsr⟩ := supported_of_isAlive hr
  exact isAlive_of_supported (fun q hq => (hsupported q hq).imp_left fun hq => hs hq) hsr hlt

theorem stays_of_isAlive {h : Heap} {roots : List Ref} {r : Ref} (hlt : r.index < h.size)
    (hr : h.isAlive roots r = true) : h.Stays roots r := by
  refine ⟨(isAlive_iff hlt).1 hr, fun f hf held hs => ?_⟩
  rw [receiver, hf]
  simp only [isAlive_mono hs hlt hr, ↓reduceIte]

end LiveDoc.Heap
