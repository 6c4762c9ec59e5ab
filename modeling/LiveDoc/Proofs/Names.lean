import LiveDoc.Value.Slots
import Mathlib.Data.List.Nodup
import Mathlib.Data.List.Perm.Subperm

namespace LiveDoc.Slots

theorem exists_get?_of_mem_keys {slots : Slots α} {key : String} (h : key ∈ slots.keys) :
    ∃ value, slots.get? key = some value := by
  induction slots with
  | nil => cases h
  | cons slot rest ih =>
    obtain ⟨k, v⟩ := slot
    rw [get?_cons]
    split
    · exact ⟨v, rfl⟩
    next hne => exact ih ((List.mem_cons.1 h).resolve_left hne)

theorem mem_of_get? {slots : Slots α} {key : String} {value : α}
    (h : slots.get? key = some value) : (key, value) ∈ slots := by
  induction slots with
  | nil => cases h
  | cons slot rest ih =>
    obtain ⟨k, v⟩ := slot
    rw [get?_cons] at h
    split at h
    next heq =>
      cases h
      rw [heq]
      exact List.mem_cons_self ..
    next => exact List.mem_cons_of_mem _ (ih h)

theorem get?_of_mem {slots : Slots α} (hkeys : slots.keys.Nodup) {slot : String × α}
    (h : slot ∈ slots) : slots.get? slot.1 = some slot.2 := by
  induction slots with
  | nil => cases h
  | cons first rest ih =>
    obtain ⟨k, v⟩ := first
    obtain ⟨hk, hrest⟩ := List.nodup_cons.1 hkeys
    rw [get?_cons]
    rcases List.mem_cons.1 h with rfl | hmem
    · exact if_pos rfl
    · have hkey : slot.1 ∈ keys rest := List.mem_map_of_mem hmem
      rw [if_neg fun heq : slot.1 = k => hk (heq ▸ hkey), ih hrest hmem]

theorem put_of_not_mem {slots : Slots α} {key : String} (h : key ∉ slots.keys) (value : α) :
    slots.put key value = slots ++ [(key, value)] := by
  induction slots with
  | nil => rfl
  | cons slot rest ih =>
    obtain ⟨k, v⟩ := slot
    have hne : ¬k = key := fun heq => h (heq ▸ List.mem_cons_self ..)
    rw [put, if_neg hne, ih fun hrest => h (List.mem_cons_of_mem _ hrest)]
    rfl

theorem nodup_put {slots : Slots α} {key : String} {value : α} (h : slots.keys.Nodup) :
    (slots.put key value).keys.Nodup := by
  rw [keys_put]
  split
  · exact h
  next hm => exact List.nodup_append.2 ⟨h, List.nodup_singleton _, by grind⟩

theorem mem_put {slots : Slots α} (hkeys : slots.keys.Nodup) {key : String} {value : α}
    {slot : String × α} (h : slot ∈ slots.put key value) :
    slot = (key, value) ∨ slot.1 ≠ key ∧ slot ∈ slots := by
  have hget := get?_of_mem (nodup_put hkeys) h
  by_cases hkey : slot.1 = key
  · rw [hkey, get?_put_self] at hget
    exact .inl (Prod.ext hkey (Option.some.inj hget).symm)
  · rw [get?_put_of_ne _ _ hkey] at hget
    exact .inr ⟨hkey, mem_of_get? hget⟩

theorem exists_get?_comm {R : α → β → Prop} {as : Slots α} {bs : Slots β}
    (ha : as.keys.Nodup) (hb : bs.keys.Nodup) (hlength : as.length = bs.length)
    (h : ∀ e ∈ as, ∃ b, bs.get? e.1 = some b ∧ R e.2 b) :
    ∀ e ∈ bs, ∃ a, as.get? e.1 = some a ∧ R a e.2 := by
  have hsubset : as.keys ⊆ bs.keys := by
    intro key hkey
    obtain ⟨e, he, rfl⟩ := List.mem_map.1 hkey
    obtain ⟨b, hb, -⟩ := h e he
    exact mem_keys_of_get? hb
  have hperm : as.keys.Perm bs.keys :=
    (ha.subperm hsubset).perm_of_length_le (by simp [keys, hlength])
  intro e he
  obtain ⟨a, hget⟩ := exists_get?_of_mem_keys (hperm.symm.subset (List.mem_map_of_mem he))
  obtain ⟨b, hb', hab⟩ := h _ (mem_of_get? hget)
  cases (get?_of_mem hb he).symm.trans hb'
  exact ⟨a, hget, hab⟩

theorem get?_of_perm {slots slots' : Slots α} (hkeys : slots.keys.Nodup)
    (h : slots.Perm slots') (key : String) : slots'.get? key = slots.get? key := by
  have hkeys' : slots'.keys.Nodup := (h.map _).nodup_iff.1 hkeys
  cases hget : slots.get? key with
  | some value => exact get?_of_mem hkeys' (h.subset (mem_of_get? hget))
  | none =>
    cases hget' : slots'.get? key with
    | none => rfl
    | some value =>
      have hmem := h.symm.subset (mem_of_get? hget')
      cases hget.symm.trans (get?_of_mem hkeys hmem)

end LiveDoc.Slots
