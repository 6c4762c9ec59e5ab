namespace LiveDoc

abbrev Slots (α : Type) := List (String × α)

namespace Slots

def keys (slots : Slots α) : List String := slots.map (·.1)

def values (slots : Slots α) : List α := slots.map (·.2)

def get? (slots : Slots α) (key : String) : Option α := slots.lookup key

/-- Writes a slot: in its place if there is one with this name, and else at the end. -/
def put (slots : Slots α) (key : String) (value : α) : Slots α :=
  match slots with
  | [] => [(key, value)]
  | (k, v) :: rest => if k = key then (k, value) :: rest else (k, v) :: put rest key value

def erase (slots : Slots α) (key : String) : Slots α :=
  slots.filter (·.1 ≠ key)

theorem get?_cons (k : String) (v : α) (slots : Slots α) (key : String) :
    get? ((k, v) :: slots) key = if key = k then some v else get? slots key := by
  simp only [get?, List.lookup_cons]
  split <;> simp_all

theorem get?_put_self (slots : Slots α) (key : String) (value : α) :
    get? (put slots key value) key = some value := by
  induction slots with
  | nil => simp [put, get?_cons]
  | cons slot rest ih =>
    cases slot with
    | mk k v =>
      rw [put]
      by_cases h : k = key
      · simp [h, get?_cons]
      · rw [if_neg h, get?_cons, if_neg (Ne.symm h), ih]

theorem get?_put_of_ne (slots : Slots α) {key other : String} (value : α) (hne : other ≠ key) :
    get? (put slots key value) other = get? slots other := by
  induction slots with
  | nil => simp [put, get?_cons, hne]
  | cons slot rest ih =>
    cases slot with
    | mk k v =>
      rw [put]
      by_cases h : k = key
      · subst h
        simp [get?_cons, hne]
      · rw [if_neg h, get?_cons, get?_cons, ih]

theorem mem_keys_of_get? {slots : Slots α} {key : String} {value : α}
    (h : slots.get? key = some value) : key ∈ slots.keys := by
  induction slots with
  | nil => cases h
  | cons slot rest ih =>
    cases slot with
    | mk k v =>
      rw [get?_cons] at h
      split at h
      next heq => simp [keys, heq]
      next => exact List.mem_cons_of_mem _ (ih h)

theorem mem_values_of_get? {slots : Slots α} {key : String} {value : α}
    (h : slots.get? key = some value) : value ∈ slots.values := by
  induction slots with
  | nil => cases h
  | cons slot rest ih =>
    cases slot with
    | mk k v =>
      rw [get?_cons] at h
      split at h
      · cases h
        exact List.mem_cons_self ..
      · exact List.mem_cons_of_mem _ (ih h)

theorem mem_values_put {slots : Slots α} {key : String} {value v : α}
    (h : v ∈ (put slots key value).values) : v = value ∨ v ∈ slots.values := by
  induction slots with
  | nil => exact .inl (List.mem_singleton.1 h)
  | cons slot rest ih =>
    cases slot with
    | mk k w =>
      rw [put] at h
      split at h
      · rcases List.mem_cons.1 h with h | h
        · exact .inl h
        · exact .inr (List.mem_cons_of_mem _ h)
      · rcases List.mem_cons.1 h with h | h
        · exact .inr (h ▸ List.mem_cons_self ..)
        · exact (ih h).imp_right (List.mem_cons_of_mem _)

theorem values_erase_subset (slots : Slots α) (key : String) :
    (erase slots key).values ⊆ slots.values :=
  List.map_subset _ (List.filter_sublist.subset)

theorem keys_put (slots : Slots α) (key : String) (value : α) :
    keys (put slots key value) =
      if key ∈ keys slots then keys slots else keys slots ++ [key] := by
  induction slots with
  | nil => rfl
  | cons slot rest ih =>
    cases slot with
    | mk k v =>
      rw [put]
      by_cases h : k = key
      · simp [h, keys]
      · rw [if_neg h]
        simp only [keys, List.map_cons, List.mem_cons] at ih ⊢
        rw [ih]
        by_cases hm : key ∈ rest.map (·.1) <;> simp [hm, Ne.symm h]

end Slots

end LiveDoc
