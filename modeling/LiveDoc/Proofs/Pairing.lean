import LiveDoc.Value.Tree
import LiveDoc.Value.Heap
import Mathlib.Data.List.Forall2

namespace LiveDoc

theorem forall₂_of_mem {R S : α → β → Prop} {xs : List α} {ys : List β} (h : List.Forall₂ R xs ys)
    (hi : ∀ x ∈ xs, ∀ y, R x y → S x y) : List.Forall₂ S xs ys := by
  rw [List.forall₂_iff_zip]
  exact ⟨h.length_eq, fun hz => hi _ (List.of_mem_zip hz).1 _ (List.forall₂_zip h hz)⟩

theorem exists_forall₂ {R : α → β → Prop} {xs : List α} (h : ∀ x ∈ xs, ∃ y, R x y) :
    ∃ ys, List.Forall₂ R xs ys := by
  induction xs with
  | nil => exact ⟨[], .nil⟩
  | cons x xs ih =>
    obtain ⟨⟨y, hy⟩, hxs⟩ := List.forall_mem_cons.1 h
    obtain ⟨ys, hys⟩ := ih hxs
    exact ⟨y :: ys, .cons hy hys⟩

theorem exists_left_of_forall₂ {R : α → β → Prop} {xs : List α} {ys : List β}
    (h : List.Forall₂ R xs ys) : ∀ y ∈ ys, ∃ x ∈ xs, R x y := by
  induction h with
  | nil => nofun
  | @cons x y xs ys hxy _ ih =>
    intro z hz
    rcases List.mem_cons.1 hz with rfl | hz
    · exact ⟨x, List.mem_cons_self .., hxy⟩
    · obtain ⟨w, hw, hwz⟩ := ih z hz
      exact ⟨w, List.mem_cons_of_mem _ hw, hwz⟩

theorem forall₂_of_common {R : α → γ → Prop} {S : β → γ → Prop} {T : α → β → Prop} {xs : List α}
    {ys : List β} {zs : List γ} (h : List.Forall₂ R xs zs) (h' : List.Forall₂ S ys zs)
    (hi : ∀ x y z, R x z → S y z → T x y) : List.Forall₂ T xs ys := by
  induction h generalizing ys with
  | nil =>
    cases h'
    exact .nil
  | cons hx _ ih =>
    cases h' with
    | cons hy hys => exact .cons (hi _ _ _ hx hy) (ih hys)

def Slots.Rel (R : α → β → Prop) (slots : Slots α) (slots' : Slots β) : Prop :=
  List.Forall₂ (fun s s' => s.1 = s'.1 ∧ R s.2 s'.2) slots slots'

namespace Slots.Rel

theorem imp {R S : α → β → Prop} {slots : Slots α} {slots' : Slots β} (h : Rel R slots slots')
    (hi : ∀ a b, R a b → S a b) : Rel S slots slots' :=
  List.Forall₂.imp (fun _ _ h => ⟨h.1, hi _ _ h.2⟩) h

theorem keys {R : α → β → Prop} {slots : Slots α} {slots' : Slots β} (h : Rel R slots slots') :
    slots.keys = slots'.keys := by
  induction h with
  | nil => rfl
  | cons h _ ih => exact congrArg₂ _ h.1 ih

theorem values {R : α → β → Prop} {slots : Slots α} {slots' : Slots β} (h : Rel R slots slots') :
    List.Forall₂ R slots.values slots'.values := by
  induction h with
  | nil => exact .nil
  | cons h _ ih => exact .cons h.2 ih

theorem get? {R : α → β → Prop} {slots : Slots α} {slots' : Slots β} (h : Rel R slots slots')
    (key : String) : Option.Rel R (slots.get? key) (slots'.get? key) := by
  induction h with
  | nil => exact .none
  | @cons s s' _ _ h _ ih =>
    obtain ⟨k, a⟩ := s
    obtain ⟨k', b⟩ := s'
    obtain ⟨rfl, hab⟩ := h
    rw [get?_cons, get?_cons]
    split
    · exact .some hab
    · exact ih

theorem put {R : α → β → Prop} {slots : Slots α} {slots' : Slots β} (h : Rel R slots slots')
    (key : String) {a : α} {b : β} (hab : R a b) : Rel R (slots.put key a) (slots'.put key b) := by
  induction h with
  | nil => exact .cons ⟨rfl, hab⟩ .nil
  | @cons s s' _ _ h hr ih =>
    obtain ⟨k, a'⟩ := s
    obtain ⟨k', b'⟩ := s'
    obtain ⟨rfl, hab'⟩ := h
    rw [Slots.put, Slots.put]
    split
    · exact .cons ⟨rfl, hab⟩ hr
    · exact .cons ⟨rfl, hab'⟩ ih

end Slots.Rel

end LiveDoc
