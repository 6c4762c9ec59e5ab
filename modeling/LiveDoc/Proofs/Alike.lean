import LiveDoc.Proofs.Pairing
import Mathlib.Logic.Relator

namespace LiveDoc

structure Function.Alike (ρ : Ref → Ref → Prop) (f f' : Function) : Prop where
  params : f.params = f'.params
  source : f.source = f'.source
  body : f.definition.body = f'.definition.body
  receiver : Option.Rel ρ f.receiver f'.receiver

/-- Values that differ in related containers only. -/
inductive Value.Alike (ρ : Ref → Ref → Prop) : Value → Value → Prop
  | data {v : Value} : v.IsData → Alike ρ v v
  | container {r r' : Ref} : ρ r r' → Alike ρ (.container r) (.container r')
  | function {f f' : Function} : f.Alike ρ f' → Alike ρ (.function f) (.function f')
  | accessor {a a' : Accessor} : Option.Rel (Function.Alike ρ) a.getter a'.getter →
    Option.Rel (Function.Alike ρ) a.setter a'.setter → Alike ρ (.accessor a) (.accessor a')

inductive Container.Alike (ρ : Ref → Ref → Prop) : Container → Container → Prop
  | mapping {entries entries' : Entries} : Slots.Rel (Value.Alike ρ) entries entries' →
    Alike ρ (.mapping entries) (.mapping entries')
  | sequence {items items' : Array Value} :
    List.Forall₂ (Value.Alike ρ) items.toList items'.toList →
      Alike ρ (.sequence items) (.sequence items')

/-- Each container has one partner at most, with contents that are alike. -/
structure Heap.Renames (ρ : Ref → Ref → Prop) (h h' : Heap) : Prop where
  biUnique : Relator.BiUnique ρ
  contents : ∀ r r', ρ r r' →
    ∃ k k', h.get? r = some k ∧ h'.get? r' = some k' ∧ k.Alike ρ k'

/-- Values that are alike with all that they hold. -/
def Value.Isomorphic (h : Heap) (v : Value) (h' : Heap) (v' : Value) : Prop :=
  ∃ ρ, h.Renames ρ h' ∧ v.Alike ρ v'

theorem rel_imp {R S : α → β → Prop} (hi : ∀ a b, R a b → S a b) {o : Option α} {o' : Option β}
    (h : Option.Rel R o o') : Option.Rel S o o' := by
  cases h with
  | none => exact .none
  | some h => exact .some (hi _ _ h)

section

variable {ρ σ : Ref → Ref → Prop} (hρ : ∀ r r', ρ r r' → σ r r')
include hρ

theorem Function.Alike.mono {f f' : Function} (h : f.Alike ρ f') : f.Alike σ f' where
  params := h.params
  source := h.source
  body := h.body
  receiver := rel_imp hρ h.receiver

theorem Value.Alike.mono {v v' : Value} (h : v.Alike ρ v') : v.Alike σ v' := by
  cases h with
  | data h => exact .data h
  | container h => exact .container (hρ _ _ h)
  | function h => exact .function (h.mono hρ)
  | accessor hg hs =>
    have hmono : ∀ f f', Function.Alike ρ f f' → Function.Alike σ f f' := fun _ _ h => h.mono hρ
    exact .accessor (rel_imp hmono hg) (rel_imp hmono hs)

theorem Container.Alike.mono {k k' : Container} (h : k.Alike ρ k') : k.Alike σ k' := by
  cases h with
  | mapping h => exact .mapping (h.imp fun _ _ h => h.mono hρ)
  | sequence h => exact .sequence (h.imp fun _ _ h => h.mono hρ)

end

end LiveDoc
