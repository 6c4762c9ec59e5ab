import LiveDoc.Proofs.Growth
import LiveDoc.Proofs.Nodes
import LiveDoc.Proofs.Pairing

namespace LiveDoc

/-- The slots of a container next to the nodes in the slots of a node. -/
inductive Container.Pairs (R : Yaml.Tree → Value → Prop) : Yaml.Tree → Container → Prop
  | sequence {ts : List Yaml.Tree} {items : Array Value} :
    List.Forall₂ R ts items.toList → Pairs R (.sequence ts) (.sequence items)
  | mapping {es : List (Yaml.Tree × Yaml.Tree)} {entries : Entries} :
    Slots.Rel R (Yaml.Tree.fields [] es) entries → Pairs R (.mapping es) (.mapping entries)

namespace Container.Pairs

variable {R S : Yaml.Tree → Value → Prop} {t : Yaml.Tree} {k : Container}

theorem imp (h : Pairs R t k) (hi : ∀ t v, R t v → S t v) : Pairs S t k := by
  cases h with
  | sequence h => exact .sequence (h.imp hi)
  | mapping h => exact .mapping (h.imp hi)

theorem values (h : Pairs R t k) : List.Forall₂ R t.nodes k.values := by
  cases h with
  | sequence h => exact h
  | mapping h => exact h.values

theorem exists_mem_zip (h : Pairs R t k) {w : Value} (hw : w ∈ k.values) :
    ∃ n, (n, w) ∈ t.nodes.zip k.values := by
  have hlen : k.values.length ≤ t.nodes.length := Nat.le_of_eq h.values.length_eq.symm
  rw [← List.map_snd_zip hlen, List.mem_map] at hw
  obtain ⟨⟨n, _⟩, hn, rfl⟩ := hw
  exact ⟨n, hn⟩

end Container.Pairs

namespace Load.Build

/-- The values of nodes that stand for themselves. -/
inductive Result (owner : Option Ref) (h : Heap) : Yaml.Tree → Value → Prop
  | branch {t : Yaml.Tree} : t.IsBranch → Result owner h t (.container ⟨h.size⟩)
  | function {s body : String} {params : List String} {f : Function} :
    Signal.detect s = .ok (some (.function params body)) → f.receiver = owner →
      f.params = params → f.source = body → Result owner h (.string s) (.function f)
  | data {t : Yaml.Tree} {v : Value} : ¬t.IsBranch → v.IsData → Result owner h t v

section

variable {c : Config} {document : String → Build Value}

theorem result_of_resolve {owner : Option Ref} {t : Yaml.Tree} {h h' : Heap} {v : Value}
    (ht : t.IsEnd) (hr : resolve c document owner t h = .ok (v, h')) : Result owner h t v := by
  match t with
  | .string s =>
    simp only [resolve] at hr
    rcases text_eq_ok.1 hr with ⟨hs, hr⟩ | ⟨params, body, hs, hr⟩ | ⟨path, hs, -⟩
    · cases hr
      exact .data nofun trivial
    · obtain ⟨program, -, rfl, -⟩ := function_eq_ok.1 hr
      exact .function hs rfl rfl rfl
    · exact absurd hs (ht path)
  | .sequence nodes =>
    obtain ⟨items, h₁, -, rfl, -⟩ := resolve_sequence_eq_ok.1 hr
    exact .branch .sequence
  | .mapping nodes =>
    obtain ⟨entries, h₁, -, rfl, -⟩ := resolve_mapping_eq_ok.1 hr
    exact .branch .mapping
  | .tagged _ node => exact ht.elim
  | .null | .bool _ | .int _ | .float _ =>
    simp only [resolve] at hr
    cases hr
    exact .data nofun trivial

def Filled (c : Config) (document : String → Build Value) (h : Heap) (d : Ref) (t : Yaml.Tree)
    (w : Value) : Prop :=
  ∃ name h₁ h₂ v, resolve c document (some d) t h₁ = .ok (v, h₂) ∧
    placed c h₂ d name t v = .ok w ∧ d.index < h₁.size ∧ Heap.Settled h₁ h₂ h

theorem Filled.mono {h h' : Heap} {d : Ref} {t : Yaml.Tree} {w : Value}
    (hf : Filled c document h d t w) (hh : h.Extends h') : Filled c document h' d t w := by
  obtain ⟨name, h₁, h₂, v, hr, hp, hd, hs⟩ := hf
  exact ⟨name, h₁, h₂, v, hr, hp, hd, hs.mono hh⟩

theorem Filled.set {h : Heap} {d : Ref} {t : Yaml.Tree} {w : Value}
    (hf : Filled c document h d t w) (k : Container) : Filled c document (h.set d k) d t w := by
  obtain ⟨name, h₁, h₂, v, hr, hp, hd, hs⟩ := hf
  exact ⟨name, h₁, h₂, v, hr, hp, hd, hs.set k hd⟩

theorem Filled.within {g h h' : Heap} {d : Ref} {t : Yaml.Tree} {w : Value}
    (hf : Filled c document h d t w) (hg : g.size ≤ d.index) (hs : Heap.Settled g h h') :
    Filled c document h' d t w := by
  obtain ⟨name, h₁, h₂, v, hr, hp, hd, hs'⟩ := hf
  exact ⟨name, h₁, h₂, v, hr, hp, hd, hs'.within (by omega) hs⟩

theorem filled_of_resolveItems (hd : ∀ q, Grows (document q)) {d : Ref} {index : Nat}
    {ts : List Yaml.Tree} {h h' : Heap} {ws : List Value} (hlt : d.index < h.size)
    (hr : resolveItems c document d index ts h = .ok (ws, h')) :
    List.Forall₂ (Filled c document h' d) ts ws := by
  induction ts generalizing index h ws with
  | nil =>
    cases hr
    exact .nil
  | cons t ts ih =>
    obtain ⟨v, h₁, w, ws, hv, hw, hws, rfl⟩ := resolveItems_cons_eq_ok.1 hr
    have hgrow := grows_resolve hd (some d) t hv
    have hf : Filled c document h₁ d t w := ⟨_, h, h₁, v, hv, hw, hlt, .refl h h₁⟩
    exact .cons (hf.mono (grows_resolveItems hd d (index + 1) ts hws))
      (ih (Nat.lt_of_lt_of_le hlt hgrow.size_le) hws)

theorem filled_of_resolveEntries (hd : ∀ q, Grows (document q)) {d : Ref}
    {es : List (Yaml.Tree × Yaml.Tree)} {nodes : Slots Yaml.Tree} {done out : Entries}
    {h h' : Heap} (hlt : d.index < h.size)
    (hr : resolveEntries c document d done es h = .ok (out, h'))
    (hdone : Slots.Rel (Filled c document h d) nodes done) :
    Slots.Rel (Filled c document h' d) (Yaml.Tree.fields nodes es) out := by
  induction es generalizing nodes done h with
  | nil =>
    cases hr
    exact hdone
  | cons e rest ih =>
    obtain ⟨key, t⟩ := e
    obtain ⟨name, v, h₁, w, hk, hv, hw, hr⟩ := resolveEntries_cons_eq_ok.1 hr
    have hgrow := grows_resolve hd (some d) t hv
    have hf : Filled c document h₁ d t w := ⟨_, h, h₁, v, hv, hw, hlt, .refl h h₁⟩
    rw [Yaml.Tree.fields, hk]
    exact ih (Nat.lt_of_lt_of_le hlt hgrow.size_le) hr
      ((hdone.imp fun _ _ hf => hf.mono hgrow).put name hf)

theorem key_eq_ok_of_resolveEntries {d : Ref} {es : List (Yaml.Tree × Yaml.Tree)}
    {done out : Entries} {h h' : Heap}
    (hr : resolveEntries c document d done es h = .ok (out, h')) :
    ∀ e ∈ es, ∃ name, e.1.key = .ok name := by
  induction es generalizing done h with
  | nil => nofun
  | cons e rest ih =>
    obtain ⟨name, v, h₁, w, hk, -, -, hr⟩ := resolveEntries_cons_eq_ok.1 hr
    exact List.forall_mem_cons.2 ⟨⟨name, hk⟩, ih hr⟩

/-- The container of a node has slots for its nodes. -/
theorem pairs_of_resolve (hd : ∀ q, Grows (document q)) {owner : Option Ref} {t : Yaml.Tree}
    {h h' : Heap} {v : Value} (ht : t.IsBranch)
    (hr : resolve c document owner t h = .ok (v, h')) :
    v = .container ⟨h.size⟩ ∧ ∃ k, h'.get? ⟨h.size⟩ = some k ∧
      k.Pairs (Filled c document h' ⟨h.size⟩) t := by
  have hlt (k : Container) : h.size < (h.alloc k).2.size := by
    rw [Heap.size_alloc]
    exact Nat.lt_succ_self _
  cases ht with
  | sequence =>
    obtain ⟨items, h₁, hi, rfl, rfl⟩ := resolve_sequence_eq_ok.1 hr
    have hgrow := grows_resolveItems hd _ _ _ hi
    refine ⟨rfl, _, h₁.get?_set_self _ _ (Nat.lt_of_lt_of_le (hlt _) hgrow.size_le), .sequence ?_⟩
    exact (filled_of_resolveItems hd (hlt _) hi).imp fun _ _ hf => hf.set _
  | mapping =>
    obtain ⟨entries, h₁, he, rfl, rfl⟩ := resolve_mapping_eq_ok.1 hr
    have hgrow := grows_resolveEntries hd _ _ _ he
    refine ⟨rfl, _, h₁.get?_set_self _ _ (Nat.lt_of_lt_of_le (hlt _) hgrow.size_le), .mapping ?_⟩
    exact (filled_of_resolveEntries hd (hlt _) he .nil).imp fun _ _ hf => hf.set _

theorem entries_of_resolve (hd : ∀ q, Grows (document q)) {owner : Option Ref}
    {es : List (Yaml.Tree × Yaml.Tree)} {h h' : Heap} {v : Value}
    (hr : resolve c document owner (.mapping es) h = .ok (v, h')) :
    ∃ r entries, v = .container r ∧ h'.entries? r = some entries ∧
      entries.keys = (Yaml.Tree.fields [] es).keys := by
  obtain ⟨hv, k, hk, hp⟩ := pairs_of_resolve hd .mapping hr
  cases hp with
  | mapping hp => exact ⟨_, _, hv, by rw [Heap.entries?, hk], hp.keys.symm⟩

/-- What becomes of a value that is put into a slot. -/
inductive Outcome (c : Config) (h : Heap) (d : Ref) (t : Yaml.Tree) (v : Value) : Value → Prop
  | kept : (∀ es r entries, t = .mapping es → v = .container r → h.entries? r = some entries →
      c.isAccessorKeySet entries.keys = false) → Outcome c h d t v v
  | accessor {es : List (Yaml.Tree × Yaml.Tree)} {r : Ref} {entries : Entries} {a : Accessor} :
    t = .mapping es → v = .container r → h.entries? r = some entries →
      c.isAccessorKeySet entries.keys = true →
      (∀ f, a.getter = some f ∨ a.setter = some f → f.receiver = some d) →
      Outcome c h d t v (.accessor a)

theorem receiver_of_half {d : Ref} {name key : String} {entries : Entries} {o : Option Function}
    (ho : half d name entries key = .ok o) {f : Function} (hf : o = some f) :
    f.receiver = some d := by
  rw [half] at ho
  split at ho <;> cases ho <;> cases hf
  rfl

theorem outcome_of_placed {h : Heap} {d : Ref} {name : String} {t : Yaml.Tree} {v w : Value}
    (hp : placed c h d name t v = .ok w) : Outcome c h d t v w := by
  have hother (hne : ∀ es r, ¬(t = .mapping es ∧ v = .container r)) : Outcome c h d t v v :=
    .kept fun es r _ ht hv _ => absurd ⟨ht, hv⟩ (hne es r)
  cases t with
  | mapping es =>
    cases v with
    | container r =>
      rw [placed] at hp
      cases he : h.entries? r with
      | none =>
        simp only [he] at hp
        cases hp
        refine .kept fun _ q entries _ hv he' => ?_
        cases hv
        rw [he] at he'
        cases he'
      | some entries =>
        simp only [he] at hp
        split at hp
        next hk =>
          obtain ⟨getter, setter, hg, hs, rfl⟩ := accessor_eq_ok.1 hp
          refine .accessor rfl rfl he hk fun f hf => ?_
          exact hf.elim (receiver_of_half hg) (receiver_of_half hs)
        next hk =>
          cases hp
          refine .kept fun _ q entries' _ hv he' => ?_
          cases hv
          cases he.symm.trans he'
          simpa using hk
    | _ =>
      cases hp
      exact hother fun _ _ h => by cases h.2
  | _ =>
    cases hp
    exact hother fun _ _ h => by cases h.1

end

end Load.Build

end LiveDoc
