import LiveDoc.Proofs.Building
import Mathlib.Logic.Relation

namespace LiveDoc

namespace Yaml.Tree

mutual

def inclusions : Tree → List String
  | .string s =>
    match Signal.detect s with
    | .ok (some (.inclusion path)) => [path]
    | _ => []
  | .sequence nodes => inclusionsOfItems nodes
  | .mapping entries => inclusionsOfEntries entries
  | .tagged _ node => inclusions node
  | _ => []
termination_by structural t => t

def inclusionsOfItems : List Tree → List String
  | [] => []
  | node :: nodes => inclusions node ++ inclusionsOfItems nodes
termination_by structural nodes => nodes

def inclusionsOfEntries : List (Tree × Tree) → List String
  | [] => []
  | (_, node) :: rest => inclusions node ++ inclusionsOfEntries rest
termination_by structural entries => entries

end

theorem key_eq_error {t : Tree} {e : LoadError} (h : t.key = .error e) :
    ∃ key, e = .unsupportedKey key := by
  match t with
  | .tagged _ t => exact key_eq_error (t := t) h
  | .sequence _ | .mapping _ =>
    cases h
    exact ⟨_, rfl⟩
  | .null | .bool _ | .int _ | .float _ | .string _ => cases h

end Yaml.Tree

namespace Load

namespace Build

section

variable {c : Config} {document : String → Build Value}

mutual

/-- In a tree that has a value, all included documents have one. -/
theorem ok_of_resolve (t : Yaml.Tree) {owner : Option Ref} {h : Heap} {r : Value × Heap}
    (hr : resolve c document owner t h = .ok r) {q : String} (hq : q ∈ t.inclusions) :
    ∃ g s, document q g = .ok s := by
  match t with
  | .string s =>
    simp only [resolve] at hr
    rcases text_eq_ok.1 hr with ⟨hs, -⟩ | ⟨params, body, hs, -⟩ | ⟨path, hs, hr⟩ <;>
      simp only [Yaml.Tree.inclusions, hs] at hq
    · cases hq
    · cases hq
    · cases List.mem_singleton.1 hq
      exact ⟨h, r, hr⟩
  | .sequence nodes =>
    obtain ⟨items, h₁, hi, -⟩ := resolve_sequence_eq_ok.1 hr
    exact ok_of_resolveItems nodes hi hq
  | .mapping nodes =>
    obtain ⟨entries, h₁, he, -⟩ := resolve_mapping_eq_ok.1 hr
    exact ok_of_resolveEntries nodes he hq
  | .tagged _ node =>
    simp only [resolve] at hr
    exact ok_of_resolve node hr hq
  | .null | .bool _ | .int _ | .float _ => cases hq

theorem ok_of_resolveItems (ts : List Yaml.Tree) {owner : Ref} {index : Nat} {h : Heap}
    {r : List Value × Heap} (hr : resolveItems c document owner index ts h = .ok r) {q : String}
    (hq : q ∈ Yaml.Tree.inclusionsOfItems ts) : ∃ g s, document q g = .ok s := by
  match ts with
  | [] => cases hq
  | t :: ts =>
    obtain ⟨v, h₁, w, ws, hv, -, hws, -⟩ := resolveItems_cons_eq_ok.1 hr
    rcases List.mem_append.1 hq with hq | hq
    · exact ok_of_resolve t hv hq
    · exact ok_of_resolveItems ts hws hq

theorem ok_of_resolveEntries (es : List (Yaml.Tree × Yaml.Tree)) {owner : Ref} {done : Entries}
    {h : Heap} {r : Entries × Heap} (hr : resolveEntries c document owner done es h = .ok r)
    {q : String} (hq : q ∈ Yaml.Tree.inclusionsOfEntries es) : ∃ g s, document q g = .ok s := by
  match es with
  | [] => cases hq
  | (key, t) :: rest =>
    obtain ⟨name, v, h₁, w, -, hv, -, hr⟩ := resolveEntries_cons_eq_ok.1 hr
    rcases List.mem_append.1 hq with hq | hq
    · exact ok_of_resolve t hv hq
    · exact ok_of_resolveEntries rest hr hq

end

theorem ne_cycle_of_key {t : Yaml.Tree} {e : LoadError} (h : t.key = .error e) :
    ∀ chain, e ≠ .cycle chain := by
  obtain ⟨key, rfl⟩ := Yaml.Tree.key_eq_error h
  exact fun _ he => by cases he

theorem ne_cycle_of_half {owner : Ref} {name key : String} {entries : Entries} {e : LoadError}
    (h : half owner name entries key = .error e) : ∀ chain, e ≠ .cycle chain := by
  rw [half] at h
  split at h
  · cases h
  · cases h
  · cases h
    exact fun _ he => by cases he

theorem ne_cycle_of_placed {h : Heap} {owner : Ref} {name : String} {node : Yaml.Tree} {v : Value}
    {e : LoadError} (he : placed c h owner name node v = .error e) :
    ∀ chain, e ≠ .cycle chain := by
  cases node with
  | mapping =>
    cases v with
    | container r =>
      rw [placed] at he
      cases hr : h.entries? r with
      | none =>
        simp only [hr] at he
        cases he
      | some entries =>
        simp only [hr] at he
        split at he
        · obtain ⟨key, he⟩ := accessor_eq_error he
          exact ne_cycle_of_half he
        · cases he
    | _ => cases he
  | _ => cases he

/-- A property that the builds of trees have if their steps have it. -/
structure Closed (P : ∀ {α : Type}, Build α → Prop) : Prop where
  pure : ∀ {α : Type} (a : α), P (pure a)
  bind : ∀ {α β : Type} {m : Build α} {f : α → Build β}, P m → (∀ a, P (f a)) → P (m >>= f)
  lift : ∀ {α : Type} {x : Except LoadError α},
    (∀ e, x = .error e → ∀ chain, e ≠ .cycle chain) → P (liftM x)
  function : ∀ owner params source, P (function owner params source)
  place : ∀ c d name t v, P (place c d name t v)
  container : ∀ {α : Type} (k : Container) {m : Ref → Build α} (f : α → Container),
    (∀ r, P (m r)) → P (do
      let r ← alloc k
      let a ← m r
      fill r (f a)
      return Value.container r)

section

variable {P : ∀ {α : Type}, Build α → Prop}

theorem Closed.throw (hp : Closed P) {e : LoadError} (he : ∀ chain, e ≠ .cycle chain) :
    P (throw e : Build α) := by
  have hlift : P (liftM (.error e : Except LoadError α) : Build α) := by
    apply hp.lift
    intro e' he'
    cases he'
    exact he
  exact hlift

theorem Closed.text (hp : Closed P) (owner : Option Ref) (s : String)
    (hd : ∀ path, Signal.detect s = .ok (some (.inclusion path)) → P (document path)) :
    P (text document owner s) := by
  rw [Build.text]
  cases hs : Signal.detect s with
  | error kind => cases kind <;> exact hp.throw fun _ he => by cases he
  | ok signal =>
    rcases signal with _ | ⟨params, body⟩ | path
    · exact hp.pure _
    · exact hp.function owner params body
    · exact hd path hs

mutual

theorem Closed.resolve (hp : Closed P) (t : Yaml.Tree) (owner : Option Ref)
    (hd : ∀ q ∈ t.inclusions, P (document q)) : P (resolve c document owner t) := by
  match t with
  | .string s =>
    simp only [Build.resolve]
    exact hp.text owner s fun path hs => hd path (by simp [Yaml.Tree.inclusions, hs])
  | .sequence nodes =>
    simp only [Build.resolve]
    exact hp.container _ _ fun r => Closed.resolveItems hp nodes r 0 hd
  | .mapping nodes =>
    simp only [Build.resolve]
    exact hp.container _ _ fun r => Closed.resolveEntries hp nodes r [] hd
  | .tagged _ node =>
    simp only [Build.resolve]
    exact Closed.resolve hp node owner hd
  | .null | .bool _ | .int _ | .float _ =>
    simp only [Build.resolve]
    exact hp.pure _

theorem Closed.resolveItems (hp : Closed P) (ts : List Yaml.Tree) (owner : Ref) (index : Nat)
    (hd : ∀ q ∈ Yaml.Tree.inclusionsOfItems ts, P (document q)) :
    P (resolveItems c document owner index ts) := by
  match ts with
  | [] => exact hp.pure _
  | t :: ts =>
    simp only [Build.resolveItems]
    have ht := fun q hq => hd q (List.mem_append_left _ hq)
    have hts := fun q hq => hd q (List.mem_append_right _ hq)
    apply hp.bind (Closed.resolve hp t (some owner) ht)
    intro v
    apply hp.bind (hp.place c owner (toString index) t v)
    intro w
    apply hp.bind (Closed.resolveItems hp ts owner (index + 1) hts)
    intro ws
    exact hp.pure _

theorem Closed.resolveEntries (hp : Closed P) (es : List (Yaml.Tree × Yaml.Tree)) (owner : Ref)
    (done : Entries) (hd : ∀ q ∈ Yaml.Tree.inclusionsOfEntries es, P (document q)) :
    P (resolveEntries c document owner done es) := by
  match es with
  | [] => exact hp.pure _
  | (key, t) :: rest =>
    simp only [Build.resolveEntries]
    have ht := fun q hq => hd q (List.mem_append_left _ hq)
    have hrest := fun q hq => hd q (List.mem_append_right _ hq)
    apply hp.bind (hp.lift fun e he => ne_cycle_of_key he)
    intro name
    apply hp.bind (Closed.resolve hp t (some owner) ht)
    intro v
    apply hp.bind (hp.place c owner name t v)
    intro w
    exact Closed.resolveEntries hp rest owner (done.put name w) hrest

end

end

/-- A failure that comes from an included document, or that is no cycle. -/
def Blamed (document : String → Build Value) (paths : List String) (e : LoadError) : Prop :=
  (∀ chain, e ≠ .cycle chain) ∨ ∃ q ∈ paths, ∃ g, document q g = .error e

theorem closed_blamed (document : String → Build Value) (paths : List String) :
    Closed fun m => ∀ {h e}, m h = .error e → Blamed document paths e where
  pure _ _ _ he := by cases he
  bind hm hf _ _ he := by
    rcases bind_eq_error.1 he with he | ⟨a, h', -, he⟩
    · exact hm he
    · exact hf a he
  lift hx _ _ he := .inl (hx _ (liftM_eq_error.1 he))
  function owner params source h e he := by
    rw [function] at he
    split at he
    · cases he
      exact .inl fun _ he => by cases he
    · cases he
  place _ _ _ _ _ _ _ he := .inl (ne_cycle_of_placed (place_eq_error.1 he))
  container k m f hm h e he := by
    rcases bind_eq_error.1 he with he | ⟨r, h₁, -, he⟩
    · cases he
    · rcases bind_eq_error.1 he with he | ⟨a, h₂, -, he⟩
      · exact hm r he
      · cases he

/-- If a tree has no value because of a cycle, that comes from a document that it includes. -/
theorem blamed_of_resolve (t : Yaml.Tree) {owner : Option Ref} {h : Heap} {e : LoadError}
    (he : resolve c document owner t h = .error e) : Blamed document t.inclusions e := by
  apply (closed_blamed document t.inclusions).resolve t owner ?_ he
  intro q hq h e he
  exact .inr ⟨q, hq, h, he⟩

end

end Build

namespace Loader

variable {l : Loader}

def content (l : Loader) (path : String) : Except LoadError Yaml.Tree :=
  match l.files.read path with
  | .ok text => l.tree text
  | .error e => .error e

theorem exists_read_of_content {p : String} {t : Yaml.Tree} (ht : l.content p = .ok t) :
    ∃ text, l.files.read p = .ok text := by
  rw [content] at ht
  split at ht
  next text hr => exact ⟨text, hr⟩
  next => cases ht

/-- Induction over the documents inside of a document. -/
theorem document_induction {motive : List Identity → String → Prop}
    (step : ∀ stack p, ((l.files.identity p).isOn stack = false → ∀ t, l.content p = .ok t →
      ∀ q, motive (stack ++ [l.files.identity p]) q) → motive stack p)
    (stack : List Identity) (p : String) : motive stack p := by
  induction hn : (l.left stack).length using Nat.strongRecOn generalizing stack p with
  | ind n ih =>
    apply step
    intro hoff t ht q
    obtain ⟨text, hread⟩ := exists_read_of_content ht
    have hleft := l.length_left_append_lt (Bool.eq_false_iff.1 hoff) hread
    exact ih _ (hn ▸ hleft) _ q rfl

theorem tree_ne_cycle {text : String} {chain : List String} :
    l.tree text ≠ .error (.cycle chain) := by
  rw [tree, Reader.tree]
  cases l.reader (l.patterns.expandText text) <;> intro he <;> cases he

theorem content_ne_cycle (hread : ∀ path chain, l.files.read path ≠ .error (.cycle chain))
    {p : String} {chain : List String} : l.content p ≠ .error (.cycle chain) := by
  rw [content]
  split
  · exact tree_ne_cycle
  next e hr =>
    intro he
    cases he
    exact hread p chain hr

theorem document_apply (l : Loader) (stack : List Identity) (p : String) (h : Heap) :
    l.document stack p h =
      if (l.files.identity p).isOn stack then
        .error (.cycle ((stack ++ [l.files.identity p]).map Identity.shown))
      else
        match l.content p with
        | .ok t =>
          Build.resolve l.config (l.document (stack ++ [l.files.identity p])) none t h
        | .error e => .error e := by
  rw [document]
  split
  · rfl
  · rw [content]
    cases hr : l.files.read p with
    | error e => rfl
    | ok s =>
      simp only
      rw [Build.bind_apply, Build.liftM_apply]
      cases l.tree s <;> rfl

theorem document_eq_ok {stack : List Identity} {p : String} {h : Heap} {r : Value × Heap} :
    l.document stack p h = .ok r ↔ (l.files.identity p).isOn stack = false ∧
      ∃ t, l.content p = .ok t ∧
        Build.resolve l.config (l.document (stack ++ [l.files.identity p])) none t h = .ok r := by
  rw [document_apply]
  cases (l.files.identity p).isOn stack <;> cases l.content p <;> simp

theorem document_eq_error {stack : List Identity} {p : String} {h : Heap} {e : LoadError} :
    l.document stack p h = .error e ↔
      ((l.files.identity p).isOn stack = true ∧
        e = .cycle ((stack ++ [l.files.identity p]).map Identity.shown)) ∨
      ((l.files.identity p).isOn stack = false ∧
        (l.content p = .error e ∨ ∃ t, l.content p = .ok t ∧
          Build.resolve l.config (l.document (stack ++ [l.files.identity p])) none t h =
            .error e)) := by
  rw [document_apply]
  cases (l.files.identity p).isOn stack <;> cases l.content p <;> simp [eq_comm]

end Loader

end Load

end LiveDoc
